import BackupFs.Versions.Shows

namespace BackupFs

namespace Versions

section
variable {L : Lower} {J : Junk} {f : File} {d : Disk} {a : Shelf} {k : Slot}

theorem shows_counter (hL : L.Grants) (h : Shows f d a) : counter L J f d = a.number J := by
  rw [counter_reads hL.getxattr,h.revision]
  rfl

theorem shows_stamp (hL : L.Grants) (h : Shows f d a) (v : Int) :
    Shows f (stamp L f v d) (a.on (a.stamp v)) := by
  have hs := shows_setInode h { d.inodes f.ino with revision := some v, youngest := some v }
  rw [h.current] at hs
  rw [stamp_sets hL.setxattr]
  exact hs

theorem shows_discard (hL : L.Grants) (h : Shows f d a) (k : Slot) :
    (discard L (k.name f.name) d).1 = (a.discard k).1 ∧
      Shows f (discard L (k.name f.name) d).2 (a.discard k).2 := by
  unfold discard Shelf.discard
  rw [h.hashed k]
  cases a.hashed k with
  | false => exact ⟨rfl,h⟩
  | true =>
    rw [if_pos rfl,if_pos rfl]
    cases hd : d.dir (k.name f.name) with
    | none =>
      rw [removed_missing hd,h.entry_none.mp hd]
      exact ⟨rfl,h⟩
    | some i =>
      rw [removed_present hd,refusal_grants hL,if_pos (hL.unlink _),h.entry_some hd]
      exact ⟨rfl,shows_unlink h k⟩

theorem shows_sweep (hL : L.Grants) (h : Shows f d a) (n : ℕ) (err : Int) :
    (discardLoop L f.name n err d).1 = (Shelf.sweep n err a).1 ∧
      Shows f (discardLoop L f.name n err d).2 (Shelf.sweep n err a).2 := by
  induction n generalizing err d a with
  | zero => exact ⟨rfl,h⟩
  | succ n ih =>
    have hd := shows_discard hL h (.version (n + 1 : ℕ))
    change (discard L (backupName (n + 1 : ℕ) f.name) d).1 = _ ∧ _ at hd
    rw [discardLoop,Shelf.sweep]
    change _ ∧ Shows f (discard L (backupName (n + 1 : ℕ) f.name) d).2 _ at hd
    generalize discard L _ d = out at hd ⊢
    generalize a.discard _ = out' at hd ⊢
    obtain ⟨e,d'⟩ := out
    obtain ⟨e',a'⟩ := out'
    obtain ⟨rfl,hd⟩ := hd
    cases e with
    | none => exact ih hd err
    | some e =>
      dsimp only
      split_ifs
      · exact ⟨rfl,hd⟩
      · exact ih hd e

theorem lookedUp_free {x : Name} (hx : slash ∉ x) (h : d.dir x = none) :
    lookedUp x d = d.hash x := by
  rw [lookedUp,Disk.pathIno_of_slash d hx,h]

theorem shows_lookedUp (h : Shows f d a) (hk : k ≠ .own) :
    Shows f (lookedUp (k.name f.name) d) (a.hash k true) := by
  rw [lookedUp,Disk.pathIno_of_slash d slash_notMem_name]
  cases d.dir (k.name f.name) with
  | none => exact shows_hash h k
  | some i =>
    dsimp only
    rw [if_neg slash_notMem_name]
    exact shows_interpose (shows_hash h k) hk i

theorem begun_free {x : Name} (hx : slash ∉ x) (h : d.dir x = none) :
    begun x d = (d.hash x).created x := by rw [begun,lookedUp_free hx h]

theorem begun_cached (h : Shows f d a) (hx : a.entry k = none) (l : Slot) :
    (begun (k.name f.name) d).cached (l.name f.name) = Function.update a.hashed k true l := by
  rw [begun_free slash_notMem_name (h.entry_none.mpr hx),Disk.created_cached,update_name,
    Disk.hash_cached]
  rcases eq_or_ne l k with rfl | hne
  · rw [Function.update_self,Function.update_self]
  · rw [Function.update_of_ne hne,Function.update_of_ne hne,update_name,Function.update_of_ne hne]
    exact h.hashed l

theorem shows_begun (h : Shows f d a) (hk : k ≠ .own) (hx : a.entry k = none) :
    Shows f (begun (k.name f.name) d) (a.link k (some (.copy []))) := by
  have hd := h.entry_none.mpr hx
  have hb := begun_free slash_notMem_name hd
  refine shows_new (m := {}) h hk ?_ ?_ ?_ (begun_cached h hx) ?_ <;> rw [hb] <;> rfl

theorem shows_snapshot (hL : L.Grants) (h : Shows f d a) (hk : k ≠ .own) (hx : a.entry k = none)
    {i : Ino} (hi : i < d.nextIno) : Shows f (snapshot L i (k.name f.name) d)
      (a.link k (some (.copy (d.inodes i).content))) := by
  have hb := begun_free slash_notMem_name (h.entry_none.mpr hx)
  refine shows_new (m := { content := (d.inodes i).content }) h hk ?_
    (snapshot_granted hL (Nat.ne_of_lt hi)) ?_ (fun l => ?_) ?_
  · rw [snapshot,copyFile,hb]
    rfl
  · rw [snapshot,copyFile,hb]
    rfl
  · exact begun_cached h hx l
  · rw [snapshot,copyFile,hb]
    rfl

section createThen
variable (rest : Disk → Outcome × Disk)

theorem createThen_free (hL : L.Grants) (h : Shows f d a) (hx : a.entry k = none) :
    createThen L (k.name f.name) rest d = rest (begun (k.name f.name) d) :=
  createThen_begins (begins_granted hL slash_notMem_name (h.entry_none.mpr hx))

theorem createThen_taken (hL : L.Grants) (h : Shows f d a) {n : Node} (hx : a.entry k = some n) :
    createThen L (k.name f.name) rest d =
      (.returned (-EEXIST),lookedUp (k.name f.name) d) := by
  have hd : d.dir (k.name f.name) ≠ none := fun hd => by
    rw [h.entry_none.mp hd] at hx
    cases hx
  have hl : (d.lowerIno (k.name f.name)).isSome = true := by
    rw [Disk.lowerIno_of_slash d slash_notMem_name]
    exact Option.isSome_iff_ne_none.mpr hd
  simp [createThen,hL.dAlloc,hL.lookup,hl]

end createThen

theorem vfsWrite_takes (hL : L.Grants) (i : Ino) (pos : ℕ) (buf : Bytes) (d : Disk) :
    vfsWrite L i pos buf d = (((taken L buf).length : Int),d.setInode i { d.inodes i with
      content := pwrite (d.inodes i).content pos (taken L buf) }) := by
  have hw := hL.write buf.length
  rw [vfsWrite,if_neg (by omega),taken,List.length_take]
  simp

theorem shows_put (hL : L.Grants) (h : Shows f d a) (pos : ℕ) (buf : Bytes) :
    (put L f.ino pos buf d).1 = .returned (taken L buf).length ∧
      Shows f (put L f.ino pos buf d).2 (a.on (a.fill (pwrite a.current pos (taken L buf)))) := by
  have hs := shows_setInode h { d.inodes f.ino with
    content := pwrite (d.inodes f.ino).content pos (taken L buf) }
  rw [h.revision,h.youngest,h.current] at hs
  rw [put,vfsWrite_takes hL]
  refine ⟨rfl,?_⟩
  rw [h.current]
  exact hs

theorem shows_pruned (hL : L.Grants) (h : Shows f d a) (val : Int) :
    (if val > N then (discard L (backupName (val - N) f.name) d).1.getD 0 else 0) =
        (a.pruned val).1 ∧
      Shows f (if val > N then (discard L (backupName (val - N) f.name) d).2 else d)
        (a.pruned val).2 := by
  unfold Shelf.pruned
  split_ifs
  · obtain ⟨h1,h2⟩ := shows_discard hL h (.version (val - N))
    exact ⟨congrArg (fun e : Option Int => e.getD 0) h1,h2⟩
  · exact ⟨rfl,h⟩

theorem shows_retained (hL : L.Grants) (h : Shows f d a) :
    (retained L J f d).1 =
        ((a.on (a.stamp (nextVersion (a.number J)))).pruned (nextVersion (a.number J))).1 ∧
      Shows f (retained L J f d).2
        ((a.on (a.stamp (nextVersion (a.number J)))).pruned (nextVersion (a.number J))).2 := by
  obtain ⟨h1,h2⟩ := shows_pruned hL (shows_stamp hL h (nextVersion (a.number J)))
    (nextVersion (a.number J))
  unfold retained
  rw [shows_counter hL h]
  dsimp only
  split_ifs at h1 h2 ⊢
  · exact ⟨h1,h2⟩
  · exact ⟨h1,h2⟩

theorem shows_write (hL : L.Grants) {s : Sys} (h : Shows f s.disk a) (J : Junk) (pos : ℕ)
    (buf : Bytes) : (bkpfsWrite L J f pos buf s).1 = (a.write J L pos buf).1 ∧
      Shows f (bkpfsWrite L J f pos buf s).2.disk (a.write J L pos buf).2 := by
  have he := writeRun_effect (bkpfsWrite_run L J f pos buf s)
  rw [writeEffect_retained] at he
  obtain ⟨h1,h2⟩ := shows_retained (J := J) hL h
  have hnew : newName L J f s.disk = (Slot.version (nextVersion (a.number J))).name f.name := by
    rw [newName,shows_counter hL h]
    rfl
  rw [hnew,h1] at he
  unfold Shelf.write
  dsimp only
  generalize (a.on (a.stamp (nextVersion (a.number J)))).pruned (nextVersion (a.number J)) = p
    at h1 h2 he ⊢
  split_ifs at he ⊢ with hp
  · obtain ⟨ho,hd⟩ := Prod.mk.inj he
    rw [← ho,← hd]
    exact ⟨rfl,h2⟩
  · cases hx : p.2.entry (.version (nextVersion (a.number J))) with
    | some n =>
      rw [createThen_taken _ hL h2 hx] at he
      obtain ⟨ho,hd⟩ := Prod.mk.inj he
      rw [← ho,← hd]
      exact ⟨rfl,shows_lookedUp h2 (by simp)⟩
    | none =>
      rw [createThen_free _ hL h2 hx,writeTail,hL.openSrc,hL.openDest] at he
      dsimp only at he
      rw [snapshot_copied] at he
      have hs :=
        shows_snapshot hL h2 (k := .version (nextVersion (a.number J))) (by simp) hx h2.base
      rw [h2.current] at hs
      obtain ⟨h3,h4⟩ := shows_put hL hs pos buf
      rw [he] at h3 h4
      exact ⟨h3,h4⟩

end

section
variable {L : Lower} {J : Junk} {f : File} {d : Disk} {a : Shelf} {q : Request}

theorem shows_deletedOne (hL : L.Grants) (h : Shows f d a) (hq : q.file = f.name) :
    (deletedOne L J f q d).1 = (a.delete J q.version).1 ∧
      Shows f (deletedOne L J f q d).2 (a.delete J q.version).2 := by
  have hd := shows_discard hL h (.version q.version)
  change (discard L (backupName q.version f.name) d).1 = _ ∧
    Shows f (discard L (backupName q.version f.name) d).2 _ at hd
  rw [deletedOne,Shelf.delete,hq]
  generalize discard L _ d = out at hd ⊢
  generalize a.discard _ = out' at hd ⊢
  obtain ⟨e,d'⟩ := out
  obtain ⟨e',a'⟩ := out'
  obtain ⟨rfl,hd⟩ := hd
  cases e with
  | none => exact ⟨rfl,hd⟩
  | some err =>
    have hy : vfsGetxattr L f.ino .youngest J.val d' = a'.youngest.getD J.val := by
      rw [vfsGetxattr_reads hL.getxattr,← hd.youngest]
      rfl
    dsimp only
    rw [hy]
    split_ifs with _ hv
    · exact ⟨rfl,hd⟩
    · refine ⟨rfl,?_⟩
      rw [← hv]
      exact shows_stamp hL hd (wrapInt (q.version - 1))
    · exact ⟨rfl,hd⟩

theorem shows_deletedAll (hL : L.Grants) (h : Shows f d a) (hq : q.file = f.name) :
    (deletedAll L J f q d).1 = (a.deleteAll J).1 ∧
      Shows f (deletedAll L J f q d).2 (a.deleteAll J).2 := by
  have hs := shows_sweep hL h (a.number J).toNat (-ENOTTY)
  rw [deletedAll,Shelf.deleteAll,hq,shows_counter hL h]
  generalize discardLoop L _ _ _ d = out at hs ⊢
  generalize Shelf.sweep _ _ a = out' at hs ⊢
  obtain ⟨e,d'⟩ := out
  obtain ⟨e',a'⟩ := out'
  obtain ⟨rfl,hs⟩ := hs
  cases e with
  | error err => exact ⟨rfl,hs⟩
  | ok err =>
    have hr := shows_setInode hs { d'.inodes f.ino with revision := some (-1) }
    rw [hs.youngest,hs.current] at hr
    refine ⟨rfl,?_⟩
    dsimp only
    rw [vfsSetxattr,hL.setxattr]
    exact hr

theorem shows_cleanup (hL : L.Grants) (h : Shows f d a) (hq : q.file = f.name) :
    (loopResult (cleanup L J f q d)).1 = .returned (a.swept J).1 ∧
      Shows f (loopResult (cleanup L J f q d)).2 (a.swept J).2 := by
  have hs := shows_sweep hL h (a.number J).toNat 0
  rw [cleanup,Shelf.swept,hq,shows_counter hL h]
  generalize discardLoop L _ _ _ d = out at hs ⊢
  generalize Shelf.sweep _ _ a = out' at hs ⊢
  obtain ⟨e,d'⟩ := out
  obtain ⟨e',a'⟩ := out'
  obtain ⟨rfl,hs⟩ := hs
  cases e <;> exact ⟨rfl,hs⟩

theorem copied_hash (L : Lower) (i : Ino) (x y : Name) (d : Disk) :
    copied L i x (d.hash y) = (copied L i x d).hash y := by
  unfold copied
  rw [Disk.hash_dir]
  cases d.dir x <;> rfl

theorem pathLookup_some {x : Name} {i : Ino} (hx : slash ∉ x) (hd : d.dir x = some i) :
    vfsPathLookup none x d = (.ok i,d.hash x) := by
  rw [vfsPathLookup,Disk.pathIno_of_slash d hx,hd,if_neg hx]

theorem pathLookup_none {x : Name} (hx : slash ∉ x) (hd : d.dir x = none) :
    vfsPathLookup none x d = (.error (-ENOENT),d.hash x) := by
  rw [vfsPathLookup,Disk.pathIno_of_slash d hx,hd,if_neg hx]

theorem shows_restoreTail (hL : L.Grants) (h : Shows f d a) (hq : q.file = f.name)
    (hx : a.entry .restored = none) :
    let out := restoreTail L J f q (begun (restoredName f.name) d)
    (∃ n, a.entry (.version q.version) = some n ∧
      out.1 = .returned (((a.link .restored (some (.copy (a.read n)))).hash
        (.version q.version) true).swept J).1 ∧
      Shows f out.2 (((a.link .restored (some (.copy (a.read n)))).hash
        (.version q.version) true).swept J).2) ∨
    a.entry (.version q.version) = none ∧ out.1 = .returned (-ENOENT) ∧
      Shows f out.2 ((a.link .restored (some (.copy []))).hash (.version q.version) true) := by
  have hne : backupName q.version f.name ≠ restoredName f.name :=
    (restoredName_ne_backupName f.name q.version f.name).symm
  have hslash : slash ∉ backupName q.version f.name :=
    slash_notMem_name (f := f) (k := .version q.version)
  have hdir : (begun (restoredName f.name) d).dir (backupName q.version f.name) =
      d.dir (backupName q.version f.name) := by
    rw [begun,Disk.created_dir,Function.update_of_ne hne,lookedUp_dir]
  rw [restoreTail,hL.pathLookup,hq]
  cases hv : d.dir (backupName q.version f.name) with
  | none =>
    rw [pathLookup_none hslash (hdir.trans hv)]
    refine .inr ⟨(h.entry_none (k := .version q.version)).mp hv,rfl,?_⟩
    exact shows_hash (shows_begun h (k := .restored) (by simp) hx) (.version q.version)
  | some i =>
    refine .inl ⟨node f d i,h.entry_some (k := .version q.version) hv,?_⟩
    rw [pathLookup_some hslash (hdir.trans hv),restoreFrom,hL.openSrc,hL.openDest]
    dsimp only
    rw [hq,copied_hash,snapshot_copied,h.read_node]
    have hs := shows_snapshot hL h (k := .restored) (by simp) hx (h.allocated _ i hv)
    exact shows_cleanup hL (shows_hash hs (.version q.version)) hq

theorem shows_restore (hL : L.Grants) {s : Sys} (h : Shows f s.disk a) (hq : q.file = f.name) :
    (restore L J f q s).1 = .returned (a.restore J q.version).1 ∧
      Shows f (restore L J f q s).2.disk (a.restore J q.version).2 := by
  have he := restoreRun_effect (restore_run L J f q s)
  obtain ⟨h1,h2⟩ := shows_discard hL h .own
  change (discard L f.name s.disk).1 = _ at h1
  change Shows f (discard L f.name s.disk).2 _ at h2
  rw [restoreEffect,discardThen,hq,h1] at he
  unfold Shelf.restore Shelf.refill
  generalize a.discard .own = p at h1 h2 he ⊢
  split_ifs at he ⊢ with hp
  · obtain ⟨ho,hd⟩ := Prod.mk.inj he
    rw [← ho,← hd]
    exact ⟨rfl,h2⟩
  · cases hx : p.2.entry .restored with
    | some n =>
      have ht := createThen_taken (restoreTail L J f q) hL h2 (k := .restored) hx
      change createThen L (restoredName f.name) _ _ = _ at ht
      rw [ht] at he
      obtain ⟨ho,hd⟩ := Prod.mk.inj he
      rw [← ho,← hd]
      exact ⟨rfl,shows_lookedUp h2 (k := .restored) (by simp)⟩
    | none =>
      have ht := createThen_free (restoreTail L J f q) hL h2 (k := .restored) hx
      change createThen L (restoredName f.name) _ _ = _ at ht
      rw [ht] at he
      have hr := shows_restoreTail (J := J) hL h2 hq hx
      change restoreTail L J f q (begun (restoredName f.name) _) = _ at he
      rw [he] at hr
      rcases hr with ⟨n,hv,ho,hs⟩ | ⟨hv,ho,hs⟩
      · rw [hv]
        exact ⟨ho,hs⟩
      · rw [hv]
        exact ⟨ho,hs⟩

theorem shows_view (hL : L.Grants) {s : Sys} (h : Shows f s.disk a) (hq : q.file = f.name) :
    (view L J q s).1 = .returned (a.view J q.version).1 ∧
      (view L J q s).2.2 = (a.view J q.version).2 ∧
        Shows f (view L J q s).2.1.disk (a.hash (.version q.version) true) := by
  have hslash : slash ∉ backupName q.version f.name :=
    slash_notMem_name (f := f) (k := .version q.version)
  have hh := shows_hash h (.version q.version)
  rw [view,hL.pathLookup,hq,hL.openSrc,hL.kernelRead,hL.copyToUser,Store.view]
  cases hv : s.disk.dir (backupName q.version f.name) with
  | none =>
    rw [pathLookup_none hslash hv,(h.entry_none (k := .version q.version)).mp hv]
    exact ⟨rfl,rfl,hh⟩
  | some i =>
    rw [pathLookup_some hslash hv,h.entry_some (k := .version q.version) hv]
    dsimp only
    rw [h.read_node,if_pos rfl]
    exact ⟨rfl,rfl,hh⟩

theorem shows_ioctl (hL : L.Grants) {s : Sys} (h : Shows f s.disk a) (hq : q.file = f.name)
    (J : Junk) (cmd : ℕ) : (bkpfsUnlockedIoctl L J f cmd q s).1 = (a.ioctl J L cmd q).1 ∧
      (bkpfsUnlockedIoctl L J f cmd q s).2.2 = (a.ioctl J L cmd q).2.2 ∧
        Shows f (bkpfsUnlockedIoctl L J f cmd q s).2.1.disk (a.ioctl J L cmd q).2.1 := by
  unfold Shelf.ioctl
  split
  · rcases eq_or_ne q.version 0 with hv | hv
    · obtain ⟨h1,h2⟩ := deleteAll_spec L J f q s
      obtain ⟨h3,h4⟩ := shows_deletedAll (J := J) hL h hq
      rw [ioctl_deleteAll J f s hL.lowerFile hv,if_neg (not_not.mpr hv)]
      dsimp only
      rw [h1,h2,h3]
      exact ⟨rfl,rfl,h4⟩
    · obtain ⟨h1,h2⟩ := deleteOne_spec L J f q s
      obtain ⟨h3,h4⟩ := shows_deletedOne (J := J) hL h hq
      rw [ioctl_deleteOne J f s hL.lowerFile hv,if_pos hv]
      dsimp only
      rw [h1,h2,h3]
      exact ⟨rfl,rfl,h4⟩
  · obtain ⟨h1,h2⟩ := shows_restore (J := J) hL h hq
    rw [ioctl_restore J f s hL.lowerFile]
    exact ⟨h1,rfl,h2⟩
  · rw [ioctl_view J f s hL.lowerFile]
    exact shows_view hL h hq
  · rw [ioctl_list J f s hL.lowerFile,list_delivers J f s hL.copyToUser,shows_counter hL h]
    exact ⟨rfl,rfl,h⟩
  · rw [bkpfsUnlockedIoctl,if_neg (by simp [hL.lowerFile])]
    · exact ⟨rfl,rfl,h⟩
    all_goals assumption

theorem shows_opened (hl : L.lookup = none) (hr : L.dRevalidate = none) (h : Shows f d a) :
    ((mountLookup L f.name d).1 = .ok f.ino ∧ a.opened.1 = true ∨
      (mountLookup L f.name d).1 = .error (-ENOENT) ∧ a.opened.1 = false) ∧
        Shows f (mountLookup L f.name d).2 a.opened.2 := by
  have hslash : slash ∉ f.name.val := f.name.property.2.1
  unfold Shelf.opened
  rw [← h.held]
  cases hu : d.upper f.name with
  | some i =>
    have hi := h.pinned i hu
    rw [mountLookup_cached hu]
    simp only [bkpfsDRevalidate,hr,hi]
    exact ⟨.inl ⟨rfl,rfl⟩,h⟩
  | none =>
    have hd := lookupSlow_disk (L := L) (x := f.name) (d := d) hl
    have hres := lookupSlow_result (L := L) (x := f.name) (d := d) hl
    rw [mountLookup,hu]
    dsimp only [Option.isSome_none]
    rw [if_neg Bool.false_ne_true,hd,hres,lookedUp,Disk.pathIno_of_slash d hslash]
    cases hx : d.dir f.name with
    | none =>
      rw [(h.entry_none (k := .own)).mp hx]
      exact ⟨.inr ⟨rfl,rfl⟩,shows_hash h .own⟩
    | some i =>
      obtain rfl := h.own i hx
      rw [h.entry_some (k := .own) hx]
      dsimp only [Option.isSome_some]
      rw [if_pos rfl,if_neg hslash]
      obtain ⟨ht,hrev,hy,hc,he,_,hh⟩ := shows_hash h .own
      refine ⟨.inl ⟨rfl,rfl⟩,⟨ht.base,ht.allocated,ht.own,fun i hi => ?_⟩,hrev,hy,hc,he,?_,hh⟩
      · rw [Disk.interpose_upper,Function.update_self] at hi
        exact (Option.some.inj hi).symm
      · rw [Disk.interpose_upper,Function.update_self]
        rfl

end

end Versions

end BackupFs
