import BackupFs.Isolation.Growth
import BackupFs.Locals.Requests

namespace BackupFs

open Words

structure Spells (f : File) (d : Disk) (x : Xattrs) : Prop where
  attr : ∀ a, (d.inodes f.ino).attr a = (x a).map readInt32
  length : ∀ a b, x a = some b → 4 ≤ b.length ∧ b.length ≤ 20

structure SameFiles (d e : Disk) : Prop where
  dir : d.dir = e.dir
  content : ∀ i, (d.inodes i).content = (e.inodes i).content
  nextIno : d.nextIno = e.nextIno
  cached : d.cached = e.cached
  upper : d.upper = e.upper
  walk : d.walk = e.walk

structure SameCall (out : Outcome × Sys × Option Query)
    (out' : (Outcome × Sys × Option Query) × Xattrs) (f : File) : Prop where
  outcome : out.1 = out'.1.1
  files : SameFiles out.2.1.disk out'.1.2.1.disk
  reply : out.2.2 = out'.1.2.2
  spells : Spells f out.2.1.disk out'.2

section
variable {L : Lower} {J : Junk} {F : Frame} {f : File} {q : Request} {d e : Disk} {x : Xattrs}
  {n : Name} {pos : ℕ} {buf : Bytes} {val : Int} {rest : Disk → Outcome × Disk}

theorem spells_got (h : Spells f d x) {a : Attr} {b : Bytes} (hg : L.getxattr a = none)
    (hx : x a = some b) : got L a x = b := by
  unfold got
  rw [hg,hx]
  exact if_pos (h.length a b hx).2

theorem spells_val (h : Spells f d x) (hF : F.Fits) (a : Attr) :
    F.val L a x = vfsGetxattr L f.ino a F.junk.val d := by
  have hjunk (hgot : got L a x = []) : F.val L a x = F.junk.val := by
    rw [val_overlay,vfsGetxattrBytes,hgot,overlay_nil,← List.append_nil (int32 _),
      readInt32_int32]
    exact wrapInt_low hF.junk.val.1 hF.junk.val.2
  unfold vfsGetxattr
  cases hg : L.getxattr a with
  | some err => exact hjunk (by rw [got,hg])
  | none =>
    dsimp only
    rw [h.attr]
    cases hx : x a with
    | none => exact hjunk (by rw [got,hg,hx])
    | some b =>
      have hlen := (h.length a b hx).1
      rw [Frame.val,Frame.read,vfsGetxattrBytes,spells_got h hg hx,overlay,readInt32_append hlen]
      rfl

theorem spells_congr (h : Spells f d x) (ha : ∀ a, (e.inodes f.ino).attr a =
    (d.inodes f.ino).attr a) : Spells f e x :=
  ⟨fun a => (ha a).trans (h.attr a),h.length⟩

theorem spells_set {p : Bytes} {v : Int} (hv : readInt32 p = v) (hp : p.length = 20) {a : Attr}
    (h : Spells f d x) : Spells f (vfsSetxattr L f.ino a v d) (vfsSetxattrBytes L a p x) := by
  unfold vfsSetxattr vfsSetxattrBytes
  cases L.setxattr a with
  | some err => exact h
  | none =>
    refine ⟨fun b => ?_,fun b => ?_⟩
    · dsimp only
      rw [Disk.setInode_inodes,Function.update_self]
      rcases eq_or_ne b a with rfl | hb
      · rw [Function.update_self,Option.map_some,hv]
        cases b <;> rfl
      · rw [Function.update_of_ne hb,← h.attr]
        cases a <;> cases b <;> first | rfl | exact absurd rfl hb
    · dsimp only
      rcases eq_or_ne b a with rfl | hb
      · rw [Function.update_self]
        rintro _ ⟨⟩
        omega
      · rw [Function.update_of_ne hb]
        exact h.length b

theorem spells_stamp {p : Bytes} {v : Int} (hv : readInt32 p = v) (hp : p.length = 20)
    (h : Spells f d x) : Spells f (stamp L f v d) (stampBytes L p x) :=
  spells_set hv hp (spells_set hv hp h)

theorem readInt32_saved {v : Int} (hv : IsInt v) (p : Bytes) : readInt32 (int32 v ++ p) = v :=
  (readInt32_int32 v p).trans (wrapInt_low hv.1 hv.2)

theorem saved_length (hF : F.Fits) (v : Int) : (F.saved v).length = 20 := by
  rw [Frame.saved,List.length_append,List.length_append,int32_length,hF.slack,word_length]

theorem stamped_length (hF : F.Fits) : (F.stamped L x).length = 20 := by
  have hgot : (got L .revision x).length ≤ 20 := by
    unfold got
    split
    · split_ifs with hlen
      · exact hlen
      · exact Nat.zero_le 20
    · exact Nat.zero_le 20
  have hp : (int32 F.junk.val ++ F.behind).length = 20 := by
    rw [List.length_append,int32_length,hF.behind]
  have hread : (F.read L .revision x).length = 20 := by
    rw [Frame.read,vfsGetxattrBytes,overlay_length (hgot.trans hp.ge),hp]
  rw [Frame.stamped,List.length_append,List.length_drop,hread,int32_length]

namespace SameFiles

theorem refl (d : Disk) : SameFiles d d := ⟨rfl,fun _ => rfl,rfl,rfl,rfl,rfl⟩

theorem trans {d' : Disk} (h : SameFiles d e) (h' : SameFiles e d') : SameFiles d d' :=
  ⟨h.dir.trans h'.dir,fun i => (h.content i).trans (h'.content i),h.nextIno.trans h'.nextIno,
    h.cached.trans h'.cached,h.upper.trans h'.upper,h.walk.trans h'.walk⟩

theorem setxattr (L : Lower) (i : Ino) (a : Attr) (v : Int) (d : Disk) :
    SameFiles (vfsSetxattr L i a v d) d := by
  obtain ⟨n,hn,hc⟩ := vfsSetxattr_setInode L i a v d
  rw [hn]
  refine ⟨rfl,fun j => ?_,rfl,rfl,rfl,rfl⟩
  rw [Disk.setInode_inodes]
  rcases eq_or_ne j i with rfl | hj
  · rw [Function.update_self,hc]
  · rw [Function.update_of_ne hj]

theorem stamp (L : Lower) (f : File) (v : Int) (d : Disk) : SameFiles (stamp L f v d) d :=
  (setxattr L f.ino .youngest v _).trans (setxattr L f.ino .revision v d)

theorem link (h : SameFiles d e) (x : Name) (i : Option Ino) (b : Bool) :
    SameFiles (d.link x i b) (e.link x i b) :=
  ⟨by rw [Disk.link_dir,Disk.link_dir,h.dir],h.content,h.nextIno,
    by rw [Disk.link_cached,Disk.link_cached,h.cached],h.upper,h.walk⟩

theorem setContent (h : SameFiles d e) {i : Ino} {m n : Inode} (hc : m.content = n.content) :
    SameFiles (d.setInode i m) (e.setInode i n) := by
  refine ⟨h.dir,fun j => ?_,h.nextIno,h.cached,h.upper,h.walk⟩
  rw [Disk.setInode_inodes,Disk.setInode_inodes]
  rcases eq_or_ne j i with rfl | hj
  · rw [Function.update_self,Function.update_self,hc]
  · rw [Function.update_of_ne hj,Function.update_of_ne hj,h.content]

theorem discard (h : SameFiles d e) (L : Lower) (x : Name) :
    (discard L x d).1 = (BackupFs.discard L x e).1 ∧
      SameFiles (BackupFs.discard L x d).2 (BackupFs.discard L x e).2 := by
  by_cases hc : e.cached x = true
  · rw [discard_cached hc,discard_cached (h.cached ▸ hc)]
    cases hx : e.dir x with
    | none =>
      rw [removed_missing hx,removed_missing (h.dir ▸ hx)]
      exact ⟨rfl,h⟩
    | some i =>
      rw [removed_present hx,removed_present (h.dir ▸ hx)]
      dsimp only
      split_ifs
      · exact ⟨rfl,h.link x none false⟩
      · exact ⟨rfl,h⟩
  · rw [discard_uncached hc,discard_uncached (h.cached ▸ hc)]
    exact ⟨rfl,h⟩

theorem lookedUp (h : SameFiles d e) (x : Name) :
    SameFiles (lookedUp x d) (BackupFs.lookedUp x e) := by
  have hash {d e : Disk} (h : SameFiles d e) : SameFiles (d.hash x) (e.hash x) :=
    ⟨h.dir,h.content,h.nextIno,by rw [Disk.hash_cached,Disk.hash_cached,h.cached],h.upper,h.walk⟩
  have interpose {d e : Disk} (h : SameFiles d e) (i : Ino) :
      SameFiles (d.interpose x i) (e.interpose x i) :=
    ⟨h.dir,h.content,h.nextIno,h.cached,
      by rw [Disk.interpose_upper,Disk.interpose_upper,h.upper],h.walk⟩
  have hp : d.pathIno x = e.pathIno x := by rw [Disk.pathIno,Disk.pathIno,h.dir,h.walk]
  unfold BackupFs.lookedUp
  rw [hp]
  cases e.pathIno x with
  | none => exact hash h
  | some i =>
    dsimp only
    split_ifs
    · exact interpose h i
    · exact interpose (hash h) i

theorem begun (h : SameFiles d e) (x : Name) : SameFiles (begun x d) (BackupFs.begun x e) := by
  have hl := h.lookedUp x
  have hlink := (hl.link x (some (BackupFs.lookedUp x d).nextIno) true).setContent
    (i := (BackupFs.lookedUp x d).nextIno) (m := {}) (n := {}) rfl
  unfold BackupFs.begun Disk.created
  rw [← hl.nextIno]
  exact ⟨hlink.dir,hlink.content,congrArg (· + 1) rfl,hlink.cached,hlink.upper,hlink.walk⟩

theorem copied (h : SameFiles d e) (L : Lower) (i : Ino) (x : Name) :
    SameFiles (copied L i x d) (BackupFs.copied L i x e) := by
  unfold BackupFs.copied
  rw [h.dir]
  cases e.dir x with
  | none => exact h
  | some j =>
    refine h.setContent ?_
    dsimp only
    rw [h.content,h.content]

theorem put (h : SameFiles d e) (L : Lower) (i : Ino) (pos : ℕ) (buf : Bytes) :
    (put L i pos buf d).1 = (BackupFs.put L i pos buf e).1 ∧
      SameFiles (BackupFs.put L i pos buf d).2 (BackupFs.put L i pos buf e).2 := by
  unfold BackupFs.put vfsWrite
  dsimp only
  split_ifs
  · exact ⟨rfl,h⟩
  · refine ⟨rfl,h.setContent ?_⟩
    dsimp only
    rw [h.content]

theorem writeTail (h : SameFiles d e) (L : Lower) (i : Ino) (x : Name) (pos : ℕ) (buf : Bytes) :
    (writeTail L i x pos buf d).1 = (BackupFs.writeTail L i x pos buf e).1 ∧
      SameFiles (BackupFs.writeTail L i x pos buf d).2
        (BackupFs.writeTail L i x pos buf e).2 := by
  unfold BackupFs.writeTail
  cases L.openSrc with
  | err r => exact ⟨rfl,h⟩
  | null => exact h.put L i pos buf
  | file =>
    cases L.openDest with
    | err r => exact ⟨rfl,h⟩
    | null => exact h.put L i pos buf
    | file => exact (h.copied L i x).put L i pos buf

theorem discardThen (h : SameFiles d e) (L : Lower) (x : Name)
    (hrest : ∀ {d e}, SameFiles d e → (rest d).1 = (rest e).1 ∧ SameFiles (rest d).2 (rest e).2) :
    (discardThen L x rest d).1 = (BackupFs.discardThen L x rest e).1 ∧
      SameFiles (BackupFs.discardThen L x rest d).2 (BackupFs.discardThen L x rest e).2 := by
  obtain ⟨h1,h2⟩ := h.discard L x
  unfold BackupFs.discardThen
  rw [h1]
  split_ifs
  · exact ⟨rfl,h2⟩
  · exact hrest h2

theorem createThen (h : SameFiles d e) (L : Lower) (x : Name)
    (hrest : ∀ {d e}, SameFiles d e → (rest d).1 = (rest e).1 ∧ SameFiles (rest d).2 (rest e).2) :
    (createThen L x rest d).1 = (BackupFs.createThen L x rest e).1 ∧
      SameFiles (BackupFs.createThen L x rest d).2 (BackupFs.createThen L x rest e).2 := by
  have hl : d.lowerIno x = e.lowerIno x := by rw [Disk.lowerIno,Disk.lowerIno,h.dir,h.walk]
  unfold BackupFs.createThen
  rw [hl]
  split_ifs
  · exact ⟨rfl,h⟩
  all_goals
    cases L.lookup with
    | some err => exact ⟨rfl,h⟩
    | none => ?_
  · exact ⟨rfl,h.lookedUp x⟩
  · cases L.create with
    | some err => exact ⟨rfl,h.lookedUp x⟩
    | none => exact hrest (h.begun x)

theorem writeNumbered (h : SameFiles d e) (L : Lower) (f : File) (pos : ℕ) (buf : Bytes)
    (val : Int) :
    (writeNumbered L f pos buf d val).1 = (BackupFs.writeNumbered L f pos buf e val).1 ∧
      SameFiles (BackupFs.writeNumbered L f pos buf d val).2
        (BackupFs.writeNumbered L f pos buf e val).2 := by
  have htail {d e : Disk} (h : SameFiles d e) :=
    h.writeTail L f.ino (backupName val f.name) pos buf
  unfold BackupFs.writeNumbered
  dsimp only
  split_ifs
  · exact h.discardThen L _ fun h => h.createThen L _ htail
  · exact h.createThen L _ htail

end SameFiles

theorem put_attr (i : Ino) (a : Attr) :
    ((put L i pos buf d).2.inodes i).attr a = (d.inodes i).attr a := by
  unfold put vfsWrite
  dsimp only
  split_ifs
  · rfl
  · rw [Disk.setInode_inodes,Function.update_self]
    cases a <;> rfl

theorem writeTail_attr (i : Ino) (n : Name) (a : Attr) :
    ((writeTail L i n pos buf d).2.inodes i).attr a = (d.inodes i).attr a := by
  unfold writeTail
  cases L.openSrc with
  | err e => rfl
  | null => exact put_attr i a
  | file =>
    cases L.openDest with
    | err e => rfl
    | null => exact put_attr i a
    | file => exact (put_attr i a).trans (copied_attr i i n a)

theorem createThen_attr {i : Ino} (hi : i < d.nextIno) {a : Attr}
    (hk : ∀ d, ((rest d).2.inodes i).attr a = (d.inodes i).attr a) :
    ((createThen L n rest d).2.inodes i).attr a = (d.inodes i).attr a := by
  rcases begins_or_givesUp L n d with hb | ⟨out,hg⟩
  · rw [createThen_begins hb,hk,begun,Disk.created_inodes,lookedUp_nextIno,
      Function.update_of_ne hi.ne,lookedUp_inodes]
  · rw [(createThen_givesUp hg).2.2]

theorem writeNumbered_attr (hf : f.ino < d.nextIno) (a : Attr) :
    ((writeNumbered L f pos buf d val).2.inodes f.ino).attr a = (d.inodes f.ino).attr a := by
  have hk (n : Name) (d : Disk) :
      ((writeTail L f.ino n pos buf d).2.inodes f.ino).attr a = (d.inodes f.ino).attr a :=
    writeTail_attr f.ino n a
  unfold writeNumbered
  dsimp only
  split_ifs
  · unfold discardThen
    split_ifs
    · rw [discard_inodes]
    · rw [createThen_attr (by rwa [discard_nextIno]) (hk _),discard_inodes]
  · exact createThen_attr hf (hk _)

theorem stamp_nextIno (v : Int) : (stamp L f v d).nextIno = d.nextIno :=
  (SameFiles.stamp L f v d).nextIno

theorem writeEffect_stamped : writeEffect L J f pos buf d =
    writeNumbered L f pos buf (stamp L f (nextVersion (counter L J f d)) d)
      (nextVersion (counter L J f d)) := by
  unfold writeEffect writeNumbered newName oldName
  rfl

theorem write_refines {s : Sys} (hF : F.Fits) (hf : f.ino < s.disk.nextIno)
    (h : Spells f s.disk x) : SameCall ((KernelCall.write pos buf).execute L F.junk f s)
      ((KernelCall.write pos buf).executeBytes L F f s x) f := by
  have hval : F.val L .revision x = counter L F.junk f s.disk := spells_val h hF .revision
  have heff := writeRun_effect (bkpfsWrite_run L F.junk f pos buf s)
  obtain ⟨o,t,he,hr⟩ := executeBytes_write (L := L) (F := F) (f := f) (s := s) (x := x) pos buf
  rw [writeEffect_stamped] at heff
  rw [numbered_reading,hval] at hr
  generalize hv : nextVersion (counter L F.junk f s.disk) = val at heff hr
  obtain ⟨h1,h2⟩ := (SameFiles.stamp L f val s.disk).writeNumbered L f pos buf val
  rw [heff,← hr] at h1 h2
  rw [he]
  refine ⟨h1,h2,rfl,?_⟩
  have hspell : Spells f (stamp L f val s.disk) (stampBytes L (F.stamped L x) x) := by
    refine spells_stamp ?_ (stamped_length hF) h
    rw [Frame.stamped,hval,hv,readInt32_saved (hv ▸ isInt_nextVersion _)]
  refine spells_congr hspell fun a => ?_
  have ha : ((writeNumbered L f pos buf (stamp L f val s.disk) val).2.inodes f.ino).attr a =
      ((stamp L f val s.disk).inodes f.ino).attr a :=
    writeNumbered_attr (by rwa [stamp_nextIno]) a
  rw [heff] at ha
  exact ha

theorem deleteOne_refines {s : Sys} (hF : F.Fits) (hl : L.lowerFile = true) (hv : q.version ≠ 0)
    (h : Spells f s.disk x) : SameCall ((KernelCall.ioctl 1000 q).execute L F.junk f s)
      ((KernelCall.ioctl 1000 q).executeBytes L F f s x) f := by
  obtain ⟨h1,h2⟩ := deleteOne_spec L F.junk f q s
  obtain ⟨t,he,ht⟩ := executeBytes_deleteOne (F := F) (f := f) (s := s) (x := x) hl hv
  have hin : (discard L (backupName q.version q.file) s.disk).2.inodes = s.disk.inodes :=
    discard_inodes
  have hspell : Spells f t.disk x := by
    rw [ht]
    exact spells_congr h fun a => by rw [hin]
  rw [he,KernelCall.execute,ioctl_deleteOne F.junk f s hl hv]
  by_cases hz : (discard L (backupName q.version q.file) s.disk).1 = some 0
  · rw [deletedOne_unlinked hz,← spells_val h hF .youngest] at h1 h2
    rw [hz] at he ⊢
    dsimp only at h1 h2
    rw [← ht] at h2
    by_cases hval : q.version = F.val L .youngest x
    · rw [if_pos hval] at h2
      rw [if_pos ⟨rfl,hval⟩]
      refine ⟨h1,?_,rfl,?_⟩
      · rw [h2]
        exact SameFiles.stamp L f _ t.disk
      · rw [h2]
        exact spells_stamp (readInt32_saved (isInt_wrapInt _) _) (saved_length hF _) hspell
    · rw [if_neg hval] at h2
      rw [if_neg fun h => hval h.2]
      exact ⟨h1,h2 ▸ SameFiles.refl _,rfl,h2 ▸ hspell⟩
  · rw [if_neg fun h => hz h.1]
    have hfail : deletedOne L F.junk f q s.disk =
        ((discard L (backupName q.version q.file) s.disk).1.getD (-ENOTTY),t.disk) := by
      rw [ht]
      unfold deletedOne
      generalize discard L _ s.disk = out at hz ⊢
      obtain ⟨r,d'⟩ := out
      cases r with
      | none => rfl
      | some err => exact if_pos fun he => hz (congrArg some he)
    rw [hfail] at h1 h2
    exact ⟨h1,h2 ▸ SameFiles.refl _,rfl,h2 ▸ hspell⟩

theorem deleteAll_refines {s : Sys} (hF : F.Fits) (hl : L.lowerFile = true) (hv : q.version = 0)
    (h : Spells f s.disk x) : SameCall ((KernelCall.ioctl 1000 q).execute L F.junk f s)
      ((KernelCall.ioctl 1000 q).executeBytes L F f s x) f := by
  obtain ⟨h1,h2⟩ := deleteAll_spec L F.junk f q s
  obtain ⟨o,t,he,ht⟩ := executeBytes_deleteAll (F := F) (f := f) (s := s) (x := x) hl hv
  have hin := (discardLoop_sweeps (L := L) (n := q.file)
    (counter L F.junk f s.disk).toNat (-ENOTTY) s.disk).inodes
  have hval : F.val L .revision x = counter L F.junk f s.disk := spells_val h hF .revision
  rw [he,KernelCall.execute,ioctl_deleteAll F.junk f s hl hv]
  rw [hval] at ht ⊢
  unfold deletedAll at h1 h2
  generalize discardLoop L _ _ _ _ = out at h1 h2 hin ht ⊢
  obtain ⟨r,d'⟩ := out
  dsimp only at hin
  have hd : t.disk = d' := (congrArg Prod.snd ht).trans loopResult_disk
  cases r with
  | error err =>
    have ho : o = .returned err := congrArg Prod.fst ht
    rw [ho]
    refine ⟨h1,?_,rfl,?_⟩
    · rw [h2,hd]
      exact SameFiles.refl d'
    · rw [h2]
      exact spells_congr h fun a => by rw [hin]
  | ok err =>
    have ho : o = .returned err := congrArg Prod.fst ht
    rw [ho]
    refine ⟨h1,?_,rfl,?_⟩
    · rw [h2,hd]
      exact SameFiles.setxattr L f.ino .revision (-1) d'
    · rw [h2]
      exact spells_set (readInt32_saved ⟨by decide,by decide⟩ _) (saved_length hF _)
        (spells_congr h fun a => by rw [hin])

theorem discardLoop_bare (n : Name) (k : ℕ) (err : Int) (d : Disk) :
    discardLoop L.bare n k err d = discardLoop L n k err d := by
  induction k generalizing err d with
  | zero => rfl
  | succ k ih =>
    have hstep : discard L.bare (backupName (k + 1 : ℕ) n) d =
      discard L (backupName (k + 1 : ℕ) n) d := rfl
    rw [discardLoop,discardLoop,hstep]
    generalize discard L _ d = out
    obtain ⟨r,d'⟩ := out
    cases r with
    | none => exact ih err d'
    | some e => simp only [ih]

theorem restoreTail_bare {J' : Junk} (h : counter L J f d = J'.val) :
    restoreTail L J f q d = restoreTail L.bare J' f q d := by
  have hin := (vfsPathLookup_fields L.pathLookup (backupName q.version q.file) d).2.1
  have hbare : restoreTail L.bare J' f q d = restoreFrom L.bare J' f q
      (vfsPathLookup L.pathLookup (backupName q.version q.file) d).2
        (vfsPathLookup L.pathLookup (backupName q.version q.file) d).1 := rfl
  rw [hbare,restoreTail]
  generalize vfsPathLookup L.pathLookup (backupName q.version q.file) d = out at hin ⊢
  obtain ⟨r,d'⟩ := out
  dsimp only at hin ⊢
  cases r with
  | error err => rfl
  | ok i =>
    have hs : L.bare.openSrc = L.openSrc := rfl
    have hd : L.bare.openDest = L.openDest := rfl
    unfold restoreFrom
    dsimp only
    rw [hs,hd]
    cases L.openSrc with
    | err e => rfl
    | null => rfl
    | file =>
      cases L.openDest with
      | err e => rfl
      | null => rfl
      | file =>
        have hc : counter L J f (copied L i (restoredName q.file) d') = J'.val := by
          rw [(copied_fields (J := J)).2.2,← h,counter,counter,vfsGetxattr,vfsGetxattr,hin]
        dsimp only
        rw [cleanup,cleanup,hc,bare_counter,discardLoop_bare]
        rfl

theorem restoreTail_attr (i : Ino) (a : Attr) (d : Disk) :
    ((restoreTail L J f q d).2.inodes i).attr a = (d.inodes i).attr a := by
  have hin := (vfsPathLookup_fields L.pathLookup (backupName q.version q.file) d).2.1
  unfold restoreTail
  generalize vfsPathLookup L.pathLookup (backupName q.version q.file) d = out at hin ⊢
  obtain ⟨r,d'⟩ := out
  dsimp only at hin ⊢
  rw [← hin]
  unfold restoreFrom
  cases r with
  | error err => rfl
  | ok j =>
    dsimp only
    cases L.openSrc with
    | err e => rfl
    | null => rfl
    | file =>
      cases L.openDest with
      | err e => rfl
      | null => rfl
      | file =>
        dsimp only
        rw [loopResult_disk,cleanup,(discardLoop_sweeps _ _ _).inodes,copied_attr]

theorem restoreEffect_attr (hf : f.ino < d.nextIno) (a : Attr) :
    ((restoreEffect L J f q d).2.inodes f.ino).attr a = (d.inodes f.ino).attr a := by
  unfold restoreEffect discardThen
  split_ifs
  · rw [discard_inodes]
  · rw [createThen_attr (by rwa [discard_nextIno]) (restoreTail_attr f.ino a),discard_inodes]

theorem restoreEffect_bare {J' : Junk} (hf : f.ino < d.nextIno) (h : counter L J f d = J'.val) :
    restoreEffect L J f q d = restoreEffect L.bare J' f q d := by
  unfold restoreEffect
  change discardThen L q.file (createThen L (restoredName q.file) _) d =
    discardThen L q.file (createThen L (restoredName q.file) _) d
  unfold discardThen
  split_ifs
  · rfl
  · by_cases hb : Begins L (restoredName q.file) (cleared L q d)
    · change createThen L _ _ (cleared L q d) = createThen L _ _ (cleared L q d)
      rw [createThen_begins hb,createThen_begins hb]
      exact restoreTail_bare ((begun_counter hf).trans h)
    · exact (@createThen_stops L _ (restoreTail L.bare J' f q) _ 0 hb).1 _

theorem restore_refines {s : Sys} (hF : F.Fits) (hl : L.lowerFile = true)
    (hf : f.ino < s.disk.nextIno) (h : Spells f s.disk x) :
    SameCall ((KernelCall.ioctl 1001 q).execute L F.junk f s)
      ((KernelCall.ioctl 1001 q).executeBytes L F f s x) f := by
  have hval : counter L F.junk f s.disk = (F.reading L x).val := (spells_val h hF .revision).symm
  have heff := restoreRun_effect (restore_run L F.junk f q s)
  have hattr := restoreEffect_attr (L := L) (J := F.junk) (q := q) hf
  obtain ⟨o,t,he,ht⟩ := executeBytes_restore (F := F) (f := f) (q := q) (s := s) (x := x) hl
  rw [← restoreEffect_bare hf hval,heff] at ht
  rw [heff] at hattr
  rw [he,KernelCall.execute,ioctl_restore F.junk f s hl q]
  have ho : o = (restore L F.junk f q s).1 := congrArg Prod.fst ht
  have hd : t.disk = (restore L F.junk f q s).2.disk := congrArg Prod.snd ht
  refine ⟨ho.symm,?_,rfl,spells_congr h hattr⟩
  rw [hd]
  exact SameFiles.refl _

theorem execute_refines {s : Sys} (hF : F.Fits) (hf : f.ino < s.disk.nextIno)
    (h : Spells f s.disk x) (c : KernelCall) :
    SameCall (c.execute L F.junk f s) (c.executeBytes L F f s x) f := by
  cases c with
  | write pos buf => exact write_refines hF hf h
  | ioctl cmd q =>
    have hstill : SameFiles s.disk s.disk := SameFiles.refl s.disk
    cases hl : L.lowerFile with
    | false =>
      rw [executeBytes_noFile hl,KernelCall.execute,ioctl_noFile F.junk f s hl]
      exact ⟨rfl,hstill,rfl,h⟩
    | true =>
      by_cases h0 : cmd = 1000
      · subst h0
        by_cases hv : q.version = 0
        · exact deleteAll_refines hF hl hv h
        · exact deleteOne_refines hF hl hv h
      by_cases h1 : cmd = 1001
      · subst h1
        exact restore_refines hF hl hf h
      by_cases h2 : cmd = 1002
      · subst h2
        rw [executeBytes_view hl,KernelCall.execute,ioctl_view F.junk f s hl]
        refine ⟨rfl,SameFiles.refl _,rfl,spells_congr h fun a => ?_⟩
        rw [view_disk,(vfsPathLookup_fields _ _ _).2.1]
      by_cases h3 : cmd = 1003
      · subst h3
        have hval : counter L F.junk f s.disk = (F.reading L x).val :=
          (spells_val h hF .revision).symm
        have hlist : list L.bare (F.reading L x) f s = list L F.junk f s := by
          unfold list
          rw [bare_counter,← hval]
          rfl
        rw [executeBytes_list hl,KernelCall.execute,ioctl_list F.junk f s hl,hlist]
        refine ⟨rfl,SameFiles.refl _,rfl,?_⟩
        rw [list_disk]
        exact h
      · rw [executeBytes_other hl h0 h1 h2 h3,execute_other hl h0 h1 h2 h3]
        exact ⟨rfl,hstill,rfl,h⟩

end

end BackupFs
