import BackupFs.Failure.Write
import BackupFs.Kernel.Sweep

namespace BackupFs

def AsBefore (d d' : Disk) : Prop :=
  d'.dir = d.dir ∧ ∀ x i, d.dir x = some i → d'.inodes i = d.inodes i

def FailedRestoreKeeps (L : Lower) (J : Junk) (f : File) (q : Request) (s : Sys) : Prop :=
  ∀ e ≠ 0, (bkpfsUnlockedIoctl L J f 1001 q s).1 = .returned e →
    AsBefore s.disk (bkpfsUnlockedIoctl L J f 1001 q s).2.1.disk

def UnlinksCurrent (L : Lower) (q : Request) (d : Disk) : Prop :=
  d.cached q.file = true ∧ d.dir q.file ≠ none ∧ L.unlink q.file = none

def CannotCreate (L : Lower) (q : Request) (d : Disk) : Prop :=
  L.dAlloc = false ∨
    L.lookup = none ∧ ((d.lowerIno (restoredName q.file)).isSome = true ∨ L.create ≠ none)

def CleansUp (L : Lower) (J : Junk) (f : File) (q : Request) (d : Disk) : Prop :=
  ∀ v : Int, 1 ≤ v → v ≤ counter L J f d →
    d.cached (backupName v q.file) = true ∨ v = q.version ∧ slash ∉ q.file →
      d.dir (backupName v q.file) ≠ none ∧ L.refusal (backupName v q.file) = 0

structure Restores (L : Lower) (J : Junk) (f : File) (q : Request) (d : Disk) : Prop where
  begins : Begins L (restoredName q.file) d
  pathLookup : L.pathLookup = none
  version : (d.pathIno (backupName q.version q.file)).isSome = true
  opens : Opened.isNull L.openSrc L.openDest ∨
    L.openSrc = .file ∧ L.openDest = .file ∧ CleansUp L J f q d

inductive RestoreKeeps (L : Lower) (J : Junk) (f : File) (q : Request) (d : Disk) : Prop
  | refused (h : Blocked L q.file d)
  | crashed (ha : L.dAlloc = true) (h : L.lookup ≠ none)
  | kept (hu : ¬ UnlinksCurrent L q d) (h : CannotCreate L q d)
  | restored (h : Restores L J f q d)

section
variable {L : Lower} {J : Junk} {f : File} {q : Request} {d d' : Disk}

theorem asBefore_refl : AsBefore d d := ⟨rfl,fun _ _ _ => rfl⟩

theorem asBefore_dir (hin : d'.inodes = d.inodes) : AsBefore d d' ↔ d'.dir = d.dir := by
  refine ⟨fun h => h.1,fun h => ⟨h,fun _ _ _ => ?_⟩⟩
  rw [hin]

theorem removed_dir {x : Name} : (removed L x d).2.dir = d.dir ↔
    ¬ (d.dir x ≠ none ∧ L.unlink x = none) := by
  cases hx : d.dir x with
  | none => simp [removed_missing hx]
  | some i =>
    rw [removed_present hx]
    split_ifs with hu
    · refine iff_of_false (fun he => ?_) (by simp [hu])
      have h := congrFun he x
      rw [Disk.link_dir,Function.update_self,hx] at h
      cases h
    · simp [hu]

theorem cleared_dir : (cleared L q d).dir = d.dir ↔ ¬ UnlinksCurrent L q d := by
  unfold cleared UnlinksCurrent
  by_cases hc : d.cached q.file = true
  · rw [discard_cached hc]
    exact removed_dir.trans (by simp [hc])
  · rw [discard_uncached hc]
    simp [hc]

theorem blocked_keeps (h : Blocked L q.file d) : ¬ UnlinksCurrent L q d := by
  rintro ⟨_,hx,hu⟩
  rcases h.2 with hn | hr
  · exact hx hn
  · exact hr (by simp [Lower.refusal,hu])

theorem cleared_other {x : Name} (h : x ≠ q.file) : (cleared L q d).dir x = d.dir x ∧
    (cleared L q d).cached x = d.cached x := discard_other h

theorem cleared_pathIno {x : Name} (h : x ≠ q.file) :
    (cleared L q d).pathIno x = d.pathIno x ∧ (cleared L q d).lowerIno x = d.lowerIno x := by
  unfold Disk.pathIno Disk.lowerIno cleared
  rw [discard_walk,(discard_other h).1]
  exact ⟨rfl,rfl⟩

theorem lookedUp_other {x y : Name} (h : y ≠ x) : (lookedUp x d).cached y = d.cached y := by
  unfold lookedUp
  cases d.pathIno x with
  | none => simp [h]
  | some i =>
    dsimp only
    split_ifs <;> simp [h]

theorem begun_other {x y : Name} (h : y ≠ x) :
    (begun x d).dir y = d.dir y ∧ (begun x d).cached y = d.cached y ∧
      (begun x d).pathIno y = d.pathIno y := by
  have hdir : (begun x d).dir y = d.dir y := by
    rw [begun,Disk.created_dir,Function.update_of_ne h,lookedUp_dir]
  refine ⟨hdir,?_,?_⟩
  · rw [begun,Disk.created_cached,Function.update_of_ne h,lookedUp_other h]
  · rw [Disk.pathIno,Disk.pathIno,hdir,begun,Disk.created_walk,lookedUp_walk]

theorem cleared_begins :
    Begins L (restoredName q.file) (cleared L q d) ↔ Begins L (restoredName q.file) d := by
  have hl := (cleared_pathIno (L := L) (d := d) (restoredName_ne_self q.file)).2
  exact ⟨fun h => ⟨h.dAlloc,h.lookup,hl ▸ h.free,h.create⟩,
    fun h => ⟨h.dAlloc,h.lookup,hl ▸ h.free,h.create⟩⟩

theorem version_pathIno :
    (begun (restoredName q.file) (cleared L q d)).pathIno (backupName q.version q.file) =
      d.pathIno (backupName q.version q.file) := by
  rw [(begun_other (restoredName_ne_backupName q.file q.version q.file).symm).2.2,
    (cleared_pathIno (backupName_ne_self _ _)).1]

theorem found_result :
    ((∃ err ≠ 0, (found L q d).1 = .error err) ∧
        ¬ (L.pathLookup = none ∧ (d.pathIno (backupName q.version q.file)).isSome = true)) ∨
      (∃ i, (found L q d).1 = .ok i ∧ d.pathIno (backupName q.version q.file) = some i) ∧
        L.pathLookup = none := by
  unfold found vfsPathLookup
  rw [version_pathIno]
  cases L.pathLookup with
  | some e => exact .inl ⟨⟨e,errno_ne_zero e,rfl⟩,by simp⟩
  | none =>
    cases d.pathIno (backupName q.version q.file) with
    | none => exact .inl ⟨⟨-ENOENT,by decide,rfl⟩,by simp⟩
    | some i => exact .inr ⟨⟨i,rfl,rfl⟩,rfl⟩

theorem found_pathIno {i : Ino} (h : (found L q d).1 = .ok i) :
    L.pathLookup = none ∧ d.pathIno (backupName q.version q.file) = some i := by
  rcases found_result (L := L) (q := q) (d := d) with ⟨⟨_,_,he⟩,_⟩ | ⟨⟨j,hj,hi⟩,hp⟩
  · rw [h] at he
    cases he
  · cases h.symm.trans hj
    exact ⟨hp,hi⟩

theorem found_ok {i : Ino} (h : (found L q d).1 = .ok i) :
    L.pathLookup = none ∧ (d.pathIno (backupName q.version q.file)).isSome = true := by
  obtain ⟨hp,hi⟩ := found_pathIno h
  exact ⟨hp,by rw [hi]; rfl⟩

theorem found_error {err : Int} (h : (found L q d).1 = .error err) : err ≠ 0 ∧
    ¬ (L.pathLookup = none ∧ (d.pathIno (backupName q.version q.file)).isSome = true) := by
  rcases found_result (L := L) (q := q) (d := d) with ⟨⟨_,hne,he⟩,hno⟩ | ⟨⟨_,hi,_⟩,_⟩
  · rw [h] at he
    cases he
    exact ⟨hne,hno⟩
  · rw [h] at hi
    cases hi

theorem refilled_backup {i : Ino} (h : (found L q d).1 = .ok i) (v : Int) :
    (refilled L q i d).dir (backupName v q.file) = d.dir (backupName v q.file) ∧
      ((refilled L q i d).cached (backupName v q.file) = true ↔
        d.cached (backupName v q.file) = true ∨ v = q.version ∧ slash ∉ q.file) := by
  have hne := (restoredName_ne_backupName q.file v q.file).symm
  obtain ⟨hbd,hbc,_⟩ := begun_other (d := cleared L q d) hne
  obtain ⟨hcd,hcc⟩ := cleared_other (L := L) (q := q) (d := d) (backupName_ne_self v q.file)
  refine ⟨?_,?_⟩
  · rw [refilled,copyFile,Disk.setInode_dir,found,(vfsPathLookup_fields _ _ _).1,hbd,hcd]
  · rw [refilled,copyFile,Disk.setInode_cached]
    unfold found vfsPathLookup at h ⊢
    cases hl : L.pathLookup with
    | some e => simp [hl] at h
    | none =>
      dsimp only
      split_ifs with hs <;> rw [slash_mem_backupName] at hs
      · rw [hbc,hcc]
        simp [hs]
      · rw [Disk.hash_cached]
        rcases eq_or_ne v q.version with rfl | hv
        · simp [hs]
        · rw [Function.update_of_ne fun he => hv (backupName_inj.mp he).1,hbc,hcc]
          simp [hv]

theorem refilled_counter {i : Ino} (hf : f.ino < d.nextIno) :
    counter L J f (refilled L q i d) = counter L J f d := by
  have hnx : (cleared L q d).nextIno = d.nextIno := discard_nextIno
  have hin : (refilled L q i d).inodes f.ino = d.inodes f.ino := by
    rw [refilled,copyFile,Disk.setInode_inodes,hnx,Function.update_of_ne (Nat.ne_of_lt hf),found,
      (vfsPathLookup_fields _ _ _).2.1,begun,Disk.created_inodes,lookedUp_nextIno,lookedUp_inodes,
      hnx,Function.update_of_ne (Nat.ne_of_lt hf),cleared,discard_inodes]
  rw [counter,counter,vfsGetxattr,vfsGetxattr,hin]

theorem cleanup_blocked {i : Ino} (h : (found L q d).1 = .ok i) (v : Int) :
    Blocked L (backupName v q.file) (refilled L q i d) ↔
      ¬ (d.cached (backupName v q.file) = true ∨ v = q.version ∧ slash ∉ q.file →
        d.dir (backupName v q.file) ≠ none ∧ L.refusal (backupName v q.file) = 0) := by
  obtain ⟨hd,hc⟩ := refilled_backup h v
  rw [Blocked,hd,hc]
  tauto

theorem cleansUp_iff {i : Ino} (hf : f.ino < d.nextIno) (h : (found L q d).1 = .ok i) :
    CleansUp L J f q d ↔ ∀ e, ¬ Fails L q.file
      (counter L J f (refilled L q i d)).toNat (refilled L q i d) e := by
  rw [refilled_counter hf]
  constructor
  · rintro hcl e ⟨v,hv,hb,_⟩
    have hle := hv.le
    have hpos := hv.pos
    exact (cleanup_blocked h v).mp hb (hcl v hpos (by omega))
  · intro hno v h1 h2
    by_contra hb
    obtain ⟨e,he⟩ := exists_fails (k := (counter L J f d).toNat) h1 (by omega)
      ((cleanup_blocked h v).mpr hb)
    exact hno e he

theorem cleanup_ok {i : Ino} {err : Int} (hf : f.ino < d.nextIno) (h : (found L q d).1 = .ok i)
    (he : (cleanup L J f q (refilled L q i d)).1 = .ok err) : err = 0 ∧ CleansUp L J f q d := by
  rw [cleansUp_iff hf h]
  rcases (discardLoop_sweeps _ 0 (refilled L q i d)).result with ⟨e,_,hr⟩ | ⟨hno,hr⟩
  · cases he.symm.trans hr
  · refine ⟨?_,hno⟩
    rcases hr with ⟨_,hr⟩ | ⟨_,hr⟩
    · exact Except.ok.inj (he.symm.trans hr)
    · exact Except.ok.inj (he.symm.trans hr)

theorem cleanup_error {i : Ino} {err : Int} (hf : f.ino < d.nextIno)
    (h : (found L q d).1 = .ok i) (he : (cleanup L J f q (refilled L q i d)).1 = .error err) :
    err ≠ 0 ∧ ¬ CleansUp L J f q d := by
  rw [cleansUp_iff hf h]
  rcases (discardLoop_sweeps _ 0 (refilled L q i d)).result with ⟨e,hfe,hr⟩ | ⟨_,hr⟩
  · cases he.symm.trans hr
    exact ⟨fails_ne_zero hfe,fun hno => hno _ hfe⟩
  · rcases hr with ⟨_,hr⟩ | ⟨_,hr⟩
    · cases he.symm.trans hr
    · cases he.symm.trans hr

theorem restored_appears {o : Outcome} {e : Int} (he : e ≠ 0) (ho : o = .returned e)
    (hfree : (cleared L q d).lowerIno (restoredName q.file) = none)
    (hdir : d'.dir (restoredName q.file) ≠ none) :
    ¬ ∀ e ≠ 0, o = .returned e → AsBefore d d' := by
  intro h
  have hd := congrFun (h e he ho).1 (restoredName q.file)
  rw [(cleared_pathIno (restoredName_ne_self q.file)).2] at hfree
  exact hdir (hd.trans (d.dir_of_lowerIno hfree))

theorem keeps_restores (hb : ¬ Blocked L q.file d) (hk : RestoreKeeps L J f q d)
    (hbegin : Begins L (restoredName q.file) d) : Restores L J f q d := by
  cases hk with
  | refused h => exact absurd h hb
  | crashed _ h => exact absurd hbegin.lookup h
  | kept _ h =>
    rcases h with h | ⟨_,h | h⟩
    · simp [hbegin.dAlloc] at h
    · simp [hbegin.free] at h
    · exact absurd hbegin.create h
  | restored h => exact h

theorem cannotCreate_begins (h : CannotCreate L q d) : ¬ Begins L (restoredName q.file) d := by
  intro hb
  rcases h with h | ⟨_,h | h⟩
  · simp [hb.dAlloc] at h
  · simp [hb.free] at h
  · exact h hb.create

theorem stopped_keeps {e : Int} (he : e ≠ 0) (hb : ¬ Blocked L q.file d)
    (hl : L.dAlloc = false ∨ L.lookup = none) (hc : CannotCreate L q d)
    (hin : d'.inodes = d.inodes) (hdir : d'.dir = (cleared L q d).dir) :
    (∀ e' ≠ 0, Outcome.returned e = .returned e' → AsBefore d d') ↔ RestoreKeeps L J f q d := by
  have has : AsBefore d d' ↔ ¬ UnlinksCurrent L q d := by
    rw [asBefore_dir hin,hdir,cleared_dir]
  constructor
  · intro h
    exact .kept (has.mp (h e he rfl)) hc
  · rintro hk _ _ _
    refine has.mpr ?_
    cases hk with
    | refused h => exact absurd h hb
    | crashed ha h =>
      rcases hl with hl | hl
      · simp [ha] at hl
      · exact absurd hl h
    | kept h _ => exact h
    | restored h => exact absurd h.begins (cannotCreate_begins hc)

theorem restoreRun_zero {o : Outcome} (hf : f.ino < d.nextIno) (h : RestoreRun L J f q d o d') :
    o = .returned 0 ↔ ¬ Blocked L q.file d ∧ Restores L J f q d := by
  have hno (h : ¬ Begins L (restoredName q.file) (cleared L q d)) :
      ¬ (¬ Blocked L q.file d ∧ Restores L J f q d) := fun hr =>
    h (cleared_begins.mpr hr.2.begins)
  have herr {e : Int} (he : e ≠ 0) : Outcome.returned e ≠ .returned 0 := fun h =>
    he (Outcome.returned.inj h)
  cases h with
  | current h he =>
    refine iff_of_false (herr he) fun hr => hr.1 ?_
    rw [← discard_blocked,h]
    exact he
  | noDentry _ ha => exact iff_of_false (herr (by decide)) (hno fun hb => by simp [hb.dAlloc] at ha)
  | noLookup _ _ hl => exact iff_of_false (by simp) (hno fun hb => by simp [hb.lookup] at hl)
  | collision _ _ _ hx =>
    exact iff_of_false (herr (by decide)) (hno fun hb => by simp [hb.free] at hx)
  | noCreate _ _ _ _ hcr =>
    exact iff_of_false (herr (errno_ne_zero _)) (hno fun hb => by simp [hb.create] at hcr)
  | noVersion _ _ h =>
    obtain ⟨he,hv⟩ := found_error h
    exact iff_of_false (herr he) fun hr => hv ⟨hr.2.pathLookup,hr.2.version⟩
  | unopened _ _ _ ho =>
    refine iff_of_false (herr (errno_ne_zero _)) fun hr => ?_
    rcases hr.2.opens with (hn | ⟨hn,hn'⟩) | ⟨hs,hd,_⟩ <;> rcases ho with ho | ⟨ho,ho'⟩ <;> simp_all
  | uncopied hc hb h ho =>
    obtain ⟨hp,hv⟩ := found_ok h
    exact iff_of_true rfl ⟨discard_free.mp hc,cleared_begins.mp hb,hp,hv,.inl ho⟩
  | stopped _ _ h hs hd he =>
    obtain ⟨hne,hncl⟩ := cleanup_error hf h he
    refine iff_of_false (herr hne) fun hr => ?_
    rcases hr.2.opens with (hn | ⟨_,hn⟩) | ⟨_,_,hcl⟩
    · simp [hs] at hn
    · simp [hd] at hn
    · exact hncl hcl
  | done hc hb h hs hd he =>
    obtain ⟨rfl,hcl⟩ := cleanup_ok hf h he
    obtain ⟨hp,hv⟩ := found_ok h
    exact iff_of_true rfl
      ⟨discard_free.mp hc,cleared_begins.mp hb,hp,hv,.inr ⟨hs,hd,hcl⟩⟩

theorem appeared_keeps {o : Outcome} {e : Int} (he : e ≠ 0) (ho : o = .returned e)
    (hz : o = .returned 0 ↔ ¬ Blocked L q.file d ∧ Restores L J f q d)
    (hc : (discard L q.file d).1.getD 0 = 0)
    (hb : Begins L (restoredName q.file) (cleared L q d))
    (hdir : d'.dir (restoredName q.file) ≠ none) :
    (∀ e' ≠ 0, o = .returned e' → AsBefore d d') ↔ RestoreKeeps L J f q d := by
  refine iff_of_false (restored_appears he ho hb.free hdir) fun hk => he ?_
  have hfree := discard_free.mp hc
  exact Outcome.returned.inj
    (ho.symm.trans (hz.mpr ⟨hfree,keeps_restores hfree hk (cleared_begins.mp hb)⟩))

theorem restored_keeps (h : Restores L J f q d) :
    (∀ e ≠ 0, Outcome.returned 0 = .returned e → AsBefore d d') ↔ RestoreKeeps L J f q d := by
  refine iff_of_true (fun e he ho => ?_) (.restored h)
  cases ho
  exact absurd rfl he

theorem restoreRun_keeps {o : Outcome} (hf : f.ino < d.nextIno)
    (h : RestoreRun L J f q d o d') :
    (∀ e ≠ 0, o = .returned e → AsBefore d d') ↔ RestoreKeeps L J f q d := by
  have hz := restoreRun_zero hf h
  have hin : (cleared L q d).inodes = d.inodes := discard_inodes
  have hfound : (found L q d).2.dir (restoredName q.file) ≠ none := by
    rw [found_dir]
    exact Option.some_ne_none _
  cases h with
  | current h he =>
    have hb : Blocked L q.file d := by
      rw [← discard_blocked,h]
      exact he
    refine iff_of_true ?_ (.refused hb)
    intro _ _ _
    exact (asBefore_dir hin).mpr (cleared_dir.mpr (blocked_keeps hb))
  | noDentry hc h =>
    exact stopped_keeps (by decide) (discard_free.mp hc) (.inl h) (.inl h) hin rfl
  | noLookup hc ha h =>
    refine iff_of_true ?_ (.crashed ha (by simp [h]))
    intro _ _ ho
    cases ho
  | collision hc ha hl h =>
    rw [(cleared_pathIno (restoredName_ne_self q.file)).2] at h
    exact stopped_keeps (by decide) (discard_free.mp hc) (.inr hl) (.inr ⟨hl,.inl h⟩)
      ((lookedUp_inodes _ _).trans hin) (lookedUp_dir _ _)
  | noCreate hc ha hl hfr h =>
    exact stopped_keeps (errno_ne_zero _) (discard_free.mp hc) (.inr hl)
      (.inr ⟨hl,.inr (by simp [h])⟩) ((lookedUp_inodes _ _).trans hin) (lookedUp_dir _ _)
  | noVersion hc hb h => exact appeared_keeps (found_error h).1 rfl hz hc hb hfound
  | unopened hc hb h ho => exact appeared_keeps (errno_ne_zero _) rfl hz hc hb hfound
  | uncopied hc hb h ho => exact restored_keeps (hz.mp rfl).2
  | stopped hc hb h hs hd he =>
    refine appeared_keeps (cleanup_error hf h he).1 rfl hz hc hb ?_
    rw [cleanup,(discardLoop_other _ _ fun v => restoredName_ne_backupName _ v _).1,refilled,
      copyFile,Disk.setInode_dir]
    exact hfound
  | done hc hb h hs hd he =>
    obtain ⟨rfl,_⟩ := cleanup_ok hf h he
    exact restored_keeps (hz.mp rfl).2

end

theorem failed_restore_keeps_iff (L : Lower) (J : Junk) (f : File) (q : Request) (s : Sys)
    (hf : f.ino < s.disk.nextIno) : FailedRestoreKeeps L J f q s ↔
      L.lowerFile = false ∨ RestoreKeeps L J f q s.disk := by
  unfold FailedRestoreKeeps
  cases hl : L.lowerFile with
  | false =>
    rw [ioctl_noFile J f s hl]
    exact iff_of_true (fun _ _ _ => asBefore_refl) (.inl rfl)
  | true =>
    rw [ioctl_restore J f s hl,restoreRun_keeps hf (restore_run L J f q s)]
    simp

theorem failed_restore_keeps_iff_busy :
    FailedRestoreKeeps { unlink := fun _ => some ⟨-EBUSY,by decide⟩ } {} aTxt
        (clientRequest aTxt.name 1) ⟨Disk.single aTxt {},[]⟩ ↔
      ({ unlink := fun _ => some ⟨-EBUSY,by decide⟩ } : Lower).lowerFile = false ∨
        RestoreKeeps { unlink := fun _ => some ⟨-EBUSY,by decide⟩ } {} aTxt
          (clientRequest aTxt.name 1) (Disk.single aTxt {}) :=
  failed_restore_keeps_iff _ _ aTxt _ ⟨Disk.single aTxt {},[]⟩ (by decide)

theorem missing_version_loses_current : ¬ ∀ (L : Lower) (J : Junk) (f : File) (q : Request)
    (s : Sys), Sound f s.disk → q.file = f.name → FailedRestoreKeeps L J f q s := by
  intro h
  have hk := h {} {} aTxt (clientRequest aTxt.name 1) ⟨Disk.single aTxt {},[]⟩
    (sound_single aTxt {}) (clientRequest_file _ _) (-ENOENT) (by decide) (by decide +kernel)
  have hgone := congrFun hk.1 aTxt.name
  revert hgone
  decide +kernel

end BackupFs
