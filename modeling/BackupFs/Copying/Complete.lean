import BackupFs.Copying.Reported
import BackupFs.Isolation.Growth

namespace BackupFs

open Transition

structure Placed (f : File) (d : Disk) : Prop where
  base : f.ino < d.nextIno
  dir : ∀ x i, d.dir x = some i → i < d.nextIno
  walk : ∀ x i, d.walk x = some i → i < d.nextIno
  apart : ∀ v, d.dir (backupName v f.name) ≠ some f.ino

structure Recorded where
  sys : Sys
  source : Int → Bytes

def Recorded.after (f : File) (r : Recorded) (t : Sys) : Recorded where
  sys := t
  source v := if r.sys.disk.dir (backupName v f.name) = none then
    (r.sys.disk.inodes f.ino).content else r.source v

def Complete (f : File) (r : Recorded) : Prop :=
  ∀ v c, (chain f r.sys.disk).backups v = some c → c = r.source v

def KernelCall.LeavesRestored (L : Lower) (J : Junk) (f : File) (s : Sys) : KernelCall → Prop
  | .write _ _ => True
  | .ioctl cmd q => cmd = 1001 → (bkpfsUnlockedIoctl L J f cmd q s).1 = .returned 0 →
      ∃ i, s.disk.pathIno (backupName q.version q.file) = some i ∧
        ∃ j, (bkpfsUnlockedIoctl L J f cmd q s).2.1.disk.dir (restoredName q.file) = some j ∧
          ((bkpfsUnlockedIoctl L J f cmd q s).2.1.disk.inodes j).content =
            (s.disk.inodes i).content

def KernelCall.CopiesWhole (L : Lower) (J : Junk) (f : File) (d : Disk) : KernelCall → Prop
  | .write _ _ => (nextVersion (counter L J f d) > N → ¬ Blocked L (oldName L J f d) d) →
      Begins L (newName L J f d) d →
        (d.inodes f.ino).content = [] ∨ Copies L (d.inodes f.ino).content.length
  | .ioctl cmd q => L.lowerFile = true → cmd = 1001 → ¬ Blocked L q.file d →
      Restores L J f q d → ∀ i, d.pathIno (backupName q.version q.file) = some i →
        (d.inodes i).content = [] ∨ Copies L (d.inodes i).content.length

structure MakesBackup (L : Lower) (J : Junk) (f : File) (d : Disk) : Prop where
  retention : (retained L J f d).1 = 0
  begins : Begins L (newName L J f d) d

def RecordStep (f : File) (r : Recorded) (a : Issued) (r' : Recorded) : Prop :=
  r' = r.after f (a.call.execute a.lower a.junk f r.sys).2.1

def WholeStep (f : File) (r : Recorded) (a : Issued) (r' : Recorded) : Prop :=
  RecordStep f r a r' ∧ Complete f r' ∧ a.call.LeavesRestored a.lower a.junk f r.sys

def CopyingStep (f : File) (r : Recorded) (a : Issued) (r' : Recorded) : Prop :=
  RecordStep f r a r' ∧ a.call.CopiesWhole a.lower a.junk f r.sys.disk

section
variable {L : Lower} {J : Junk} {f : File} {q : Request} {r : Recorded} {d d' : Disk} {s t : Sys}
  {x : Name} {i : Ino} {o : Option Outcome} {out : Outcome}

theorem placed_pathIno (h : Placed f d) (hi : d.pathIno x = some i) : i < d.nextIno := by
  unfold Disk.pathIno at hi
  split_ifs at hi
  · exact h.walk x i hi
  · exact h.dir x i hi

theorem placed_grows (h : Placed f d) (hg : Grows f d d') : Placed f d' where
  base := h.base.trans_le hg.nextIno
  dir x i hi := by
    rcases hg.entered x i hi with hi | ⟨_,hi⟩
    · exact (h.dir x i hi).trans_le hg.nextIno
    · exact hi
  walk x i hi := by
    rw [hg.walk] at hi
    exact (h.walk x i hi).trans_le hg.nextIno
  apart v hv := by
    rcases hg.entered _ _ hv with hi | ⟨hi,_⟩
    · exact h.apart v hi
    · exact absurd h.base (Nat.not_lt.mpr hi)

theorem complete_after (hp : Placed f r.sys.disk) (hg : Grows f r.sys.disk t.disk)
    (hc : Complete f r) (hdir : ∀ v, t.disk.dir (backupName v f.name) = none ∨
      t.disk.dir (backupName v f.name) = r.sys.disk.dir (backupName v f.name) ∨
        r.sys.disk.dir (backupName v f.name) = none) :
    Complete f (r.after f t) ↔ ∀ v, r.sys.disk.dir (backupName v f.name) = none →
      ∀ i, t.disk.dir (backupName v f.name) = some i →
        (t.disk.inodes i).content = (r.sys.disk.inodes f.ino).content := by
  constructor
  · intro h v hv i hi
    have hs := h v _ (Option.map_eq_some_iff.mpr ⟨i,hi,rfl⟩)
    exact hs.trans (if_pos hv)
  · intro h v c hvc
    obtain ⟨i,hi,rfl⟩ := Option.map_eq_some_iff.mp hvc
    change t.disk.dir (backupName v f.name) = some i at hi
    by_cases hv : r.sys.disk.dir (backupName v f.name) = none
    · exact (h v hv i hi).trans (if_pos hv).symm
    · rcases hdir v with hn | hsame | hn
      · rw [hn] at hi
        cases hi
      · rw [hsame] at hi
        have hne : i ≠ f.ino := fun he => hp.apart v (he ▸ hi)
        refine Eq.trans ?_ (if_neg hv).symm
        change (t.disk.inodes i).content = _
        rw [hg.inodes i (hp.dir _ _ hi) hne]
        exact hc v _ (Option.map_eq_some_iff.mpr ⟨i,hi,rfl⟩)
      · exact absurd hn hv

theorem complete_shrinks (hp : Placed f r.sys.disk) (hg : Grows f r.sys.disk t.disk)
    (hc : Complete f r) (hdir : ∀ v, t.disk.dir (backupName v f.name) = none ∨
      t.disk.dir (backupName v f.name) = r.sys.disk.dir (backupName v f.name)) :
    Complete f (r.after f t) := by
  refine (complete_after hp hg hc fun v => (hdir v).imp_right .inl).mpr fun v hv i hi => ?_
  rcases hdir v with hn | hsame
  · rw [hn] at hi
    cases hi
  · rw [hsame,hv] at hi
    cases hi

theorem backupRun_entry (hb : Begins L x d) (h : BackupRun L i x d o d') (hi : i ≠ d.nextIno) :
    d'.dir x = some d.nextIno ∧ ((d'.inodes d.nextIno).content = (d.inodes i).content ↔
      (d.inodes i).content = [] ∨ Copies L (d.inodes i).content.length) := by
  have hbegun : (begun x d).dir x = some d.nextIno := by simp [begun]
  rcases backupRun_begins hb h with ⟨⟨hs,hd⟩,rfl,rfl⟩ | ⟨hno,rfl⟩
  · exact ⟨hbegun,backupRun_stored (.backed hb hs hd) hi⟩
  · exact ⟨hbegun,begun_stored hno x d _⟩

theorem backupRun_unmade (hb : ¬ Begins L x d) (h : BackupRun L i x d o d') : d'.dir = d.dir := by
  cases h with
  | noDentry | noLookup => rfl
  | collision | noCreate => exact lookedUp_dir x d
  | noSource h | noDest h | unbacked h | backed h => exact absurd h hb

theorem touches_entry {U : Name → Prop} {n : Name} (h : Touches U n d d') (hx : x ≠ n) :
    d'.dir x = none ∨ d'.dir x = d.dir x := by
  by_cases hu : U x
  · exact .inl (h.gone x hu)
  · exact .inr (h.kept x hx hu)

theorem writeRun_made_entry {pos : ℕ} {buf : Bytes} (hf : f.ino < d.nextIno)
    (h : WriteRun L J f pos buf d out d') (hm : MakesBackup L J f d) :
    d'.dir (newName L J f d) = some d.nextIno ∧
      ((d'.inodes d.nextIno).content = (d.inodes f.ino).content ↔
        (d.inodes f.ino).content = [] ∨ Copies L (d.inodes f.ino).content.length) := by
  have hnx : (retained L J f d).2.nextIno = d.nextIno := retained_inodes.1
  have hne : f.ino ≠ (retained L J f d).2.nextIno := by
    rw [hnx]
    exact Nat.ne_of_lt hf
  have hmade {o : Option Outcome} {d₁ : Disk}
      (h : BackupRun L f.ino (newName L J f d) (retained L J f d).2 o d₁) := by
    have he := backupRun_entry (retained_begins.mpr hm.begins) h hne
    rwa [hnx,retained_content] at he
  cases h with
  | retention h0 => exact absurd hm.retention h0
  | stopped _ h => exact hmade h
  | wrote _ h =>
    rename_i d₁
    have hin := (Grows.vfsWrite (f := f) L pos buf d₁).inodes d.nextIno
      (by rw [(backupRun_made h).2,hnx]; exact Nat.lt_succ_self _) (Nat.ne_of_gt hf)
    rw [(vfsWrite_dir L f.ino pos buf d₁).1,hin]
    exact hmade h

theorem writeRun_unmade_entry {pos : ℕ} {buf : Bytes} (h : WriteRun L J f pos buf d out d')
    (hm : ¬ MakesBackup L J f d) : d'.dir (newName L J f d) = d.dir (newName L J f d) := by
  have hb (h0 : (retained L J f d).1 = 0) :
      ¬ Begins L (newName L J f d) (retained L J f d).2 := fun hb =>
    hm ⟨h0,retained_begins.mp hb⟩
  cases h with
  | retention => exact retained_new
  | stopped h0 h => rw [backupRun_unmade (hb h0) h,retained_new]
  | wrote h0 h => rw [(vfsWrite_dir L f.ino pos buf _).1,backupRun_unmade (hb h0) h,retained_new]

theorem write_complete {pos : ℕ} {buf : Bytes} (hp : Placed f r.sys.disk) (hc : Complete f r)
    (h : WriteRun L J f pos buf r.sys.disk out t.disk) : Complete f (r.after f t) ↔
      (KernelCall.write pos buf).CopiesWhole L J f r.sys.disk := by
  have htouch (v : Int) (hv : backupName v f.name ≠ newName L J f r.sys.disk) :=
    touches_entry (touches_write h) hv
  refine (complete_after hp (Grows.writeRun h) hc fun v => ?_).trans
    ⟨fun h' hret hb => ?_,fun h' v hv i hi => ?_⟩
  · by_cases hv : backupName v f.name = newName L J f r.sys.disk
    · rw [hv]
      by_cases hm : MakesBackup L J f r.sys.disk
      · exact .inr (.inr (begins_free hm.begins))
      · exact .inr (.inl (writeRun_unmade_entry h hm))
    · exact (htouch v hv).imp_right .inl
  · obtain ⟨hdir,hiff⟩ := writeRun_made_entry hp.base h ⟨retained_zero.mpr hret,hb⟩
    exact hiff.mp (h' _ (begins_free hb) _ hdir)
  · by_cases hn : backupName v f.name = newName L J f r.sys.disk
    · rw [hn] at hv hi
      by_cases hm : MakesBackup L J f r.sys.disk
      · obtain ⟨hdir,hiff⟩ := writeRun_made_entry hp.base h hm
        cases hdir.symm.trans hi
        exact hiff.mpr (h' (retained_zero.mp hm.retention) hm.begins)
      · rw [writeRun_unmade_entry h hm,hv] at hi
        cases hi
    · rcases htouch v hn with hnone | hsame
      · rw [hnone] at hi
        cases hi
      · rw [hsame,hv] at hi
        cases hi

theorem found_fields : (found L q d).2.inodes = Function.update d.inodes d.nextIno {} ∧
    (found L q d).2.dir (restoredName q.file) = some d.nextIno := by
  have hnx : (cleared L q d).nextIno = d.nextIno := discard_nextIno
  have hin : (cleared L q d).inodes = d.inodes := discard_inodes
  refine ⟨?_,by rw [found_dir,hnx]⟩
  rw [found,(vfsPathLookup_fields _ _ _).2.1,begun,Disk.created_inodes,lookedUp_nextIno,
    lookedUp_inodes,hnx,hin]

theorem restoreEffect_entry (hf : f.ino < d.nextIno) (hb : ¬ Blocked L q.file d)
    (hr : Restores L J f q d) : ∃ i, d.pathIno (backupName q.version q.file) = some i ∧
      (restoreEffect L J f q d).2.dir (restoredName q.file) = some d.nextIno ∧
        (i < d.nextIno → (((restoreEffect L J f q d).2.inodes d.nextIno).content =
          (d.inodes i).content ↔
            (d.inodes i).content = [] ∨ Copies L (d.inodes i).content.length)) := by
  obtain ⟨hin,hdir⟩ := found_fields (L := L) (q := q) (d := d)
  rcases found_result (L := L) (q := q) (d := d) with ⟨_,hno⟩ | ⟨⟨i,hi,_⟩,_⟩
  · exact absurd ⟨hr.pathLookup,hr.version⟩ hno
  · refine ⟨i,(found_pathIno hi).2,?_⟩
    rcases hr.opens with hnull | ⟨hs,hd,_⟩
    · have hfd : (restoreEffect L J f q d).2 = (found L q d).2 := by
        rw [restoreEffect_found (discard_free.mpr hb) (cleared_begins.mpr hr.begins) hi,
          restoreFrom]
        rcases hnull with hs | ⟨hs,hd⟩
        · rw [hs]
        · rw [hs,hd]
      rw [hfd,hdir,hin,Function.update_self]
      exact ⟨rfl,fun _ => empty_stored (isNull_unopened hnull) _⟩
    · obtain ⟨j,hj,heff⟩ := restoreEffect_cleansUp hf
        ⟨hb,hr.begins,hr.pathLookup,hr.version,hs,hd⟩
      cases hi.symm.trans hj
      have hsw := discardLoop_sweeps (L := L) (n := q.file) (counter L J f d).toNat 0
        (refilled L q i d)
      have hnx : (cleared L q d).nextIno = d.nextIno := discard_nextIno
      rw [heff J,loopResult_disk,(discardLoop_other _ _ fun v =>
        restoredName_ne_backupName _ v _).1,hsw.inodes,refilled,copyFile,Disk.setInode_dir,hdir,
        Disk.setInode_inodes,hnx,Function.update_self,hin,Function.update_self]
      refine ⟨rfl,fun hlt => ?_⟩
      rw [Function.update_of_ne hlt.ne]
      exact copies_iff hs hd

theorem restore_leaves {cmd : ℕ} (hp : Placed f s.disk) :
    (KernelCall.ioctl cmd q).LeavesRestored L J f s ↔
      (KernelCall.ioctl cmd q).CopiesWhole L J f s.disk := by
  by_cases hcmd : cmd = 1001
  · subst hcmd
    cases hl : L.lowerFile with
    | false =>
      refine iff_of_true (fun _ ho => ?_) fun h => by simp [hl] at h
      rw [ioctl_noFile J f s hl] at ho
      exact absurd (Outcome.returned.inj ho) (by decide)
    | true =>
      unfold KernelCall.LeavesRestored KernelCall.CopiesWhole
      dsimp only
      have hrun := restore_run L J f q s
      have heff := restoreRun_effect hrun
      rw [ioctl_restore J f s hl]
      dsimp only
      rw [restoreRun_zero hp.base hrun,forall_prop_of_true rfl,forall_prop_of_true hl,
        forall_prop_of_true rfl]
      constructor
      · intro h hb hr i hi
        obtain ⟨j,hj,k,hk,hcontent⟩ := h ⟨hb,hr⟩
        obtain ⟨j',hj',hdir,hiff⟩ := restoreEffect_entry hp.base hb hr
        rw [heff] at hdir hiff
        cases hi.symm.trans hj
        cases hi.symm.trans hj'
        cases hk.symm.trans hdir
        exact (hiff (placed_pathIno hp hi)).mp hcontent
      · rintro h ⟨hb,hr⟩
        obtain ⟨i,hi,hdir,hiff⟩ := restoreEffect_entry hp.base hb hr
        rw [heff] at hdir hiff
        exact ⟨i,hi,_,hdir,(hiff (placed_pathIno hp hi)).mpr (h hb hr i hi)⟩
  · exact iff_of_true (fun h => absurd h hcmd) fun _ h => absurd h hcmd

theorem unlinked_entry {U : Name → Prop} (h : Unlinked U d d') (x : Name) :
    d'.dir x = none ∨ d'.dir x = d.dir x := by
  by_cases hu : U x
  · exact .inl (h.gone x hu)
  · exact .inr (h.kept x hu)

theorem ioctl_grows (L : Lower) (J : Junk) (hf : f.ino < s.disk.nextIno) (cmd : ℕ) (q : Request) :
    Grows f s.disk (bkpfsUnlockedIoctl L J f cmd q s).2.1.disk ∧ ∀ v,
      (bkpfsUnlockedIoctl L J f cmd q s).2.1.disk.dir (backupName v f.name) = none ∨
        (bkpfsUnlockedIoctl L J f cmd q s).2.1.disk.dir (backupName v f.name) =
          s.disk.dir (backupName v f.name) := by
  obtain ⟨effect,he,hs⟩ := @ioctl_effect L J f q cmd
  rw [hs]
  refine ⟨.ioctl he s,fun v => ?_⟩
  cases he with
  | none => exact .inr rfl
  | deleteOne => exact unlinked_entry unlinked_deletedOne _
  | deleteAll => exact unlinked_entry unlinked_deletedAll _
  | restore =>
    exact touches_entry (touches_restoreEffect hf) (restoredName_ne_backupName _ _ _).symm
  | view =>
    dsimp only
    exact .inr (by rw [(vfsPathLookup_fields _ _ _).1])

theorem call_grows (L : Lower) (J : Junk) (hf : f.ino < s.disk.nextIno) (c : KernelCall) :
    Grows f s.disk (c.execute L J f s).2.1.disk := by
  cases c with
  | write pos buf => exact .writeRun (bkpfsWrite_run L J f pos buf s)
  | ioctl cmd q => exact (ioctl_grows L J hf cmd q).1

theorem whole_iff (hp : Placed f r.sys.disk) (hc : Complete f r) (c : KernelCall) :
    Complete f (r.after f (c.execute L J f r.sys).2.1) ∧ c.LeavesRestored L J f r.sys ↔
      c.CopiesWhole L J f r.sys.disk := by
  cases c with
  | write pos buf =>
    exact (and_iff_left trivial).trans
      (write_complete hp hc (bkpfsWrite_run L J f pos buf r.sys))
  | ioctl cmd q =>
    obtain ⟨hg,hdir⟩ := ioctl_grows (f := f) L J hp.base cmd q
    exact (and_iff_right (complete_shrinks hp hg hc hdir)).trans (restore_leaves hp)

end

theorem failed_copies_reported_iff (f : File) :
    (∀ (L : Lower) (J : Junk) (c : KernelCall) (s : Sys), f.ino < s.disk.nextIno →
      (c.Reported L J f s ↔ c.Echoes L J f s.disk)) ∧
    ∀ (r r' : Recorded) (calls : List Issued), Placed f r.sys.disk →
      (∀ v, r.sys.disk.dir (backupName v f.name) = none) →
        (Run (WholeStep f) r calls r' ↔ Run (CopyingStep f) r calls r') := by
  refine ⟨fun L J c s hf => reported_iff hf c,fun r r' calls hp hn => ?_⟩
  have hstart : Complete f r := by
    intro v c hv
    rw [chain_backups_eq_none.mpr (hn v)] at hv
    cases hv
  refine Run.congr (fun r => Placed f r.sys.disk ∧ Complete f r) ?_ ?_ ⟨hp,hstart⟩
  · rintro u a w ⟨hp,_⟩ ⟨rfl,hw,_⟩
    exact ⟨placed_grows hp (call_grows _ _ hp.base _),hw⟩
  · rintro u a w ⟨hp,hc⟩
    refine and_congr_right fun hstep => ?_
    rw [hstep]
    exact whole_iff hp hc a.call

theorem placed_single (f : File) (n : Inode) : Placed f (Disk.single f n) where
  base := (sound_single f n).base
  dir := (sound_single f n).allocated
  walk _ _ h := by cases h
  apart := (sound_single f n).apart

def aTxtSeven : Sys := ⟨Disk.single aTxt { content := [7] },[]⟩

theorem failed_copies_reported_iff_first :
    ((KernelCall.write 0 [1]).Reported {} {} aTxt aTxtSeven ↔
      (KernelCall.write 0 [1]).Echoes {} {} aTxt aTxtSeven.disk) ∧
    ∃ r', Run (WholeStep aTxt) ⟨aTxtSeven,fun _ => []⟩ [⟨{},{},.write 0 [1]⟩] r' := by
  obtain ⟨hcall,hrun⟩ := failed_copies_reported_iff aTxt
  have hstep : Run (CopyingStep aTxt) ⟨aTxtSeven,fun _ => []⟩ [⟨{},{},.write 0 [1]⟩] _ :=
    Run.single ⟨rfl,fun _ _ => .inr ⟨rfl,rfl,drains_of_nonneg grants_default.splice 0 _⟩⟩
  exact ⟨hcall {} {} (.write 0 [1]) aTxtSeven (by decide),_,
    (hrun _ _ _ (placed_single aTxt _) (Disk.single_backups aTxt _)).mpr hstep⟩

theorem failed_splice_ignored : ¬ ∀ (L : Lower) (J : Junk) (f : File) (c : KernelCall) (s : Sys),
    Placed f s.disk → c.Reported L J f s := by
  intro h
  have hc : WriteCopies { splice := fun _ => -5 } {} aTxt aTxtSeven.disk :=
    ⟨fun hv => absurd hv (by decide),⟨rfl,rfl,by decide +kernel,rfl⟩,rfl,rfl⟩
  have ho := (h { splice := fun _ => -5 } {} aTxt (.write 0 [1]) aTxtSeven (placed_single aTxt _)
    hc (-5) (by decide) (by decide)).1
  revert ho
  decide +kernel

end BackupFs
