import BackupFs.Chain.Counted
import BackupFs.Failure.Restore
import BackupFs.Mount.Match

namespace BackupFs

open Transition

def Disk.entry (d : Disk) (x : Name) : Option Inode := (d.dir x).map d.inodes

structure Restored (f : File) (content : Bytes) (d : Disk)
    (out : Outcome × Sys × Option Query) : Prop where
  outcome : out.1 = .returned 0
  current : out.2.1.disk.dir f.name = none
  backups : ∀ v, out.2.1.disk.dir (backupName v f.name) = none
  restored : out.2.1.disk.entry (restoredName f.name) = some { content := content }
  other : ∀ x : Name, x ≠ f.name → x ≠ restoredName f.name → (∀ v, x ≠ backupName v f.name) →
    out.2.1.disk.dir x = d.dir x ∧ out.2.1.disk.entry x = d.entry x

section
variable {L : Lower} {J : Junk} {f : File} {q : Request} {d d' : Disk} {i : Ino}

theorem cleared_granted (hL : L.Grants) (hd : d.Exact) :
    (discard L q.file d).1.getD 0 = 0 ∧ (cleared L q d).Exact ∧
      (cleared L q d).dir = Function.update d.dir q.file none := by
  obtain ⟨h0,hdir,hex⟩ := discard_exact hL hd q.file
  exact ⟨h0,hex,hdir⟩

theorem found_granted (hL : L.Grants) (hq : slash ∉ q.file)
    (hv : d.dir (backupName q.version q.file) = some i) : found L q d =
      (.ok i,(begun (restoredName q.file) (cleared L q d)).hash
        (backupName q.version q.file)) := by
  have hs : slash ∉ backupName q.version q.file := fun h => hq (slash_mem_backupName.mp h)
  have hp : (begun (restoredName q.file) (cleared L q d)).pathIno
      (backupName q.version q.file) = some i := by
    rw [version_pathIno,Disk.pathIno_of_slash _ hs,hv]
  unfold found vfsPathLookup
  rw [hL.pathLookup]
  dsimp only
  rw [hp,if_neg hs]

theorem restores_granted (hL : L.Grants) (hd : d.Exact) (J : Junk) (f : File) (hq : slash ∉ q.file)
    (hfree : d.dir (restoredName q.file) = none)
    (hv : d.dir (backupName q.version q.file) = some i) : Restores L J f q d := by
  have hs : slash ∉ backupName q.version q.file := fun h => hq (slash_mem_backupName.mp h)
  have hr : slash ∉ restoredName q.file := fun h => hq (slash_mem_restoredName.mp h)
  refine ⟨begins_granted hL hr hfree,hL.pathLookup,?_,.inr ⟨hL.openSrc,hL.openDest,?_⟩⟩
  · rw [Disk.pathIno_of_slash _ hs,hv]
    rfl
  · rintro v _ _ (hc | ⟨rfl,_⟩)
    · rw [hd] at hc
      exact ⟨Option.isSome_iff_ne_none.mp hc,refusal_grants hL _⟩
    · exact ⟨by rw [hv]; exact Option.some_ne_none _,refusal_grants hL _⟩

theorem restoreRun_granted (hL : L.Grants) (hd : d.Exact) (hf : f.ino < d.nextIno)
    (hq : slash ∉ q.file) (hfree : d.dir (restoredName q.file) = none)
    (hv : d.dir (backupName q.version q.file) = some i) {o : Outcome}
    (h : RestoreRun L J f q d o d') :
    o = .returned 0 ∧
      d' = (discardLoop L q.file (counter L J f d).toNat 0 (refilled L q i d)).2 := by
  have hcur : ¬ Blocked L q.file d := discard_free.mp (cleared_granted hL hd).1
  have hr := restores_granted hL hd J f hq hfree hv
  refine ⟨(restoreRun_zero hf h).mpr ⟨hcur,hr⟩,?_⟩
  obtain ⟨j,hj,heff⟩ := restoreEffect_cleansUp hf
    ⟨hcur,hr.begins,hr.pathLookup,hr.version,hL.openSrc,hL.openDest⟩
  rw [found_granted hL hq hv] at hj
  cases hj
  have hd' := congrArg Prod.snd (restoreRun_effect h)
  rw [heff J,loopResult_disk] at hd'
  exact hd'.symm

theorem refilled_granted (hL : L.Grants) (hd : d.Exact) (ha : d.Allocated) (hq : slash ∉ q.file)
    (hv : d.dir (backupName q.version q.file) = some i) : (refilled L q i d).Exact ∧
      (refilled L q i d).dir = Function.update (Function.update d.dir q.file none)
        (restoredName q.file) (some d.nextIno) ∧
      (refilled L q i d).inodes =
        Function.update d.inodes d.nextIno { content := (d.inodes i).content } := by
  obtain ⟨_,hex,hdir⟩ := cleared_granted (q := q) hL hd
  have hnx : (cleared L q d).nextIno = d.nextIno := discard_nextIno
  have hin : (cleared L q d).inodes = d.inodes := discard_inodes
  have hi : i ≠ (cleared L q d).nextIno := by
    rw [hnx]
    exact Nat.ne_of_lt (ha _ _ hv)
  have hbegun := created_exact hex (restoredName q.file)
  have hsnap := snapshot_granted hL (x := restoredName q.file) hi
  rw [refilled,found_granted hL hq hv]
  refine ⟨?_,?_,?_⟩
  · intro x
    change ((begun (restoredName q.file) (cleared L q d)).hash _).cached x =
      ((begun (restoredName q.file) (cleared L q d)).dir x).isSome
    rw [Disk.hash_cached]
    rcases eq_or_ne x (backupName q.version q.file) with rfl | hx
    · rw [Function.update_self,
        (begun_other (restoredName_ne_backupName q.file q.version q.file).symm).1,
        (cleared_other (backupName_ne_self _ _)).1,hv]
      rfl
    · rw [Function.update_of_ne hx]
      exact hbegun x
  · rw [copyFile,Disk.setInode_dir,Disk.hash_dir,begun,Disk.created_dir,lookedUp_dir,
      lookedUp_nextIno,hdir,hnx]
  · change (snapshot L i (restoredName q.file) (cleared L q d)).inodes = _
    rw [hsnap,hin,hnx]

theorem restored_disk {s : Sys} (hL : L.Grants) (hk : Kept f s.disk) (hq : q.file = f.name)
    (hfree : s.disk.dir (restoredName q.file) = none)
    (hv : s.disk.dir (backupName q.version q.file) = some i) :
    (restore L J f q s).1 = .returned 0 ∧
      (∀ v, (restore L J f q s).2.disk.dir (backupName v q.file) = none) ∧
        (∀ x, (∀ v, x ≠ backupName v q.file) → (restore L J f q s).2.disk.dir x =
          Function.update (Function.update s.disk.dir q.file none) (restoredName q.file)
            (some s.disk.nextIno) x) ∧
          (restore L J f q s).2.disk.inodes = Function.update s.disk.inodes s.disk.nextIno
            { content := (s.disk.inodes i).content } := by
  have hslash : slash ∉ q.file := hq ▸ f.name.property.2.1
  obtain ⟨ho,hd'⟩ := restoreRun_granted hL hk.sound.exact hk.sound.base hslash hfree hv
    (restore_run L J f q s)
  obtain ⟨hex,hdir,hin⟩ := refilled_granted hL hk.sound.exact hk.sound.allocated hslash hv
  have hsw := (discardLoop_exact hL q.file (counter L J f s.disk).toNat 0 hex).2
  rw [← hd'] at hsw
  refine ⟨ho,fun v => ?_,fun x hx => ?_,hsw.inodes.trans hin⟩
  · by_cases hle : 1 ≤ v ∧ v ≤ (counter L J f s.disk).toNat
    · exact hsw.gone v hle.1 hle.2
    · rw [hsw.kept _ fun w h1 h2 he => hle (by rw [(backupName_inj.mp he).1]; exact ⟨h1,h2⟩),hdir,
        Function.update_of_ne (restoredName_ne_backupName _ v _).symm,
        Function.update_of_ne (backupName_ne_self v _),hq,← chain_backups_eq_none,
        ← Option.not_isSome_iff_eq_none]
      intro hs
      obtain ⟨r,hr,_,_,hvr,h1,_⟩ := hk.windowed v hs
      rw [counter_revision hL hr] at hle
      omega
  · rw [hsw.kept x fun v _ _ => hx v,hdir]

end

theorem restored_granted {L : Lower} {J : Junk} {f : File} {q : Request} {s : Sys}
    {content : Bytes} (hL : L.Grants) (hk : Kept f s.disk) (hq : q.file = f.name)
    (hfree : s.disk.dir (restoredName f.name) = none)
    (hv : (chain f s.disk).backups q.version = some content) :
    Restored f content s.disk (bkpfsUnlockedIoctl L J f 1001 q s) := by
  obtain ⟨i,hi,rfl⟩ := Option.map_eq_some_iff.mp hv
  rw [← hq] at hfree hi
  obtain ⟨ho,hgone,hdir,hin⟩ := restored_disk (J := J) hL hk hq hfree hi
  rw [hq] at hgone hdir
  have hself (v : Int) : f.name.val ≠ backupName v f.name := (backupName_ne_self v _).symm
  rw [ioctl_restore J f s hL.lowerFile]
  refine ⟨ho,?_,hgone,?_,fun x hx hxr hxb => ?_⟩
  · rw [hdir _ hself,Function.update_of_ne (restoredName_ne_self _).symm,Function.update_self]
  · rw [Disk.entry,hdir _ fun v => restoredName_ne_backupName _ v _,Function.update_self,
      Option.map_some,hin,Function.update_self]
  · have hkept : (restore L J f q s).2.disk.dir x = s.disk.dir x := by
      rw [hdir x hxb,Function.update_of_ne hxr,Function.update_of_ne hx]
    refine ⟨hkept,?_⟩
    rw [Disk.entry,Disk.entry,hkept,hin]
    cases hj : s.disk.dir x with
    | none => rfl
    | some j =>
      rw [Option.map_some,Option.map_some,
        Function.update_of_ne (Nat.ne_of_lt (hk.sound.allocated x j hj))]

theorem restore_exact {f : File} {s t : Sys} {calls : List Call} {L : Lower} {J : Junk}
    {q : Request} {content : Bytes} (hs : Sound f s.disk)
    (hn : ∀ v, s.disk.dir (backupName v f.name) = none) (run : Run (CountedStep f) s calls t)
    (hfree : t.disk.dir (restoredName f.name) = none) (hL : L.Grants) (hq : q.file = f.name)
    (hv : (chain f t.disk).backups q.version = some content) :
    Restored f content t.disk (bkpfsUnlockedIoctl L J f 1001 q t) :=
  restored_granted hL (kept_run hs hn run) hq hfree hv

theorem restore_exact_second : ∃ t : Sys, (chain aTxt t.disk).backups 2 = some (bytesOf "two") ∧
    Restored aTxt (bytesOf "two") t.disk
      (bkpfsUnlockedIoctl {} {} aTxt 1001 (clientRequest aTxt.name 2) t) := by
  have h1 : Run (CountedStep aTxt) ⟨Disk.single aTxt { content := bytesOf "one" },[]⟩ _ _ :=
    Run.single ⟨@VersionStep.write aTxt _ {} { val := -7 } 0 (bytesOf "two") grants_default,
      by change _ < INT_MAX; decide +kernel⟩
  have h2 := h1.snoc ⟨@VersionStep.write aTxt _ {} {} 0 (bytesOf "six") grants_default,
    by change _ < INT_MAX; decide +kernel⟩
  exact ⟨_,by decide +kernel,restore_exact (sound_single aTxt _) (Disk.single_backups aTxt _) h2
    (by decide +kernel) grants_default (clientRequest_file _ _) (by decide +kernel)⟩

theorem wrapped_restore_leaves_backup : ¬ ∀ (f : File) (s t : Sys) (calls : List Call)
    (L : Lower) (J : Junk) (q : Request) (content : Bytes), Sound f s.disk →
      (∀ v, s.disk.dir (backupName v f.name) = none) → Run (VersionStep f) s calls t →
        t.disk.dir (restoredName f.name) = none → L.Grants → q.file = f.name →
          (chain f t.disk).backups q.version = some content →
            Restored f content t.disk (bkpfsUnlockedIoctl L J f 1001 q t) := by
  intro h
  obtain ⟨calls,run⟩ := wrapped_run
  have hr := h aTxt _ wrapped calls {} {} (clientRequest aTxt.name (-INT_MAX - 1)) []
    (sound_single aTxt {}) (Disk.single_backups aTxt {}) run (by decide +kernel) grants_default
    (clientRequest_file _ _) (by decide +kernel)
  have hgone := hr.backups (-INT_MAX - 1)
  revert hgone
  decide +kernel

end BackupFs
