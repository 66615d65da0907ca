import BackupFs.Chain.Window

namespace BackupFs

open Transition

inductive VersionStep (f : File) (s : Sys) : Call → Sys → Prop
  | write {L : Lower} {J : Junk} {pos : ℕ} {buf : Bytes} (hL : L.Grants) :
      VersionStep f s (.write L J pos buf) (bkpfsWrite L J f pos buf s).2
  | delete {L : Lower} {J : Junk} {q : Request} (hL : L.Grants) (hq : q.file = f.name) :
      VersionStep f s (.delete L J q) (bkpfsUnlockedIoctl L J f 1000 q s).2.1

def Call.IsWrite : Call → Prop
  | .write _ _ _ _ => True
  | .delete _ _ _ => False

def Call.Counts (f : File) (d : Disk) : Call → Prop
  | .write L J _ _ => counter L J f d < INT_MAX
  | .delete _ _ _ => True

def CountedStep (f : File) (s : Sys) (a : Call) (t : Sys) : Prop :=
  VersionStep f s a t ∧ a.Counts f s.disk

def WriteStep (f : File) (s : Sys) (a : Call) (t : Sys) : Prop :=
  VersionStep f s a t ∧ a.IsWrite

structure Kept (f : File) (d : Disk) : Prop where
  sound : Sound f d
  windowed : Windowed (chain f d)

theorem windowed_none {c : Chain} (h : ∀ v, c.backups v = none) : Windowed c := by
  intro v hv
  rw [h v] at hv
  cases hv

section
variable {f : File} {s t : Sys} {a : Call}

theorem kept_start (hs : Sound f s.disk) (hn : ∀ v, s.disk.dir (backupName v f.name) = none) :
    Kept f s.disk :=
  ⟨hs,windowed_none fun v => chain_backups_eq_none.mpr (hn v)⟩

theorem counted_callStep (h : CountedStep f s a t) (log : List (Int × Bytes)) :
    ∃ log', CallStep f ⟨s,log⟩ a ⟨t,log'⟩ := by
  obtain ⟨hstep,hc⟩ := h
  cases hstep with
  | write hL => exact ⟨_,.write hL hc⟩
  | delete hL hq => exact ⟨_,.delete hL hq⟩

theorem counted_chain (hk : Kept f s.disk) (h : CountedStep f s a t) : Kept f t.disk ∧
    chain f t.disk = (chain f s.disk).call a := by
  obtain ⟨_,hstep⟩ := counted_callStep h []
  obtain ⟨hs,hch,hc⟩ := callStep_chain hk.sound hk.windowed hstep
  refine ⟨⟨hs,?_⟩,hch⟩
  rw [hch]
  exact windowed_call hk.windowed hc

theorem kept_run {calls : List Call} (hs : Sound f s.disk)
    (hn : ∀ v, s.disk.dir (backupName v f.name) = none)
    (run : Run (CountedStep f) s calls t) : Kept f t.disk :=
  run.invariant (fun s => Kept f s.disk) (fun _ _ _ h hs => (counted_chain h hs).1)
    (kept_start hs hn)

end

def wrapped : Sys := (bkpfsWrite {} { val := INT_MAX } aTxt 0 [1] ⟨Disk.single aTxt {},[]⟩).2

theorem wrapped_run : ∃ calls, Run (VersionStep aTxt) ⟨Disk.single aTxt {},[]⟩ calls wrapped :=
  ⟨_,Run.single (@VersionStep.write aTxt _ {} { val := INT_MAX } 0 [1] grants_default)⟩

end BackupFs
