import BackupFs.Chain.Restart
import BackupFs.Client.List
import BackupFs.Client.View

namespace BackupFs

open Transition

inductive NumberedStep (f : File) (s : Sys) : Int → Sys → Prop
  | write {L : Lower} {J : Junk} {pos : ℕ} {buf : Bytes} (hL : L.Grants) :
      NumberedStep f s (nextVersion (counter L J f s.disk)) (bkpfsWrite L J f pos buf s).2

def numbering (n : ℕ) : List Int := (List.range n).map fun k => ((k + 1 : ℕ) : Int)

structure Reports (f : File) (n : ℕ) (d : Disk) (u : UserQuery) : Prop where
  youngest : u.youngest = n
  oldest : u.oldest = max 1 (n - N + 1)
  largest : IsGreatest (numbers f d) n
  smallest : IsLeast (numbers f d) (max 1 (n - N + 1))

section
variable {f : File} {s t : Sys} {n : ℕ}

theorem numbering_succ (n : ℕ) : numbering (n+1) = numbering n ++ [((n + 1 : ℕ) : Int)] := by
  rw [numbering,List.range_succ,List.map_append]
  rfl

theorem spans_start (hn : ∀ v, s.disk.dir (backupName v f.name) = none) :
    Spans (chain f s.disk) 0 := by
  intro v
  rw [chain_backups_eq_none.mpr (hn v)]
  refine iff_of_false (by simp) ?_
  omega

theorem numbered_run (hs : Sound f s.disk)
    (hn : ∀ v, s.disk.dir (backupName v f.name) = none)
    (run : Run (NumberedStep f) s (numbering n) t) : Sound f t.disk ∧ Spans (chain f t.disk) n ∧
      (1 ≤ n → n ≤ INT_MAX ∧ (chain f t.disk).revision = some (n : Int)) := by
  generalize hv : numbering n = vs at run
  induction run generalizing n with
  | nil =>
    cases n with
    | zero => exact ⟨hs,spans_start hn,fun h => absurd h (by decide)⟩
    | succ n => simp [numbering_succ] at hv
  | snoc run ha ih =>
    cases n with
    | zero => simp [numbering] at hv
    | succ n =>
      rw [numbering_succ] at hv
      obtain ⟨hvs,hlast⟩ := List.append_inj' hv rfl
      obtain ⟨hs,hsp,_⟩ := ih hvs
      cases ha with
      | write hL =>
        have hnum := (List.cons.inj hlast).1.symm
        obtain ⟨hs',hrev,hsp',_⟩ := write_spans hL hs hsp hnum _ _
        refine ⟨hs',hsp',fun _ => ⟨?_,hrev⟩⟩
        rw [← hnum]
        exact nextVersion_le _

theorem spans_bounds (h : Spans (chain f t.disk) n) (h1 : 1 ≤ n) :
    IsGreatest (numbers f t.disk) n ∧ IsLeast (numbers f t.disk) (max 1 (n - N + 1)) := by
  have hN : N = 10 := rfl
  have hmem (v : Int) : v ∈ numbers f t.disk ↔ n - N < v ∧ 1 ≤ v ∧ v ≤ n := by
    rw [numbers_eq]
    exact h v
  refine ⟨⟨(hmem n).mpr (by omega),fun v hv => ((hmem v).mp hv).2.2⟩,
    (hmem _).mpr (by omega),fun v hv => ?_⟩
  have hb := (hmem v).mp hv
  omega

end

theorem list_reply_iff {f : File} {s t : Sys} {n : ℕ} (hs : Sound f s.disk)
    (hn : ∀ v, s.disk.dir (backupName v f.name) = none)
    (run : Run (NumberedStep f) s (numbering n) t) (h1 : 1 ≤ n) {L : Lower} (hL : L.Grants)
    (J : Junk) (q : Request) :
    (∃ r, (bkpfsUnlockedIoctl L J f 1003 q t).2.2 = some r ∧
      Reports f n t.disk (userQuery r.bytes)) ↔ n = 1 := by
  obtain ⟨_,hsp,hrun⟩ := numbered_run hs hn run
  obtain ⟨hmax,hrev⟩ := hrun h1
  obtain ⟨hlargest,hsmallest⟩ := spans_bounds hsp h1
  have hc : counter L J f t.disk = n := counter_revision hL hrev J
  have hN : N = 10 := rfl
  rw [ioctl_list J f t hL.lowerFile,list_delivers J f t hL.copyToUser,hc]
  generalize hr : Query.mk _ _ _ _ _ = r
  obtain ⟨_,hold,hyoung,_⟩ := userQuery_fields r
  rw [← hr] at hold hyoung
  dsimp only at hold hyoung
  rw [wrapInt_eq (by omega) hmax] at hold
  rw [hr] at hold hyoung
  constructor
  · rintro ⟨r',he,hrep⟩
    cases he
    have hy := hrep.youngest
    have ho := hrep.oldest
    rw [hyoung] at hy
    rw [hold] at ho
    split_ifs at hy with hle
    · rw [wrapInt_eq (by decide) (by decide)] at hy
      omega
    · omega
  · rintro rfl
    refine ⟨r,rfl,?_,?_,hlargest,hsmallest⟩
    · rw [hyoung,if_pos (by decide)]
      decide
    · rw [hold]
      decide

def once : Sys := (bkpfsWrite {} {} aTxt 0 (bytesOf "one") ⟨Disk.single aTxt {},[]⟩).2

theorem once_numbered :
    Run (NumberedStep aTxt) ⟨Disk.single aTxt {},[]⟩ (numbering 1) once := by
  have h := Run.single (@NumberedStep.write aTxt ⟨Disk.single aTxt {},[]⟩ {} {} 0 (bytesOf "one")
    grants_default)
  have hv : nextVersion (counter {} {} aTxt (Disk.single aTxt {})) = 1 := by decide +kernel
  rw [hv] at h
  exact h

theorem twice_numbered :
    Run (NumberedStep aTxt) ⟨Disk.single aTxt {},[]⟩ (numbering 2) twice := by
  have h := once_numbered.snoc (@NumberedStep.write aTxt once {} {} 0 (bytesOf "two")
    grants_default)
  have hv : nextVersion (counter {} {} aTxt once.disk) = 2 := by decide +kernel
  rw [hv] at h
  exact h

theorem list_reply_iff_once : ∃ r,
    (bkpfsUnlockedIoctl {} {} aTxt 1003 (clientRequest aTxt.name 0) once).2.2 = some r ∧
      Reports aTxt 1 once.disk (userQuery r.bytes) :=
  (list_reply_iff (sound_single aTxt {}) (Disk.single_backups aTxt {}) once_numbered (le_refl 1)
    grants_default {} (clientRequest aTxt.name 0)).mpr rfl

theorem list_reply_swapped : ¬ ∀ (f : File) (s t : Sys) (n : ℕ), Sound f s.disk →
    (∀ v, s.disk.dir (backupName v f.name) = none) → Run (NumberedStep f) s (numbering n) t →
      1 ≤ n → ∀ (L : Lower) (J : Junk) (q : Request), L.Grants →
        ∃ r, (bkpfsUnlockedIoctl L J f 1003 q t).2.2 = some r ∧
          Reports f n t.disk (userQuery r.bytes) := by
  intro h
  obtain ⟨r,hr,hrep⟩ := h aTxt _ twice 2 (sound_single aTxt {}) (Disk.single_backups aTxt {})
    twice_numbered (by decide) {} {} (clientRequest aTxt.name 0) grants_default
  have hy : (bkpfsUnlockedIoctl {} {} aTxt 1003 (clientRequest aTxt.name 0) twice).2.2.map
      (fun r => (userQuery r.bytes).youngest) = some 1 := by decide +kernel
  rw [hr] at hy
  have hone : (userQuery r.bytes).youngest = 1 := Option.some.inj hy
  exact absurd (hone.symm.trans hrep.youngest) (by decide)

end BackupFs
