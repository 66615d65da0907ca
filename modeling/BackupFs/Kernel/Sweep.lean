import BackupFs.Kernel.Effects

namespace BackupFs

def Lower.unlinkError (L : Lower) (x : Name) (d : Disk) : Int :=
  if d.dir x = none then -ENOENT else L.refusal x

section
variable {L : Lower} {x : Name} {d : Disk}

theorem removed_fst : (removed L x d).1 = L.unlinkError x d := by
  rw [Lower.unlinkError]
  cases hx : d.dir x with
  | none => rw [removed_missing hx,if_pos rfl]
  | some i =>
    rw [removed_present hx]
    simp

theorem removed_kept (h : d.dir x = none ∨ L.unlink x ≠ none) : (removed L x d).2 = d := by
  cases hx : d.dir x with
  | none => rw [removed_missing hx]
  | some i =>
    rw [removed_present hx]
    rcases h with h | h
    · simp [hx] at h
    · exact if_neg h

theorem unlinkError_blocked (hc : d.cached x = true) :
    L.unlinkError x d ≠ 0 ↔ Blocked L x d := by
  rw [← discard_blocked,discard_cached hc,Option.getD_some,removed_fst]

theorem Blocked.kept (h : Blocked L x d) : d.dir x = none ∨ L.unlink x ≠ none := by
  refine h.2.imp_right fun hr hu => hr ?_
  rw [Lower.refusal,hu]

end

section
variable (L : Lower) (n : Name) (k : ℕ) (d : Disk)

structure Reached (v : Int) : Prop where
  pos : 1 ≤ v
  le : v ≤ k
  free : ∀ w, v < w → w ≤ k → ¬ Blocked L (backupName w n) d

structure Takes (v : Int) : Prop where
  reached : Reached L n k d v
  cached : d.cached (backupName v n) = true
  present : d.dir (backupName v n) ≠ none
  unlink : L.unlink (backupName v n) = none

def Fails (e : Int) : Prop :=
  ∃ v, Reached L n k d v ∧ Blocked L (backupName v n) d ∧ e = L.unlinkError (backupName v n) d

def Finds : Prop := ∃ v : Int, 1 ≤ v ∧ v ≤ k ∧ d.cached (backupName v n) = true

structure Sweeps (err : Int) (r : Except Int Int) (d' : Disk) : Prop where
  gone : ∀ v, Takes L n k d v → d'.dir (backupName v n) = none
  kept : ∀ x, (∀ v, x = backupName v n → ¬ Takes L n k d v) → d'.dir x = d.dir x
  inodes : d'.inodes = d.inodes
  result : (∃ e, Fails L n k d e ∧ r = .error e) ∨
    (∀ e, ¬ Fails L n k d e) ∧ (Finds n k d ∧ r = .ok 0 ∨ ¬ Finds n k d ∧ r = .ok err)

end

section
variable {L : Lower} {n : Name} {k : ℕ} {d d' : Disk} {err : Int}

theorem unlinkError_ne_zero {x : Name} (h : Blocked L x d) : L.unlinkError x d ≠ 0 :=
  (unlinkError_blocked h.1).mpr h

theorem takes_free {v : Int} (h : Takes L n k d v) : ¬ Blocked L (backupName v n) d := by
  rintro ⟨_,hb⟩
  rcases hb with hb | hb
  · exact h.present hb
  · exact hb (by rw [Lower.refusal,h.unlink])

theorem fails_unique {e e' : Int} (h : Fails L n k d e) (h' : Fails L n k d e') : e = e' := by
  obtain ⟨v,hv,hb,rfl⟩ := h
  obtain ⟨w,hw,hb',rfl⟩ := h'
  rcases lt_trichotomy v w with hlt | rfl | hlt
  · exact absurd hb' (hv.free w hlt hw.le)
  · rfl
  · exact absurd hb (hw.free v hlt hv.le)

theorem fails_ne_zero {e : Int} (h : Fails L n k d e) : e ≠ 0 := by
  obtain ⟨v,_,hb,rfl⟩ := h
  exact unlinkError_ne_zero hb

theorem fails_finds {e : Int} (h : Fails L n k d e) : Finds n k d := by
  obtain ⟨v,hv,hb,_⟩ := h
  exact ⟨v,hv.pos,hv.le,hb.1⟩

theorem exists_fails {v : Int} (h1 : 1 ≤ v) (h2 : v ≤ k) (hb : Blocked L (backupName v n) d) :
    ∃ e, Fails L n k d e := by
  induction hm : ((k : Int) - v).toNat using Nat.strong_induction_on generalizing v with
  | _ m ih =>
    by_cases hw : ∃ w, v < w ∧ w ≤ k ∧ Blocked L (backupName w n) d
    · obtain ⟨w,hv,hk,hbw⟩ := hw
      exact ih _ (by omega) (by omega) hk hbw rfl
    · exact ⟨_,v,⟨h1,h2,fun w hv hk hbw => hw ⟨w,hv,hk,hbw⟩⟩,hb,rfl⟩

theorem sweeps_zero : Sweeps L n 0 d err (.ok err) d where
  gone v h := by
    have hp := h.reached.pos
    have hl := h.reached.le
    omega
  kept _ _ := rfl
  inodes := rfl
  result := by
    have hno : ¬ Finds n 0 d := fun ⟨v,hp,hl,_⟩ => by omega
    exact .inr ⟨fun e h => hno (fails_finds h),.inr ⟨hno,rfl⟩⟩

section step
variable (h : ¬ Blocked L (backupName (k + 1 : ℕ) n) d)
include h

theorem reached_step {v : Int} :
    Reached L n (k+1) d v ↔ v = (k + 1 : ℕ) ∨ Reached L n k d v := by
  constructor
  · intro hr
    rcases eq_or_ne v (k + 1 : ℕ) with rfl | hv
    · exact .inl rfl
    · have hl := hr.le
      exact .inr ⟨hr.pos,by omega,fun w h1 h2 => hr.free w h1 (by omega)⟩
  · rintro (rfl | hr)
    · exact ⟨by omega,le_refl _,fun w h1 h2 => by omega⟩
    · have hl := hr.le
      refine ⟨hr.pos,by omega,fun w h1 h2 => ?_⟩
      rcases eq_or_ne w (k + 1 : ℕ) with rfl | hw
      · exact h
      · exact hr.free w h1 (by omega)

theorem fails_step {e : Int} : Fails L n (k+1) d e ↔ Fails L n k d e := by
  constructor
  · rintro ⟨v,hr,hb,he⟩
    rcases (reached_step h).mp hr with rfl | hr
    · exact absurd hb h
    · exact ⟨v,hr,hb,he⟩
  · rintro ⟨v,hr,hb,he⟩
    exact ⟨v,(reached_step h).mpr (.inr hr),hb,he⟩

theorem takes_step {v : Int} : Takes L n (k+1) d v ↔
    v = (k + 1 : ℕ) ∧ d.cached (backupName v n) = true ∧ L.unlink (backupName v n) = none ∨
      Takes L n k d v := by
  constructor
  · rintro ⟨hr,hc,hp,hu⟩
    rcases (reached_step h).mp hr with rfl | hr
    · exact .inl ⟨rfl,hc,hu⟩
    · exact .inr ⟨hr,hc,hp,hu⟩
  · rintro (⟨rfl,hc,hu⟩ | ⟨hr,hc,hp,hu⟩)
    · exact ⟨(reached_step h).mpr (.inl rfl),hc,fun hp => h ⟨hc,.inl hp⟩,hu⟩
    · exact ⟨(reached_step h).mpr (.inr hr),hc,hp,hu⟩

end step

theorem finds_step : Finds n (k+1) d ↔
    d.cached (backupName (k + 1 : ℕ) n) = true ∨ Finds n k d := by
  constructor
  · rintro ⟨v,h1,h2,hc⟩
    rcases eq_or_ne v (k + 1 : ℕ) with rfl | hv
    · exact .inl hc
    · exact .inr ⟨v,h1,by omega,hc⟩
  · rintro (hc | ⟨v,h1,h2,hc⟩)
    · exact ⟨(k + 1 : ℕ),by omega,le_refl _,hc⟩
    · exact ⟨v,h1,by omega,hc⟩

section congr
variable (h : ∀ v : Int, 1 ≤ v → v ≤ k → d'.dir (backupName v n) = d.dir (backupName v n) ∧
  (d'.cached (backupName v n) = true ↔ d.cached (backupName v n) = true))
include h

theorem blocked_congr {v : Int} (h1 : 1 ≤ v) (h2 : v ≤ k) :
    Blocked L (backupName v n) d' ↔ Blocked L (backupName v n) d := by
  rw [Blocked,Blocked,(h v h1 h2).1,(h v h1 h2).2]

theorem reached_congr {v : Int} : Reached L n k d' v ↔ Reached L n k d v := by
  constructor
  · intro hr
    exact ⟨hr.pos,hr.le,fun w h1 h2 =>
      (blocked_congr h (by have := hr.pos; omega) h2).not.mp (hr.free w h1 h2)⟩
  · intro hr
    exact ⟨hr.pos,hr.le,fun w h1 h2 =>
      (blocked_congr h (by have := hr.pos; omega) h2).not.mpr (hr.free w h1 h2)⟩

theorem takes_congr {v : Int} : Takes L n k d' v ↔ Takes L n k d v := by
  constructor
  · rintro ⟨hr,hc,hp,hu⟩
    obtain ⟨hd,hcc⟩ := h v hr.pos hr.le
    exact ⟨(reached_congr h).mp hr,hcc.mp hc,hd ▸ hp,hu⟩
  · rintro ⟨hr,hc,hp,hu⟩
    obtain ⟨hd,hcc⟩ := h v hr.pos hr.le
    exact ⟨(reached_congr h).mpr hr,hcc.mpr hc,hd ▸ hp,hu⟩

theorem fails_congr {e : Int} : Fails L n k d' e ↔ Fails L n k d e := by
  constructor
  · rintro ⟨v,hr,hb,rfl⟩
    refine ⟨v,(reached_congr h).mp hr,(blocked_congr h hr.pos hr.le).mp hb,?_⟩
    rw [Lower.unlinkError,Lower.unlinkError,(h v hr.pos hr.le).1]
  · rintro ⟨v,hr,hb,rfl⟩
    refine ⟨v,(reached_congr h).mpr hr,(blocked_congr h hr.pos hr.le).mpr hb,?_⟩
    rw [Lower.unlinkError,Lower.unlinkError,(h v hr.pos hr.le).1]

theorem finds_congr : Finds n k d' ↔ Finds n k d :=
  exists_congr fun v => and_congr_right fun h1 => and_congr_right fun h2 => (h v h1 h2).2

end congr

theorem discard_rest (k : ℕ) (v : Int) (_ : 1 ≤ v) (h : v ≤ k) :
    (discard L (backupName (k + 1 : ℕ) n) d).2.dir (backupName v n) = d.dir (backupName v n) ∧
      ((discard L (backupName (k + 1 : ℕ) n) d).2.cached (backupName v n) = true ↔
        d.cached (backupName v n) = true) := by
  have hne : backupName v n ≠ backupName (k + 1 : ℕ) n := by
    intro he
    have hv := (backupName_inj.mp he).1
    omega
  obtain ⟨hd,hc⟩ := discard_other (L := L) (d := d) hne
  exact ⟨hd,by rw [hc]⟩

theorem discard_gone {x : Name} (hc : d.cached x = true) (hu : L.unlink x = none) :
    (discard L x d).2.dir x = none := by
  rw [discard_cached hc]
  cases hx : d.dir x with
  | none => rwa [removed_missing hx]
  | some i =>
    rw [removed_present hx]
    simp [hu]

theorem discard_stays {x : Name} (h : ¬ (d.cached x = true ∧ L.unlink x = none)) :
    (discard L x d).2.dir = d.dir := by
  by_cases hc : d.cached x = true
  · rw [discard_cached hc,removed_kept (.inr fun hu => h ⟨hc,hu⟩)]
  · rw [discard_uncached hc]

theorem sweeps_free {err' : Int} {r : Except Int Int}
    (hb : ¬ Blocked L (backupName (k + 1 : ℕ) n) d)
    (he : d.cached (backupName (k + 1 : ℕ) n) = true ∧ err' = 0 ∨
      ¬ d.cached (backupName (k + 1 : ℕ) n) = true ∧ err' = err)
    (h : Sweeps L n k (discard L (backupName (k + 1 : ℕ) n) d).2 err' r d') :
    Sweeps L n (k+1) d err r d' := by
  have hrest := discard_rest (L := L) (n := n) (d := d) k
  have hlast : ∀ w, Takes L n k (discard L (backupName (k + 1 : ℕ) n) d).2 w →
      (w : Int) ≠ (k + 1 : ℕ) := by
    intro w hw
    have hle := hw.reached.le
    omega
  refine ⟨?_,?_,h.inodes.trans discard_inodes,?_⟩
  · intro v hv
    rcases (takes_step hb).mp hv with ⟨rfl,hc,hu⟩ | hv
    · rw [h.kept _ fun w hw ht => hlast w ht (backupName_inj.mp hw).1.symm]
      exact discard_gone hc hu
    · exact h.gone v ((takes_congr hrest).mpr hv)
  · intro x hx
    rw [h.kept x fun v hv ht => hx v hv ((takes_step hb).mpr (.inr ((takes_congr hrest).mp ht)))]
    rcases eq_or_ne x (backupName (k + 1 : ℕ) n) with rfl | hne
    · rw [discard_stays]
      exact fun ⟨hc,hu⟩ => hx _ rfl ((takes_step hb).mpr (.inl ⟨rfl,hc,hu⟩))
    · exact (discard_other hne).1
  · rcases h.result with ⟨e,hf,hr⟩ | ⟨hno,hr⟩
    · exact .inl ⟨e,(fails_step hb).mpr ((fails_congr hrest).mp hf),hr⟩
    · refine .inr ⟨fun e hf => hno e ((fails_congr hrest).mpr ((fails_step hb).mp hf)),?_⟩
      rw [finds_congr hrest] at hr
      rw [finds_step]
      rcases hr with ⟨hf,hr⟩ | ⟨hf,hr⟩
      · exact .inl ⟨.inr hf,hr⟩
      · rcases he with ⟨hc,rfl⟩ | ⟨hc,rfl⟩
        · exact .inl ⟨.inl hc,hr⟩
        · exact .inr ⟨fun hor => hor.elim hc hf,hr⟩

theorem sweeps_blocked (hb : Blocked L (backupName (k + 1 : ℕ) n) d) :
    Sweeps L n (k+1) d err (.error (L.unlinkError (backupName (k + 1 : ℕ) n) d))
      (discard L (backupName (k + 1 : ℕ) n) d).2 := by
  have hlast : Reached L n (k+1) d (k + 1 : ℕ) :=
    ⟨by omega,le_refl _,fun w h1 h2 => by omega⟩
  have hstay : (discard L (backupName (k + 1 : ℕ) n) d).2.dir = d.dir := by
    rw [discard_cached hb.1,removed_kept hb.kept]
  refine ⟨?_,fun x _ => by rw [hstay],discard_inodes,.inl ⟨_,⟨_,hlast,hb,rfl⟩,rfl⟩⟩
  intro v hv
  rcases eq_or_ne v (k + 1 : ℕ) with rfl | hne
  · exact absurd hb (takes_free hv)
  · have hle := hv.reached.le
    exact absurd hb (hv.reached.free _ (by omega) (le_refl _))

theorem discardLoop_sweeps (k : ℕ) (err : Int) (d : Disk) :
    Sweeps L n k d err (discardLoop L n k err d).1 (discardLoop L n k err d).2 := by
  induction k generalizing err d with
  | zero => exact sweeps_zero
  | succ k ih =>
    rw [discardLoop]
    by_cases hc : d.cached (backupName (k + 1 : ℕ) n) = true
    · have hstop (hb) : Sweeps L n (k+1) d err _ _ := sweeps_blocked hb
      have hnext (hb) : Sweeps L n (k+1) d err _ _ := sweeps_free hb (.inl ⟨hc,rfl⟩) (ih 0 _)
      have herr := unlinkError_blocked (L := L) hc
      rw [discard_cached hc] at hstop hnext ⊢
      rw [removed_fst]
      dsimp only at hstop hnext ⊢
      split_ifs with he
      · exact hstop (herr.mp he)
      · rw [not_not.mp he]
        exact hnext (herr.not.mp he)
    · have hnext : Sweeps L n (k+1) d err _ _ :=
        sweeps_free (fun hb => hc hb.1) (.inr ⟨hc,rfl⟩) (ih err _)
      rw [discard_uncached hc] at hnext ⊢
      exact hnext

end

end BackupFs
