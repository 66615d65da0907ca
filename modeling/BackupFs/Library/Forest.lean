import Mathlib.Data.Fintype.Card
import Mathlib.Data.Nat.Find
import Mathlib.Logic.Function.Iterate
import Mathlib.Tactic

namespace Forest

variable {V : Type} {parent : V → V} {a b v x p root : V}

inductive Above (parent : V → V) (a : V) : V → Prop
  | refl : Above parent a a
  | up {v : V} (h : Above parent a (parent v)) : Above parent a v

theorem above_iff_iterate : Above parent a v ↔ ∃ n, parent^[n] v = a := by
  constructor
  · intro h
    induction h with
    | refl => exact ⟨0,rfl⟩
    | up _ ih =>
      obtain ⟨n,hn⟩ := ih
      exact ⟨n + 1,hn⟩
  · rintro ⟨n,hn⟩
    induction n generalizing v with
    | zero => exact hn ▸ .refl
    | succ n ih => exact .up (ih hn)

theorem above_trans (h : Above parent a b) (h' : Above parent b v) : Above parent a v := by
  induction h' with
  | refl => exact h
  | up _ ih => exact .up ih

theorem above_parent (h : Above parent a v) : Above parent (parent a) v :=
  above_trans (.up .refl) h

theorem above_cases (h : Above parent a v) : a = v ∨ Above parent a (parent v) := by
  cases h with
  | refl => exact .inl rfl
  | up h => exact .inr h

theorem above_root (hr : parent root = root) (h : Above parent a root) : a = root := by
  obtain ⟨n,hn⟩ := above_iff_iterate.mp h
  rw [Function.iterate_fixed hr] at hn
  exact hn.symm

theorem above_total (h : Above parent a v) (h' : Above parent b v) :
    Above parent a b ∨ Above parent b a := by
  induction h with
  | refl => exact .inr h'
  | up h ih =>
    rcases above_cases h' with rfl | h'
    · exact .inl (.up h)
    · exact ih h'

theorem root_above (hr : parent root = root) (h : Above parent root v) (ha : Above parent a v) :
    Above parent root a := by
  rcases above_total h ha with h | h
  · exact h
  · exact above_root hr h ▸ .refl

def Rooted (parent : V → V) (root : V) : Prop := ∀ v, Above parent root v

theorem rooted_no_cycle (hr : parent root = root) (h : Above parent root v)
    (hv : Above parent v (parent v)) : v = root := by
  obtain ⟨n,hn⟩ := above_iff_iterate.mp hv
  have hfix : ∀ m, parent^[m * (n + 1)] v = v := by
    intro m
    rw [mul_comm,Function.iterate_mul]
    exact Function.iterate_fixed hn m
  obtain ⟨k,hk⟩ := above_iff_iterate.mp h
  have hle : k ≤ k * (n + 1) := Nat.le_mul_of_pos_right k (Nat.succ_pos n)
  obtain ⟨j,hj⟩ := Nat.exists_eq_add_of_le hle
  rw [← hfix k,hj,add_comm,Function.iterate_add_apply,hk,Function.iterate_fixed hr]

section update
variable [DecidableEq V]

theorem above_update (h : ¬ Above parent x v) :
    Above (Function.update parent x p) a v ↔ Above parent a v := by
  constructor
  · intro ha
    induction ha with
    | refl => exact .refl
    | @up w _ ih =>
      have hne : w ≠ x := by
        rintro rfl
        exact h .refl
      rw [Function.update_of_ne hne] at ih
      exact .up (ih fun hx => h (.up hx))
  · intro ha
    induction ha with
    | refl => exact .refl
    | @up w _ ih =>
      have hne : w ≠ x := by
        rintro rfl
        exact h .refl
      refine .up ?_
      rw [Function.update_of_ne hne]
      exact ih fun hx => h (.up hx)

theorem rooted_update_iff (hr : parent root = root) (h : Rooted parent root) (hx : x ≠ root) :
    Rooted (Function.update parent x p) root ↔ ¬ Above parent x p := by
  constructor
  · intro hn hp
    -- every climb from `x` stays among the vertices below `x`
    have hcycle : ∀ v, Above (Function.update parent x p) root v → Above parent x v → x = root := by
      intro v hv
      induction hv with
      | refl => exact fun hxr => above_root hr hxr
      | @up w _ ih =>
        intro hw
        refine ih ?_
        rcases eq_or_ne w x with rfl | hne
        · rw [Function.update_self]
          exact hp
        · rw [Function.update_of_ne hne]
          exact (above_cases hw).resolve_left (Ne.symm hne)
    exact hx (hcycle x (hn x) .refl)
  · intro hp v
    have hroot : Above (Function.update parent x p) root p := (above_update hp).mpr (h p)
    have hv := h v
    induction hv with
    | refl => exact .refl
    | @up w _ ih =>
      refine .up ?_
      rcases eq_or_ne w x with rfl | hne
      · rw [Function.update_self]
        exact hroot
      · rw [Function.update_of_ne hne]
        exact ih

end update

section climb
variable [DecidableEq V]

def childAbove (parent : V → V) (a : V) : ℕ → V → Option V
  | 0, _ => none
  | fuel + 1, v =>
    if parent v = v then none
    else if parent v = a then some v
    else childAbove parent a fuel (parent v)

theorem childAbove_some {fuel : ℕ} (h : childAbove parent a fuel v = some x) :
    parent x = a ∧ parent x ≠ x ∧ Above parent x v := by
  induction fuel generalizing v with
  | zero => cases h
  | succ fuel ih =>
    rw [childAbove] at h
    split_ifs at h with hv ha
    · cases h
      exact ⟨ha,hv,.refl⟩
    · obtain ⟨h1,h2,h3⟩ := ih h
      exact ⟨h1,h2,.up h3⟩

theorem childAbove_isSome {fuel k : ℕ} (hr : parent root = root) (hk : parent^[k] v = root)
    (hf : k ≤ fuel) (ha : Above parent a v) (hne : a ≠ v) :
    ∃ x, childAbove parent a fuel v = some x := by
  induction fuel generalizing v k with
  | zero =>
    obtain rfl : k = 0 := Nat.le_zero.mp hf
    have hv : v = root := hk
    subst hv
    exact absurd (above_root hr ha) hne
  | succ fuel ih =>
    have hup := (above_cases ha).resolve_left hne
    rw [childAbove]
    split_ifs with hv hp
    · exact absurd (above_root hv (hv ▸ hup)) hne
    · exact ⟨v,rfl⟩
    · cases k with
      | zero =>
        have hv' : v = root := hk
        exact absurd (hv' ▸ hr) hv
      | succ k => exact ih hk (Nat.le_of_succ_le_succ hf) hup (Ne.symm hp)

end climb

theorem depth_lt {parent : ℕ → ℕ} {root v n : ℕ} (hc : ∀ u < n, parent u < n) (hv : v < n)
    (h : Above parent root v) : ∃ k < n, parent^[k] v = root := by
  classical
  have hex := above_iff_iterate.mp h
  refine ⟨Nat.find hex,?_,Nat.find_spec hex⟩
  have hlt : ∀ i, parent^[i] v < n := by
    intro i
    induction i with
    | zero => exact hv
    | succ i ih =>
      rw [Function.iterate_succ_apply']
      exact hc _ ih
  -- a repetition before the root would be a shorter way to it
  have hinj : Function.Injective fun i : Fin (Nat.find hex + 1) =>
      (⟨parent^[i] v,hlt i⟩ : Fin n) := by
    have hne : ∀ i j : ℕ, i < j → j ≤ Nat.find hex → parent^[i] v ≠ parent^[j] v := by
      intro i j hij hj he
      obtain ⟨m,hm⟩ := Nat.exists_eq_add_of_le hj
      have hroot := Nat.find_spec hex
      rw [hm,add_comm,Function.iterate_add_apply,← he,← Function.iterate_add_apply] at hroot
      exact Nat.find_min hex (by omega) hroot
    intro i j he
    have he' : parent^[(i : ℕ)] v = parent^[(j : ℕ)] v := congrArg Fin.val he
    rcases lt_trichotomy (i : ℕ) j with hij | hij | hij
    · exact absurd he' (hne i j hij (Nat.lt_succ_iff.mp j.2))
    · exact Fin.ext hij
    · exact absurd he'.symm (hne j i hij (Nat.lt_succ_iff.mp i.2))
  have hcard := Fintype.card_le_of_injective _ hinj
  rw [Fintype.card_fin,Fintype.card_fin] at hcard
  omega

theorem childAbove_iff {parent : ℕ → ℕ} {root a v n : ℕ} (hr : parent root = root)
    (h : Above parent root v) (hc : ∀ u < n, parent u < n) (hv : v < n) :
    (∃ x, childAbove parent a n v = some x) ↔ Above parent a v ∧ a ≠ v := by
  constructor
  · rintro ⟨x,hx⟩
    obtain ⟨h1,h2,h3⟩ := childAbove_some hx
    refine ⟨h1 ▸ above_parent h3,?_⟩
    rintro rfl
    -- `x` would be above its own parent
    have hroot := rooted_no_cycle hr (root_above hr h h3) (h1.symm ▸ h3)
    exact h2 (hroot ▸ hr)
  · rintro ⟨ha,hne⟩
    obtain ⟨k,hk,he⟩ := depth_lt hc hv h
    exact childAbove_isSome hr he hk.le ha hne

end Forest
