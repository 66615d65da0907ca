import Mathlib.Data.Multiset.Count
import Mathlib.Tactic

namespace Refcount

variable {α : Type} [DecidableEq α]

abbrev Counts (α : Type) := α → ℕ

def get (c : Counts α) (x : α) : Counts α := Function.update c x (c x + 1)

-- `none` is a put without a reference to give back
def put (c : Counts α) (x : α) : Option (Counts α) :=
  if c x = 0 then none else some (Function.update c x (c x - 1))

def Held (c : Counts α) (m : Multiset α) : Prop := ∀ x, c x = m.count x

variable {c : Counts α} {m : Multiset α} {x y : α}

theorem held_zero : Held (fun _ : α => 0) 0 := fun x => (Multiset.count_zero x).symm

theorem held_get (h : Held c m) (x : α) : Held (get c x) (x ::ₘ m) := by
  intro y
  unfold get
  rcases eq_or_ne y x with rfl | hy
  · rw [Function.update_self,Multiset.count_cons_self,h y]
  · rw [Function.update_of_ne hy,Multiset.count_cons_of_ne hy,h y]

theorem held_put (h : Held c (x ::ₘ m)) : ∃ c', put c x = some c' ∧ Held c' m := by
  have hx : c x = m.count x + 1 := by rw [h x,Multiset.count_cons_self]
  refine ⟨_,if_neg (by omega),fun y => ?_⟩
  rcases eq_or_ne y x with rfl | hy
  · rw [Function.update_self,hx]
    rfl
  · rw [Function.update_of_ne hy,h y,Multiset.count_cons_of_ne hy]

theorem held_pos (h : Held c m) : 0 < c x ↔ x ∈ m := by
  rw [h x,Multiset.count_pos]

theorem put_none_iff (h : Held c m) : put c x = none ↔ x ∉ m := by
  unfold put
  rw [← held_pos h]
  split_ifs with hc
  · simp [hc]
  · simp [Nat.pos_of_ne_zero hc]

theorem held_congr {m' : Multiset α} (h : Held c m) (he : m = m') : Held c m' := he ▸ h

theorem get_self : get c x x = c x + 1 := Function.update_self ..

theorem get_of_ne (hy : y ≠ x) : get c x y = c y := Function.update_of_ne hy ..

theorem get_pos : 0 < get c x y ↔ y = x ∨ 0 < c y := by
  rcases eq_or_ne y x with rfl | hy
  · exact iff_of_true (get_self (c := c) ▸ Nat.succ_pos _) (.inl rfl)
  · rw [get_of_ne hy]
    exact (or_iff_right hy).symm

end Refcount
