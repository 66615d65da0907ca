import Mathlib.Order.Bounds.Basic
import Mathlib.Tactic

structure BoundedDeque (α : Type) (n : ℕ) where
  items : List α
  bound : items.length ≤ n

namespace BoundedDeque

variable {α : Type} {n : ℕ}

def empty : BoundedDeque α n := ⟨[],Nat.zero_le n⟩

def push [NeZero n] (q : BoundedDeque α n) (x : α) : BoundedDeque α n where
  items := if q.items.length = n then q.items.tail ++ [x] else q.items ++ [x]
  bound := by
    have hq := q.bound
    have hn := NeZero.pos n
    split_ifs with h <;> simp only [List.length_append,List.length_tail,List.length_singleton] <;>
      omega

def popFront (q : BoundedDeque α n) : BoundedDeque α n where
  items := q.items.tail
  bound := by
    have hq := q.bound
    rw [List.length_tail]
    omega

def popBack (q : BoundedDeque α n) : BoundedDeque α n where
  items := q.items.dropLast
  bound := by
    have hq := q.bound
    rw [List.length_dropLast]
    omega

@[simp] theorem popFront_items (q : BoundedDeque α n) : q.popFront.items = q.items.tail := rfl
@[simp] theorem popBack_items (q : BoundedDeque α n) : q.popBack.items = q.items.dropLast := rfl

end BoundedDeque

namespace Numbered

variable {α : Type}

def Laid (lo : ℤ) (xs : List α) (m : ℤ → Option α) : Prop :=
  ∀ v, m v = if lo ≤ v then xs[(v-lo).toNat]? else none

def Reads (m : ℤ → Option α) (xs : List α) : Prop :=
  ∃ vs : List ℤ, vs.Pairwise (· < ·) ∧ (∀ v, v ∈ vs ↔ (m v).isSome = true) ∧
    vs.map m = xs.map some

variable {lo : ℤ} {xs : List α} {m : ℤ → Option α}

theorem laid_nil (h : ∀ v, m v = none) (lo : ℤ) : Laid lo [] m := fun v => by simp [h v]

theorem laid_isSome (h : Laid lo xs m) (v : ℤ) :
    (m v).isSome = true ↔ lo ≤ v ∧ v < lo + xs.length := by
  rw [h v]
  split_ifs with hv
  · rw [Option.isSome_iff_ne_none,Ne,List.getElem?_eq_none_iff]
    omega
  · simp only [Option.isSome_none,Bool.false_eq_true,false_iff]
    omega

theorem laid_none (h : Laid lo xs m) {v : ℤ} (hv : v < lo ∨ lo + xs.length ≤ v) : m v = none := by
  have hs := (laid_isSome h v).not.mpr (by omega)
  simpa using hs

theorem laid_nil_none (h : Laid lo [] m) (v : ℤ) : m v = none :=
  laid_none h (by simp only [List.length_nil]; omega)

theorem laid_snoc (h : Laid lo xs m) (x : α) :
    Laid lo (xs ++ [x]) (Function.update m (lo + xs.length) (some x)) := by
  intro v
  by_cases hv : v = lo + xs.length
  · subst hv
    simp
  · rw [Function.update_of_ne hv,h v]
    split_ifs with hl
    · by_cases hlt : (v - lo).toNat < xs.length
      · rw [List.getElem?_append_left hlt]
      · rw [List.getElem?_eq_none (by omega),List.getElem?_eq_none]
        simp only [List.length_append,List.length_singleton]
        omega
    · rfl

theorem laid_tail {x : α} (h : Laid lo (x :: xs) m) :
    Laid (lo+1) xs (Function.update m lo none) := by
  intro v
  by_cases hv : v = lo
  · subst hv
    rw [Function.update_self,if_neg (by omega)]
  · rw [Function.update_of_ne hv,h v]
    by_cases hl : lo + 1 ≤ v
    · have hi : (v - lo).toNat = (v - (lo+1)).toNat + 1 := by omega
      rw [if_pos (by omega),if_pos hl,hi,List.getElem?_cons_succ]
    · rw [if_neg (by omega),if_neg hl]

theorem laid_dropLast {x : α} (h : Laid lo (xs ++ [x]) m) :
    Laid lo xs (Function.update m (lo + xs.length) none) := by
  intro v
  by_cases hv : v = lo + xs.length
  · subst hv
    rw [Function.update_self]
    split_ifs with hl
    · rw [List.getElem?_eq_none (by omega)]
    · rfl
  · rw [Function.update_of_ne hv,h v]
    split_ifs with hl
    · by_cases hlt : (v - lo).toNat < xs.length
      · rw [List.getElem?_append_left hlt]
      · rw [List.getElem?_eq_none (by omega : xs.length ≤ _),List.getElem?_eq_none]
        simp only [List.length_append,List.length_singleton]
        omega
    · rfl

theorem laid_clear (h : Laid lo xs m) {v : ℤ} (hv : v < lo ∨ lo + xs.length ≤ v) :
    Laid lo xs (Function.update m v none) := by
  rw [← laid_none h hv,Function.update_eq_self]
  exact h

theorem laid_push {n : ℕ} [NeZero n] {q : BoundedDeque α n} (h : Laid lo q.items m) (x : α) :
    ∃ lo', lo ≤ lo' ∧ lo' + ((q.push x).items.length : ℤ) = lo + q.items.length + 1 ∧
      Laid lo' (q.push x).items (Function.update
        (Function.update m (lo + q.items.length - n) none) (lo + q.items.length) (some x)) := by
  by_cases hfull : q.items.length = n
  · cases hq : q.items with
    | nil => exact absurd (hq ▸ hfull).symm (NeZero.ne n)
    | cons y ys =>
      rw [hq] at h hfull
      have hpush : (q.push x).items = ys ++ [x] := by
        simp only [BoundedDeque.push,hq,if_pos hfull,List.tail_cons]
      have hlo : lo + ((y :: ys).length : ℤ) - n = lo := by omega
      have hend : lo + 1 + (ys.length : ℤ) = lo + (y :: ys).length := by
        simp only [List.length_cons]
        push_cast
        ring
      refine ⟨lo+1,by omega,?_,?_⟩
      · rw [hpush,List.length_append,List.length_singleton]
        push_cast
        omega
      · rw [hpush,hlo,← hend]
        exact laid_snoc (laid_tail h) x
  · have hb := q.bound
    have hpush : (q.push x).items = q.items ++ [x] := by
      simp only [BoundedDeque.push,if_neg hfull]
    refine ⟨lo,le_refl lo,?_,?_⟩
    · rw [hpush,List.length_append,List.length_singleton]
      push_cast
      ring
    · rw [hpush]
      exact laid_snoc (laid_clear h (by omega)) x

theorem laid_greatest (h : Laid lo xs m) {v : ℤ}
    (hv : IsGreatest {w | (m w).isSome = true} v) : v = lo + xs.length - 1 := by
  have hin := (laid_isSome h v).mp hv.1
  have hle := hv.2 ((laid_isSome h (lo + xs.length - 1)).mpr (by omega))
  omega

theorem laid_least (h : Laid lo xs m) {v : ℤ}
    (hv : IsLeast {w | (m w).isSome = true} v) : v = lo := by
  have hin := (laid_isSome h v).mp hv.1
  have hle := hv.2 ((laid_isSome h lo).mpr (by omega))
  omega

theorem laid_isLeast {x : α} (h : Laid lo (x :: xs) m) :
    IsLeast {w | (m w).isSome = true} lo := by
  refine ⟨(laid_isSome h lo).mpr ⟨le_refl lo,?_⟩,?_⟩
  · rw [List.length_cons]
    omega
  · intro v hv
    exact ((laid_isSome h v).mp hv).1

theorem laid_reads (h : Laid lo xs m) : Reads m xs := by
  refine ⟨(List.range xs.length).map (fun i : ℕ => lo + (i : ℤ)),?_,?_,?_⟩
  · rw [List.pairwise_map]
    exact List.pairwise_lt_range.imp (fun h => by omega)
  · intro v
    rw [laid_isSome h v,List.mem_map]
    constructor
    · rintro ⟨i,hi,rfl⟩
      rw [List.mem_range] at hi
      omega
    · intro hv
      exact ⟨(v-lo).toNat,List.mem_range.mpr (by omega),by omega⟩
  · apply List.ext_getElem (by simp)
    intro i hi _
    simp only [List.length_map,List.length_range] at hi
    have hv := h (lo + i)
    rw [if_pos (by omega),show (lo + (i : ℤ) - lo).toNat = i by omega] at hv
    simp [hv,hi]

end Numbered
