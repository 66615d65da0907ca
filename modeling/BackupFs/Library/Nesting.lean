import Mathlib.Data.Set.Lattice
import Mathlib.Order.CompletePartialOrder

namespace Nesting

variable {A X : Type} {f : A → X → X} {as bs : List A} {x y : X}

def above (f : A → X → X) (x : X) : Set X := Set.range fun as : List A => as.foldr f x

theorem self_above : x ∈ above f x := ⟨[],rfl⟩

section
variable (hf : Function.Injective2 f)
include hf

theorem foldr_eq_foldr_iff : as.foldr f x = bs.foldr f y ↔
    (∃ cs, bs = as ++ cs ∧ x = cs.foldr f y) ∨ ∃ cs, as = bs ++ cs ∧ cs.foldr f x = y := by
  constructor
  · intro h
    induction as generalizing bs with
    | nil => exact .inl ⟨bs,rfl,h⟩
    | cons a as ih =>
      cases bs with
      | nil => exact .inr ⟨a :: as,rfl,h⟩
      | cons b bs =>
        obtain ⟨rfl,hrest⟩ := hf h
        rcases ih hrest with ⟨cs,rfl,hx⟩ | ⟨cs,rfl,hy⟩
        · exact .inl ⟨cs,rfl,hx⟩
        · exact .inr ⟨cs,rfl,hy⟩
  · rintro (⟨cs,rfl,rfl⟩ | ⟨cs,rfl,rfl⟩)
    · exact List.foldr_append.symm
    · exact List.foldr_append

theorem foldr_inj (hl : as.length = bs.length) :
    as.foldr f x = bs.foldr f y ↔ as = bs ∧ x = y := by
  constructor
  · intro h
    rcases (foldr_eq_foldr_iff hf).mp h with ⟨cs,rfl,hx⟩ | ⟨cs,rfl,hy⟩
    · have hc : cs = [] := by simpa using hl
      subst hc
      exact ⟨(List.append_nil as).symm,hx⟩
    · have hc : cs = [] := by simpa using hl
      subst hc
      exact ⟨List.append_nil bs,hy⟩
  · rintro ⟨rfl,rfl⟩
    rfl

theorem disjoint_above : Disjoint (above f x) (above f y) ↔ x ∉ above f y ∧ y ∉ above f x := by
  constructor
  · intro h
    rw [Set.disjoint_left] at h
    exact ⟨h self_above,fun hy => h hy self_above⟩
  · rintro ⟨hx,hy⟩
    rw [Set.disjoint_left]
    rintro _ ⟨as,rfl⟩ ⟨bs,hb⟩
    rcases (foldr_eq_foldr_iff hf).mp hb.symm with ⟨cs,_,hc⟩ | ⟨cs,_,hc⟩
    · exact hx ⟨cs,hc.symm⟩
    · exact hy ⟨cs,hc⟩

end

theorem root_above (hx : ∀ a z, f a z ≠ x) : x ∈ above f y ↔ x = y := by
  constructor
  · rintro ⟨as,rfl⟩
    cases as with
    | nil => rfl
    | cons a as => exact absurd rfl (hx a _)
  · rintro rfl
    exact self_above

theorem disjoint_roots (hf : Function.Injective2 f) (hx : ∀ a z, f a z ≠ x)
    (hy : ∀ a z, f a z ≠ y) : Disjoint (above f x) (above f y) ↔ x ≠ y := by
  rw [disjoint_above hf,root_above hx,root_above hy]
  exact ⟨fun h => h.1,fun h => ⟨h,h.symm⟩⟩

end Nesting
