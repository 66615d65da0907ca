import Mathlib.Data.List.Basic
import Mathlib.Tactic

namespace Transition

variable {S T A : Type}

inductive Run (step : S → A → S → Prop) (s : S) : List A → S → Prop
  | nil : Run step s [] s
  | snoc {as : List A} {a : A} {t u : S} (h : Run step s as t) (ha : step t a u) :
      Run step s (as ++ [a]) u

namespace Run

variable {step : S → A → S → Prop} {s t u : S} {as : List A} {a : A}

theorem single (h : step s a t) : Run step s [a] t := Run.nil.snoc h

theorem invariant (I : S → Prop) (hstep : ∀ s a t, I s → step s a t → I t)
    (h : Run step s as t) (hs : I s) : I t := by
  induction h with
  | nil => exact hs
  | snoc _ ha ih => exact hstep _ _ _ ih ha

theorem congr {step' : S → A → S → Prop} (I : S → Prop)
    (hstep : ∀ s a t, I s → step s a t → I t)
    (hiff : ∀ s a t, I s → (step s a t ↔ step' s a t)) (hs : I s) :
    Run step s as t ↔ Run step' s as t := by
  constructor
  · intro h
    induction h with
    | nil => exact .nil
    | snoc h ha ih => exact ih.snoc ((hiff _ _ _ (invariant I hstep h hs)).mp ha)
  · intro h
    induction h with
    | nil => exact .nil
    | snoc _ ha ih => exact ih.snoc ((hiff _ _ _ (invariant I hstep ih hs)).mpr ha)

theorem simulation (R : S → T → Prop) (f : T → A → T)
    (hstep : ∀ s a s' t, R s t → step s a s' → R s' (f t a))
    (h : Run step s as u) {t : T} (hs : R s t) : R u (as.foldl f t) := by
  induction h with
  | nil => exact hs
  | snoc _ ha ih =>
    rw [List.foldl_append]
    exact hstep _ _ _ _ ih ha

end Run

def exec {E : Type} (f : S → A → Except E S) (s : S) : List A → S
  | [] => s
  | a :: as => match f s a with
    | .ok t => exec f t as
    | .error _ => s

def Along (step : S → A → S) (P : S → A → Prop) : S → List A → Prop
  | _,[] => True
  | s,a :: as => P s a ∧ Along step P (step s a) as

theorem foldl_related {step : S → A → S} {step' : T → A → T} {P : T → A → Prop} (R : S → T → Prop)
    (ok : A → Prop) (hstep : ∀ s t a, ok a → P t a → R s t → R (step s a) (step' t a))
    {as : List A} (has : ∀ a ∈ as, ok a) {s : S} {t : T} (hp : Along step' P t as) (h : R s t) :
    R (as.foldl step s) (as.foldl step' t) := by
  induction as generalizing s t with
  | nil => exact h
  | cons a as ih =>
    exact ih (fun b hb => has b (List.mem_cons_of_mem a hb)) hp.2
      (hstep s t a (has a List.mem_cons_self) hp.1 h)

end Transition
