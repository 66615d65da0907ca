import Mathlib.Tactic

namespace Lockstep

variable {S T A B O : Type}

def Agree (f : S → A → O × S) (g : T → B → O × T) (tr : S → A → B) (R : S → T → Prop) :
    S → T → List A → Prop
  | _,_,[] => True
  | s,t,a :: as => ((f s a).1 = (g t (tr s a)).1 ∧ R (f s a).2 (g t (tr s a)).2) ∧
      Agree f g tr R (f s a).2 (g t (tr s a)).2 as

def Along (f : S → A → O × S) (P : S → A → Prop) : S → List A → Prop
  | _,[] => True
  | s,a :: as => P s a ∧ Along f P (f s a).2 as

def after (f : S → A → O × S) (as : List A) (s : S) : S := as.foldl (fun s a => (f s a).2) s

variable {f : S → A → O × S} {g : T → B → O × T} {tr : S → A → B} {R : S → T → Prop}
  {P P' Q : S → A → Prop} {I : S → Prop} {ok : A → Prop} {s : S} {t : T} {as : List A}

theorem agree_iff (hstep : ∀ s t a, R s t → ok a →
      ((f s a).1 = (g t (tr s a)).1 ∧ R (f s a).2 (g t (tr s a)).2 ↔ P s a))
    (h : R s t) (has : ∀ a ∈ as, ok a) : Agree f g tr R s t as ↔ Along f P s as := by
  induction as generalizing s t with
  | nil => exact Iff.rfl
  | cons a as ih =>
    have ha := hstep s t a h (has a List.mem_cons_self)
    rw [Agree,Along,ha]
    exact and_congr_right fun hp => ih (ha.mpr hp).2 fun b hb => has b (List.mem_cons_of_mem a hb)

theorem agree_of (hstep : ∀ s t a, R s t → ok a →
      (f s a).1 = (g t (tr s a)).1 ∧ R (f s a).2 (g t (tr s a)).2)
    (h : R s t) (has : ∀ a ∈ as, ok a) : Agree f g tr R s t as := by
  induction as generalizing s t with
  | nil => trivial
  | cons a as ih =>
    have ha := hstep s t a h (has a List.mem_cons_self)
    exact ⟨ha,ih ha.2 fun b hb => has b (List.mem_cons_of_mem a hb)⟩

end Lockstep

namespace Table

variable {K A B : Type} [DecidableEq K] {f : K → Option A} {g : K → Option B} {φ : A → B}
  {P : K → A → Prop} {k : K} {a : A} {x : Option A} {y : Option B}

end Table
