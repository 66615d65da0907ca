import Mathlib.Data.List.Basic
import Mathlib.Tactic

namespace Path

variable {A D I : Type}

inductive Entry (A D I : Type) where
  | dir (d : D)
  | file (i : I)
  | symlink (target : List A)
  deriving DecidableEq

structure Tree (A D I : Type) where
  root : D
  parent : D → D
  entry : D → List A → Option (Entry A D I)

def Tree.NoSymlinks (t : Tree A D I) : Prop := ∀ d x target, t.entry d x ≠ some (.symlink target)

variable [BEq A]

def Tree.start (t : Tree A D I) (sep : A) (d : D) (p : List A) : D :=
  if p.head? == some sep then t.root else d

inductive Walk (sep dot : A) (t : Tree A D I) : D → List (List A) → D → List A → I → Prop
  | file {d : D} {x : List A} {i : I} (h : t.entry d x = some (.file i)) :
      Walk sep dot t d [x] d x i
  | stay {d d' : D} {x y : List A} {xs : List (List A)} {i : I} (hx : x = [] ∨ x = [dot])
      (h : Walk sep dot t d xs d' y i) : Walk sep dot t d (x :: xs) d' y i
  | up {d d' : D} {y : List A} {xs : List (List A)} {i : I}
      (h : Walk sep dot t (t.parent d) xs d' y i) : Walk sep dot t d ([dot,dot] :: xs) d' y i
  | down {d e d' : D} {x y : List A} {xs : List (List A)} {i : I}
      (hx : t.entry d x = some (.dir e)) (h : Walk sep dot t e xs d' y i) :
      Walk sep dot t d (x :: xs) d' y i
  | follow {d d' : D} {x y target : List A} {xs : List (List A)} {i : I}
      (hx : t.entry d x = some (.symlink target))
      (h : Walk sep dot t (t.start sep d target) (target.splitOn sep ++ xs) d' y i) :
      Walk sep dot t d (x :: xs) d' y i

variable {sep dot : A} {t : Tree A D I} {d d' : D} {x y : List A} {xs : List (List A)} {i : I}

theorem walk_last (hn : t.NoSymlinks) (h : Walk sep dot t d xs d' y i) :
    xs.getLast? = some y := by
  induction h with
  | file _ => rfl
  | stay _ _ ih => simp [List.getLast?_cons,ih]
  | up _ ih => simp [List.getLast?_cons,ih]
  | down _ _ ih => simp [List.getLast?_cons,ih]
  | follow hx _ _ => exact absurd hx (hn _ _ _)

theorem splitOn_last {A : Type} [DecidableEq A] {sep : A} {p q : List A} (h : sep ∉ q) :
    ((p ++ sep :: q).splitOn sep).getLast? = some q := by
  have hq : q.splitOnP (· == sep) = [q] :=
    List.splitOnP_eq_singleton fun x hx => beq_false_of_ne fun he => h (he ▸ hx)
  rw [List.splitOn_eq_splitOnP,List.splitOnP_append_cons p q (by simp),hq]
  simp

end Path
