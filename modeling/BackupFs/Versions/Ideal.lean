import BackupFs.Versions.Refined

namespace BackupFs

namespace Versions

namespace Shelf

variable (a : Shelf)

def Ghost (k : Slot) : Prop := a.hashed k = true ∧ a.entry k = none

def Settled (k : Slot) : Prop := a.hashed k = (a.entry k).isSome

def anyHashed (n : ℕ) : Bool := upTo n fun v => a.hashed (.version v)

def cleared (n : ℕ) : Store :=
  { a.toStore with entry := fun k => if k.Within n ∧ a.hashed k = true then none else a.entry k }

end Shelf

section
variable {a a' : Shelf} {k l : Slot} {n : ℕ} {err : Int} {J : Junk}

theorem settled_ghost (h : a.Settled k) : ¬ a.Ghost k := by
  rintro ⟨hh,he⟩
  rw [Shelf.Settled,hh,he] at h
  cases h

theorem discard_ghost (h : a.Ghost k) : a.discard k = (some (-ENOENT),a) := by
  rw [Shelf.discard,if_pos h.1,h.2]

theorem discard_hashed (h : a.hashed k = true) (hg : ¬ a.Ghost k) :
    a.discard k = (some 0,a.link k none) := by
  rw [Shelf.discard,if_pos h]
  cases he : a.entry k with
  | none => exact absurd ⟨h,he⟩ hg
  | some n => rfl

theorem discard_unhashed (h : ¬ a.hashed k = true) : a.discard k = (none,a) := if_neg h

theorem discard_settled (h : a.Settled k) :
    (a.discard k).1 = (if a.entry k = none then none else some 0) ∧
      (a.discard k).2.toStore = a.toStore.link k none := by
  cases hh : a.hashed k with
  | true =>
    rw [discard_hashed hh (settled_ghost h)]
    rw [Shelf.Settled,hh] at h
    refine ⟨?_,rfl⟩
    rw [if_neg (Option.isSome_iff_ne_none.mp h.symm)]
  | false =>
    rw [Shelf.Settled,hh] at h
    have he : a.entry k = none :=
      Option.isNone_iff_eq_none.mp (Option.isSome_eq_false_iff.mp h.symm)
    rw [discard_unhashed (by simp [hh]),if_pos he]
    exact ⟨rfl,(Store.link_none he).symm⟩

theorem link_other (h : l ≠ k) (m : Option Node) :
    (a.link k m).entry l = a.entry l ∧ (a.link k m).hashed l = a.hashed l :=
  ⟨Function.update_of_ne h _ _,Function.update_of_ne h _ _⟩

theorem ghost_link (h : l ≠ k) (m : Option Node) : (a.link k m).Ghost l ↔ a.Ghost l := by
  obtain ⟨h1,h2⟩ := link_other (a := a) h m
  rw [Shelf.Ghost,Shelf.Ghost,h1,h2]

theorem settled_link (h : l ≠ k) (m : Option Node) : (a.link k m).Settled l ↔ a.Settled l := by
  obtain ⟨h1,h2⟩ := link_other (a := a) h m
  rw [Shelf.Settled,Shelf.Settled,h1,h2]

theorem version_ne {v w : Int} (h : v ≠ w) : Slot.version v ≠ .version w := fun he =>
  h (Slot.version.inj he)

theorem within_succ {v : Int} (h : v ≠ (n + 1 : ℕ)) :
    (Slot.version v).Within (n+1) ↔ (Slot.version v).Within n := by
  unfold Slot.Within
  omega

theorem cleared_skip (h : ¬ a.hashed (.version (n + 1 : ℕ)) = true) :
    a.cleared n = a.cleared (n+1) := by
  refine congrArg (fun e => { a.toStore with entry := e }) ?_
  funext k
  refine if_congr ?_ rfl rfl
  cases k with
  | own => exact Iff.rfl
  | restored => exact Iff.rfl
  | version v =>
    rcases eq_or_ne v (n + 1 : ℕ) with rfl | hne
    · exact iff_of_false (fun hw => h hw.2) fun hw => h hw.2
    · rw [within_succ hne]

theorem cleared_link (h : a.hashed (.version (n + 1 : ℕ)) = true) :
    (a.link (.version (n + 1 : ℕ)) none).cleared n = a.cleared (n+1) := by
  refine congrArg (fun e => { a.toStore with entry := e }) ?_
  funext k
  rcases eq_or_ne k (.version (n + 1 : ℕ)) with rfl | hk
  · have hw : (Slot.version (n + 1 : ℕ)).Within (n+1) := ⟨by omega,le_refl _⟩
    have hno : ¬ (Slot.version (n + 1 : ℕ)).Within n := fun hw => by
      have hle := hw.2
      omega
    rw [if_neg fun hw => hno hw.1,if_pos ⟨hw,h⟩]
    exact Function.update_self _ _ _
  · obtain ⟨he,hh⟩ := link_other (a := a) hk none
    rw [he,hh]
    refine if_congr ?_ rfl rfl
    cases k with
    | own => exact Iff.rfl
    | restored => exact Iff.rfl
    | version v => rw [within_succ fun hv => hk (by rw [hv])]

theorem sweep_ghost {v : Int} (h1 : 1 ≤ v) (hn : v ≤ n) (h : a.Ghost (.version v)) :
    (Shelf.sweep n err a).1 = .error (-ENOENT) := by
  induction n generalizing a err with
  | zero => omega
  | succ n ih =>
    rw [Shelf.sweep]
    by_cases hg : a.Ghost (.version (n + 1 : ℕ))
    · rw [discard_ghost hg]
      rfl
    · have hne : v ≠ (n + 1 : ℕ) := fun he => hg (he ▸ h)
      by_cases hh : a.hashed (.version (n + 1 : ℕ)) = true
      · rw [discard_hashed hh hg]
        exact ih (by omega) ((ghost_link (version_ne hne) none).mpr h)
      · rw [discard_unhashed hh]
        exact ih (by omega) h

theorem sweep_free (hg : ∀ v : Int, 1 ≤ v → v ≤ n → ¬ a.Ghost (.version v)) (err : Int) :
    (Shelf.sweep n err a).1 = .ok (if a.anyHashed n then 0 else err) ∧
      (Shelf.sweep n err a).2.toStore = a.cleared n := by
  induction n generalizing a err with
  | zero =>
    refine ⟨rfl,?_⟩
    have hno (k : Slot) : ¬ k.Within 0 := by
      cases k <;> simp [Slot.Within]
      omega
    simp [Shelf.sweep,Shelf.cleared,hno]
  | succ n ih =>
    have hlast := hg (n + 1 : ℕ) (by omega) (le_refl _)
    rw [Shelf.sweep,Shelf.anyHashed,upTo_succ]
    by_cases hh : a.hashed (.version (n + 1 : ℕ)) = true
    · have hne {v : Int} (hv : v ≤ n) : Slot.version v ≠ .version (n + 1 : ℕ) :=
        version_ne (by omega)
      obtain ⟨h1,h2⟩ := ih (a := a.link (.version (n + 1 : ℕ)) none)
        (fun v hv1 hvn => (ghost_link (hne hvn) none).not.mpr (hg v hv1 (by omega))) 0
      rw [discard_hashed hh hlast,hh,Bool.true_or,if_pos rfl]
      exact ⟨h1.trans (by rw [ite_self]),h2.trans (cleared_link hh)⟩
    · obtain ⟨h1,h2⟩ := ih (fun v hv1 hvn => hg v hv1 (by omega)) err
      rw [discard_unhashed hh,Bool.eq_false_iff.mpr hh,Bool.false_or]
      exact ⟨h1,h2.trans (cleared_skip hh)⟩

end

end Versions

end BackupFs
