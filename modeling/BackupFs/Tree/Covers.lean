import BackupFs.Tree.Below

namespace BackupFs
namespace Tree

open Forest (Above)

structure Covers (s : Mount) : Prop where
  below : Sound s.below
  shape : Shape s.upper s.below.isDir
  unique : Unique s.upper
  pins : ∀ c < s.upper.next, s.lower c < s.below.dcache.next ∧
    s.upper.inode c = s.below.dcache.inode (s.lower c)
  top : ∀ c < s.upper.next, c ≠ 0 → s.lower c ≠ 0
  oneDir : ∀ c d, s.upper.hashed c = true → s.upper.hashed d = true → s.dir c = true →
    s.upper.inode c = s.upper.inode d → c = d
  root : s.Walked 0

section covers
variable {s t : Mount} {b : Below} {a c d u l : ℕ} {n : Name}

theorem upper_dir (h : Covers s) (hc : c < s.upper.next) : s.dir c = s.below.dir (s.lower c) := by
  unfold Mount.dir Below.dir
  rw [(h.pins c hc).2]

theorem walked_below (h : Covers s) (hu : s.Walked u) : s.below.Walked (s.lower u) :=
  ⟨(h.pins u hu.1).1,(upper_dir h hu.1).symm.trans hu.2.2⟩

theorem grows_isDir (h : Covers s) (hg : Grows s.below b) (hc : c < s.upper.next) :
    b.isDir (s.upper.inode c) = s.below.isDir (s.upper.inode c) := by
  obtain ⟨hl,hi⟩ := h.pins c hc
  rw [hi]
  exact hg.isDir _ (h.below.inodes _ hl)

theorem covers_onBelow (h : Covers s) (hk : Kept s.below b) : Covers (s.onBelow b) where
  below := hk.1
  shape := shape_congr h.shape fun _ hc => grows_isDir h hk.2 hc
  unique := h.unique
  pins := fun c hc => by
    obtain ⟨hl,hi⟩ := h.pins c hc
    exact ⟨hl.trans_le hk.2.next,hi.trans (hk.2.inode _ hl).symm⟩
  top := h.top
  oneDir := fun c d hc hd hdir hi =>
    h.oneDir c d hc hd ((grows_isDir h hk.2 (h.shape.used _ hc)).symm.trans hdir) hi
  root := ⟨h.root.1,h.root.2.1,(grows_isDir h hk.2 h.root.1).trans h.root.2.2⟩

theorem covers_attach (h : Covers s) (hu : s.Walked u) (hfree : s.upper.child u n = none)
    (hl : l < s.below.dcache.next) (hl0 : l ≠ 0)
    (hone : s.below.dir l = true → ∀ c, s.upper.hashed c = true →
      s.upper.inode c ≠ s.below.dcache.inode l) : Covers (s.attach u n l) := by
  have hold {c : ℕ} (hc : c ≠ s.upper.next) : (s.attach u n l).upper.inode c = s.upper.inode c ∧
      (s.attach u n l).lower c = s.lower c :=
    ⟨Function.update_of_ne hc ..,Function.update_of_ne hc ..⟩
  have hnew : (s.attach u n l).upper.inode s.upper.next = s.below.dcache.inode l ∧
      (s.attach u n l).lower s.upper.next = l := ⟨Function.update_self ..,Function.update_self ..⟩
  have hsplit {c : ℕ} (hc : c < s.upper.next + 1) : c < s.upper.next ∨ c = s.upper.next :=
    Nat.lt_succ_iff_lt_or_eq.mp hc
  have hkeep {c : ℕ} (hc : (s.attach u n l).upper.hashed c = true) (hne : c ≠ s.upper.next) :
      s.upper.hashed c = true := (add_hashed.mp hc).resolve_left hne
  exact {
    below := h.below
    shape := add_shape h.shape hu.1 hu.2.2 fun _ _ => rfl
    unique := add_unique h.shape h.unique hfree
    pins := fun c hc => by
      rcases hsplit hc with hlt | rfl
      · rw [(hold hlt.ne).1,(hold hlt.ne).2]
        exact h.pins c hlt
      · rw [hnew.1,hnew.2]
        exact ⟨hl,rfl⟩
    top := fun c hc hc0 => by
      rcases hsplit hc with hlt | rfl
      · rw [(hold hlt.ne).2]
        exact h.top c hlt hc0
      · rw [hnew.2]
        exact hl0
    oneDir := fun c d hc hd hdir hi => by
      unfold Mount.dir at hdir
      by_cases hcn : c = s.upper.next <;> by_cases hdn : d = s.upper.next
      · rw [hcn,hdn]
      · rw [hcn,hnew.1] at hdir hi
        rw [(hold hdn).1] at hi
        exact absurd hi.symm (hone hdir d (hkeep hd hdn))
      · rw [hdn,hnew.1,(hold hcn).1] at hi
        rw [(hold hcn).1,hi] at hdir
        exact absurd hi (hone hdir c (hkeep hc hcn))
      · rw [(hold hcn).1] at hdir hi
        rw [(hold hdn).1] at hi
        exact h.oneDir c d (hkeep hc hcn) (hkeep hd hdn) hdir hi
    root := by
      have h0 := hold h.root.1.ne
      refine ⟨h.root.1.trans (Nat.lt_succ_self _),add_hashed.mpr (.inr h.root.2.1),?_⟩
      unfold Mount.dir
      rw [h0.1]
      exact h.root.2.2 }

theorem covers_upper {t : Dcache} (h : Covers s) (ht : Shape t s.below.isDir) (hu : Unique t)
    (hnext : t.next = s.upper.next) (hinode : t.inode = s.upper.inode)
    (hhashed : ∀ c, t.hashed c = true → s.upper.hashed c = true) (h0 : t.hashed 0 = true) :
    Covers { s with upper := t } where
  below := h.below
  shape := ht
  unique := hu
  pins := fun c hc => by
    dsimp only at hc ⊢
    rw [hnext] at hc
    rw [hinode]
    exact h.pins c hc
  top := fun c hc => h.top c (hnext ▸ hc)
  oneDir := fun c d hc hd hdir hi => by
    unfold Mount.dir at hdir
    dsimp only at hc hd hdir hi
    rw [hinode] at hdir hi
    exact h.oneDir c d (hhashed c hc) (hhashed d hd) hdir hi
  root := by
    refine ⟨?_,h0,?_⟩
    · rw [hnext]
      exact h.root.1
    · unfold Mount.dir
      dsimp only
      rw [hinode]
      exact h.root.2.2

theorem covers_drop (h : Covers s) (hc : c ≠ 0) :
    Covers { s with upper := s.upper.drop c } :=
  covers_upper h (drop_shape h.shape c) (drop_unique h.unique c) rfl rfl
    (fun _ hd => (drop_hashed.mp hd).2) (drop_hashed.mpr ⟨hc.symm,h.root.2.1⟩)

theorem aliasOf_some (h : s.aliasOf l = some a) :
    s.upper.hashed a = true ∧ s.upper.inode a = l := by
  have hp := List.find?_some h
  exact ⟨hashed_iff.mpr (List.mem_of_find?_eq_some h),beq_iff_eq.mp hp⟩

theorem aliasOf_none (h : s.aliasOf l = none) (hc : s.upper.hashed c = true) :
    s.upper.inode c ≠ l := by
  intro hi
  have hf := List.find?_eq_none.mp h c (hashed_iff.mp hc)
  simp [hi] at hf

def Found (s : Mount) (u : ℕ) (n : Name) (c : ℕ) : Prop :=
  c ≠ 0 ∧ s.upper.hashed c = true ∧ s.upper.parent c = u ∧ s.upper.name c = n

structure Looked (s t : Mount) (locked : Bool) (u : ℕ) (n : Name) (r : Except Int (Option ℕ)) :
    Prop where
  covers : Covers t
  below : t.below = s.below
  next : s.upper.next ≤ t.upper.next
  kept : ∀ c < s.upper.next, t.upper.inode c = s.upper.inode c ∧
    t.upper.hashed c = s.upper.hashed c ∧ t.lower c = s.lower c ∧
    (t.upper.parent c = s.upper.parent c ∨ locked = false ∧ t.upper.parent c = u)
  found : ∀ c, r = .ok (some c) → Found t u n c
  missing : r = .ok none → t = s ∧ s.upper.child u n = none ∧
    s.below.dcache.child (s.lower u) n = none

theorem looked_walked {locked : Bool} {r : Except Int (Option ℕ)} {v : ℕ}
    (h : Looked s t locked u n r) (hv : s.Walked v) : t.Walked v := by
  obtain ⟨h1,h2,-,-⟩ := h.kept v hv.1
  refine ⟨hv.1.trans_le h.next,h2.trans hv.2.1,?_⟩
  unfold Mount.dir
  rw [h1,h.below]
  exact hv.2.2

theorem looked_same {locked : Bool} {r : Except Int (Option ℕ)} (h : Covers s)
    (hfound : ∀ c, r = .ok (some c) → Found s u n c)
    (hmissing : r = .ok none → s.upper.child u n = none ∧
      s.below.dcache.child (s.lower u) n = none) : Looked s s locked u n r where
  covers := h
  below := rfl
  next := le_rfl
  kept := fun _ _ => ⟨rfl,rfl,rfl,.inl rfl⟩
  found := hfound
  missing := fun hr => ⟨rfl,hmissing hr⟩

theorem looked_attach {locked : Bool} (h : Covers s) (hu : s.Walked u)
    (hfree : s.upper.child u n = none) (hl : l < s.below.dcache.next) (hl0 : l ≠ 0)
    (hone : s.below.dir l = true → ∀ c, s.upper.hashed c = true →
      s.upper.inode c ≠ s.below.dcache.inode l) :
    Looked s (s.attach u n l) locked u n (.ok (some s.upper.next)) where
  covers := covers_attach h hu hfree hl hl0 hone
  below := rfl
  next := Nat.le_succ _
  kept := fun c hc => ⟨Function.update_of_ne hc.ne ..,
    Bool.eq_iff_iff.mpr (add_hashed.trans (or_iff_right hc.ne)),
    Function.update_of_ne hc.ne ..,.inl (Function.update_of_ne hc.ne ..)⟩
  found := by
    rintro _ ⟨⟩
    exact ⟨h.shape.next.ne',add_hashed.mpr (.inl rfl),Function.update_self ..,
      Function.update_self ..⟩
  missing := nofun

theorem looked_place {locked : Bool} (h : Covers s) (hu : s.Walked u)
    (hfree : s.upper.child u n = none) (ha : s.upper.hashed a = true)
    (hab : ¬ Above s.upper.parent a u) (hp : locked = true → s.upper.parent a = u) :
    Looked s { s with upper := s.upper.place a u n } locked u n (.ok (some a)) := by
  have ha0 : a ≠ 0 := by
    rintro rfl
    exact hab (h.shape.rooted u)
  have hlt := h.shape.used _ ha
  have hplace : ∀ c, (s.upper.place a u n).hashed c = s.upper.hashed c := fun c => by
    refine Bool.eq_iff_iff.mpr (place_hashed.trans (or_iff_right_of_imp ?_))
    rintro rfl
    exact ha
  exact {
    covers := by
      refine covers_upper h (place_shape h.shape ha0 hlt hu.1 hu.2.2 hab) ?_ rfl rfl
        (fun c hc => (hplace c).symm.trans hc) ((hplace 0).trans h.root.2.1)
      exact place_unique h.unique fun e he0 _ he hep => child_none hfree he0 he hep
    below := rfl
    next := le_rfl
    kept := fun c _ => by
      refine ⟨rfl,hplace c,rfl,?_⟩
      rcases eq_or_ne c a with rfl | hne
      · have hpu : (s.upper.place c u n).parent c = u := Function.update_self ..
        cases locked with
        | true => exact .inl (hpu.trans (hp rfl).symm)
        | false => exact .inr ⟨rfl,hpu⟩
      · exact .inl (Function.update_of_ne hne ..)
    found := by
      rintro _ ⟨⟩
      exact ⟨ha0,place_hashed.mpr (.inl rfl),Function.update_self ..,Function.update_self ..⟩
    missing := nofun }

theorem looked_splice (w : World) (locked : Bool) (h : Covers s) (hu : s.Walked u)
    (hfree : s.upper.child u n = none) (hl : l < s.below.dcache.next) (hl0 : l ≠ 0) :
    Looked s (splice w locked u n l s).2 locked u n ((splice w locked u n l s).1.map some) := by
  unfold splice
  split
  next halias =>
    refine looked_attach h hu hfree hl hl0 fun hdir c hc => ?_
    rw [if_pos hdir] at halias
    exact aliasOf_none halias hc
  next a halias =>
    have herr {e : Int} : Looked s s locked u n (.error e) := looked_same h nofun nofun
    split_ifs at halias with hdir
    obtain ⟨hah,-⟩ := aliasOf_some halias
    split_ifs with hloop hlock
    · exact herr
    · exact herr
    · cases w.unalias with
      | some e => exact herr
      | none =>
        rw [not_or] at hloop
        refine looked_place h hu hfree hah (fun hab => hloop.2 ?_) fun hlk => ?_
        · exact Option.isSome_iff_exists.mpr ((dAncestor_iff h.shape hu.1).mpr ⟨hab,hloop.1⟩)
        · exact not_not.mp fun hne => hlock ⟨hlk,hne⟩

theorem looked_lookup (w : World) (locked : Bool) (n : Name) (h : Covers s) (hu : s.Walked u) :
    Looked s (lookup w locked u n s).2 locked u n (lookup w locked u n s).1 := by
  have herr {e : Int} : Looked s s locked u n (.error e) := looked_same h nofun nofun
  unfold lookup
  cases hc : s.upper.child u n with
  | some c =>
    refine looked_same h ?_ nofun
    rintro _ ⟨⟩
    exact child_spec hc
  | none =>
    cases w.lookup with
    | some e => exact herr
    | none =>
      cases hl : s.below.dcache.child (s.lower u) n with
      | none => exact looked_same h nofun fun _ => ⟨hc,hl⟩
      | some l =>
        cases w.interpose with
        | some e => exact herr
        | none =>
          obtain ⟨hl0,hh,-⟩ := child_spec hl
          have hsp := looked_splice w locked h hu hc (h.below.shape.used l hh) hl0
          dsimp only
          cases hs : splice w locked u n l s with
          | mk r t =>
            rw [hs] at hsp
            cases r <;> exact hsp

end covers

end Tree
end BackupFs
