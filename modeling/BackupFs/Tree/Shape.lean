import BackupFs.Tree.Mount

namespace BackupFs
namespace Tree

open Forest (Above rooted_update_iff rooted_no_cycle above_cases childAbove_iff
  childAbove_some above_total above_parent above_trans)

structure Shape (t : Dcache) (isDir : ℕ → Bool) : Prop where
  next : 0 < t.next
  root : t.parent 0 = 0
  rooted : Forest.Rooted t.parent 0
  bound : ∀ d < t.next, t.parent d < t.next
  used : ∀ d, t.hashed d = true → d < t.next
  parents : ∀ d < t.next, isDir (t.inode (t.parent d)) = true

def Unique (t : Dcache) : Prop :=
  ∀ d e, d ≠ 0 → e ≠ 0 → t.hashed d = true → t.hashed e = true →
    t.parent d = t.parent e → t.name d = t.name e → d = e

section hashing
variable {t : Dcache} {d e u i : ℕ} {n : Name}

theorem hashed_iff : t.hashed d = true ↔ d ∈ t.chain := decide_eq_true_iff

theorem child_spec (h : t.child u n = some d) :
    d ≠ 0 ∧ t.hashed d = true ∧ t.parent d = u ∧ t.name d = n := by
  have hp := List.find?_some h
  simp only [bne_iff_ne,ne_eq,Bool.and_eq_true,beq_iff_eq] at hp
  exact ⟨hp.1.1,hashed_iff.mpr (List.mem_of_find?_eq_some h),hp.1.2,hp.2⟩

theorem child_none (hn : t.child u n = none) (hd : d ≠ 0) (hh : t.hashed d = true)
    (hp : t.parent d = u) : t.name d ≠ n := by
  intro hname
  have hf := List.find?_eq_none.mp hn d (hashed_iff.mp hh)
  simp [hd,hp,hname] at hf

theorem child_eq (h : Unique t) (hd : d ≠ 0) (hh : t.hashed d = true) :
    t.child (t.parent d) (t.name d) = some d := by
  cases hc : t.child (t.parent d) (t.name d) with
  | none => exact absurd rfl (child_none hc hd hh rfl)
  | some e =>
    obtain ⟨he,hhe,hp,hn⟩ := child_spec hc
    rw [h e d he hd hhe hh hp hn]

theorem hasChild_false (h : t.hasChild u = false) (hd : d ≠ 0) (hh : t.hashed d = true) :
    t.parent d ≠ u := by
  intro hp
  have hf := List.any_eq_false.mp h d (hashed_iff.mp hh)
  simp [hd,hp] at hf

theorem add_hashed : (t.add u n i).hashed d = true ↔ d = t.next ∨ t.hashed d = true := by
  rw [hashed_iff,hashed_iff]
  exact List.mem_cons

theorem drop_hashed : (t.drop e).hashed d = true ↔ d ≠ e ∧ t.hashed d = true := by
  rw [hashed_iff,hashed_iff,Dcache.drop,List.mem_filter,bne_iff_ne]
  exact and_comm

theorem place_hashed : (t.place e u n).hashed d = true ↔ d = e ∨ t.hashed d = true := by
  rw [hashed_iff,hashed_iff,Dcache.place,List.mem_cons,List.mem_filter,bne_iff_ne]
  by_cases hd : d = e <;> simp [hd]

theorem dMove_hashed {new : Option ℕ} :
    (t.dMove e u n new).hashed d = true ↔ d = e ∨ new ≠ some d ∧ t.hashed d = true := by
  cases new with
  | none => simp [Dcache.dMove,place_hashed]
  | some f =>
    rw [Dcache.dMove,place_hashed,drop_hashed,ne_comm,(Option.some_injective ℕ).ne_iff]

theorem dMove_inode {new : Option ℕ} : (t.dMove d u n new).inode = t.inode := by
  cases new <;> rfl

theorem dMove_next {new : Option ℕ} : (t.dMove d u n new).next = t.next := by
  cases new <;> rfl

theorem dMove_parent {new : Option ℕ} :
    (t.dMove d u n new).parent = Function.update t.parent d u := by
  cases new <;> rfl

theorem dMove_name {new : Option ℕ} :
    (t.dMove d u n new).name = Function.update t.name d n := by
  cases new <;> rfl

theorem drop_unique (h : Unique t) (d : ℕ) : Unique (t.drop d) := fun e f he0 hf0 he hf hp hn =>
  h e f he0 hf0 (drop_hashed.mp he).2 (drop_hashed.mp hf).2 hp hn

theorem place_unique (h : Unique t)
    (hfree : ∀ e, e ≠ 0 → e ≠ d → t.hashed e = true → t.parent e = u → t.name e ≠ n) :
    Unique (t.place d u n) := by
  have hold {e : ℕ} (he : (t.place d u n).hashed e = true) (hed : e ≠ d) : t.hashed e = true :=
    (place_hashed.mp he).resolve_left hed
  intro e f he0 hf0 he hf hp hn
  dsimp only [Dcache.place] at hp hn
  by_cases hed : e = d <;> by_cases hfd : f = d
  · rw [hed,hfd]
  · rw [hed,Function.update_self,Function.update_of_ne hfd] at hp hn
    exact absurd hn.symm (hfree f hf0 hfd (hold hf hfd) hp.symm)
  · rw [hfd,Function.update_self,Function.update_of_ne hed] at hp hn
    exact absurd hn (hfree e he0 hed (hold he hed) hp)
  · rw [Function.update_of_ne hed,Function.update_of_ne hfd] at hp hn
    exact h e f he0 hf0 (hold he hed) (hold hf hfd) hp hn

theorem dMove_unique {new : Option ℕ} (h : Unique t) (hnone : new = none → t.child u n = none)
    (hnew : ∀ e, new = some e → e ≠ 0 ∧ t.hashed e = true ∧ t.parent e = u ∧ t.name e = n) :
    Unique (t.dMove d u n new) := by
  cases new with
  | none => exact place_unique h fun e he0 _ he hp => child_none (hnone rfl) he0 he hp
  | some e =>
    obtain ⟨he0,he,hp,hn⟩ := hnew e rfl
    refine place_unique (drop_unique h e) fun f hf0 _ hf hfp hfn => ?_
    obtain ⟨hfe,hf'⟩ := drop_hashed.mp hf
    exact hfe (h f e hf0 he0 hf' he (hfp.trans hp.symm) (hfn.trans hn.symm))

end hashing

section dcache
variable {t : Dcache} {isDir : ℕ → Bool} {d e u i : ℕ} {n : Name}

theorem add_unique (h : Shape t isDir) (hu : Unique t) (hfree : t.child u n = none) :
    Unique (t.add u n i) := by
  have hfresh : t.hashed t.next ≠ true := fun hn => (h.used _ hn).false
  have hplace : Unique (t.place t.next u n) :=
    place_unique hu fun e he0 _ he hp => child_none hfree he0 he hp
  intro d e hd0 he0 hd he hp hn
  exact hplace d e hd0 he0 (place_hashed.mpr (add_hashed.mp hd))
    (place_hashed.mpr (add_hashed.mp he)) hp hn

theorem not_above_next (h : Shape t isDir) (hu : u < t.next) : ¬ Above t.parent t.next u := by
  intro ha
  obtain ⟨k,hk⟩ := Forest.above_iff_iterate.mp ha
  have hlt : ∀ j, t.parent^[j] u < t.next := by
    intro j
    induction j with
    | zero => exact hu
    | succ j ih =>
      rw [Function.iterate_succ_apply']
      exact h.bound _ ih
  exact absurd (hlt k) (hk ▸ lt_irrefl _)

theorem not_above_parent (h : Shape t isDir) (hd : d ≠ 0) : ¬ Above t.parent d (t.parent d) :=
  fun ha => hd (rooted_no_cycle h.root (h.rooted d) ha)

theorem add_shape {isDir' : ℕ → Bool} (h : Shape t isDir) (hu : u < t.next)
    (hdir : isDir (t.inode u) = true)
    (hsame : ∀ d < t.next, isDir' (t.inode d) = isDir (t.inode d)) :
    Shape (t.add u n i) isDir' where
  next := Nat.succ_pos _
  root := by
    rw [Dcache.add]
    exact (Function.update_of_ne h.next.ne ..).trans h.root
  rooted := (rooted_update_iff h.root h.rooted h.next.ne').mpr (not_above_next h hu)
  bound := fun d hd => by
    have hd' : d < t.next + 1 := hd
    rw [Dcache.add]
    dsimp only
    rcases eq_or_ne d t.next with rfl | hne
    · rw [Function.update_self]
      omega
    · rw [Function.update_of_ne hne]
      exact (h.bound d (by omega)).trans (Nat.lt_succ_self _)
  used := fun d hd => by
    rcases add_hashed.mp hd with rfl | hd
    · exact Nat.lt_succ_self _
    · exact (h.used d hd).trans (Nat.lt_succ_self _)
  parents := fun d hd => by
    have hd' : d < t.next + 1 := hd
    rw [Dcache.add]
    dsimp only
    rcases eq_or_ne d t.next with rfl | hne
    · rw [Function.update_self,Function.update_of_ne hu.ne,hsame u hu]
      exact hdir
    · have hlt : d < t.next := by omega
      have hp := h.bound d hlt
      rw [Function.update_of_ne hne,Function.update_of_ne hp.ne,hsame _ hp]
      exact h.parents d hlt

theorem drop_shape (h : Shape t isDir) (d : ℕ) : Shape (t.drop d) isDir where
  next := h.next
  root := h.root
  rooted := h.rooted
  bound := h.bound
  used := fun e he => h.used e (drop_hashed.mp he).2
  parents := h.parents

theorem place_shape (h : Shape t isDir) (hd0 : d ≠ 0) (hd : d < t.next) (hu : u < t.next)
    (hdir : isDir (t.inode u) = true) (ha : ¬ Above t.parent d u) :
    Shape (t.place d u n) isDir where
  next := h.next
  root := (Function.update_of_ne hd0.symm ..).trans h.root
  rooted := (rooted_update_iff h.root h.rooted hd0).mpr ha
  bound := fun e he => by
    rw [Dcache.place]
    dsimp only
    rcases eq_or_ne e d with rfl | hne
    · rw [Function.update_self]
      exact hu
    · rw [Function.update_of_ne hne]
      exact h.bound e he
  used := fun e he => by
    rcases place_hashed.mp he with rfl | he
    · exact hd
    · exact h.used e he
  parents := fun e he => by
    rw [Dcache.place]
    dsimp only
    rcases eq_or_ne e d with rfl | hne
    · rw [Function.update_self]
      exact hdir
    · rw [Function.update_of_ne hne]
      exact h.parents e he

theorem dMove_shape {new : Option ℕ} (h : Shape t isDir) (hd0 : d ≠ 0) (hd : d < t.next)
    (hu : u < t.next) (hdir : isDir (t.inode u) = true) (ha : ¬ Above t.parent d u) :
    Shape (t.dMove d u n new) isDir := by
  cases new with
  | none => exact place_shape h hd0 hd hu hdir ha
  | some e => exact place_shape (drop_shape h e) hd0 hd hu hdir ha

theorem shape_congr {isDir' : ℕ → Bool} (h : Shape t isDir)
    (hsame : ∀ d < t.next, isDir' (t.inode d) = isDir (t.inode d)) : Shape t isDir' where
  next := h.next
  root := h.root
  rooted := h.rooted
  bound := h.bound
  used := h.used
  parents := fun d hd => (hsame _ (h.bound d hd)).trans (h.parents d hd)

theorem dAncestor_iff (h : Shape t isDir) (hu : u < t.next) :
    (∃ x, t.dAncestor d u = some x) ↔ Above t.parent d u ∧ d ≠ u :=
  childAbove_iff h.root (h.rooted u) h.bound hu

theorem above_siblings (h : Shape t isDir) (hd0 : d ≠ 0) (he0 : e ≠ 0)
    (hp : t.parent d = t.parent e) (hd : Above t.parent d u) (he : Above t.parent e u) :
    d = e := by
  rcases above_total hd he with ha | ha
  · exact (above_cases ha).resolve_right fun hup => not_above_parent h hd0 (hp ▸ hup)
  · exact ((above_cases ha).resolve_right fun hup => not_above_parent h he0 (hp ▸ hup)).symm

theorem dAncestor_parent (h : Shape t isDir) (hd0 : d ≠ 0) (hu : u < t.next)
    (hd : Above t.parent d u) : t.dAncestor (t.parent d) u = some d := by
  have hne : t.parent d ≠ u := by
    rintro rfl
    exact not_above_parent h hd0 hd
  obtain ⟨x,hx⟩ := (dAncestor_iff h hu).mpr ⟨above_parent hd,hne⟩
  obtain ⟨h1,h2,h3⟩ := childAbove_some hx
  have hx0 : x ≠ 0 := by
    rintro rfl
    exact h2 h.root
  rw [hx,above_siblings h hx0 hd0 h1 h3 hd]

theorem lockRename_source (h : Shape t isDir) (hd0 : d ≠ 0) (hd : d < t.next) (hu : u < t.next) :
    t.lockRename (t.parent d) u = some d ↔ Above t.parent d u := by
  have hp := h.bound d hd
  unfold Dcache.lockRename
  split_ifs with he
  · refine iff_of_false (by simp) ?_
    rw [← he]
    exact not_above_parent h hd0
  · constructor
    · intro ht
      rcases Option.or_eq_some_iff.mp ht with hx | ⟨-,hx⟩
      · obtain ⟨h1,-,-⟩ := childAbove_some hx
        exact absurd h1 he
      · exact (childAbove_some hx).2.2
    · intro ha
      have hnone : t.dAncestor u (t.parent d) = none := by
        rw [Option.eq_none_iff_forall_ne_some]
        intro x hx
        have hup := ((dAncestor_iff h hp).mp ⟨x,hx⟩).1
        exact not_above_parent h hd0 (above_trans ha hup)
      rw [hnone,Option.none_or]
      exact dAncestor_parent h hd0 hu ha

theorem lockRename_target (h : Shape t isDir) (he0 : e ≠ 0) (he : e < t.next) (hu : u < t.next) :
    t.lockRename u (t.parent e) = some e ↔ Above t.parent e u := by
  have hp := h.bound e he
  unfold Dcache.lockRename
  split_ifs with hue
  · refine iff_of_false (by simp) ?_
    rw [hue]
    exact not_above_parent h he0
  · constructor
    · intro ht
      rcases Option.or_eq_some_iff.mp ht with hx | ⟨-,hx⟩
      · exact (childAbove_some hx).2.2
      · obtain ⟨h1,-,-⟩ := childAbove_some hx
        exact absurd h1.symm hue
    · intro ha
      rw [dAncestor_parent h he0 hu ha,Option.some_or]

theorem dAncestor_self_iff (h : Shape t isDir) (hd0 : d ≠ 0) (hu : u < t.next) :
    t.dAncestor (t.parent d) u = some d ↔ Above t.parent d u :=
  ⟨fun ht => (childAbove_some ht).2.2,dAncestor_parent h hd0 hu⟩

theorem dMoveBug_iff {new : Option ℕ} (h : Shape t isDir) (hd0 : d ≠ 0) (hd : d < t.next)
    (hu : u < t.next)
    (hnew : ∀ e, new = some e → e ≠ 0 ∧ e ≠ d ∧ e < t.next ∧ t.parent e = u) :
    t.dMoveBug d u new = true ↔ t.lockRename (t.parent d) u = some d ∨
      ∃ e, new = some e ∧ t.lockRename (t.parent d) u = some e := by
  rw [lockRename_source h hd0 hd hu,Dcache.dMoveBug]
  cases new with
  | none => simp [dAncestor_self_iff h hd0 hu]
  | some e =>
    obtain ⟨he0,hed,he,rfl⟩ := hnew e rfl
    have hup : Above t.parent d e ↔ Above t.parent d (t.parent e) :=
      ⟨fun ha => (above_cases ha).resolve_left hed.symm,.up⟩
    have hdown : Above t.parent e d ↔ Above t.parent e (t.parent d) :=
      ⟨fun ha => (above_cases ha).resolve_left hed,.up⟩
    simp only [Option.any_some,Option.getD_some,Bool.or_eq_true,Option.isSome_iff_exists,
      beq_iff_eq,Option.some.injEq,exists_eq_left']
    rw [dAncestor_iff h hd,dAncestor_self_iff h hd0 he,
      lockRename_target h he0 he (h.bound d hd),hup,hdown]
    exact ⟨fun ha => ha.symm.imp_right And.left,fun ha => ha.symm.imp_left fun hb => ⟨hb,hed⟩⟩

end dcache

end Tree
end BackupFs
