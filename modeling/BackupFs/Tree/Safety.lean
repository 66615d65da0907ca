import BackupFs.Tree.Mirror

namespace BackupFs
namespace Tree

open Forest (rooted_update_iff)
open Transition (Run)

def mounted (b : Below) (top : ℕ) : Mount where
  below := b
  upper := {
    parent := fun _ => 0
    name := b.dcache.name
    inode := fun _ => b.dcache.inode top
    chain := [0]
    next := 1 }
  lower := fun _ => top

section safety
variable {s t : Mount} {b : Below} {top c u : ℕ} {n : Name} {w : World} {as : List Action}

theorem only_root (h : (mounted b top).upper.hashed c = true) : c = 0 :=
  List.mem_singleton.mp (hashed_iff.mp h)

theorem mounted_covers (hb : Sound b) (ht : b.Walked top) : Covers (mounted b top) where
  below := hb
  shape := {
    next := Nat.one_pos
    root := rfl
    rooted := fun _ => .up .refl
    bound := fun _ _ => Nat.one_pos
    used := fun _ hd => only_root hd ▸ Nat.one_pos
    parents := fun _ _ => ht.2 }
  unique := fun _ _ hd _ hh => absurd (only_root hh) hd
  pins := fun _ _ => ⟨ht.1,rfl⟩
  top := fun _ hc hc0 => absurd (Nat.lt_one_iff.mp hc) hc0
  oneDir := fun _ _ hc hd _ _ => (only_root hc).trans (only_root hd).symm
  root := ⟨Nat.one_pos,rfl,ht.2⟩

theorem mounted_mirrors (hb : Sound b) (hn : Unique b.dcache) (ht : b.Walked top)
    (hh : b.dcache.hashed top = true) : Mirrors (mounted b top) where
  covers := mounted_covers hb ht
  names := hn
  live := fun _ hc0 hc => absurd (only_root hc) hc0
  sits := fun _ hc0 hc => absurd (only_root hc) hc0
  root := hh

theorem trees_kept (hb : Sound b) (ht : b.Walked top)
    (hrun : Run Step (mounted b top) as t) : Covers t := covers_run (mounted_covers hb ht) hrun

def bare : Below where
  dcache := {
    parent := fun _ => 0
    name := fun _ => []
    inode := fun _ => 0
    chain := [0]
    next := 1 }
  isDir := fun i => i == 0
  dead := fun _ => false
  nlink := fun _ => 2
  nextIno := 1

theorem bare_only {d : ℕ} (h : bare.dcache.hashed d = true) : d = 0 :=
  List.mem_singleton.mp (hashed_iff.mp h)

theorem bare_sound : Sound bare where
  shape := {
    next := Nat.one_pos
    root := rfl
    rooted := fun _ => .up .refl
    bound := fun _ _ => Nat.one_pos
    used := fun _ hd => bare_only hd ▸ Nat.one_pos
    parents := fun _ _ => rfl }
  inodes := fun _ _ => Nat.one_pos
  oneDir := fun _ hd _ he _ _ => (Nat.lt_one_iff.mp hd).trans (Nat.lt_one_iff.mp he).symm
  live := fun _ hd hh => absurd (bare_only hh) hd
  root := ⟨rfl,rfl⟩
  gone := fun _ hd _ hh => by
    obtain rfl := Nat.lt_one_iff.mp hd
    cases hh

theorem bare_unique : Unique bare.dcache := fun _ _ hd _ hh => absurd (bare_only hh) hd

def behind (as : List Action) : Mount := (as.foldlM step (mounted bare 0)).getD (mounted bare 0)

def movedBelow : List Action := [
  .make .mkdir 0 [97] {},
  .make .create 0 [98] {},
  .below (.rename 0 [98] 1 [99] none)]

theorem run_movedBelow : Run Step (mounted bare 0) movedBelow (behind movedBelow) :=
  ((Run.nil.snoc ⟨⟨by decide,rfl,rfl⟩,rfl⟩).snoc ⟨⟨by decide,rfl,rfl⟩,rfl⟩).snoc
    ⟨⟨⟨by decide,rfl⟩,by decide,rfl⟩,rfl⟩

theorem trees_kept_moved : Covers (behind movedBelow) :=
  trees_kept bare_sound ⟨Nat.one_pos,rfl⟩ run_movedBelow

theorem dMove_rooted_iff {l d : ℕ} {new : Option ℕ} (hb : Sound b)
    (hl : l ≠ 0 ∧ l < b.dcache.next) (hd : d < b.dcache.next) :
    Forest.Rooted (b.dcache.dMove l d n new).parent 0 ↔
      b.dcache.lockRename (b.dcache.parent l) d ≠ some l := by
  rw [dMove_parent,ne_eq,lockRename_source hb.shape hl.1 hl.2 hd]
  exact rooted_update_iff hb.shape.root hb.shape.rooted hl.1

def trapBelow (s : Mount) (c1 u2 : ℕ) (n2 : Name) (new : Option ℕ) : Option ℕ :=
  s.below.dcache.lockRename (s.below.dcache.parent (s.lower c1)) (newBelow s u2 n2 new).1

theorem rename_traps_exact (c1 u2 : ℕ) (n2 : Name) (new : Option ℕ) (hb : Sound b)
    (ht : b.Walked top) (hrun : Run Step (mounted b top) as t) (hu2 : t.Walked u2)
    (hc1 : c1 ≠ 0 ∧ t.upper.hashed c1 = true)
    (hnew : ∀ e, new = some e → e ≠ 0 ∧ t.upper.hashed e = true ∧ t.lower e ≠ t.lower c1) :
    (Forest.Rooted (t.below.dcache.dMove (t.lower c1) (newBelow t u2 n2 new).1
      (newBelow t u2 n2 new).2 (new.map t.lower)).parent 0 ↔
      trapBelow t c1 u2 n2 new ≠ some (t.lower c1)) ∧
    (t.below.dcache.dMoveBug (t.lower c1) (newBelow t u2 n2 new).1 (new.map t.lower) = true ↔
      trapBelow t c1 u2 n2 new = some (t.lower c1) ∨
      ∃ e, new.map t.lower = some e ∧ trapBelow t c1 u2 n2 new = some e) := by
  have h := covers_run (mounted_covers hb ht) hrun
  have hp := newBelow_places n2 h hu2 hc1 fun e he => ⟨(hnew e he).1,(hnew e he).2.1⟩
  refine ⟨dMove_rooted_iff h.below hp.source hp.dir.1,?_⟩
  refine dMoveBug_iff h.below.shape hp.source.1 hp.source.2 hp.dir.1 fun e he => ?_
  obtain ⟨he0,hlt,hpar⟩ := hp.target e he
  obtain ⟨c,rfl,rfl⟩ := Option.map_eq_some_iff.mp he
  exact ⟨he0,(hnew c rfl).2.2,hlt,hpar⟩

theorem rename_traps_exact_own :
    (Forest.Rooted ((behind movedBelow).below.dcache.dMove 1 1 [100] none).parent 0 ↔
      trapBelow (behind movedBelow) 1 1 [100] none ≠ some 1) ∧
    ((behind movedBelow).below.dcache.dMoveBug 1 1 none = true ↔
      trapBelow (behind movedBelow) 1 1 [100] none = some 1 ∨
      ∃ e, none = some e ∧ trapBelow (behind movedBelow) 1 1 [100] none = some e) :=
  rename_traps_exact 1 1 [100] none bare_sound
    ⟨Nat.one_pos,rfl⟩ run_movedBelow ⟨by decide,rfl,rfl⟩ ⟨by decide,rfl⟩ nofun

def Misplaced (s : Mount) (u : ℕ) (n : Name) (w : World) : Prop :=
  ∃ c t, lookup w false u n s = (.ok (some c),t) ∧ t.dir c = false ∧
    t.below.dcache.parent (t.lower c) ≠ t.lower u

theorem unlink_bug (h : Covers s) (hu : s.Walked u) (hc : Found s u n c) :
    bkpfsUnlink w u c s = none ↔ s.below.dcache.parent (s.lower c) ≠ s.lower u := by
  have hlt := h.shape.used c hc.2.1
  have hp := h.below.shape.bound _ (h.pins c hlt).1
  have hdir : s.below.dcache.inode (s.below.dcache.parent (s.lower c)) ≠ s.upper.inode u ↔
      s.below.dcache.parent (s.lower c) ≠ s.lower u := by
    rw [(h.pins u hu.1).2]
    refine not_congr ⟨fun hi => ?_,fun he => congrArg _ he⟩
    exact h.below.oneDir _ hp _ (h.pins u hu.1).1 (below_parent_dir h.below (h.pins c hlt).1) hi
  rw [← hdir,← vfsUnlink_none w.op w.nfsRenamed,bkpfsUnlink]
  rcases vfsUnlink w.op w.nfsRenamed (s.upper.inode u) (s.lower c) s.below with _ | ⟨e,b⟩
  · simp
  · dsimp only
    split_ifs <;> simp

theorem rmdir_safe : bkpfsRmdir w c s ≠ none := by
  unfold bkpfsRmdir
  dsimp only
  rcases hv : vfsRmdir w.op (s.below.dcache.inode (s.below.dcache.parent (s.lower c)))
      (s.lower c) s.below with _ | ⟨e,b⟩
  · exact absurd rfl (vfsRmdir_none.mp hv)
  · dsimp only
    split_ifs <;> simp

theorem rename_safe {flags u1 c1 u2 : ℕ} {n1 n2 : Name} {new : Option ℕ} (h : Covers s)
    (hu2 : s.Walked u2) (hc1 : Found s u1 n1 c1) (hnew : Target s u2 n2 new) :
    renameAt w flags u1 c1 u2 n2 new s ≠ none := by
  have hlt := h.shape.used c1 hc1.2.1
  unfold renameAt
  dsimp only
  split_ifs with h1 h2 h3 h4
  · simp
  · simp
  · simp
  · simp
  · have hbug : s.upper.dMoveBug c1 u2 new = false := by
      refine eq_false_of_ne_true fun hbug => ?_
      have hne : ∀ e, new = some e → e ≠ 0 ∧ e ≠ c1 ∧ e < s.upper.next ∧
          s.upper.parent e = u2 := by
        rintro e rfl
        obtain ⟨he0,hh,hp,-⟩ := hnew.found e rfl
        refine ⟨he0,?_,h.shape.used e hh,hp⟩
        rintro rfl
        exact h3 rfl
      rcases (dMoveBug_iff h.shape hc1.1 hlt hu2.1 hne).mp hbug with ht | ⟨e,rfl,ht⟩
      · exact h1 (hc1.2.2.1 ▸ ht)
      · rw [hc1.2.2.1] at ht
        exact h2 ⟨ht ▸ by simp,ht⟩
    unfold bkpfsRename
    split_ifs
    · dsimp only
      rw [hbug,if_neg Bool.false_ne_true]
      split_ifs <;> simp
    · have hp := newBelow_places n2 h hu2 ⟨hc1.1,hc1.2.1⟩
        fun e he => ⟨(hnew.found e he).1,(hnew.found e he).2.1⟩
      obtain ⟨r,hv,-⟩ := lockedRename_cases w.op (newBelow s u2 n2 new).2 h.below hp
      dsimp only
      rw [hv]
      dsimp only [Mount.onBelow]
      rw [hbug,if_neg Bool.false_ne_true]
      split_ifs <;> simp

theorem below_safe {op : BelowOp} (h : Sound b) (hen : b.Enabled op) : belowStep b op ≠ none := by
  cases op with
  | make | link => simp [belowStep]
  | unlink d n fails silly =>
    rw [belowStep]
    cases hc : b.dcache.child d n with
    | none => simp
    | some l =>
      obtain ⟨-,-,hp,-⟩ := child_spec hc
      simp [vfsUnlink_none,hp]
  | rmdir d n fails =>
    rw [belowStep]
    cases hc : b.dcache.child d n with
    | none => simp
    | some l =>
      obtain ⟨-,-,hp,-⟩ := child_spec hc
      simp [vfsRmdir_none,hp]
  | rename d1 n1 d2 n2 fails =>
    rw [belowStep]
    cases hc : b.dcache.child d1 n1 with
    | none => simp
    | some old =>
      have hp := child_places (n := n2) h hen.2 hc rfl
      obtain ⟨r,hr,-⟩ := lockedRename_cases fails n2 h hp
      simp [hr]

theorem step_bug {a : Action} (h : Covers s) (hen : Enabled s a) :
    step s a = none ↔ ∃ u n w, a = .unlink u n w ∧ Misplaced s u n w := by
  have hother (hs : step s a ≠ none) (ha : ∀ u n w, a ≠ .unlink u n w) :
      step s a = none ↔ ∃ u n w, a = .unlink u n w ∧ Misplaced s u n w := by
    refine iff_of_false hs ?_
    rintro ⟨u,n,w,he,-⟩
    exact ha u n w he
  cases a with
  | lookup | make | link | prune => exact hother (by simp [step]) (by simp)
  | unlink u n w =>
    rw [step,unlinked]
    rcases hq : lookup w false u n s with ⟨r,t⟩
    have hb := behind_lookup h hen hq
    have hiff : Misplaced s u n w ↔ ∃ c, r = .ok (some c) ∧ t.dir c = false ∧
        t.below.dcache.parent (t.lower c) ≠ t.lower u := by
      unfold Misplaced
      rw [hq]
      constructor
      · rintro ⟨c,t',he,hm⟩
        cases he
        exact ⟨c,rfl,hm⟩
      · rintro ⟨c,rfl,hm⟩
        exact ⟨c,t,rfl,hm⟩
    have hnone : (∃ u' n' w', Action.unlink u n w = .unlink u' n' w' ∧ Misplaced s u' n' w') ↔
        Misplaced s u n w := by
      refine ⟨?_,fun hm => ⟨u,n,w,rfl,hm⟩⟩
      rintro ⟨_,_,_,he,hm⟩
      cases he
      exact hm
    rw [hnone,hiff]
    rcases r with e | _ | c
    · simp
    · simp
    · dsimp only
      have hc := (hb.target _ rfl).found c rfl
      have hbug := unlink_bug (w := w) hb.covers (hb.walked u hen) hc
      split_ifs with hdir
      · simp [hdir]
      · rw [Option.map_eq_none_iff,hbug]
        simp [eq_false_of_ne_true hdir]
  | rmdir u n w =>
    refine hother ?_ (by simp)
    rw [step,removed]
    rcases lookup w false u n s with ⟨r,t⟩
    rcases r with e | _ | c
    · simp
    · simp
    · dsimp only
      split_ifs
      · simpa using rmdir_safe
      · simp
  | rename flags u1 n1 u2 n2 w1 w2 =>
    refine hother ?_ (by simp)
    rw [step,renamed]
    rcases hq1 : lookup w1 (u1 != u2) u1 n1 s with ⟨r1,s1⟩
    have hb1 := behind_lookup h hen.1 hq1
    rcases r1 with e | _ | c1
    · simp
    · simp
    · dsimp only
      rcases hq2 : lookup w2 (u1 != u2) u2 n2 s1 with ⟨r2,s2⟩
      have hb2 := behind_lookup hb1.covers (hb1.walked u2 hen.2) hq2
      rcases r2 with e | new
      · simp
      · have hu2 := hb1.walked u2 hen.2
        obtain ⟨n1',hc1⟩ := found_lookup hb1.covers hu2 ((hb1.target _ rfl).found c1 rfl) hq2
        exact rename_safe hb2.covers (hb2.walked u2 hu2) hc1 (hb2.target new rfl)
  | below op =>
    refine hother ?_ (by simp)
    rw [step,ne_eq,Option.map_eq_none_iff]
    exact below_safe h.below hen

theorem namespace_bug_iff {a : Action} (hb : Sound b) (ht : b.Walked top)
    (hrun : Run Step (mounted b top) as t) (hen : Enabled t a) :
    step t a = none ↔ ∃ u n w, a = .unlink u n w ∧ Misplaced t u n w :=
  step_bug (covers_run (mounted_covers hb ht) hrun) hen

theorem namespace_bug_iff_moved : step (behind movedBelow) (.unlink 0 [98] {}) = none :=
  (namespace_bug_iff (a := .unlink 0 [98] {}) bare_sound ⟨Nat.one_pos,rfl⟩ run_movedBelow
    ⟨by decide,rfl,rfl⟩).mpr ⟨0,[98],{},rfl,2,_,rfl,rfl,by decide⟩

theorem mirrors_reach (h : Mirrors s) (hd : Relation.ReflTransGen Does s t) : Mirrors t := by
  induction hd with
  | refl => exact h
  | tail _ ht ih => exact mirrors_does ih ht

theorem mirrors_step {a : Action} (h : Mirrors s) (ha : ∀ op, a ≠ .below op) (hs : Step s a t) :
    Mirrors t := mirrors_reach h (does_step h.covers ha hs)

theorem mirrors_run (h : Mirrors s) (has : ∀ a ∈ as, ∀ op, a ≠ .below op)
    (hrun : Run Step s as t) : Mirrors t := by
  induction hrun with
  | nil => exact h
  | snoc hr hs ih =>
    refine mirrors_step (ih fun a ha => has a (List.mem_append_left _ ha)) ?_ hs
    exact has _ (List.mem_append_right _ List.mem_cons_self)

theorem mirrors_placed (h : Mirrors s) (hu : s.Walked u) : ¬ Misplaced s u n w := by
  rintro ⟨c,t,hq,-,hp⟩
  have hb := behind_lookup h.covers hu hq
  have hm := mirrors_lookup w false n h hu
  rw [hq] at hm
  obtain ⟨hc0,hc,rfl,-⟩ := (hb.target _ rfl).found c rfl
  exact hp (hm.sits c hc0 hc).2.1

theorem mount_mirrors (hb : Sound b) (hn : Unique b.dcache) (ht : b.Walked top)
    (hh : b.dcache.hashed top = true) (has : ∀ a ∈ as, ∀ op, a ≠ .below op)
    (hrun : Run Step (mounted b top) as t) :
    Mirrors t ∧ ∀ a, Enabled t a → step t a ≠ none := by
  have hm := mirrors_run (mounted_mirrors hb hn ht hh) has hrun
  refine ⟨hm,fun a hen hs => ?_⟩
  obtain ⟨u,n,w,rfl,hmis⟩ := (step_bug hm.covers hen).mp hs
  exact mirrors_placed hm hen hmis

def movedAbove : List Action := [
  .make .mkdir 0 [97] {},
  .make .create 0 [98] {},
  .rename 0 0 [98] 1 [99] {} {}]

theorem run_movedAbove : Run Step (mounted bare 0) movedAbove (behind movedAbove) :=
  ((Run.nil.snoc ⟨⟨by decide,rfl,rfl⟩,rfl⟩).snoc ⟨⟨by decide,rfl,rfl⟩,rfl⟩).snoc
    ⟨⟨⟨by decide,rfl,rfl⟩,by decide,rfl,rfl⟩,rfl⟩

theorem movedAbove_only : ∀ a ∈ movedAbove, ∀ op, a ≠ .below op := by
  intro a ha op
  simp only [movedAbove,List.mem_cons,List.not_mem_nil,or_false] at ha
  rcases ha with rfl | rfl | rfl <;> simp

theorem mount_mirrors_moved : Mirrors (behind movedAbove) ∧
    ∀ a, Enabled (behind movedAbove) a → step (behind movedAbove) a ≠ none :=
  mount_mirrors bare_sound bare_unique ⟨Nat.one_pos,rfl⟩ rfl movedAbove_only run_movedAbove

end safety

end Tree
end BackupFs
