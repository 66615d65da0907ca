import BackupFs.Tree.Exact

namespace BackupFs
namespace Tree

def walk (s : Mount) (u : ℕ) : List Name → Except Int (Option ℕ) × Mount
  | [] => (.ok (some u),s)
  | n :: ns =>
    if s.dir u = false then (.error (-ENOTDIR),s)
    else match lookup {} false u n s with
      | (.ok (some c),t) => walk t c ns
      | (r,t) => (r,t)

def Below.walk (b : Below) (d : ℕ) : List Name → Except Int (Option ℕ)
  | [] => .ok (some d)
  | n :: ns =>
    if b.dir d = false then .error (-ENOTDIR)
    else match b.dcache.child d n with
      | some l => b.walk l ns
      | none => .ok none

def Mount.reach (s : Mount) (p : List Name) : Option ℕ × Mount :=
  match Tree.walk s 0 p with
  | (.ok (some u),t) => (if t.dir u then some u else none,t)
  | (_,t) => (none,t)

def Below.reach (b : Below) (top : ℕ) (p : List Name) : Option ℕ :=
  match b.walk top p with
  | .ok (some d) => if b.dir d then some d else none
  | _ => none

inductive Call where
  | make (k : Made) (p : List Name) (n : Name) (fails : Option Errno)
  | link (p1 : List Name) (n1 : Name) (p2 : List Name) (n2 : Name) (fails : Option Errno)
  | unlink (p : List Name) (n : Name) (fails : Option Errno) (nfsRenamed : Bool)
  | rmdir (p : List Name) (n : Name) (fails : Option Errno)
  | rename (p1 : List Name) (n1 : Name) (p2 : List Name) (n2 : Name) (fails : Option Errno)

def Mount.inDir (s : Mount) (p : List Name) (f : ℕ → Action) : Option Mount :=
  match s.reach p with
  | (some u,t) => step t (f u)
  | (none,t) => some t

def Below.inDir (b : Below) (top : ℕ) (p : List Name) (f : ℕ → BelowOp) : Option Below :=
  match b.reach top p with
  | some d => belowStep b (f d)
  | none => some b

def Mount.linkAt (s : Mount) (u1 : ℕ) (n1 : Name) (p2 : List Name) (n2 : Name)
    (fails : Option Errno) : Option Mount :=
  match Tree.lookup {} false u1 n1 s with
  | (.ok (some c),t) =>
    if t.dir c then some t else t.inDir p2 fun u2 => .link c u2 n2 { op := fails }
  | (_,t) => some t

def Below.linkAt (b : Below) (top d1 : ℕ) (n1 : Name) (p2 : List Name) (n2 : Name)
    (fails : Option Errno) : Option Below :=
  match b.dcache.child d1 n1 with
  | some l => if b.dir l then some b else b.inDir top p2 fun d2 => .link l d2 n2 fails
  | none => some b

def call (s : Mount) : Call → Option Mount
  | .make k p n fails => s.inDir p fun u => .make k u n { op := fails }
  | .link p1 n1 p2 n2 fails =>
    match s.reach p1 with
    | (some u1,t) => t.linkAt u1 n1 p2 n2 fails
    | (none,t) => some t
  | .unlink p n fails silly => s.inDir p fun u => .unlink u n { op := fails,nfsRenamed := silly }
  | .rmdir p n fails => s.inDir p fun u => .rmdir u n { op := fails }
  | .rename p1 n1 p2 n2 fails =>
    match s.reach p1 with
    | (some u1,t) => t.inDir p2 fun u2 => .rename 0 u1 n1 u2 n2 {} { op := fails }
    | (none,t) => some t

def callBelow (top : ℕ) (b : Below) : Call → Option Below
  | .make k p n fails => b.inDir top p fun d => .make k.isDir d n fails
  | .link p1 n1 p2 n2 fails =>
    match b.reach top p1 with
    | some d1 => b.linkAt top d1 n1 p2 n2 fails
    | none => some b
  | .unlink p n fails silly => b.inDir top p fun d => .unlink d n fails silly
  | .rmdir p n fails => b.inDir top p fun d => .rmdir d n fails
  | .rename p1 n1 p2 n2 fails =>
    match b.reach top p1 with
    | some d1 => b.inDir top p2 fun d2 => .rename d1 n1 d2 n2 fails
    | none => some b

section calls
variable {s t : Mount} {b : Below} {c u top : ℕ} {n : Name} {p : List Name}

theorem walk_exact {r : Except Int (Option ℕ)} (h : Mirrors s) (hu : s.upper.hashed u = true)
    (hq : walk s u p = (r,t)) :
    Learns s t ∧ r.map (Option.map t.lower) = s.below.walk (s.lower u) p ∧
      ∀ c, r = .ok (some c) → t.upper.hashed c = true := by
  induction p generalizing s u with
  | nil =>
    cases hq
    refine ⟨learns_refl h,rfl,?_⟩
    rintro _ ⟨⟩
    exact hu
  | cons n ns ih =>
    have hlt := h.covers.shape.used _ hu
    rw [walk] at hq
    rw [Below.walk,← upper_dir h.covers hlt]
    split_ifs at hq ⊢ with hdir
    · cases hq
      exact ⟨learns_refl h,rfl,nofun⟩
    · have hw : s.Walked u := ⟨hlt,hu,eq_true_of_ne_false hdir⟩
      rcases hl : lookup {} false u n s with ⟨r',s'⟩
      have hlearn := learns_lookup h hw hl
      obtain ⟨new,rfl,hnew⟩ := lookup_exact h hw ⟨rfl,rfl⟩ hl
      rw [hl] at hq
      rw [← hnew]
      cases new with
      | none =>
        cases hq
        exact ⟨hlearn,rfl,nofun⟩
      | some c =>
        have hc := ((behind_lookup h.covers hw hl).target _ rfl).found c rfl
        obtain ⟨h1,h2,h3⟩ := ih hlearn.mirrors hc.2.1 hq
        rw [hlearn.below] at h2
        exact ⟨learns_trans hlearn h1,h2,h3⟩

theorem reach_exact {u : Option ℕ} (h : Mirrors s) (hq : s.reach p = (u,t)) :
    Learns s t ∧ u.map t.lower = s.below.reach (s.lower 0) p ∧
      ∀ d, u = some d → t.Walked d := by
  unfold Mount.reach at hq
  rcases hw : walk s 0 p with ⟨r,t'⟩
  obtain ⟨hl,hr,hh⟩ := walk_exact h h.covers.root.2.1 hw
  rw [hw] at hq
  rw [Below.reach,← hr]
  rcases r with e | _ | d
  · cases hq
    exact ⟨hl,rfl,nofun⟩
  · cases hq
    exact ⟨hl,rfl,nofun⟩
  · have hd := hh d rfl
    have hlt := hl.mirrors.covers.shape.used _ hd
    have hdir := upper_dir hl.mirrors.covers hlt
    rw [hl.below] at hdir
    cases hq
    refine ⟨hl,?_,fun e he => ?_⟩
    · dsimp only [Except.map,Option.map_some]
      rw [← hdir]
      split_ifs <;> rfl
    · split_ifs at he with hk
      cases he
      exact ⟨hlt,hd,hk⟩

theorem interpose_top {w : World} {l : ℕ} (h : Covers s) :
    (interpose w u n l s).2.lower 0 = s.lower 0 := by
  unfold interpose
  cases w.interpose with
  | some e => rfl
  | none => exact Function.update_of_ne h.root.1.ne ..

theorem does_top (h : Covers s) (hd : Does s t) : t.lower 0 = s.lower 0 := by
  cases hd with
  | looked w locked n hu => exact ((looked_lookup w locked n h hu).kept 0 h.root.1).2.2.1
  | @made isdir u n w hu _ =>
    have hk := kept_make isdir w.op n h.below (walked_below h hu)
    unfold make
    rcases hm : vfsMake isdir w.op (s.lower u) n s.below with ⟨err,b⟩
    rw [hm] at hk
    dsimp only
    split_ifs
    · rfl
    · exact interpose_top (covers_onBelow h hk)
  | @linked c u n w hu hc _ =>
    have hk := kept_link w.op n h.below (walked_below h hu) (h.pins c hc).1
    unfold bkpfsLink
    rcases hm : vfsLink w.op (s.lower c) (s.lower u) n s.below with ⟨err,b⟩
    rw [hm] at hk
    dsimp only
    split_ifs
    · rfl
    · exact interpose_top (covers_onBelow h hk)
  | @unlinked u c n w r _ _ _ hr =>
    unfold bkpfsUnlink at hr
    rcases hv : vfsUnlink w.op w.nfsRenamed (s.upper.inode u) (s.lower c) s.below with _ | q
    · rw [hv] at hr
      cases hr
    · rw [hv] at hr
      dsimp only at hr
      split_ifs at hr <;> cases hr <;> rfl
  | @removed u c n w r _ hr =>
    unfold bkpfsRmdir at hr
    dsimp only at hr
    rcases hv : vfsRmdir w.op (s.below.dcache.inode (s.below.dcache.parent (s.lower c)))
      (s.lower c) s.below with _ | q
    · rw [hv] at hr
      cases hr
    · rw [hv] at hr
      dsimp only at hr
      split_ifs at hr <;> cases hr <;> rfl
  | @renamed flags u1 c1 u2 n1 n2 new w t hu2 hc1 hnew hr =>
    unfold renameAt at hr
    dsimp only at hr
    split_ifs at hr
    · cases hr
      rfl
    · cases hr
      rfl
    · cases hr
      rfl
    · cases hr
      rfl
    · rcases hv : bkpfsRename w flags c1 u2 n2 new s with _ | ⟨e,m⟩
      · rw [hv] at hr
        cases hr
      · obtain ⟨b,-,hm⟩ := rename_kept h hu2 ⟨hc1.1,hc1.2.1⟩
          (fun e he => ⟨(hnew.found e he).1,(hnew.found e he).2.1⟩) hv
        obtain rfl : m = s.onBelow b := hm
        rw [hv] at hr
        dsimp only at hr
        split_ifs at hr <;> cases hr <;> rfl
  | pruned => rfl

theorem reach_top (h : Covers s) (hd : Relation.ReflTransGen Does s t) :
    t.lower 0 = s.lower 0 := by
  induction hd with
  | refl => rfl
  | tail hd ht ih => exact (does_top (covers_reach h hd) ht).trans ih

structure Done (s : Mount) (b : Option Below) (t : Mount) : Prop where
  mirrors : Mirrors t
  top : t.lower 0 = s.lower 0
  below : b = some t.below

theorem done_learns (h : Mirrors s) (hl : Learns s t) : Done s (some s.below) t where
  mirrors := hl.mirrors
  top := (hl.kept 0 h.covers.root.2.1).2.1
  below := congrArg some hl.below.symm

theorem done_step {a : Action} {b : Option Below} (h : Mirrors s) (hl : Learns s t)
    (hen : Enabled t a) (hok : Healthy a) (ha : ∀ op, a ≠ .below op)
    (hb : translated t a = b) : ∃ t', step t a = some t' ∧ Done s b t' := by
  have hm := hl.mirrors
  rcases hs : step t a with _ | t'
  · obtain ⟨u,n,w,rfl,hmis⟩ := (step_bug hm.covers hen).mp hs
    exact absurd hmis (mirrors_placed hm hen)
  · have hexact := step_exact hm hen hok
    rw [hs,hb] at hexact
    refine ⟨t',rfl,mirrors_step hm ha ⟨hen,hs⟩,?_,hexact.symm⟩
    exact (reach_top hm.covers (does_step hm.covers ha ⟨hen,hs⟩)).trans
      (hl.kept 0 h.covers.root.2.1).2.1

theorem inDir_exact {f : ℕ → Action} {g : ℕ → BelowOp} (h : Mirrors s)
    (hok : ∀ u, Healthy (f u) ∧ ∀ op, f u ≠ .below op)
    (hen : ∀ t u, Learns s t → t.Walked u → Enabled t (f u) ∧
      translate t (f u) = some (g (t.lower u))) :
    ∃ t, s.inDir p f = some t ∧ Done s (s.below.inDir (s.lower 0) p g) t := by
  unfold Mount.inDir
  rcases hq : s.reach p with ⟨u,t⟩
  obtain ⟨hl,hu,hw⟩ := reach_exact h hq
  rw [Below.inDir,← hu]
  cases u with
  | none => exact ⟨t,rfl,done_learns h hl⟩
  | some u =>
    obtain ⟨h1,h2⟩ := hen t u hl (hw u rfl)
    refine done_step h hl h1 (hok u).1 (hok u).2 ?_
    rw [translated,h2,hl.below]
    rfl

theorem done_after {b : Option Below} {t' : Mount} (h : Mirrors s) (hl : Learns s t)
    (hd : Done t b t') : Done s b t' where
  mirrors := hd.mirrors
  top := hd.top.trans (hl.kept 0 h.covers.root.2.1).2.1
  below := hd.below

theorem linkAt_exact {u1 : ℕ} (n1 : Name) (p : List Name) (n2 : Name) (fails : Option Errno)
    (h : Mirrors s)
    (hu1 : s.Walked u1) :
    ∃ t, s.linkAt u1 n1 p n2 fails = some t ∧
      Done s (s.below.linkAt (s.lower 0) (s.lower u1) n1 p n2 fails) t := by
  unfold Mount.linkAt
  rcases hq : lookup {} false u1 n1 s with ⟨r,t⟩
  have hl := learns_lookup h hu1 hq
  obtain ⟨new,rfl,hnew⟩ := lookup_exact h hu1 ⟨rfl,rfl⟩ hq
  rw [Below.linkAt,← hnew]
  cases new with
  | none => exact ⟨t,rfl,done_learns h hl⟩
  | some c =>
    have hc := ((behind_lookup h.covers hu1 hq).target _ rfl).found c rfl
    have hlt := hl.mirrors.covers.shape.used _ hc.2.1
    have hdir := upper_dir hl.mirrors.covers hlt
    rw [hl.below] at hdir
    dsimp only [Option.map_some]
    rw [← hdir]
    split_ifs with hk
    · exact ⟨t,rfl,done_learns h hl⟩
    · have hf := eq_false_of_ne_true hk
      obtain ⟨t',ht',hd⟩ := inDir_exact (p := p) (f := fun u2 => .link c u2 n2 { op := fails })
        (g := fun d2 => .link (t.lower c) d2 n2 fails) hl.mirrors
        (fun u => ⟨⟨rfl,rfl⟩,nofun⟩) fun t2 u hl2 hu => by
          obtain ⟨h1,h2,h3⟩ := hl2.kept c hc.2.1
          refine ⟨⟨hu,hl2.mirrors.covers.shape.used _ h1,h1,?_⟩,?_⟩
          · rw [Mount.dir,h3,hl2.below]
            exact hf
          · rw [translate,h2]
      refine ⟨t',ht',?_⟩
      have hd' := done_after h hl hd
      rw [hl.below,(hl.kept 0 h.covers.root.2.1).2.1] at hd'
      exact hd'

theorem renameAt_calls {u1 : ℕ} (n1 : Name) (p : List Name) (n2 : Name) (fails : Option Errno)
    (h : Mirrors s)
    (hu1 : s.Walked u1) :
    ∃ t, s.inDir p (fun u2 => .rename 0 u1 n1 u2 n2 {} { op := fails }) = some t ∧
      Done s (s.below.inDir (s.lower 0) p fun d2 => .rename (s.lower u1) n1 d2 n2 fails) t := by
  refine inDir_exact h (fun u => ⟨⟨⟨rfl,rfl⟩,rfl,rfl⟩,nofun⟩) fun t u hl hu => ?_
  refine ⟨⟨learns_walked hl hu1,hu⟩,?_⟩
  rw [translate,(hl.kept u1 hu1.2.1).2.1]
  exact if_neg (by simp)

theorem call_exact (h : Mirrors s) (c : Call) :
    ∃ t, call s c = some t ∧ Done s (callBelow (s.lower 0) s.below c) t := by
  cases c with
  | make k p n fails =>
    exact inDir_exact h (fun u => ⟨⟨rfl,rfl⟩,nofun⟩) fun t u _ hu => ⟨hu,rfl⟩
  | unlink p n fails silly =>
    exact inDir_exact h (fun u => ⟨⟨rfl,rfl⟩,nofun⟩) fun t u _ hu => ⟨hu,rfl⟩
  | rmdir p n fails =>
    exact inDir_exact h (fun u => ⟨⟨rfl,rfl⟩,nofun⟩) fun t u _ hu => ⟨hu,rfl⟩
  | link p1 n1 p2 n2 fails =>
    unfold call callBelow
    rcases hq : s.reach p1 with ⟨u,t⟩
    obtain ⟨hl,hu,hw⟩ := reach_exact h hq
    dsimp only
    rw [hq,← hu]
    cases u with
    | none => exact ⟨t,rfl,done_learns h hl⟩
    | some u =>
      obtain ⟨t',ht',hd⟩ := linkAt_exact n1 p2 n2 fails hl.mirrors (hw u rfl)
      have hd' := done_after h hl hd
      rw [hl.below,(hl.kept 0 h.covers.root.2.1).2.1] at hd'
      exact ⟨t',ht',hd'⟩
  | rename p1 n1 p2 n2 fails =>
    unfold call callBelow
    rcases hq : s.reach p1 with ⟨u,t⟩
    obtain ⟨hl,hu,hw⟩ := reach_exact h hq
    dsimp only
    rw [hq,← hu]
    cases u with
    | none => exact ⟨t,rfl,done_learns h hl⟩
    | some u =>
      obtain ⟨t',ht',hd⟩ := renameAt_calls n1 p2 n2 fails hl.mirrors (hw u rfl)
      have hd' := done_after h hl hd
      rw [hl.below,(hl.kept 0 h.covers.root.2.1).2.1] at hd'
      exact ⟨t',ht',hd'⟩

theorem calls_exact (h : Mirrors s) (cs : List Call) :
    ∃ t, cs.foldlM call s = some t ∧ Done s (cs.foldlM (callBelow (s.lower 0)) s.below) t := by
  induction cs generalizing s with
  | nil => exact ⟨s,rfl,h,rfl,rfl⟩
  | cons c cs ih =>
    obtain ⟨s',hs',hd⟩ := call_exact h c
    obtain ⟨t,ht,hd'⟩ := ih hd.mirrors
    refine ⟨t,?_,hd'.mirrors,hd'.top.trans hd.top,?_⟩
    · rw [List.foldlM_cons,hs']
      exact ht
    · rw [List.foldlM_cons,hd.below,← hd.top]
      exact hd'.below

theorem mount_transparent (hb : Sound b) (hn : Unique b.dcache) (ht : b.Walked top)
    (hh : b.dcache.hashed top = true) (cs : List Call) :
    ∃ t, cs.foldlM call (mounted b top) = some t ∧
      cs.foldlM (callBelow top) b = some t.below ∧
      ∀ p, (walk t 0 p).1.map (Option.map (walk t 0 p).2.lower) = t.below.walk top p := by
  obtain ⟨t,hc,hd⟩ := calls_exact (mounted_mirrors hb hn ht hh) cs
  refine ⟨t,hc,hd.below,fun p => ?_⟩
  have hw := (walk_exact hd.mirrors hd.mirrors.covers.root.2.1 (p := p) rfl).2.1
  rw [hw,hd.top]
  rfl

theorem mount_transparent_moved : ∃ t,
    [Call.make .mkdir [] [97] none,.make .create [] [98] none,
      .rename [] [98] [[97]] [99] none].foldlM call (mounted bare 0) = some t ∧
      t.below.walk 0 [[97],[99]] = .ok (some 2) := by
  obtain ⟨t,ht,hb,-⟩ := mount_transparent bare_sound bare_unique ⟨Nat.one_pos,rfl⟩ rfl
    [Call.make .mkdir [] [97] none,.make .create [] [98] none,.rename [] [98] [[97]] [99] none]
  refine ⟨t,ht,?_⟩
  rw [← Option.some.inj hb]
  rfl

end calls

end Tree
end BackupFs
