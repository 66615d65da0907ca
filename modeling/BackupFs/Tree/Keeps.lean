import BackupFs.Tree.Covers
import Mathlib.Logic.Relation

namespace BackupFs
namespace Tree

section keeps
variable {s t : Mount} {b : Below} {c c1 u u1 u2 l : ℕ} {n n2 : Name} {w : World}
  {new : Option ℕ}

theorem covers_interpose (h : Covers s) (hu : s.Walked u) (hfree : s.upper.child u n = none)
    (hl : l < s.below.dcache.next) (hl0 : l ≠ 0)
    (hone : s.below.dir l = true → ∀ c, s.upper.hashed c = true →
      s.upper.inode c ≠ s.below.dcache.inode l) : Covers (interpose w u n l s).2 := by
  unfold interpose
  cases w.interpose with
  | some e => exact h
  | none => exact covers_attach h hu hfree hl hl0 hone

theorem walked_onBelow (h : Covers s) (hk : Kept s.below b) (hu : s.Walked u) :
    (s.onBelow b).Walked u :=
  ⟨hu.1,hu.2.1,(grows_isDir h hk.2 hu.1).trans hu.2.2⟩

theorem covers_make (isdir : Bool) (h : Covers s) (hu : s.Walked u)
    (hfree : s.upper.child u n = none) : Covers (make isdir w u n s).2 := by
  have hk := kept_make isdir w.op n h.below (walked_below h hu)
  have hcases := vfsMake_cases isdir w.op (s.lower u) n s.below
  unfold make
  cases hm : vfsMake isdir w.op (s.lower u) n s.below with
  | mk err b =>
    rw [hm] at hk hcases
    dsimp only at hk hcases ⊢
    split_ifs with he
    · exact covers_onBelow h hk
    · rcases hcases with ⟨hne,-⟩ | ⟨-,rfl,-⟩
      · exact absurd hne he
      · refine covers_interpose (covers_onBelow h hk) (walked_onBelow h hk hu) hfree
          (Nat.lt_succ_self _) h.below.shape.next.ne' fun _ c hc hi => ?_
        obtain ⟨hl,hin⟩ := h.pins c (h.shape.used _ hc)
        have hnew : (s.below.added isdir (s.lower u) n).dcache.inode s.below.dcache.next =
            s.below.nextIno := Function.update_self ..
        rw [Mount.onBelow] at hi
        dsimp only at hi
        rw [hnew,hin] at hi
        exact (h.below.inodes _ hl).ne hi

theorem covers_link (h : Covers s) (hu : s.Walked u) (hc : c < s.upper.next)
    (hfree : s.upper.child u n = none) : Covers (bkpfsLink w c u n s).2 := by
  have hk := kept_link w.op n h.below (walked_below h hu) (h.pins c hc).1
  have hcases := vfsLink_cases w.op (s.lower c) (s.lower u) n s.below
  unfold bkpfsLink
  cases hm : vfsLink w.op (s.lower c) (s.lower u) n s.below with
  | mk err b =>
    rw [hm] at hk hcases
    dsimp only at hk hcases ⊢
    split_ifs with he
    · exact covers_onBelow h hk
    · rcases hcases with ⟨hne,-⟩ | ⟨-,rfl,-,-,hf⟩
      · exact absurd hne he
      · refine covers_interpose (covers_onBelow h hk) (walked_onBelow h hk hu) hfree
          (Nat.lt_succ_self _) h.below.shape.next.ne' fun hdir => ?_
        -- what has got another name is no directory
        have hnew : (s.below.linked (s.lower c) (s.lower u) n).dcache.inode s.below.dcache.next =
            s.below.dcache.inode (s.lower c) := Function.update_self ..
        rw [Mount.onBelow,Below.dir] at hdir
        dsimp only at hdir
        rw [hnew] at hdir
        exact absurd hdir (ne_true_of_eq_false hf)

theorem covers_unlink {r : Int × Mount} (h : Covers s) (hc : c ≠ 0)
    (hr : bkpfsUnlink w u c s = some r) : Covers r.2 := by
  unfold bkpfsUnlink at hr
  cases hv : vfsUnlink w.op w.nfsRenamed (s.upper.inode u) (s.lower c) s.below with
  | none =>
    rw [hv] at hr
    cases hr
  | some q =>
    have hk := covers_onBelow h (kept_unlink h.below hv)
    rw [hv] at hr
    dsimp only at hr
    split_ifs at hr <;> cases hr <;> first | exact hk | exact covers_drop hk hc

theorem covers_rmdir {r : Int × Mount} (h : Covers s) (hc : c ≠ 0)
    (hr : bkpfsRmdir w c s = some r) : Covers r.2 := by
  unfold bkpfsRmdir at hr
  dsimp only at hr
  cases hv : vfsRmdir w.op (s.below.dcache.inode (s.below.dcache.parent (s.lower c)))
      (s.lower c) s.below with
  | none =>
    rw [hv] at hr
    cases hr
  | some q =>
    have hk := covers_onBelow h (kept_rmdir h.below hv)
    rw [hv] at hr
    dsimp only at hr
    split_ifs at hr <;> cases hr
    · exact hk
    · exact covers_drop hk hc

theorem newBelow_walked (h : Covers s) (hu : s.Walked u2)
    (hnew : ∀ e, new = some e → s.upper.hashed e = true) :
    s.below.Walked (newBelow s u2 n2 new).1 := by
  cases new with
  | none => exact walked_below h hu
  | some e =>
    have hl := (h.pins e (h.shape.used e (hnew e rfl))).1
    exact ⟨h.below.shape.bound _ hl,below_parent_dir h.below hl⟩

theorem newBelow_places (n2 : Name) (h : Covers s) (hu : s.Walked u2)
    (hc1 : c1 ≠ 0 ∧ s.upper.hashed c1 = true)
    (hnew : ∀ e, new = some e → e ≠ 0 ∧ s.upper.hashed e = true) :
    Places s.below (s.lower c1) (newBelow s u2 n2 new).1 (new.map s.lower) where
  dir := newBelow_walked h hu fun e he => (hnew e he).2
  source := by
    have hlt := h.shape.used c1 hc1.2
    exact ⟨h.top c1 hlt hc1.1,(h.pins c1 hlt).1⟩
  target := fun e he => by
    obtain ⟨c,rfl,rfl⟩ := Option.map_eq_some_iff.mp he
    obtain ⟨hc0,hc⟩ := hnew c rfl
    have hlt := h.shape.used c hc
    exact ⟨h.top c hlt hc0,(h.pins c hlt).1,rfl⟩

theorem rename_kept {flags : ℕ} {r : Int × Mount} (h : Covers s) (hu : s.Walked u2)
    (hc1 : c1 ≠ 0 ∧ s.upper.hashed c1 = true)
    (hnew : ∀ e, new = some e → e ≠ 0 ∧ s.upper.hashed e = true)
    (hr : bkpfsRename w flags c1 u2 n2 new s = some r) :
    ∃ b, Kept s.below b ∧ r.2 = s.onBelow b := by
  unfold bkpfsRename at hr
  split_ifs at hr with hf
  · cases hr
    exact ⟨s.below,kept_refl h.below,rfl⟩
  · dsimp only at hr
    cases hv : lockedRename w.op (s.lower c1) (newBelow s u2 n2 new).1 (newBelow s u2 n2 new).2
        (new.map s.lower) s.below with
    | none =>
      rw [hv] at hr
      cases hr
    | some q =>
      rw [hv] at hr
      cases hr
      exact ⟨q.2,kept_rename h.below (newBelow_places n2 h hu hc1 hnew) hv,rfl⟩

structure Target (s : Mount) (u2 : ℕ) (n2 : Name) (new : Option ℕ) : Prop where
  found : ∀ e, new = some e → Found s u2 n2 e
  missing : new = none → s.upper.child u2 n2 = none ∧
    s.below.dcache.child (s.lower u2) n2 = none

theorem covers_dMove (h : Covers s) (hu2 : s.Walked u2)
    (hc1 : c1 ≠ 0 ∧ s.upper.hashed c1 = true)
    (hfound : ∀ e, new = some e → Found s u2 n2 e)
    (hfree : new = none → s.upper.child u2 n2 = none)
    (hs : s.upper.lockRename (s.upper.parent c1) u2 ≠ some c1) :
    Covers { s with upper := s.upper.dMove c1 u2 n2 new } := by
  have hlt := h.shape.used c1 hc1.2
  refine covers_upper h ?_ (dMove_unique h.unique hfree hfound) dMove_next dMove_inode
    (fun c hc => ?_) (dMove_hashed.mpr (.inr ⟨fun he => ?_,h.root.2.1⟩))
  · exact dMove_shape h.shape hc1.1 hlt hu2.1 hu2.2.2 fun ha =>
      hs ((lockRename_source h.shape hc1.1 hlt hu2.1).mpr ha)
  · rcases dMove_hashed.mp hc with rfl | ⟨-,hc⟩
    · exact hc1.2
    · exact hc
  · exact (hfound 0 he).1 rfl

theorem covers_renameAt {flags : ℕ} (h : Covers s) (hu2 : s.Walked u2)
    (hc1 : c1 ≠ 0 ∧ s.upper.hashed c1 = true) (hp1 : s.upper.parent c1 = u1)
    (hnew : Target s u2 n2 new) (hr : renameAt w flags u1 c1 u2 n2 new s = some t) :
    Covers t := by
  unfold renameAt at hr
  dsimp only at hr
  split_ifs at hr with h1 h2 h3 h4
  · cases hr
    exact h
  · cases hr
    exact h
  · cases hr
    exact h
  · cases hr
    exact h
  · have hfound : ∀ e, new = some e → e ≠ 0 ∧ s.upper.hashed e = true :=
      fun e he => ⟨(hnew.found e he).1,(hnew.found e he).2.1⟩
    rcases hv : bkpfsRename w flags c1 u2 n2 new s with _ | ⟨e,m⟩
    · rw [hv] at hr
      cases hr
    · obtain ⟨b,hk,hm⟩ := rename_kept h hu2 hc1 hfound hv
      obtain rfl : m = s.onBelow b := hm
      have hb := covers_onBelow h hk
      rw [hv] at hr
      dsimp only at hr
      split_ifs at hr with he
      · cases hr
        exact hb
      · cases hr
        exact covers_dMove hb (walked_onBelow h hk hu2) hc1 hnew.found
          (fun hn => (hnew.missing hn).1) fun htrap => h1 (hp1 ▸ htrap)

inductive Does (s : Mount) : Mount → Prop
  | looked {u : ℕ} (w : World) (locked : Bool) (n : Name) (hu : s.Walked u) :
      Does s (lookup w locked u n s).2
  | made {isdir : Bool} {u : ℕ} {n : Name} {w : World} (hu : s.Walked u)
      (hfree : s.upper.child u n = none) : Does s (make isdir w u n s).2
  | linked {c u : ℕ} {n : Name} {w : World} (hu : s.Walked u) (hc : c < s.upper.next)
      (hfree : s.upper.child u n = none) : Does s (bkpfsLink w c u n s).2
  | unlinked {u c : ℕ} {n : Name} {w : World} {r : Int × Mount} (hu : s.Walked u)
      (hc : Found s u n c) (hf : s.dir c = false) (hr : bkpfsUnlink w u c s = some r) :
      Does s r.2
  | removed {u c : ℕ} {n : Name} {w : World} {r : Int × Mount} (hc : Found s u n c)
      (hr : bkpfsRmdir w c s = some r) : Does s r.2
  | renamed {flags u1 c1 u2 : ℕ} {n1 n2 : Name} {new : Option ℕ} {w : World} {t : Mount}
      (hu2 : s.Walked u2) (hc1 : Found s u1 n1 c1) (hnew : Target s u2 n2 new)
      (hr : renameAt w flags u1 c1 u2 n2 new s = some t) : Does s t
  | pruned {c : ℕ} (hc : c ≠ 0) (hleaf : s.upper.hasChild c = false) :
      Does s { s with upper := s.upper.drop c }

theorem covers_does (h : Covers s) (hd : Does s t) : Covers t := by
  cases hd with
  | looked w locked n hu => exact (looked_lookup w locked n h hu).covers
  | made hu hfree => exact covers_make _ h hu hfree
  | linked hu hc hfree => exact covers_link h hu hc hfree
  | unlinked _ hc _ hr => exact covers_unlink h hc.1 hr
  | removed hc hr => exact covers_rmdir h hc.1 hr
  | renamed hu2 hc1 hnew hr => exact covers_renameAt h hu2 ⟨hc1.1,hc1.2.1⟩ hc1.2.2.1 hnew hr
  | pruned hc => exact covers_drop h hc

structure Behind (s t : Mount) (u : ℕ) (n : Name) (r : Except Int (Option ℕ)) : Prop where
  does : Relation.ReflTransGen Does s t
  covers : Covers t
  walked : ∀ v, s.Walked v → t.Walked v
  target : ∀ new, r = .ok new → Target t u n new

theorem behind_lookup {locked : Bool} {r : Except Int (Option ℕ)} (h : Covers s)
    (hu : s.Walked u) (hq : lookup w locked u n s = (r,t)) : Behind s t u n r := by
  have hl := looked_lookup w locked n h hu
  have hd := Does.looked w locked n hu
  rw [hq] at hl hd
  exact {
    does := .single hd
    covers := hl.covers
    walked := fun v hv => looked_walked hl hv
    target := fun new hr => {
      found := fun e he => hl.found e (he ▸ hr)
      missing := fun hn => by
        obtain ⟨rfl,hfree⟩ := hl.missing (hn ▸ hr)
        exact hfree } }

theorem found_lookup {r : Except Int (Option ℕ)} (h : Covers s) (hu : s.Walked u2)
    (hc : Found s u n c) (hq : lookup w (u != u2) u2 n2 s = (r,t)) : ∃ n1, Found t u n1 c := by
  have hl := looked_lookup w (u != u2) n2 h hu
  rw [hq] at hl
  obtain ⟨-,hh,-,hp⟩ := hl.kept c (h.shape.used _ hc.2.1)
  refine ⟨_,hc.1,hh.trans hc.2.1,?_,rfl⟩
  rcases hp with hp | ⟨hlocked,hp⟩
  · exact hp.trans hc.2.2.1
  · rw [hp]
    exact (bne_eq_false_iff_eq.mp hlocked).symm

theorem does_step {a : Action} (h : Covers s) (ha : ∀ op, a ≠ .below op) (hs : Step s a t) :
    Relation.ReflTransGen Does s t := by
  obtain ⟨hen,hs⟩ := hs
  cases a with
  | lookup u n w =>
    cases hs
    exact (behind_lookup h hen rfl).does
  | make k u n w =>
    cases hs
    unfold made
    rw [k.method_eq]
    rcases hq : lookup w false u n s with ⟨r,s'⟩
    have hb := behind_lookup h hen hq
    rcases r with e | _ | c
    · exact hb.does
    · exact hb.does.tail (.made (hb.walked u hen) ((hb.target _ rfl).missing rfl).1)
    · exact hb.does
  | link c u n w =>
    cases hs
    unfold linked
    rcases hq : lookup w false u n s with ⟨r,s'⟩
    have hb := behind_lookup h hen.1 hq
    rcases r with e | _ | c'
    · exact hb.does
    · dsimp only
      split_ifs
      · exact hb.does
      · have hl := looked_lookup w false n h hen.1
        rw [hq] at hl
        obtain ⟨rfl,-⟩ := hl.missing rfl
        exact hb.does.tail (.linked hen.1 hen.2.1 ((hb.target _ rfl).missing rfl).1)
    · exact hb.does
  | unlink u n w =>
    rw [step,unlinked] at hs
    rcases hq : lookup w false u n s with ⟨r,s'⟩
    have hb := behind_lookup h hen hq
    rw [hq] at hs
    rcases r with e | _ | c
    · cases hs
      exact hb.does
    · cases hs
      exact hb.does
    · dsimp only at hs
      split_ifs at hs with hdir
      · cases hs
        exact hb.does
      · obtain ⟨q,hq,rfl⟩ := Option.map_eq_some_iff.mp hs
        exact hb.does.tail (.unlinked (hb.walked u hen) ((hb.target _ rfl).found c rfl)
          (eq_false_of_ne_true hdir) hq)
  | rmdir u n w =>
    rw [step,removed] at hs
    rcases hq : lookup w false u n s with ⟨r,s'⟩
    have hb := behind_lookup h hen hq
    rw [hq] at hs
    rcases r with e | _ | c
    · cases hs
      exact hb.does
    · cases hs
      exact hb.does
    · dsimp only at hs
      split_ifs at hs
      · obtain ⟨q,hq,rfl⟩ := Option.map_eq_some_iff.mp hs
        exact hb.does.tail (.removed ((hb.target _ rfl).found c rfl) hq)
      · cases hs
        exact hb.does
  | rename flags u1 n1 u2 n2 w1 w2 =>
    rw [step,renamed] at hs
    rcases hq1 : lookup w1 (u1 != u2) u1 n1 s with ⟨r1,s1⟩
    have hb1 := behind_lookup h hen.1 hq1
    rw [hq1] at hs
    rcases r1 with e | _ | c1
    · cases hs
      exact hb1.does
    · cases hs
      exact hb1.does
    · dsimp only at hs
      have hu2 := hb1.walked u2 hen.2
      rcases hq2 : lookup w2 (u1 != u2) u2 n2 s1 with ⟨r2,s2⟩
      have hb2 := behind_lookup hb1.covers hu2 hq2
      rw [hq2] at hs
      rcases r2 with e | new
      · cases hs
        exact hb1.does.trans hb2.does
      · obtain ⟨n1',hc1⟩ := found_lookup hb1.covers hu2 ((hb1.target _ rfl).found c1 rfl) hq2
        exact (hb1.does.trans hb2.does).tail
          (.renamed (hb2.walked u2 hu2) hc1 (hb2.target new rfl) hs)
  | prune c =>
    cases hs
    exact .single (.pruned hen.1 hen.2.2)
  | below op => exact absurd rfl (ha op)

theorem covers_reach (h : Covers s) (hd : Relation.ReflTransGen Does s t) : Covers t := by
  induction hd with
  | refl => exact h
  | tail _ ht ih => exact covers_does ih ht

theorem covers_step {a : Action} (h : Covers s) (hs : Step s a t) : Covers t := by
  by_cases hb : ∃ op, a = .below op
  · obtain ⟨op,rfl⟩ := hb
    obtain ⟨b,hb,rfl⟩ := Option.map_eq_some_iff.mp hs.2
    exact covers_onBelow h (kept_step h.below hs.1 hb)
  · exact covers_reach h (does_step h (fun op ha => hb ⟨op,ha⟩) hs)

theorem covers_run {as : List Action} (h : Covers s) (hrun : Transition.Run Step s as t) :
    Covers t :=
  Transition.Run.invariant Covers (fun _ _ _ h hs => covers_step h hs) hrun h

end keeps

end Tree
end BackupFs
