import BackupFs.Tree.Safety

namespace BackupFs
namespace Tree

def translate (s : Mount) : Action → Option BelowOp
  | .lookup _ _ _ | .prune _ => none
  | .make k u n w => some (.make k.isDir (s.lower u) n w.op)
  | .link c u n w => some (.link (s.lower c) (s.lower u) n w.op)
  | .unlink u n w => some (.unlink (s.lower u) n w.op w.nfsRenamed)
  | .rmdir u n w => some (.rmdir (s.lower u) n w.op)
  | .rename flags u1 n1 u2 n2 _ w =>
    if flags ≠ 0 then none else some (.rename (s.lower u1) n1 (s.lower u2) n2 w.op)
  | .below op => some op

def translated (s : Mount) (a : Action) : Option Below :=
  match translate s a with
  | none => some s.below
  | some op => belowStep s.below op

def World.Healthy (w : World) : Prop := w.lookup = none ∧ w.interpose = none

def Healthy : Action → Prop
  | .lookup _ _ w | .make _ _ _ w | .link _ _ _ w | .unlink _ _ w | .rmdir _ _ w => w.Healthy
  | .rename _ _ _ _ _ w1 w2 => w1.Healthy ∧ w2.Healthy
  | .prune _ | .below _ => True

structure Learns (s t : Mount) : Prop where
  mirrors : Mirrors t
  below : t.below = s.below
  kept : ∀ c, s.upper.hashed c = true → t.upper.hashed c = true ∧ t.lower c = s.lower c ∧
    t.upper.inode c = s.upper.inode c

section exactness
variable {s t : Mount} {b : Below} {c u : ℕ} {n : Name} {w : World} {locked : Bool}
  {r : Except Int (Option ℕ)}

theorem learns_refl (h : Mirrors s) : Learns s s := ⟨h,rfl,fun _ hc => ⟨hc,rfl,rfl⟩⟩

theorem learns_trans {t' : Mount} (h : Learns s t) (h' : Learns t t') : Learns s t' where
  mirrors := h'.mirrors
  below := h'.below.trans h.below
  kept := fun c hc => by
    obtain ⟨h1,h2,h3⟩ := h.kept c hc
    obtain ⟨h1',h2',h3'⟩ := h'.kept c h1
    exact ⟨h1',h2'.trans h2,h3'.trans h3⟩

theorem learns_walked (h : Learns s t) (hu : s.Walked u) : t.Walked u := by
  obtain ⟨h1,-,h3⟩ := h.kept u hu.2.1
  refine ⟨h.mirrors.covers.shape.used _ h1,h1,?_⟩
  unfold Mount.dir
  rw [h3,h.below]
  exact hu.2.2

theorem learns_lookup (h : Mirrors s) (hu : s.Walked u) (hq : lookup w locked u n s = (r,t)) :
    Learns s t := by
  have hl := looked_lookup w locked n h.covers hu
  have hm := mirrors_lookup w locked n h hu
  rw [hq] at hl hm
  refine ⟨hm,hl.below,fun c hc => ?_⟩
  obtain ⟨h1,h2,h3,-⟩ := hl.kept c (h.covers.shape.used _ hc)
  exact ⟨h2.trans hc,h3,h1⟩

theorem lookup_exact (h : Mirrors s) (hu : s.Walked u) (hw : w.Healthy)
    (hq : lookup w locked u n s = (r,t)) :
    ∃ new, r = .ok new ∧ new.map t.lower = s.below.dcache.child (s.lower u) n := by
  unfold lookup at hq
  cases hc : s.upper.child u n with
  | some c =>
    rw [hc] at hq
    cases hq
    obtain ⟨hc0,hh,rfl,rfl⟩ := child_spec hc
    obtain ⟨hb,hp,hn⟩ := h.sits c hc0 hh
    refine ⟨some c,rfl,?_⟩
    rw [← hp,← hn]
    exact (child_eq h.names (h.covers.top c (h.covers.shape.used _ hh) hc0) hb).symm
  | none =>
    rw [hc,hw.1,hw.2] at hq
    cases hb : s.below.dcache.child (s.lower u) n with
    | none =>
      rw [hb] at hq
      cases hq
      exact ⟨none,rfl,rfl⟩
    | some l =>
      rw [hb] at hq
      dsimp only at hq
      rw [mirrors_splice h hu hc hb] at hq
      cases hq
      exact ⟨_,rfl,congrArg some (Function.update_self ..)⟩

theorem vfsMake_exists {isdir : Bool} {fails : Option Errno} {d l : ℕ}
    (hc : b.dcache.child d n = some l) : (vfsMake isdir fails d n b).2 = b := by
  rcases vfsMake_cases isdir fails d n b with ⟨-,he⟩ | ⟨-,-,hfree,-⟩
  · exact he
  · rw [hc] at hfree
    cases hfree

theorem vfsLink_exists {fails : Option Errno} {d l e : ℕ} (hc : b.dcache.child d n = some e) :
    (vfsLink fails l d n b).2 = b := by
  rcases vfsLink_cases fails l d n b with ⟨-,he⟩ | ⟨-,-,hfree,-⟩
  · exact he
  · rw [hc] at hfree
    cases hfree

theorem interpose_below {l : ℕ} : (interpose w u n l s).2.below = s.below := by
  unfold interpose
  cases w.interpose <;> rfl

theorem make_below {isdir : Bool} :
    (make isdir w u n s).2.below = (vfsMake isdir w.op (s.lower u) n s.below).2 := by
  unfold make
  rcases vfsMake isdir w.op (s.lower u) n s.below with ⟨err,b⟩
  dsimp only
  split_ifs
  · rfl
  · exact interpose_below

theorem link_below : (bkpfsLink w c u n s).2.below =
    (vfsLink w.op (s.lower c) (s.lower u) n s.below).2 := by
  unfold bkpfsLink
  rcases vfsLink w.op (s.lower c) (s.lower u) n s.below with ⟨err,b⟩
  dsimp only
  split_ifs
  · rfl
  · exact interpose_below

theorem made_exact {k : Made} (h : Mirrors s) (hu : s.Walked u) (hw : w.Healthy) :
    (made k w u n s).below = (vfsMake k.isDir w.op (s.lower u) n s.below).2 := by
  unfold made
  rw [k.method_eq]
  rcases hq : lookup w false u n s with ⟨r,t⟩
  have hl := learns_lookup h hu hq
  obtain ⟨new,rfl,hnew⟩ := lookup_exact h hu hw hq
  cases new with
  | some c => exact hl.below.trans (vfsMake_exists hnew.symm).symm
  | none =>
    dsimp only
    rw [make_below,hl.below,(hl.kept u hu.2.1).2.1]

theorem linked_exact (h : Mirrors s) (hu : s.Walked u) (hw : w.Healthy)
    (hc : s.upper.hashed c = true) (hf : s.dir c = false) :
    (linked c w u n s).below = (vfsLink w.op (s.lower c) (s.lower u) n s.below).2 := by
  unfold linked
  rcases hq : lookup w false u n s with ⟨r,t⟩
  have hl := learns_lookup h hu hq
  obtain ⟨new,rfl,hnew⟩ := lookup_exact h hu hw hq
  cases new with
  | some e => exact hl.below.trans (vfsLink_exists hnew.symm).symm
  | none =>
    obtain ⟨-,h2,h3⟩ := hl.kept c hc
    have hf' : t.dir c = false := by
      rw [Mount.dir,h3,hl.below]
      exact hf
    dsimp only
    rw [hf',if_neg (by simp),link_below,hl.below,h2,(hl.kept u hu.2.1).2.1]

theorem unlink_below : (bkpfsUnlink w u c s).map (fun r => r.2.below) =
    (vfsUnlink w.op w.nfsRenamed (s.upper.inode u) (s.lower c) s.below).map Prod.snd := by
  unfold bkpfsUnlink
  rcases vfsUnlink w.op w.nfsRenamed (s.upper.inode u) (s.lower c) s.below with _ | ⟨e,b⟩
  · rfl
  · dsimp only
    split_ifs <;> rfl

theorem rmdir_below : (bkpfsRmdir w c s).map (fun r => r.2.below) =
    (vfsRmdir w.op (s.below.dcache.inode (s.below.dcache.parent (s.lower c))) (s.lower c)
      s.below).map Prod.snd := by
  unfold bkpfsRmdir
  dsimp only
  rcases vfsRmdir w.op (s.below.dcache.inode (s.below.dcache.parent (s.lower c))) (s.lower c)
    s.below with _ | ⟨e,b⟩
  · rfl
  · dsimp only
    split_ifs <;> rfl

theorem child_lower (h : Mirrors s) (hc : Found s u n c) :
    s.below.dcache.parent (s.lower c) = s.lower u ∧ s.below.dcache.name (s.lower c) = n := by
  obtain ⟨hc0,hh,rfl,rfl⟩ := hc
  exact (h.sits c hc0 hh).2

theorem unlinked_exact (h : Mirrors s) (hu : s.Walked u) (hw : w.Healthy) :
    (unlinked w u n s).map Mount.below =
      belowStep s.below (.unlink (s.lower u) n w.op w.nfsRenamed) := by
  unfold unlinked
  rcases hq : lookup w false u n s with ⟨r,t⟩
  have hl := learns_lookup h hu hq
  have hb := behind_lookup h.covers hu hq
  obtain ⟨new,rfl,hnew⟩ := lookup_exact h hu hw hq
  rw [belowStep,← hnew]
  cases new with
  | none => exact congrArg some hl.below
  | some c =>
    have hc := (hb.target _ rfl).found c rfl
    have hlt := hl.mirrors.covers.shape.used _ hc.2.1
    have hpar := (child_lower hl.mirrors hc).1
    have hlow := (hl.kept u hu.2.1).2.1
    have hino : t.upper.inode u = s.below.dcache.inode (s.lower u) := by
      rw [(hl.mirrors.covers.pins u (hb.walked u hu).1).2,hl.below,hlow]
    dsimp only [Option.map_some]
    split_ifs with hdir
    · -- unlink is refused for a directory, here and below
      rcases hv : vfsUnlink w.op w.nfsRenamed (s.below.dcache.inode (s.lower u)) (t.lower c)
        s.below with _ | q
      · rw [vfsUnlink_none,← hl.below,hpar,hlow] at hv
        exact absurd rfl hv
      · rcases vfsUnlink_cases hv with ⟨-,he⟩ | ⟨-,hf⟩
        · exact congrArg some (hl.below.trans he.symm)
        · rw [upper_dir hl.mirrors.covers hlt,hl.below,hf] at hdir
          cases hdir
    · rw [Option.map_map,← hino]
      have hbelow := unlink_below (s := t) (w := w) (u := u) (c := c)
      rw [hl.below] at hbelow
      exact hbelow

theorem removed_exact (h : Mirrors s) (hu : s.Walked u) (hw : w.Healthy) :
    (removed w u n s).map Mount.below = belowStep s.below (.rmdir (s.lower u) n w.op) := by
  unfold removed
  rcases hq : lookup w false u n s with ⟨r,t⟩
  have hl := learns_lookup h hu hq
  have hb := behind_lookup h.covers hu hq
  obtain ⟨new,rfl,hnew⟩ := lookup_exact h hu hw hq
  rw [belowStep,← hnew]
  cases new with
  | none => exact congrArg some hl.below
  | some c =>
    have hc := (hb.target _ rfl).found c rfl
    have hlt := hl.mirrors.covers.shape.used _ hc.2.1
    have hpar := (child_lower hl.mirrors hc).1
    have hlow := (hl.kept u hu.2.1).2.1
    rw [hl.below,hlow] at hpar
    dsimp only [Option.map_some]
    split_ifs with hdir
    · rw [Option.map_map,← hpar]
      have hbelow := rmdir_below (s := t) (w := w) (c := c)
      rw [hl.below] at hbelow
      exact hbelow
    · -- rmdir is refused for a file
      rcases hv : vfsRmdir w.op (s.below.dcache.inode (s.lower u)) (t.lower c) s.below with _ | q
      · rw [vfsRmdir_none,hpar] at hv
        exact absurd rfl hv
      · rcases vfsRmdir_cases hv with ⟨-,he⟩ | ⟨-,hd,-⟩
        · exact congrArg some (hl.below.trans he.symm)
        · rw [upper_dir hl.mirrors.covers hlt,hl.below,hd] at hdir
          exact absurd rfl hdir

section rename
variable {u1 u2 c1 flags : ℕ} {n1 n2 : Name} {new : Option ℕ} {w1 w2 : World}

theorem refused_below (h : Mirrors s) (hu1 : s.Walked u1) (hu2 : s.Walked u2)
    (hc1 : Found s u1 n1 c1) (hnew : Target s u2 n2 new)
    (hm : Moves s.below (s.lower c1) (s.lower u2) n2 (new.map s.lower)) :
    s.upper.lockRename u1 u2 ≠ some c1 ∧
    ¬ (s.upper.lockRename u1 u2 ≠ none ∧ s.upper.lockRename u1 u2 = new) ∧
    new.map s.upper.inode ≠ some (s.upper.inode c1) ∧ new.map s.dir ≠ some (!s.dir c1) := by
  have hlt1 := h.covers.shape.used _ hc1.2.1
  have hl1 := (h.covers.pins c1 hlt1).1
  have hl10 := h.covers.top c1 hlt1 hc1.1
  have hbs := h.covers.below.shape
  have hp1 := (child_lower h hc1).1
  have hsource := hm.source
  have htarget := hm.target
  rw [hp1] at hsource htarget
  refine ⟨fun htrap => hsource ?_,?_,?_,?_⟩
  · rw [← hc1.2.2.1] at htrap
    have ha := (lockRename_source h.covers.shape hc1.1 hlt1 hu2.1).mp htrap
    rw [← hp1]
    exact (lockRename_source hbs hl10 hl1 (h.covers.pins u2 hu2.1).1).mpr
      (mirrors_above h hu2.2.1 ha)
  · rintro ⟨hne,htrap⟩
    obtain ⟨c2,hc2⟩ := Option.ne_none_iff_exists'.mp hne
    rw [hc2] at htrap
    have hf := hnew.found c2 htrap.symm
    have hlt2 := h.covers.shape.used _ hf.2.1
    rw [← hf.2.2.1] at hc2
    have ha := (lockRename_target h.covers.shape hf.1 hlt2 hu1.1).mp hc2
    refine htarget (s.lower c2) (by rw [← htrap]; rfl) ?_
    rw [← (child_lower h hf).1]
    exact (lockRename_target hbs (h.covers.top c2 hlt2 hf.1) (h.covers.pins c2 hlt2).1
      (h.covers.pins u1 hu1.1).1).mpr (mirrors_above h hu1.2.1 ha)
  · intro hi
    obtain ⟨c2,rfl,he⟩ := Option.map_eq_some_iff.mp hi
    have hlt2 := h.covers.shape.used _ (hnew.found c2 rfl).2.1
    rw [(h.covers.pins c2 hlt2).2,(h.covers.pins c1 hlt1).2] at he
    exact hm.inode _ rfl he
  · intro hd
    obtain ⟨c2,rfl,he⟩ := Option.map_eq_some_iff.mp hd
    have hlt2 := h.covers.shape.used _ (hnew.found c2 rfl).2.1
    have hk := hm.kind _ rfl
    rw [← upper_dir h.covers hlt2,← upper_dir h.covers hlt1,he] at hk
    exact Bool.not_ne_self _ hk

theorem renameAt_exact (h : Mirrors s) (hu1 : s.Walked u1) (hu2 : s.Walked u2)
    (hc1 : Found s u1 n1 c1) (hnew : Target s u2 n2 new) :
    (renameAt w 0 u1 c1 u2 n2 new s).map Mount.below =
      (lockedRename w.op (s.lower c1) (s.lower u2) n2 (new.map s.lower) s.below).map
        Prod.snd := by
  have hp := newBelow_places n2 h.covers hu2 ⟨hc1.1,hc1.2.1⟩
    fun e he => ⟨(hnew.found e he).1,(hnew.found e he).2.1⟩
  rw [newBelow_mirrors h hnew] at hp
  obtain ⟨⟨e,b⟩,hv,hcases⟩ := lockedRename_cases w.op n2 h.covers.below hp
  have hasked : bkpfsRename w 0 c1 u2 n2 new s = some (e,s.onBelow b) := by
    unfold bkpfsRename
    rw [newBelow_mirrors h hnew,if_neg (by simp)]
    dsimp only
    rw [hv]
  have hrefused (hm : Moves s.below (s.lower c1) (s.lower u2) n2 (new.map s.lower)) :=
    refused_below h hu1 hu2 hc1 hnew hm
  have hsame (hn : ¬ Moves s.below (s.lower c1) (s.lower u2) n2 (new.map s.lower)) :
      b = s.below := by
    rcases hcases with ⟨-,he⟩ | ⟨he,-⟩ | ⟨-,hm⟩
    · exact he
    · exact congrArg Prod.snd he
    · exact absurd hm hn
  have hsafe : renameAt w 0 u1 c1 u2 n2 new s ≠ none := rename_safe h.covers hu2 hc1 hnew
  rw [hv]
  unfold renameAt at hsafe ⊢
  dsimp only at hsafe ⊢
  split_ifs at hsafe ⊢ with h1 h2 h3 h4
  · rw [hsame fun hm => (hrefused hm).1 h1]
    rfl
  · rw [hsame fun hm => (hrefused hm).2.1 h2]
    rfl
  · rw [hsame fun hm => (hrefused hm).2.2.1 h3]
    rfl
  · rw [hsame fun hm => (hrefused hm).2.2.2 h4]
    rfl
  · rw [hasked] at hsafe ⊢
    dsimp only at hsafe ⊢
    split_ifs at hsafe ⊢
    · rfl
    · exact absurd rfl hsafe
    · rfl

theorem renamed_exact (h : Mirrors s) (hu1 : s.Walked u1) (hu2 : s.Walked u2)
    (hw1 : w1.Healthy) (hw2 : w2.Healthy) :
    (renamed 0 u1 n1 u2 n2 w1 w2 s).map Mount.below =
      belowStep s.below (.rename (s.lower u1) n1 (s.lower u2) n2 w2.op) := by
  rw [renamed]
  rcases hq1 : lookup w1 (u1 != u2) u1 n1 s with ⟨r1,s1⟩
  have hl1 := learns_lookup h hu1 hq1
  have hb1 := behind_lookup h.covers hu1 hq1
  obtain ⟨old,rfl,hold⟩ := lookup_exact h hu1 hw1 hq1
  rw [belowStep,← hold]
  cases old with
  | none =>
    exact congrArg some hl1.below
  | some c1 =>
    have hu1' := hb1.walked u1 hu1
    have hu2' := hb1.walked u2 hu2
    dsimp only [Option.map_some]
    rcases hq2 : lookup w2 (u1 != u2) u2 n2 s1 with ⟨r2,s2⟩
    have hl2 := learns_lookup hl1.mirrors hu2' hq2
    have hb2 := behind_lookup hb1.covers hu2' hq2
    obtain ⟨new,rfl,hnew⟩ := lookup_exact hl1.mirrors hu2' hw2 hq2
    have hfound := (hb1.target _ rfl).found c1 rfl
    obtain ⟨n1',hc1⟩ := found_lookup hb1.covers hu2' hfound hq2
    have hlow := learns_trans hl1 hl2
    dsimp only
    rw [renameAt_exact hl2.mirrors (hb2.walked u1 hu1') (hb2.walked u2 hu2') hc1
      (hb2.target new rfl),hnew,hlow.below,(hlow.kept u2 hu2.2.1).2.1,
      (hl1.kept u2 hu2.2.1).2.1,(hl2.kept c1 hfound.2.1).2.1,hl1.below]

theorem renameAt_flags (hf : flags ≠ 0) :
    (renameAt w flags u1 c1 u2 n2 new s).map Mount.below = some s.below := by
  have hasked : bkpfsRename w flags c1 u2 n2 new s = some (-EINVAL,s) := if_pos hf
  unfold renameAt
  dsimp only
  rw [hasked]
  dsimp only
  rw [if_pos (by decide : -EINVAL ≠ 0)]
  split_ifs <;> rfl

theorem renamed_flags (h : Mirrors s) (hu1 : s.Walked u1) (hu2 : s.Walked u2) (hf : flags ≠ 0) :
    (renamed flags u1 n1 u2 n2 w1 w2 s).map Mount.below = some s.below := by
  rw [renamed]
  rcases hq1 : lookup w1 (u1 != u2) u1 n1 s with ⟨r1,s1⟩
  have hl1 := learns_lookup h hu1 hq1
  rcases r1 with e | _ | c1
  · exact congrArg some hl1.below
  · exact congrArg some hl1.below
  · dsimp only
    rcases hq2 : lookup w2 (u1 != u2) u2 n2 s1 with ⟨r2,s2⟩
    have hl2 := learns_lookup hl1.mirrors (learns_walked hl1 hu2) hq2
    rcases r2 with e | new
    · exact congrArg some (hl2.below.trans hl1.below)
    · exact (renameAt_flags hf).trans (congrArg some (hl2.below.trans hl1.below))

end rename

theorem step_exact {a : Action} (h : Mirrors s) (hen : Enabled s a) (ha : Healthy a) :
    (step s a).map Mount.below = translated s a := by
  cases a with
  | lookup u n w => exact congrArg some (learns_lookup (w := w) (n := n) h hen rfl).below
  | make k u n w => exact congrArg some (made_exact h hen ha)
  | link c u n w => exact congrArg some (linked_exact h hen.1 ha hen.2.2.1 hen.2.2.2)
  | unlink u n w => exact unlinked_exact h hen ha
  | rmdir u n w => exact removed_exact h hen ha
  | rename flags u1 n1 u2 n2 w1 w2 =>
    by_cases hf : flags ≠ 0
    · have ht : translate s (.rename flags u1 n1 u2 n2 w1 w2) = none := if_pos hf
      rw [translated,ht]
      exact renamed_flags h hen.1 hen.2 hf
    · obtain rfl : flags = 0 := not_not.mp hf
      exact renamed_exact h hen.1 hen.2 ha.1 ha.2
  | prune c => rfl
  | below op =>
    unfold translated translate step
    rw [Option.map_map]
    exact Option.map_id'

end exactness

end Tree
end BackupFs
