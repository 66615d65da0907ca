import BackupFs.Tree.Keeps

namespace BackupFs
namespace Tree

open Forest (Above)

structure Mirrors (s : Mount) : Prop where
  covers : Covers s
  names : Unique s.below.dcache
  live : ∀ c, c ≠ 0 → s.upper.hashed c = true → s.upper.hashed (s.upper.parent c) = true
  sits : ∀ c, c ≠ 0 → s.upper.hashed c = true → s.below.dcache.hashed (s.lower c) = true ∧
    s.below.dcache.parent (s.lower c) = s.lower (s.upper.parent c) ∧
    s.below.dcache.name (s.lower c) = s.upper.name c
  root : s.below.dcache.hashed (s.lower 0) = true

section mirrors
variable {s t : Mount} {b : Below} {a c d u l : ℕ} {n : Name} {w : World}

theorem mirrors_hashed (h : Mirrors s) (hc : s.upper.hashed c = true) :
    s.below.dcache.hashed (s.lower c) = true := by
  rcases eq_or_ne c 0 with rfl | hc0
  · exact h.root
  · exact (h.sits c hc0 hc).1

theorem parent_walked (h : Mirrors s) (hc0 : c ≠ 0) (hc : s.upper.hashed c = true) :
    s.Walked (s.upper.parent c) := by
  have hlt := h.covers.shape.used _ hc
  exact ⟨h.covers.shape.bound c hlt,h.live c hc0 hc,h.covers.shape.parents c hlt⟩

theorem dir_injective (h : Covers s) (hc : s.Walked c) (hd : s.Walked d)
    (he : s.lower c = s.lower d) : c = d := by
  refine h.oneDir c d hc.2.1 hd.2.1 hc.2.2 ?_
  rw [(h.pins c hc.1).2,(h.pins d hd.1).2,he]

theorem lower_injective (h : Mirrors s) (hc : s.upper.hashed c = true)
    (hd : s.upper.hashed d = true) (he : s.lower c = s.lower d) : c = d := by
  have hcl := h.covers.shape.used _ hc
  have hdl := h.covers.shape.used _ hd
  have hkind : s.dir c = s.dir d := by
    rw [upper_dir h.covers hcl,upper_dir h.covers hdl,he]
  cases hdir : s.dir c with
  | true => exact dir_injective h.covers ⟨hcl,hc,hdir⟩ ⟨hdl,hd,hkind.symm.trans hdir⟩ he
  | false =>
    have hne {e : ℕ} (hf : s.dir e = false) : e ≠ 0 := by
      rintro rfl
      rw [h.covers.root.2.2] at hf
      cases hf
    have hc0 := hne hdir
    have hd0 := hne (hkind.symm.trans hdir)
    obtain ⟨-,hcp,hcn⟩ := h.sits c hc0 hc
    obtain ⟨-,hdp,hdn⟩ := h.sits d hd0 hd
    refine h.covers.unique c d hc0 hd0 hc hd ?_ ?_
    · refine dir_injective h.covers (parent_walked h hc0 hc) (parent_walked h hd0 hd) ?_
      rw [← hcp,← hdp,he]
    · rw [← hcn,← hdn,he]

theorem mirrors_above (h : Mirrors s) (hc : s.upper.hashed c = true)
    (ha : Above s.upper.parent a c) : Above s.below.dcache.parent (s.lower a) (s.lower c) := by
  induction ha with
  | refl => exact .refl
  | @up v ha ih =>
    rcases eq_or_ne v 0 with rfl | hv
    · rw [h.covers.shape.root] at ih
      exact ih hc
    · refine .up ?_
      rw [(h.sits v hv hc).2.1]
      exact ih (h.live v hv hc)

theorem mirrors_new (h : Mirrors s) (hu : s.Walked u) (hfree : s.upper.child u n = none)
    (hl : s.below.dcache.child (s.lower u) n = some l) (hdir : s.below.dir l = true)
    (hc : s.upper.hashed c = true) : s.upper.inode c ≠ s.below.dcache.inode l := by
  intro hi
  obtain ⟨hl0,hlh,hlp,hln⟩ := child_spec hl
  have hlt := h.covers.below.shape.used l hlh
  have hcl := h.covers.shape.used _ hc
  obtain ⟨hpin,hpi⟩ := h.covers.pins c hcl
  have hlc : l = s.lower c :=
    h.covers.below.oneDir l hlt _ hpin hdir (hi.symm.trans hpi)
  rcases eq_or_ne c 0 with rfl | hc0
  · -- the root would be under one of its own directories
    have hup := mirrors_above h hu.2.1 (h.covers.shape.rooted u)
    rw [← hlp,← hlc] at hup
    exact not_above_parent h.covers.below.shape hl0 hup
  · obtain ⟨-,hp,hn⟩ := h.sits c hc0 hc
    rw [← hlc,hlp] at hp
    rw [← hlc,hln] at hn
    have hpu := dir_injective h.covers hu (parent_walked h hc0 hc) hp
    exact child_none hfree hc0 hc hpu.symm hn.symm

theorem mirrors_splice {locked : Bool} (h : Mirrors s) (hu : s.Walked u)
    (hfree : s.upper.child u n = none) (hl : s.below.dcache.child (s.lower u) n = some l) :
    splice w locked u n l s = (.ok s.upper.next,s.attach u n l) := by
  have hnone : (if s.below.dir l then s.aliasOf (s.below.dcache.inode l) else none) = none := by
    split_ifs with hdir
    · rw [Option.eq_none_iff_forall_ne_some]
      intro a ha
      obtain ⟨hah,hai⟩ := aliasOf_some ha
      exact mirrors_new h hu hfree hl hdir hah hai
    · rfl
  unfold splice
  rw [hnone]

theorem mirrors_attach (h : Mirrors s) (hu : s.Walked u) (ht : Covers (s.attach u n l))
    (hl : s.below.dcache.hashed l = true) (hp : s.below.dcache.parent l = s.lower u)
    (hn : s.below.dcache.name l = n) : Mirrors (s.attach u n l) := by
  have hold {c : ℕ} (hc : c ≠ s.upper.next) :
      (s.attach u n l).upper.parent c = s.upper.parent c ∧
      (s.attach u n l).upper.name c = s.upper.name c ∧
      (s.attach u n l).lower c = s.lower c :=
    ⟨Function.update_of_ne hc ..,Function.update_of_ne hc ..,Function.update_of_ne hc ..⟩
  have hnew : (s.attach u n l).upper.parent s.upper.next = u ∧
      (s.attach u n l).upper.name s.upper.next = n ∧ (s.attach u n l).lower s.upper.next = l :=
    ⟨Function.update_self ..,Function.update_self ..,Function.update_self ..⟩
  exact {
    covers := ht
    names := h.names
    live := fun c hc0 hc => by
      refine add_hashed.mpr (.inr ?_)
      by_cases hcn : c = s.upper.next
      · rw [hcn,hnew.1]
        exact hu.2.1
      · rw [(hold hcn).1]
        exact h.live c hc0 ((add_hashed.mp hc).resolve_left hcn)
    sits := fun c hc0 hc => by
      by_cases hcn : c = s.upper.next
      · rw [hcn,hnew.1,hnew.2.1,hnew.2.2,(hold hu.1.ne).2.2]
        exact ⟨hl,hp,hn⟩
      · have hch := (add_hashed.mp hc).resolve_left hcn
        have hpc := (parent_walked h hc0 hch).1.ne
        rw [(hold hcn).1,(hold hcn).2.1,(hold hcn).2.2,(hold hpc).2.2]
        exact h.sits c hc0 hch
    root := by
      rw [(hold h.covers.root.1.ne).2.2]
      exact h.root }

theorem mirrors_lookup (w : World) (locked : Bool) (n : Name) (h : Mirrors s) (hu : s.Walked u) :
    Mirrors (lookup w locked u n s).2 := by
  have hl := looked_lookup w locked n h.covers hu
  unfold lookup at hl ⊢
  cases hc : s.upper.child u n with
  | some c => exact h
  | none =>
    rw [hc] at hl
    cases hw : w.lookup with
    | some e => exact h
    | none =>
      rw [hw] at hl
      cases hb : s.below.dcache.child (s.lower u) n with
      | none => exact h
      | some l =>
        rw [hb] at hl
        cases hi : w.interpose with
        | some e => exact h
        | none =>
          rw [hi] at hl
          dsimp only at hl ⊢
          rw [mirrors_splice h hu hc hb] at hl ⊢
          obtain ⟨-,hh,hp,hn⟩ := child_spec hb
          exact mirrors_attach h hu hl.covers hh hp hn

theorem mirrors_keep {t' : Dcache} (h : Mirrors s)
    (ht : Covers { s.onBelow b with upper := t' }) (hb : Unique b.dcache)
    (hparent : t'.parent = s.upper.parent) (hname : t'.name = s.upper.name)
    (hup : ∀ c, t'.hashed c = true → s.upper.hashed c = true)
    (hlow : ∀ c, t'.hashed c = true → b.dcache.hashed (s.lower c) = true ∧
      b.dcache.parent (s.lower c) = s.below.dcache.parent (s.lower c) ∧
      b.dcache.name (s.lower c) = s.below.dcache.name (s.lower c))
    (hlive : ∀ c, c ≠ 0 → t'.hashed c = true → t'.hashed (s.upper.parent c) = true) :
    Mirrors { s.onBelow b with upper := t' } where
  covers := ht
  names := hb
  live := fun c hc0 hc => by
    dsimp only
    rw [hparent]
    exact hlive c hc0 hc
  sits := fun c hc0 hc => by
    obtain ⟨h1,h2,h3⟩ := hlow c hc
    obtain ⟨-,hp,hn⟩ := h.sits c hc0 (hup c hc)
    dsimp only
    rw [hparent,hname]
    exact ⟨h1,h2.trans hp,h3.trans hn⟩
  root := (hlow 0 ht.root.2.1).1

theorem mirrors_onBelow (h : Mirrors s) (hk : Kept s.below b) (hb : Unique b.dcache)
    (hlow : ∀ c, s.upper.hashed c = true → b.dcache.hashed (s.lower c) = true ∧
      b.dcache.parent (s.lower c) = s.below.dcache.parent (s.lower c) ∧
      b.dcache.name (s.lower c) = s.below.dcache.name (s.lower c)) : Mirrors (s.onBelow b) :=
  mirrors_keep h (covers_onBelow h.covers hk) hb rfl rfl (fun _ hc => hc) hlow h.live

theorem mirrors_interpose {i : ℕ} (h : Mirrors s) (hu : s.Walked u) (hk : Kept s.below b)
    (hb : b.dcache = s.below.dcache.add (s.lower u) n i)
    (hfree : s.below.dcache.child (s.lower u) n = none)
    (ht : Covers (interpose w u n s.below.dcache.next (s.onBelow b)).2) :
    Mirrors (interpose w u n s.below.dcache.next (s.onBelow b)).2 := by
  have hnames : Unique b.dcache := by
    rw [hb]
    exact add_unique h.covers.below.shape h.names hfree
  have hm := mirrors_onBelow h hk hnames fun c hc => by
    have hlt := (h.covers.pins c (h.covers.shape.used c hc)).1
    rw [hb]
    exact ⟨add_hashed.mpr (.inr (mirrors_hashed h hc)),Function.update_of_ne hlt.ne ..,
      Function.update_of_ne hlt.ne ..⟩
  unfold interpose at ht ⊢
  cases hi : w.interpose with
  | some e => exact hm
  | none =>
    rw [hi] at ht
    refine mirrors_attach hm (walked_onBelow h.covers hk hu) ht ?_ ?_ ?_
    all_goals rw [Mount.onBelow,hb]
    · exact add_hashed.mpr (.inl rfl)
    · exact Function.update_self ..
    · exact Function.update_self ..

theorem mirrors_make {isdir : Bool} (h : Mirrors s) (hu : s.Walked u)
    (hfree : s.upper.child u n = none) : Mirrors (make isdir w u n s).2 := by
  have hk := kept_make isdir w.op n h.covers.below (walked_below h.covers hu)
  have hc := covers_make (w := w) isdir h.covers hu hfree
  have hcases := vfsMake_cases isdir w.op (s.lower u) n s.below
  unfold make at hc ⊢
  rcases hm : vfsMake isdir w.op (s.lower u) n s.below with ⟨err,b⟩
  rw [hm] at hk hcases hc
  dsimp only at hk hcases hc ⊢
  rcases hcases with ⟨he,rfl⟩ | ⟨rfl,rfl,hl,-⟩
  · rw [if_pos he]
    exact h
  · exact mirrors_interpose h hu hk rfl hl hc

theorem mirrors_link (h : Mirrors s) (hu : s.Walked u) (hc : c < s.upper.next)
    (hfree : s.upper.child u n = none) : Mirrors (bkpfsLink w c u n s).2 := by
  have hk := kept_link w.op n h.covers.below (walked_below h.covers hu) (h.covers.pins c hc).1
  have ht := covers_link (w := w) h.covers hu hc hfree
  have hcases := vfsLink_cases w.op (s.lower c) (s.lower u) n s.below
  unfold bkpfsLink at ht ⊢
  rcases hm : vfsLink w.op (s.lower c) (s.lower u) n s.below with ⟨err,b⟩
  rw [hm] at hk hcases ht
  dsimp only at hk hcases ht ⊢
  rcases hcases with ⟨he,rfl⟩ | ⟨rfl,rfl,hl,-⟩
  · rw [if_pos he]
    exact h
  · exact mirrors_interpose h hu hk rfl hl ht

theorem mirrors_drop (h : Mirrors s)
    (hb : b = s.below ∨ b = s.below.erased (s.lower c) ∧ s.upper.hashed c = true)
    (ht : Covers { s.onBelow b with upper := s.upper.drop c })
    (hleaf : ∀ d, d ≠ 0 → s.upper.hashed d = true → s.upper.parent d ≠ c) :
    Mirrors { s.onBelow b with upper := s.upper.drop c } := by
  refine mirrors_keep h ht ?_ rfl rfl (fun d hd => (drop_hashed.mp hd).2) (fun d hd => ?_)
    fun d hd0 hd => ?_
  · rcases hb with rfl | ⟨rfl,-⟩
    · exact h.names
    · exact drop_unique h.names _
  · obtain ⟨hne,hd'⟩ := drop_hashed.mp hd
    rcases hb with rfl | ⟨rfl,hch⟩
    · exact ⟨mirrors_hashed h hd',rfl,rfl⟩
    · refine ⟨drop_hashed.mpr ⟨?_,mirrors_hashed h hd'⟩,rfl,rfl⟩
      exact fun he => hne (lower_injective h hd' hch he)
  · have hd' := (drop_hashed.mp hd).2
    exact drop_hashed.mpr ⟨hleaf d hd0 hd',h.live d hd0 hd'⟩

theorem leaf_upper (h : Mirrors s) (hc : s.below.dcache.hasChild (s.lower c) = false)
    (hd0 : d ≠ 0) (hd : s.upper.hashed d = true) : s.upper.parent d ≠ c := by
  rintro rfl
  obtain ⟨hh,hp,-⟩ := h.sits d hd0 hd
  exact hasChild_false hc (h.covers.top d (h.covers.shape.used d hd) hd0) hh hp

theorem mirrors_unlink {r : Int × Mount} (h : Mirrors s) (hc : Found s u n c)
    (hf : s.dir c = false) (hr : bkpfsUnlink w u c s = some r) : Mirrors r.2 := by
  have ht := covers_unlink h.covers hc.1 hr
  have hleaf : ∀ d, d ≠ 0 → s.upper.hashed d = true → s.upper.parent d ≠ c := by
    rintro d hd0 hd rfl
    rw [(parent_walked h hd0 hd).2.2] at hf
    cases hf
  unfold bkpfsUnlink at hr
  rcases hv : vfsUnlink w.op w.nfsRenamed (s.upper.inode u) (s.lower c) s.below with _ | ⟨e,b⟩
  · rw [hv] at hr
    cases hr
  · have hb : b = s.below ∨ b = s.below.erased (s.lower c) ∧ s.upper.hashed c = true := by
      rcases vfsUnlink_cases hv with ⟨-,he⟩ | ⟨he,-⟩
      · exact .inl he
      · exact .inr ⟨congrArg Prod.snd he,hc.2.1⟩
    rw [hv] at hr
    dsimp only at hr
    by_cases he : (if e = -EBUSY ∧ w.nfsRenamed = true then 0 else e) ≠ 0
    · rw [if_pos he] at hr
      cases hr
      rcases vfsUnlink_cases hv with ⟨-,rfl⟩ | ⟨hz,-⟩
      · exact h
      · rw [show e = 0 from congrArg Prod.fst hz,ite_self] at he
        exact absurd rfl he
    · rw [if_neg he] at hr
      cases hr
      exact mirrors_drop h hb ht hleaf

theorem mirrors_rmdir {r : Int × Mount} (h : Mirrors s) (hc : Found s u n c)
    (hr : bkpfsRmdir w c s = some r) : Mirrors r.2 := by
  have ht := covers_rmdir h.covers hc.1 hr
  unfold bkpfsRmdir at hr
  dsimp only at hr
  rcases hv : vfsRmdir w.op (s.below.dcache.inode (s.below.dcache.parent (s.lower c)))
      (s.lower c) s.below with _ | ⟨e,b⟩
  · rw [hv] at hr
    cases hr
  · rw [hv] at hr
    dsimp only at hr
    rcases vfsRmdir_cases hv with ⟨hne,rfl⟩ | ⟨hz,-,-,hleaf⟩
    · rw [if_pos hne] at hr
      cases hr
      exact h
    · cases hz
      cases hr
      exact mirrors_drop h (.inr ⟨rfl,hc.2.1⟩) ht fun d hd0 hd => leaf_upper h hleaf hd0 hd

theorem mirrors_prune (h : Mirrors s) (hc : c ≠ 0) (hleaf : s.upper.hasChild c = false) :
    Mirrors { s with upper := s.upper.drop c } :=
  mirrors_drop (b := s.below) h (.inl rfl) (covers_drop h.covers hc) fun _ hd0 hd =>
    hasChild_false hleaf hd0 hd

section rename
variable {u1 u2 c1 flags : ℕ} {n1 n2 : Name} {new : Option ℕ}

theorem newBelow_mirrors (h : Mirrors s) (hnew : Target s u2 n2 new) :
    newBelow s u2 n2 new = (s.lower u2,n2) := by
  cases new with
  | none => rfl
  | some e =>
    obtain ⟨he0,hh,rfl,rfl⟩ := hnew.found e rfl
    obtain ⟨-,hp,hn⟩ := h.sits e he0 hh
    exact Prod.ext hp hn

theorem mirrors_move (h : Mirrors s) (hu2 : s.Walked u2) (hc1 : Found s u1 n1 c1)
    (hnew : Target s u2 n2 new)
    (hm : Moves s.below (s.lower c1) (s.lower u2) n2 (new.map s.lower))
    (ht : Covers { s.onBelow (s.below.moved (s.lower c1) (s.lower u2) n2 (new.map s.lower)) with
      upper := s.upper.dMove c1 u2 n2 new }) :
    Mirrors { s.onBelow (s.below.moved (s.lower c1) (s.lower u2) n2 (new.map s.lower)) with
      upper := s.upper.dMove c1 u2 n2 new } := by
  -- an entry that is neither the source nor the target stays where it was, on both sides
  have hstay {d : ℕ} (hd : d ≠ c1) (hh : (s.upper.dMove c1 u2 n2 new).hashed d = true) :
      s.upper.hashed d = true ∧ s.lower d ≠ s.lower c1 ∧ new.map s.lower ≠ some (s.lower d) := by
    obtain ⟨hne,hd'⟩ := (dMove_hashed.mp hh).resolve_left hd
    refine ⟨hd',fun he => hd (lower_injective h hd' hc1.2.1 he),fun hl => ?_⟩
    obtain ⟨e,rfl,he⟩ := Option.map_eq_some_iff.mp hl
    exact hne (congrArg some (lower_injective h (hnew.found e rfl).2.1 hd' he))
  have hkeep {d : ℕ} (hh : s.upper.hashed d = true) (hne : new ≠ some d) :
      (s.upper.dMove c1 u2 n2 new).hashed d = true := dMove_hashed.mpr (.inr ⟨hne,hh⟩)
  have hroot : new ≠ some 0 := fun he => (hnew.found 0 he).1 rfl
  have hlow {d : ℕ} (hd : s.lower d ≠ s.lower c1) (hne : new.map s.lower ≠ some (s.lower d))
      (hh : s.upper.hashed d = true) :
      (s.below.dcache.dMove (s.lower c1) (s.lower u2) n2 (new.map s.lower)).hashed (s.lower d) =
        true := dMove_hashed.mpr (.inr ⟨hne,mirrors_hashed h hh⟩)
  exact {
    covers := ht
    names := dMove_unique h.names hm.free fun l hl => by
      obtain ⟨e,rfl,rfl⟩ := Option.map_eq_some_iff.mp hl
      obtain ⟨he0,hh,rfl,rfl⟩ := hnew.found e rfl
      exact ⟨h.covers.top e (h.covers.shape.used e hh) he0,h.sits e he0 hh⟩
    live := fun d hd0 hd => by
      dsimp only at hd ⊢
      rw [dMove_parent]
      rcases eq_or_ne d c1 with rfl | hdc
      · rw [Function.update_self]
        refine hkeep hu2.2.1 ?_
        -- the target would be its own directory
        rintro rfl
        obtain ⟨he0,-,hp,-⟩ := hnew.found u2 rfl
        refine not_above_parent h.covers.shape he0 ?_
        rw [hp]
        exact .refl
      · rw [Function.update_of_ne hdc]
        obtain ⟨hh,-⟩ := hstay hdc hd
        refine hkeep (h.live d hd0 hh) fun hpe => ?_
        exact leaf_upper h (hm.leaf _ (by rw [hpe]; rfl)) hd0 hh rfl
    sits := fun d hd0 hd => by
      dsimp only [Mount.onBelow,Below.moved,Below.on] at hd ⊢
      rw [dMove_parent,dMove_name,dMove_parent,dMove_name]
      rcases eq_or_ne d c1 with rfl | hdc
      · simp only [Function.update_self,and_true]
        exact dMove_hashed.mpr (.inl rfl)
      · obtain ⟨hh,h1,h2⟩ := hstay hdc hd
        obtain ⟨-,hp,hn⟩ := h.sits d hd0 hh
        rw [Function.update_of_ne h1,Function.update_of_ne h1,Function.update_of_ne hdc,
          Function.update_of_ne hdc]
        exact ⟨hlow h1 h2 hh,hp,hn⟩
    root := by
      obtain ⟨hh,h1,h2⟩ := hstay hc1.1.symm (hkeep h.covers.root.2.1 hroot)
      exact hlow h1 h2 hh }

theorem mirrors_renameAt (h : Mirrors s) (hu2 : s.Walked u2) (hc1 : Found s u1 n1 c1)
    (hnew : Target s u2 n2 new) (hr : renameAt w flags u1 c1 u2 n2 new s = some t) :
    Mirrors t := by
  have ht := covers_renameAt h.covers hu2 ⟨hc1.1,hc1.2.1⟩ hc1.2.2.1 hnew hr
  unfold renameAt at hr
  dsimp only at hr
  split_ifs at hr with h1 h2 h3 h4
  · cases hr
    exact h
  · cases hr
    exact h
  · cases hr
    exact h
  · cases hr
    exact h
  · unfold bkpfsRename at hr
    split_ifs at hr with hflags
    · cases hr
      exact h
    · rw [newBelow_mirrors h hnew] at hr
      dsimp only at hr
      have hplaces := newBelow_places n2 h.covers hu2 ⟨hc1.1,hc1.2.1⟩
        fun e he => ⟨(hnew.found e he).1,(hnew.found e he).2.1⟩
      rw [newBelow_mirrors h hnew] at hplaces
      obtain ⟨⟨e,b⟩,hv,hcases⟩ := lockedRename_cases w.op n2 h.covers.below hplaces
      rw [hv] at hr
      dsimp only at hr hcases
      rcases hcases with ⟨hne,rfl⟩ | ⟨-,hi⟩ | ⟨hz,hm⟩
      · rw [if_pos hne] at hr
        cases hr
        exact h
      · -- two names of one file are told apart before
        obtain ⟨l,hl,hi⟩ := Option.map_eq_some_iff.mp hi
        obtain ⟨c,rfl,rfl⟩ := Option.map_eq_some_iff.mp hl
        refine absurd (congrArg some ?_) h3
        rw [(h.covers.pins c (h.covers.shape.used c (hnew.found c rfl).2.1)).2,hi,
          (h.covers.pins c1 (h.covers.shape.used c1 hc1.2.1)).2]
      · cases hz
        rw [if_neg (by simp)] at hr
        split_ifs at hr
        cases hr
        exact mirrors_move h hu2 hc1 hnew hm ht

end rename

theorem mirrors_does (h : Mirrors s) (hd : Does s t) : Mirrors t := by
  cases hd with
  | looked w locked n hu => exact mirrors_lookup w locked n h hu
  | made hu hfree => exact mirrors_make h hu hfree
  | linked hu hc hfree => exact mirrors_link h hu hc hfree
  | unlinked _ hc hf hr => exact mirrors_unlink h hc hf hr
  | removed hc hr => exact mirrors_rmdir h hc hr
  | renamed hu2 hc1 hnew hr => exact mirrors_renameAt h hu2 hc1 hnew hr
  | pruned hc hleaf => exact mirrors_prune h hc hleaf

end mirrors

end Tree
end BackupFs
