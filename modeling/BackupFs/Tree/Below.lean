import BackupFs.Tree.Shape

namespace BackupFs
namespace Tree

structure Sound (b : Below) : Prop where
  shape : Shape b.dcache b.isDir
  inodes : ∀ d < b.dcache.next, b.dcache.inode d < b.nextIno
  oneDir : ∀ d < b.dcache.next, ∀ e < b.dcache.next, b.dir d = true →
    b.dcache.inode d = b.dcache.inode e → d = e
  live : ∀ d, d ≠ 0 → b.dcache.hashed d = true → b.dcache.hashed (b.dcache.parent d) = true
  root : b.dcache.hashed 0 = true ∧ b.dir 0 = true
  gone : ∀ d < b.dcache.next, b.dir d = true → b.dcache.hashed d = false →
    b.dead (b.dcache.inode d) = true

structure Grows (b b' : Below) : Prop where
  next : b.dcache.next ≤ b'.dcache.next
  inode : ∀ d < b.dcache.next, b'.dcache.inode d = b.dcache.inode d
  isDir : ∀ i < b.nextIno, b'.isDir i = b.isDir i

def Kept (b b' : Below) : Prop := Sound b' ∧ Grows b b'

section below
variable {b b' b'' : Below} {d e l old newDir : ℕ} {n : Name}

theorem grows_refl (b : Below) : Grows b b where
  next := le_rfl
  inode := fun _ _ => rfl
  isDir := fun _ _ => rfl

theorem kept_refl (h : Sound b) : Kept b b := ⟨h,grows_refl b⟩

theorem below_parent_dir (h : Sound b) (hd : d < b.dcache.next) :
    b.dir (b.dcache.parent d) = true := h.shape.parents d hd

theorem alive_hashed (h : Sound b) (hw : b.Walked d) (ha : b.dead (b.dcache.inode d) = false) :
    b.dcache.hashed d = true := by
  by_contra hn
  rw [h.gone d hw.1 hw.2 (eq_false_of_ne_true hn)] at ha
  cases ha

theorem mayCreate_zero (h : mayCreate d n b = 0) :
    b.dcache.child d n = none ∧ b.dead (b.dcache.inode d) = false := by
  unfold mayCreate at h
  split_ifs at h with hc hh
  · exact absurd h (by decide)
  · exact absurd h (by decide)
  · exact ⟨Option.not_isSome_iff_eq_none.mp hc,eq_false_of_ne_true hh⟩

theorem mayDelete_zero {dirIno : ℕ} {isdir silly : Bool}
    (h : mayDelete dirIno l isdir silly b = some 0) :
    b.dcache.inode (b.dcache.parent l) = dirIno ∧ b.dir l = isdir ∧ (isdir = true → l ≠ 0) ∧
      b.dead dirIno = false ∧ silly = false := by
  unfold mayDelete at h
  split_ifs at h with hi h1 h2 h3 h4 h5 <;> cases h
  refine ⟨not_not.mp hi,?_,?_,eq_false_of_ne_true h4,eq_false_of_ne_true h5⟩
  · cases isdir with
    | true => exact eq_true_of_ne_false fun h => h1 ⟨rfl,h⟩
    | false => exact eq_false_of_ne_true fun h => h3 ⟨rfl,h⟩
  · exact fun hd hl => h2 ⟨hd,hl⟩

theorem mayDelete_none (isdir silly : Bool) {dirIno : ℕ} :
    mayDelete dirIno l isdir silly b = none ↔ b.dcache.inode (b.dcache.parent l) ≠ dirIno := by
  unfold mayDelete
  split_ifs <;> simp_all

theorem vfsMake_cases (isdir : Bool) (fails : Option Errno) (d : ℕ) (n : Name) (b : Below) :
    (vfsMake isdir fails d n b).1 ≠ 0 ∧ (vfsMake isdir fails d n b).2 = b ∨
    (vfsMake isdir fails d n b).1 = 0 ∧ (vfsMake isdir fails d n b).2 = b.added isdir d n ∧
      b.dcache.child d n = none ∧ b.dead (b.dcache.inode d) = false := by
  unfold vfsMake
  split_ifs with hc
  · exact .inl ⟨hc,rfl⟩
  · cases fails with
    | some e => exact .inl ⟨ne_of_lt e.2,rfl⟩
    | none =>
      have hcreate := mayCreate_zero (not_not.mp hc)
      exact .inr ⟨rfl,rfl,hcreate⟩

theorem vfsLink_cases (fails : Option Errno) (l d : ℕ) (n : Name) (b : Below) :
    (vfsLink fails l d n b).1 ≠ 0 ∧ (vfsLink fails l d n b).2 = b ∨
    (vfsLink fails l d n b).1 = 0 ∧
      (vfsLink fails l d n b).2 = b.linked l d n ∧
      b.dcache.child d n = none ∧ b.dead (b.dcache.inode d) = false ∧ b.dir l = false := by
  unfold vfsLink
  split_ifs with hc hdir hl
  · exact .inl ⟨hc,rfl⟩
  · exact .inl ⟨(by decide : -EPERM ≠ 0),rfl⟩
  · exact .inl ⟨(by decide : -ENOENT ≠ 0),rfl⟩
  · cases fails with
    | some e => exact .inl ⟨ne_of_lt e.2,rfl⟩
    | none =>
      obtain ⟨h1,h2⟩ := mayCreate_zero (not_not.mp hc)
      exact .inr ⟨rfl,rfl,h1,h2,eq_false_of_ne_true hdir⟩

def Below.erased (b : Below) (l : ℕ) : Below := (b.lost (some l)).on (b.dcache.drop l)

def Below.moved (b : Below) (old newDir : ℕ) (n : Name) (new : Option ℕ) : Below :=
  (b.lost new).on (b.dcache.dMove old newDir n new)

theorem erase_cases (fails : Option Errno) (l : ℕ) (b : Below) :
    (erase fails l b).1 ≠ 0 ∧ (erase fails l b).2 = b ∨ erase fails l b = (0,b.erased l) := by
  cases fails with
  | some e => exact .inl ⟨ne_of_lt e.2,rfl⟩
  | none => exact .inr rfl

theorem vfsUnlink_none (fails : Option Errno) (silly : Bool) {dirIno : ℕ} :
    vfsUnlink fails silly dirIno l b = none ↔
      b.dcache.inode (b.dcache.parent l) ≠ dirIno := by
  rw [← mayDelete_none false silly,vfsUnlink]
  cases mayDelete dirIno l false silly b with
  | none => simp
  | some err =>
    dsimp only
    split_ifs <;> simp

theorem vfsRmdir_none {fails : Option Errno} {dirIno : ℕ} :
    vfsRmdir fails dirIno l b = none ↔ b.dcache.inode (b.dcache.parent l) ≠ dirIno := by
  rw [← mayDelete_none true false,vfsRmdir]
  cases mayDelete dirIno l true false b with
  | none => simp
  | some err =>
    dsimp only
    split_ifs <;> simp

theorem vfsUnlink_cases {fails : Option Errno} {silly : Bool} {dirIno : ℕ} {r : Int × Below}
    (h : vfsUnlink fails silly dirIno l b = some r) :
    r.1 ≠ 0 ∧ r.2 = b ∨ r = (0,b.erased l) ∧ b.dir l = false := by
  unfold vfsUnlink at h
  cases hm : mayDelete dirIno l false silly b with
  | none =>
    rw [hm] at h
    cases h
  | some err =>
    rw [hm] at h
    dsimp only at h
    split_ifs at h with he
    · cases h
      exact .inl ⟨he,rfl⟩
    · rw [not_not.mp he] at hm
      cases h
      exact (erase_cases fails l b).imp id fun hr => ⟨hr,(mayDelete_zero hm).2.1⟩

theorem vfsRmdir_cases {fails : Option Errno} {dirIno : ℕ} {r : Int × Below}
    (h : vfsRmdir fails dirIno l b = some r) :
    r.1 ≠ 0 ∧ r.2 = b ∨
    r = (0,b.erased l) ∧ b.dir l = true ∧ l ≠ 0 ∧ b.dcache.hasChild l = false := by
  unfold vfsRmdir at h
  cases hm : mayDelete dirIno l true false b with
  | none =>
    rw [hm] at h
    cases h
  | some err =>
    rw [hm] at h
    dsimp only at h
    split_ifs at h with he hc
    · cases h
      exact .inl ⟨he,rfl⟩
    · cases h
      exact .inl ⟨(by decide : -ENOTEMPTY ≠ 0),rfl⟩
    · rw [not_not.mp he] at hm
      cases h
      obtain ⟨-,hdir,hroot,-,-⟩ := mayDelete_zero hm
      refine (erase_cases fails l b).imp id fun hr => ?_
      exact ⟨hr,hdir,hroot rfl,eq_false_of_ne_true hc⟩

structure Moves (b : Below) (old newDir : ℕ) (n : Name) (new : Option ℕ) : Prop where
  source : b.dcache.lockRename (b.dcache.parent old) newDir ≠ some old
  target : ∀ e, new = some e → b.dcache.lockRename (b.dcache.parent old) newDir ≠ some e
  inode : ∀ e, new = some e → b.dcache.inode e ≠ b.dcache.inode old
  kind : ∀ e, new = some e → b.dir e = b.dir old
  alive : b.dead (b.dcache.inode newDir) = false
  leaf : ∀ e, new = some e → b.dcache.hasChild e = false
  free : new = none → b.dcache.child newDir n = none

structure Places (b : Below) (old newDir : ℕ) (new : Option ℕ) : Prop where
  dir : b.Walked newDir
  source : old ≠ 0 ∧ old < b.dcache.next
  target : ∀ e, new = some e → e ≠ 0 ∧ e < b.dcache.next ∧ b.dcache.parent e = newDir

theorem mayRename_zero {new : Option ℕ} {oldDirIno : ℕ}
    (h : mayRename oldDirIno old newDir n new b = some 0) :
    (∀ e, new = some e → b.dir e = b.dir old) ∧
    b.dead (b.dcache.inode newDir) = false ∧ (new = none → b.dcache.child newDir n = none) := by
  unfold mayRename at h
  cases hm : mayDelete oldDirIno old (b.dir old) false b with
  | none =>
    rw [hm] at h
    cases h
  | some err =>
    rw [hm] at h
    dsimp only at h
    split_ifs at h with he
    · exact absurd (Option.some.inj h) he
    · cases new with
      | none =>
        obtain ⟨hc,hh⟩ := mayCreate_zero (Option.some.inj h)
        exact ⟨by simp,hh,fun _ => hc⟩
      | some e =>
        obtain ⟨-,hk,-,hh,-⟩ := mayDelete_zero h
        refine ⟨?_,hh,by simp⟩
        rintro _ ⟨⟩
        exact hk

theorem moves_of_checks {new : Option ℕ} {oldDirIno : ℕ}
    (hs : b.dcache.lockRename (b.dcache.parent old) newDir ≠ some old)
    (ht : ¬ (b.dcache.lockRename (b.dcache.parent old) newDir ≠ none ∧
      b.dcache.lockRename (b.dcache.parent old) newDir = new))
    (hi : new.map b.dcache.inode ≠ some (b.dcache.inode old))
    (hm : mayRename oldDirIno old newDir n new b = some 0)
    (hc : new.map b.dcache.hasChild ≠ some true) : Moves b old newDir n new := by
  obtain ⟨hk,halive,hfree⟩ := mayRename_zero hm
  exact {
    source := hs
    target := by
      rintro e rfl htrap
      exact ht ⟨htrap ▸ by simp,htrap⟩
    inode := by
      rintro e rfl he
      exact hi (congrArg some he)
    kind := hk
    alive := halive
    leaf := by
      rintro e rfl
      exact eq_false_of_ne_true fun hf => hc (congrArg some hf)
    free := hfree }

theorem moves_bug {new : Option ℕ} (h : Sound b) (hp : Places b old newDir new)
    (hm : Moves b old newDir n new) : b.dcache.dMoveBug old newDir new = false := by
  have hnew : ∀ e, new = some e → e ≠ 0 ∧ e ≠ old ∧ e < b.dcache.next ∧
      b.dcache.parent e = newDir := by
    intro e he
    obtain ⟨he0,hlt,hpar⟩ := hp.target e he
    refine ⟨he0,?_,hlt,hpar⟩
    rintro rfl
    exact hm.inode e he rfl
  refine eq_false_of_ne_true fun hbug => ?_
  rcases (dMoveBug_iff h.shape hp.source.1 hp.source.2 hp.dir.1 hnew).mp hbug with
    ht | ⟨e,he,ht⟩
  · exact hm.source ht
  · exact hm.target e he ht

theorem mayRename_none {new : Option ℕ} (hp : Places b old newDir new) :
    mayRename (b.dcache.inode (b.dcache.parent old)) old newDir n new b ≠ none := by
  unfold mayRename
  cases hm : mayDelete (b.dcache.inode (b.dcache.parent old)) old (b.dir old) false b with
  | none => exact absurd rfl ((mayDelete_none _ _).mp hm)
  | some err =>
    dsimp only
    split_ifs
    · simp
    · cases new with
      | none => simp
      | some e =>
        intro he
        exact (mayDelete_none _ _).mp he (congrArg _ (hp.target e rfl).2.2)

theorem lockedRename_cases (fails : Option Errno) (n : Name) {new : Option ℕ} (h : Sound b)
    (hp : Places b old newDir new) : ∃ r, lockedRename fails old newDir n new b = some r ∧
    (r.1 ≠ 0 ∧ r.2 = b ∨
    r = (0,b) ∧ new.map b.dcache.inode = some (b.dcache.inode old) ∨
    r = (0,b.moved old newDir n new) ∧ Moves b old newDir n new) := by
  unfold lockedRename
  dsimp only
  split_ifs with hs ht
  · exact ⟨_,rfl,.inl ⟨(by decide : -EINVAL ≠ 0),rfl⟩⟩
  · exact ⟨_,rfl,.inl ⟨(by decide : -ENOTEMPTY ≠ 0),rfl⟩⟩
  · unfold vfsRename
    cases hm : mayRename (b.dcache.inode (b.dcache.parent old)) old newDir n new b with
    | none => exact absurd hm (mayRename_none hp)
    | some err =>
      dsimp only
      by_cases hi : new.map b.dcache.inode = some (b.dcache.inode old)
      · rw [if_pos hi]
        exact ⟨_,rfl,.inr (.inl ⟨rfl,hi⟩)⟩
      rw [if_neg hi]
      split_ifs with he hc hbug
      · exact ⟨_,rfl,.inl ⟨he,rfl⟩⟩
      · exact ⟨_,rfl,.inl ⟨(by decide : -ENOTEMPTY ≠ 0),rfl⟩⟩
      all_goals
        have hmoves : Moves b old newDir n new :=
          moves_of_checks hs ht hi (not_not.mp he ▸ hm) hc
      · rw [moves_bug h hp hmoves] at hbug
        cases hbug
      · cases fails with
        | some e => exact ⟨_,rfl,.inl ⟨ne_of_lt e.2,rfl⟩⟩
        | none => exact ⟨_,rfl,.inr (.inr ⟨rfl,hmoves⟩)⟩

theorem kept_add {i nextIno : ℕ} {isDir dead : ℕ → Bool} {nlink : ℕ → ℕ} (h : Sound b)
    (hw : b.Walked d) (hd : b.dead (b.dcache.inode d) = false) (hi : i < nextIno)
    (hnext : b.nextIno ≤ nextIno)
    (hsame : ∀ j < b.nextIno, isDir j = b.isDir j ∧ dead j = b.dead j)
    (hdir : isDir i = true → ∀ e < b.dcache.next, b.dcache.inode e ≠ i) :
    Kept b ⟨b.dcache.add d n i,isDir,dead,nlink,nextIno⟩ := by
  have hold {e : ℕ} (he : e ≠ b.dcache.next) : (b.dcache.add d n i).inode e = b.dcache.inode e :=
    Function.update_of_ne he ..
  have hnew : (b.dcache.add d n i).inode b.dcache.next = i := Function.update_self ..
  have hkind {e : ℕ} (he : e < b.dcache.next) : isDir (b.dcache.inode e) = b.dir e :=
    (hsame _ (h.inodes e he)).1
  have hsplit {e : ℕ} (he : e < b.dcache.next + 1) : e < b.dcache.next ∨ e = b.dcache.next :=
    Nat.lt_succ_iff_lt_or_eq.mp he
  refine ⟨?_,?_⟩
  · exact {
      shape := add_shape h.shape hw.1 hw.2 fun e he => hkind he
      inodes := fun e he => by
        dsimp only
        rcases hsplit he with hlt | rfl
        · rw [hold hlt.ne]
          exact (h.inodes e hlt).trans_le hnext
        · rw [hnew]
          exact hi
      oneDir := fun e he f hf hde hef => by
        unfold Below.dir at hde
        dsimp only at hde hef
        rcases hsplit he with hel | rfl <;> rcases hsplit hf with hfl | rfl
        · rw [hold hel.ne] at hde
          rw [hold hel.ne,hold hfl.ne] at hef
          exact h.oneDir e hel f hfl ((hkind hel).symm.trans hde) hef
        · rw [hold hel.ne] at hde hef
          rw [hnew] at hef
          exact absurd hef (hdir (hef ▸ hde) e hel)
        · rw [hnew] at hde hef
          rw [hold hfl.ne] at hef
          exact absurd hef.symm (hdir hde f hfl)
        · rfl
      live := fun e he0 he => by
        refine add_hashed.mpr (.inr ?_)
        dsimp only [Dcache.add]
        rcases add_hashed.mp he with rfl | he
        · rw [Function.update_self]
          exact alive_hashed h hw hd
        · rw [Function.update_of_ne (h.shape.used e he).ne]
          exact h.live e he0 he
      root := by
        have h0 := h.shape.next
        refine ⟨add_hashed.mpr (.inr h.root.1),?_⟩
        unfold Below.dir
        dsimp only
        rw [hold h0.ne,hkind h0]
        exact h.root.2
      gone := fun e he hde hh => by
        unfold Below.dir at hde
        dsimp only at hde hh ⊢
        have hne : ¬ (e = b.dcache.next ∨ b.dcache.hashed e = true) := fun hn => by
          rw [add_hashed.mpr hn] at hh
          cases hh
        rw [not_or] at hne
        have hlt := (hsplit he).resolve_right hne.1
        rw [hold hne.1] at hde ⊢
        rw [(hsame _ (h.inodes e hlt)).2]
        exact h.gone e hlt ((hkind hlt).symm.trans hde) (eq_false_of_ne_true hne.2) }
  · exact {
      next := Nat.le_succ _
      inode := fun e he => hold he.ne
      isDir := fun j hj => (hsame j hj).1 }

theorem kept_make (isdir : Bool) (fails : Option Errno) (n : Name) (h : Sound b)
    (hw : b.Walked d) :
    Kept b (vfsMake isdir fails d n b).2 := by
  rcases vfsMake_cases isdir fails d n b with ⟨-,he⟩ | ⟨-,he,-,hd⟩
  · rw [he]
    exact kept_refl h
  · rw [he]
    refine kept_add h hw hd (Nat.lt_succ_self _) (Nat.le_succ _) ?_ ?_
    · exact fun j hj => ⟨Function.update_of_ne hj.ne ..,Function.update_of_ne hj.ne ..⟩
    · exact fun _ e he => (h.inodes e he).ne

theorem kept_link (fails : Option Errno) (n : Name) (h : Sound b) (hw : b.Walked d)
    (hl : l < b.dcache.next) : Kept b (vfsLink fails l d n b).2 := by
  rcases vfsLink_cases fails l d n b with ⟨-,he⟩ | ⟨-,he,-,hd,hf⟩
  · rw [he]
    exact kept_refl h
  · rw [he]
    refine kept_add h hw hd (h.inodes l hl) le_rfl (fun _ _ => ⟨rfl,rfl⟩) fun hdir => ?_
    rw [show b.isDir (b.dcache.inode l) = false from hf] at hdir
    cases hdir

theorem lost_dead {new : Option ℕ} (hg : b.dead (b.dcache.inode d) = true ∨
    new = some d ∧ b.dir d = true) : (b.lost new).dead (b.dcache.inode d) = true := by
  rcases hg with hg | ⟨rfl,hd⟩
  · simp [Below.lost,hg]
  · simp [Below.lost,hd]

theorem kept_erase (h : Sound b) (hl : l ≠ 0)
    (hleaf : ∀ d, d ≠ 0 → b.dcache.hashed d = true → b.dcache.parent d ≠ l) :
    Kept b (b.erased l) := by
  refine ⟨?_,?_⟩
  · exact {
      shape := drop_shape h.shape l
      inodes := h.inodes
      oneDir := h.oneDir
      live := fun d hd0 hd => by
        have hd' := (drop_hashed.mp hd).2
        exact drop_hashed.mpr ⟨hleaf d hd0 hd',h.live d hd0 hd'⟩
      root := ⟨drop_hashed.mpr ⟨hl.symm,h.root.1⟩,h.root.2⟩
      gone := fun d hd hdir hh => by
        refine lost_dead ?_
        by_cases hdl : d = l
        · exact .inr ⟨congrArg some hdl.symm,hdir⟩
        · refine .inl (h.gone d hd hdir (eq_false_of_ne_true fun hn => ?_))
          rw [show (b.erased l).dcache.hashed d = true from drop_hashed.mpr ⟨hdl,hn⟩] at hh
          cases hh }
  · exact {
      next := le_rfl
      inode := fun _ _ => rfl
      isDir := fun _ _ => rfl }

theorem file_leaf (h : Sound b) (hf : b.dir l = false) (hd : b.dcache.hashed d = true) :
    b.dcache.parent d ≠ l := by
  rintro rfl
  rw [below_parent_dir h (h.shape.used d hd)] at hf
  cases hf

theorem kept_unlink {fails : Option Errno} {silly : Bool} {dirIno : ℕ} {r : Int × Below}
    (h : Sound b) (hr : vfsUnlink fails silly dirIno l b = some r) : Kept b r.2 := by
  rcases vfsUnlink_cases hr with ⟨-,he⟩ | ⟨rfl,hf⟩
  · rw [he]
    exact kept_refl h
  · refine kept_erase h ?_ fun d _ hd => file_leaf h hf hd
    rintro rfl
    rw [h.root.2] at hf
    cases hf

theorem kept_rmdir {fails : Option Errno} {dirIno : ℕ} {r : Int × Below} (h : Sound b)
    (hr : vfsRmdir fails dirIno l b = some r) : Kept b r.2 := by
  rcases vfsRmdir_cases hr with ⟨-,he⟩ | ⟨rfl,-,hl,hc⟩
  · rw [he]
    exact kept_refl h
  · exact kept_erase h hl fun d hd0 hd => hasChild_false hc hd0 hd

theorem kept_move {new : Option ℕ} (h : Sound b) (hp : Places b old newDir new)
    (hm : Moves b old newDir n new) : Kept b (b.moved old newDir n new) := by
  have hnewDir := alive_hashed h hp.dir hm.alive
  refine ⟨?_,?_⟩
  · exact {
      shape := dMove_shape h.shape hp.source.1 hp.source.2 hp.dir.1 hp.dir.2 fun ha =>
        hm.source ((lockRename_source h.shape hp.source.1 hp.source.2 hp.dir.1).mpr ha)
      inodes := fun d hd => by
        rw [Below.moved,Below.on,dMove_next] at hd
        rw [Below.moved,Below.on,dMove_inode]
        exact h.inodes d hd
      oneDir := fun d hd e he hdir hde => by
        rw [Below.moved,Below.on,dMove_next] at hd he
        rw [Below.moved,Below.on,dMove_inode] at hde
        rw [Below.dir,Below.moved,Below.on,dMove_inode] at hdir
        exact h.oneDir d hd e he hdir hde
      live := fun d hd0 hd => by
        refine dMove_hashed.mpr ?_
        rw [Below.moved,Below.on,dMove_parent]
        rcases eq_or_ne d old with rfl | hdo
        · rw [Function.update_self]
          refine .inr ⟨fun he => ?_,hnewDir⟩
          -- the target would be its own parent
          obtain ⟨he0,-,hpar⟩ := hp.target newDir he
          refine not_above_parent h.shape he0 ?_
          rw [hpar]
          exact .refl
        · rw [Function.update_of_ne hdo]
          obtain ⟨-,hh⟩ := (dMove_hashed.mp hd).resolve_left hdo
          refine .inr ⟨fun he => ?_,h.live d hd0 hh⟩
          exact hasChild_false (hm.leaf _ he) hd0 hh rfl
      root := by
        rw [Below.dir,Below.moved,Below.on,dMove_inode]
        refine ⟨dMove_hashed.mpr (.inr ⟨fun he => ?_,h.root.1⟩),h.root.2⟩
        exact (hp.target 0 he).1 rfl
      gone := fun d hd hdir hh => by
        rw [Below.moved,Below.on,dMove_next] at hd
        rw [Below.dir,Below.moved,Below.on,dMove_inode] at hdir
        have hno : ¬ (d = old ∨ new ≠ some d ∧ b.dcache.hashed d = true) := fun hn => by
          rw [show (b.moved old newDir n new).dcache.hashed d = true from
            dMove_hashed.mpr hn] at hh
          cases hh
        rw [not_or,not_and_or,not_not] at hno
        rw [Below.moved,Below.on,dMove_inode]
        refine lost_dead ?_
        rcases hno.2 with he | hn
        · exact .inr ⟨he,hdir⟩
        · exact .inl (h.gone d hd hdir (eq_false_of_ne_true hn)) }
  · exact {
      next := dMove_next.ge
      inode := fun d _ => congrFun dMove_inode d
      isDir := fun _ _ => rfl }

theorem kept_rename {fails : Option Errno} {new : Option ℕ} {r : Int × Below} (h : Sound b)
    (hp : Places b old newDir new) (hr : lockedRename fails old newDir n new b = some r) :
    Kept b r.2 := by
  obtain ⟨r',hr',hc⟩ := lockedRename_cases fails n h hp
  rw [hr] at hr'
  cases hr'
  rcases hc with ⟨-,he⟩ | ⟨rfl,-⟩ | ⟨rfl,hm⟩
  · rw [he]
    exact kept_refl h
  · exact kept_refl h
  · exact kept_move h hp hm

theorem child_places {d1 n1 : _} {new : Option ℕ} (h : Sound b) (hw : b.Walked newDir)
    (hc : b.dcache.child d1 n1 = some old) (hnew : new = b.dcache.child newDir n) :
    Places b old newDir new where
  dir := hw
  source := by
    obtain ⟨h0,hh,-⟩ := child_spec hc
    exact ⟨h0,h.shape.used old hh⟩
  target := fun e he => by
    obtain ⟨he0,hh,hp,-⟩ := child_spec (hnew.symm.trans he)
    exact ⟨he0,h.shape.used e hh,hp⟩

theorem kept_step {op : BelowOp} (h : Sound b) (hen : b.Enabled op)
    (hs : belowStep b op = some b') : Kept b b' := by
  cases op with
  | make isdir d n fails =>
    cases hs
    exact kept_make isdir fails n h hen
  | link l d n fails =>
    cases hs
    exact kept_link fails n h hen.1 hen.2
  | unlink d n fails silly =>
    rw [belowStep] at hs
    cases hc : b.dcache.child d n with
    | none =>
      rw [hc] at hs
      cases hs
      exact kept_refl h
    | some l =>
      rw [hc] at hs
      obtain ⟨r,hr,rfl⟩ := Option.map_eq_some_iff.mp hs
      exact kept_unlink h hr
  | rmdir d n fails =>
    rw [belowStep] at hs
    cases hc : b.dcache.child d n with
    | none =>
      rw [hc] at hs
      cases hs
      exact kept_refl h
    | some l =>
      rw [hc] at hs
      obtain ⟨r,hr,rfl⟩ := Option.map_eq_some_iff.mp hs
      exact kept_rmdir h hr
  | rename d1 n1 d2 n2 fails =>
    rw [belowStep] at hs
    cases hc : b.dcache.child d1 n1 with
    | none =>
      rw [hc] at hs
      cases hs
      exact kept_refl h
    | some old =>
      rw [hc] at hs
      obtain ⟨r,hr,rfl⟩ := Option.map_eq_some_iff.mp hs
      exact kept_rename h (child_places h hen.2 hc rfl) hr

end below

end Tree
end BackupFs
