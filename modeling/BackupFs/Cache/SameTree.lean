import BackupFs.Failure.Restore

namespace BackupFs

structure SameTree (d₁ d₂ : Disk) : Prop where
  dir : d₁.dir = d₂.dir
  inodes : d₁.inodes = d₂.inodes
  nextIno : d₁.nextIno = d₂.nextIno
  walk : d₁.walk = d₂.walk

structure SameResult (out₁ out₂ : Outcome × Disk) : Prop where
  outcome : out₁.1 = out₂.1
  dir : out₁.2.dir = out₂.2.dir
  inodes : out₁.2.inodes = out₂.2.inodes

theorem SameResult.symm {out₁ out₂ : Outcome × Disk} (h : SameResult out₁ out₂) :
    SameResult out₂ out₁ := ⟨h.outcome.symm,h.dir.symm,h.inodes.symm⟩

theorem SameResult.trans {out₁ out₂ out₃ : Outcome × Disk} (h : SameResult out₁ out₂)
    (h' : SameResult out₂ out₃) : SameResult out₁ out₃ :=
  ⟨h.outcome.trans h'.outcome,h.dir.trans h'.dir,h.inodes.trans h'.inodes⟩

def discardThen (L : Lower) (x : Name) (rest : Disk → Outcome × Disk) (d : Disk) :
    Outcome × Disk :=
  if (discard L x d).1.getD 0 ≠ 0 then
    (.returned ((discard L x d).1.getD 0),(discard L x d).2)
  else rest (discard L x d).2

def createThen (L : Lower) (x : Name) (rest : Disk → Outcome × Disk) (d : Disk) :
    Outcome × Disk :=
  if L.dAlloc = false then (.returned (-ENOMEM),d)
  else
    match L.lookup with
    | some _ => (.oops,d)
    | none =>
      if (d.lowerIno x).isSome = true then (.returned (-EEXIST),lookedUp x d)
      else
        match L.create with
        | some e => (.returned e,lookedUp x d)
        | none => rest (begun x d)

inductive Declines (L : Lower) (x : Name) (d : Disk) (e : Int) : Prop
  | noDentry (ha : L.dAlloc = false) (he : e = -ENOMEM)
  | collision (ha : L.dAlloc = true) (hl : L.lookup = none) (hx : (d.lowerIno x).isSome = true)
      (he : e = -EEXIST)
  | noCreate (ha : L.dAlloc = true) (hl : L.lookup = none) (hx : d.lowerIno x = none)
      {e' : Errno} (hc : L.create = some e') (he : e = e')

structure Harmless (L : Lower) (x y : Name) (d : Disk) : Prop where
  kept : d.dir x = none ∨ L.unlink x ≠ none
  error : L.unlinkError x d = 0 ∨ Declines L y d (L.unlinkError x d)

namespace SameTree

variable {L : Lower} {d₁ d₂ : Disk}

theorem symm (h : SameTree d₁ d₂) : SameTree d₂ d₁ :=
  ⟨h.dir.symm,h.inodes.symm,h.nextIno.symm,h.walk.symm⟩

theorem of_eq {e₁ e₂ : Disk} (h : SameTree d₁ d₂) (h₁ : SameTree e₁ d₁) (h₂ : SameTree e₂ d₂) :
    SameTree e₁ e₂ :=
  ⟨h₁.dir.trans (h.dir.trans h₂.dir.symm),h₁.inodes.trans (h.inodes.trans h₂.inodes.symm),
    h₁.nextIno.trans (h.nextIno.trans h₂.nextIno.symm),h₁.walk.trans (h.walk.trans h₂.walk.symm)⟩

theorem hash (d : Disk) (x : Name) : SameTree (d.hash x) d := ⟨rfl,rfl,rfl,rfl⟩

theorem lookedUp (d : Disk) (x : Name) : SameTree (lookedUp x d) d :=
  ⟨lookedUp_dir x d,lookedUp_inodes x d,lookedUp_nextIno x d,lookedUp_walk x d⟩

theorem setInode (h : SameTree d₁ d₂) (i : Ino) (n : Inode) :
    SameTree (d₁.setInode i n) (d₂.setInode i n) := by
  refine ⟨h.dir,?_,h.nextIno,h.walk⟩
  rw [Disk.setInode_inodes,Disk.setInode_inodes,h.inodes]

theorem link (h : SameTree d₁ d₂) (x : Name) (i : Option Ino) (b : Bool) :
    SameTree (d₁.link x i b) (d₂.link x i b) := by
  refine ⟨?_,h.inodes,h.nextIno,h.walk⟩
  rw [Disk.link_dir,Disk.link_dir,h.dir]

theorem created (h : SameTree d₁ d₂) (x : Name) : SameTree (d₁.created x) (d₂.created x) := by
  refine ⟨?_,?_,?_,h.walk⟩
  · rw [Disk.created_dir,Disk.created_dir,h.dir,h.nextIno]
  · rw [Disk.created_inodes,Disk.created_inodes,h.inodes,h.nextIno]
  · rw [Disk.created_nextIno,Disk.created_nextIno,h.nextIno]

theorem begun (h : SameTree d₁ d₂) (x : Name) : SameTree (begun x d₁) (begun x d₂) :=
  (h.of_eq (lookedUp d₁ x) (lookedUp d₂ x)).created x

theorem copyFile (h : SameTree d₁ d₂) (i j : Ino) :
    SameTree (copyFile L i j d₁) (copyFile L i j d₂) := by
  unfold BackupFs.copyFile
  rw [h.inodes]
  exact h.setInode j _

theorem names (h : SameTree d₁ d₂) (x : Name) :
    d₁.lowerIno x = d₂.lowerIno x ∧ d₁.pathIno x = d₂.pathIno x := by
  unfold Disk.lowerIno Disk.pathIno
  rw [h.dir,h.walk]
  exact ⟨rfl,rfl⟩

theorem counter (h : SameTree d₁ d₂) (L : Lower) (J : Junk) (f : File) :
    counter L J f d₁ = BackupFs.counter L J f d₂ := by
  unfold BackupFs.counter vfsGetxattr
  rw [h.inodes]

theorem vfsSetxattr (h : SameTree d₁ d₂) (L : Lower) (i : Ino) (a : Attr) (v : Int) :
    SameTree (vfsSetxattr L i a v d₁) (vfsSetxattr L i a v d₂) := by
  unfold BackupFs.vfsSetxattr
  cases L.setxattr a with
  | some e => exact h
  | none =>
    dsimp only
    rw [h.inodes]
    exact h.setInode i _

theorem stamp (h : SameTree d₁ d₂) (L : Lower) (f : File) (v : Int) :
    SameTree (stamp L f v d₁) (stamp L f v d₂) :=
  (h.vfsSetxattr L f.ino .revision v).vfsSetxattr L f.ino .youngest v

theorem vfsWrite (h : SameTree d₁ d₂) (L : Lower) (i : Ino) (pos : ℕ) (buf : Bytes) :
    (vfsWrite L i pos buf d₁).1 = (BackupFs.vfsWrite L i pos buf d₂).1 ∧
      SameTree (BackupFs.vfsWrite L i pos buf d₁).2 (BackupFs.vfsWrite L i pos buf d₂).2 := by
  unfold BackupFs.vfsWrite
  dsimp only
  rw [h.inodes]
  split_ifs
  · exact ⟨rfl,h⟩
  · exact ⟨rfl,h.setInode i _⟩

theorem removed (h : SameTree d₁ d₂) (L : Lower) (x : Name) :
    (removed L x d₁).1 = (removed L x d₂).1 ∧
      SameTree (BackupFs.removed L x d₁).2 (BackupFs.removed L x d₂).2 := by
  unfold BackupFs.removed
  rw [h.dir]
  cases d₂.dir x with
  | none => exact ⟨rfl,h⟩
  | some i =>
    dsimp only
    split_ifs
    · exact ⟨rfl,h.link x none false⟩
    · exact ⟨rfl,h⟩

theorem discard (h : SameTree d₁ d₂) (L : Lower) {x : Name} (hc : d₁.cached x = d₂.cached x) :
    (discard L x d₁).1 = (discard L x d₂).1 ∧
      SameTree (BackupFs.discard L x d₁).2 (BackupFs.discard L x d₂).2 := by
  obtain ⟨h1,h2⟩ := h.removed L x
  unfold BackupFs.discard
  rw [hc]
  split_ifs
  · exact ⟨congrArg some h1,h2⟩
  · exact ⟨rfl,h⟩

end SameTree

section
variable {L : Lower} {x y : Name} {rest : Disk → Outcome × Disk} {d d₁ d₂ : Disk} {e : Int}

theorem begins_declines (h : Begins L x d) : ¬ Declines L x d e := by
  rintro (⟨ha,_⟩ | ⟨_,_,hx,_⟩ | ⟨_,_,_,hc,_⟩)
  · simp [h.dAlloc] at ha
  · simp [h.free] at hx
  · simp [h.create] at hc

theorem createThen_begins (h : Begins L x d) : createThen L x rest d = rest (begun x d) := by
  simp [createThen,h.dAlloc,h.lookup,h.free,h.create]

theorem begins_free (h : Begins L x d) : d.dir x = none := d.dir_of_lowerIno h.free

theorem createThen_stops (h : ¬ Begins L x d) :
    (∀ rest', createThen L x rest' d = createThen L x rest d) ∧
      (createThen L x rest d).2.dir = d.dir ∧ (createThen L x rest d).2.inodes = d.inodes ∧
      ((createThen L x rest d).1 = .returned e ↔ Declines L x d e) := by
  unfold createThen
  cases ha : L.dAlloc with
  | false =>
    refine ⟨fun _ => rfl,rfl,rfl,?_⟩
    rw [if_pos rfl]
    refine ⟨fun he => .noDentry ha (Outcome.returned.inj he).symm,fun hd => ?_⟩
    cases hd with
    | noDentry _ he => rw [he]
    | collision ha' => simp [ha] at ha'
    | noCreate ha' => simp [ha] at ha'
  | true =>
    rw [if_neg (by simp)]
    cases hl : L.lookup with
    | some e' =>
      refine ⟨fun _ => rfl,rfl,rfl,iff_of_false (by simp) ?_⟩
      rintro (⟨ha',_⟩ | ⟨_,hl',_,_⟩ | ⟨_,hl',_,_,_⟩)
      · simp [ha] at ha'
      · simp [hl] at hl'
      · simp [hl] at hl'
    | none =>
      dsimp only
      cases hx : d.lowerIno x with
      | some i =>
        have hs : (d.lowerIno x).isSome = true := by simp [hx]
        refine ⟨fun _ => rfl,lookedUp_dir x d,lookedUp_inodes x d,?_⟩
        refine ⟨fun he => .collision ha hl hs (Outcome.returned.inj he).symm,fun hd => ?_⟩
        cases hd with
        | noDentry ha' => simp [ha] at ha'
        | collision _ _ _ he => rw [he]; rfl
        | noCreate _ _ hx' => simp [hx] at hx'
      | none =>
        cases hc : L.create with
        | none => exact absurd ⟨ha,hl,hx,hc⟩ h
        | some e' =>
          refine ⟨fun _ => rfl,lookedUp_dir x d,lookedUp_inodes x d,?_⟩
          refine ⟨fun he => .noCreate ha hl hx hc (Outcome.returned.inj he).symm,fun hd => ?_⟩
          cases hd with
          | noDentry ha' => simp [ha] at ha'
          | collision _ _ hx' => simp [hx] at hx'
          | noCreate _ _ _ hc' he =>
            rw [hc] at hc'
            cases hc'
            rw [he]
            rfl

theorem createThen_agrees (h : SameTree d₁ d₂) :
    SameResult (createThen L x rest d₁) (createThen L x rest d₂) ↔
      (Begins L x d₁ → SameResult (rest (begun x d₁)) (rest (begun x d₂))) := by
  have hl := (h.names x).1
  have hlook := h.of_eq (.lookedUp d₁ x) (.lookedUp d₂ x)
  constructor
  · intro hs hb
    rwa [createThen_begins hb,createThen_begins ⟨hb.dAlloc,hb.lookup,hl ▸ hb.free,hb.create⟩] at hs
  · intro hs
    unfold createThen
    rw [← hl]
    cases ha : L.dAlloc with
    | false => exact ⟨rfl,h.dir,h.inodes⟩
    | true =>
      have ht : ¬ true = false := by simp
      rw [if_neg ht,if_neg ht]
      cases hlk : L.lookup with
      | some e => exact ⟨rfl,h.dir,h.inodes⟩
      | none =>
        dsimp only
        cases hx : d₁.lowerIno x with
        | some i => exact ⟨rfl,hlook.dir,hlook.inodes⟩
        | none =>
          cases hc : L.create with
          | some e => exact ⟨rfl,hlook.dir,hlook.inodes⟩
          | none => exact hs ⟨ha,hlk,hx,hc⟩

theorem createThen_keeps (hxy : x ≠ y) (hk : ∀ d, (rest d).2.dir x = d.dir x) :
    (createThen L y rest d).2.dir x = d.dir x := by
  by_cases hb : Begins L y d
  · rw [createThen_begins hb,hk,(begun_other hxy).1]
  · rw [(@createThen_stops L y rest d 0 hb).2.1]

theorem createThen_declines (hk : ∀ d, (rest d).2.dir x = d.dir x) (hdir : d₁.dir = d.dir)
    (hin : d₁.inodes = d.inodes) :
    SameResult (.returned e,d₁) (createThen L x rest d) ↔ Declines L x d e := by
  by_cases hb : Begins L x d
  · refine iff_of_false (fun hs => ?_) (begins_declines hb)
    have hx := congrFun hs.dir x
    rw [createThen_begins hb,hk,hdir,begins_free hb,begun,Disk.created_dir,
      Function.update_self] at hx
    cases hx
  · obtain ⟨_,hd,hi,ho⟩ := @createThen_stops L x rest d e hb
    exact ⟨fun hs => ho.mp hs.outcome.symm,
      fun h => ⟨(ho.mpr h).symm,hdir.trans hd.symm,hin.trans hi.symm⟩⟩

theorem discard_begins (hxy : x ≠ y) : Begins L y (discard L x d).2 ↔ Begins L y d := by
  have hl : (discard L x d).2.lowerIno y = d.lowerIno y := by
    unfold Disk.lowerIno
    rw [discard_walk,(discard_other hxy.symm).1]
  exact ⟨fun h => ⟨h.dAlloc,h.lookup,hl ▸ h.free,h.create⟩,
    fun h => ⟨h.dAlloc,h.lookup,hl ▸ h.free,h.create⟩⟩

theorem lowerIno_congr (hd : d₁.dir = d₂.dir) (hw : d₁.walk = d₂.walk) :
    d₁.lowerIno x = d₂.lowerIno x := by
  unfold Disk.lowerIno
  rw [hd,hw]

theorem declines_congr (hd : d₁.dir = d₂.dir) (hw : d₁.walk = d₂.walk) (h : Declines L x d₁ e) :
    Declines L x d₂ e := by
  have hl := lowerIno_congr (x := x) hd hw
  rcases h with ⟨ha,he⟩ | ⟨ha,hlk,hx,he⟩ | ⟨ha,hlk,hx,hc,he⟩
  · exact .noDentry ha he
  · exact .collision ha hlk (hl ▸ hx) he
  · exact .noCreate ha hlk (hl ▸ hx) hc he

theorem harmless_congr (hd : d₁.dir = d₂.dir) (hw : d₁.walk = d₂.walk) (h : Harmless L x y d₁) :
    Harmless L x y d₂ := by
  have he : L.unlinkError x d₁ = L.unlinkError x d₂ := by
    rw [Lower.unlinkError,Lower.unlinkError,hd]
  exact ⟨hd ▸ h.kept,he ▸ h.error.imp_right (declines_congr hd hw)⟩

theorem begins_sameTree (h : SameTree d₁ d₂) (hb : Begins L x d₁) : Begins L x d₂ :=
  ⟨hb.dAlloc,hb.lookup,(h.names x).1 ▸ hb.free,hb.create⟩

theorem discardThen_differs (h : SameTree d₁ d₂) (hxy : x ≠ y)
    (hkx : ∀ d, (rest d).2.dir x = d.dir x) (hky : ∀ d, (rest d).2.dir y = d.dir y)
    (h₁ : d₁.cached x = true) (h₂ : ¬ d₂.cached x = true) :
    SameResult (discardThen L x (createThen L y rest) d₁)
        (discardThen L x (createThen L y rest) d₂) ↔
      Harmless L x y d₁ ∧ (¬ Blocked L x d₁ → Begins L y d₁ →
        SameResult (rest (begun y (discard L x d₁).2)) (rest (begun y d₂))) := by
  have hright : discardThen L x (createThen L y rest) d₂ = createThen L y rest d₂ := by
    rw [discardThen,discard_uncached h₂]
    simp
  have herr := unlinkError_blocked (L := L) h₁
  rw [hright,discardThen,discard_cached h₁,removed_fst]
  dsimp only [Option.getD_some]
  by_cases hb : Blocked L x d₁
  · rw [if_pos (herr.mpr hb),removed_kept hb.kept,createThen_declines hky h.dir h.inodes]
    refine ⟨fun hd => ⟨⟨hb.kept,.inr (declines_congr h.dir.symm h.walk.symm hd)⟩,
      fun hn => absurd hb hn⟩,?_⟩
    intro ⟨hh,_⟩
    exact declines_congr h.dir h.walk (hh.error.resolve_left (herr.mpr hb))
  · have hz : L.unlinkError x d₁ = 0 := not_not.mp (herr.not.mpr hb)
    rw [if_neg (not_not.mpr hz)]
    by_cases hk : d₁.dir x = none ∨ L.unlink x ≠ none
    · rw [removed_kept hk,createThen_agrees h]
      exact ⟨fun hs => ⟨⟨hk,.inl hz⟩,fun _ => hs⟩,fun hs => hs.2 hb⟩
    · refine iff_of_false (fun hs => ?_) fun hh => hk hh.1.kept
      obtain ⟨hx,hu⟩ := not_or.mp hk
      obtain ⟨i,hi⟩ := Option.ne_none_iff_exists'.mp hx
      have hd := congrFun hs.dir x
      rw [createThen_keeps hxy hkx,createThen_keeps hxy hkx,removed_present hi] at hd
      dsimp only at hd
      rw [if_pos (not_not.mp hu),Disk.link_dir,Function.update_self,← h.dir,hi] at hd
      cases hd

theorem discardThen_agrees (h : SameTree d₁ d₂) (hxy : x ≠ y)
    (hkx : ∀ d, (rest d).2.dir x = d.dir x) (hky : ∀ d, (rest d).2.dir y = d.dir y) :
    SameResult (discardThen L x (createThen L y rest) d₁)
        (discardThen L x (createThen L y rest) d₂) ↔
      (d₁.cached x ≠ d₂.cached x → Harmless L x y d₁) ∧
        (¬ Blocked L x d₁ → ¬ Blocked L x d₂ → Begins L y d₁ →
          SameResult (rest (begun y (discard L x d₁).2)) (rest (begun y (discard L x d₂).2))) := by
  by_cases hc : d₁.cached x = d₂.cached x
  · obtain ⟨h1,h2⟩ := h.discard L hc
    rw [discardThen,discardThen,← h1]
    by_cases hb : Blocked L x d₁
    · rw [if_pos (discard_blocked.mpr hb),if_pos (discard_blocked.mpr hb)]
      exact iff_of_true ⟨rfl,h2.dir,h2.inodes⟩ ⟨fun hn => absurd hc hn,fun hn => absurd hb hn⟩
    · have hz := discard_free.mpr hb
      have hb₂ : ¬ Blocked L x d₂ := discard_free.mp (h1 ▸ hz)
      rw [if_neg (not_not.mpr hz),if_neg (not_not.mpr hz),createThen_agrees h2,discard_begins hxy]
      exact ⟨fun hs => ⟨fun hn => absurd hc hn,fun _ _ => hs⟩,fun hs => hs.2 hb hb₂⟩
  · cases h₁ : d₁.cached x with
    | true =>
      have h₂ : ¬ d₂.cached x = true := fun h => hc (h₁.trans h.symm)
      have hb₂ : ¬ Blocked L x d₂ := fun hb => h₂ hb.1
      rw [discardThen_differs h hxy hkx hky h₁ h₂,discard_uncached h₂]
      exact ⟨fun ⟨hh,hs⟩ => ⟨fun _ => hh,fun hb _ => hs hb⟩,
        fun ⟨hh,hs⟩ => ⟨hh fun he => h₂ he.symm,fun hb => hs hb hb₂⟩⟩
    | false =>
      have h₂ : d₂.cached x = true := Bool.eq_true_of_not_eq_false fun h => hc (h₁.trans h.symm)
      have h₁' : ¬ d₁.cached x = true := by simp [h₁]
      have hb₁ : ¬ Blocked L x d₁ := fun hb => h₁' hb.1
      have hswap := discardThen_differs (L := L) h.symm hxy hkx hky h₂ h₁'
      rw [discard_uncached h₁']
      constructor
      · intro hs
        obtain ⟨hh,hr⟩ := hswap.mp hs.symm
        exact ⟨fun _ => harmless_congr h.dir.symm h.walk.symm hh,
          fun _ hb hbeg => (hr hb (begins_sameTree h hbeg)).symm⟩
      · rintro ⟨hh,hr⟩
        have hh₂ := harmless_congr h.dir h.walk (hh fun he => Bool.false_ne_true (he.trans h₂))
        exact (hswap.mpr ⟨hh₂,fun hb hbeg =>
          (hr hb₁ hb (begins_sameTree h.symm hbeg)).symm⟩).symm

theorem discard_sameTree (h : SameTree d₁ d₂)
    (hh : d₁.cached x ≠ d₂.cached x → Harmless L x y d₁) :
    SameTree (discard L x d₁).2 (discard L x d₂).2 := by
  by_cases hc : d₁.cached x = d₂.cached x
  · exact (h.discard L hc).2
  · have hk := (hh hc).kept
    have hstay {d : Disk} (hd : d.dir x = none ∨ L.unlink x ≠ none) : (discard L x d).2 = d := by
      unfold discard
      split_ifs
      · exact removed_kept hd
      · rfl
    rw [hstay hk,hstay (h.dir ▸ hk)]
    exact h

end

end BackupFs
