import BackupFs.Kernel.Ioctl

namespace BackupFs

def Lower.refusal (L : Lower) (x : Name) : Int :=
  match L.unlink x with
  | none => 0
  | some e => if (e : Int) = -EBUSY ∧ L.nfsRenamed x = true then 0 else e

def removed (L : Lower) (x : Name) (d : Disk) : Int × Disk :=
  match d.dir x with
  | none => (-ENOENT,d)
  | some _ => (L.refusal x,if L.unlink x = none then d.link x none false else d)

def discard (L : Lower) (x : Name) (d : Disk) : Option Int × Disk :=
  if d.cached x then (some (removed L x d).1,(removed L x d).2) else (none,d)

def discardLoop (L : Lower) (n : Name) : ℕ → Int → Disk → Except Int Int × Disk
  | 0, err, d => (.ok err,d)
  | i + 1, err, d =>
    match discard L (backupName (i + 1 : ℕ) n) d with
    | (none,d) => discardLoop L n i err d
    | (some e,d) => if e ≠ 0 then (.error e,d) else discardLoop L n i e d

def deletedOne (L : Lower) (J : Junk) (f : File) (q : Request) (d : Disk) : Int × Disk :=
  match discard L (backupName q.version q.file) d with
  | (none,d) => (-ENOTTY,d)
  | (some err,d) =>
    if err ≠ 0 then (err,d)
    else
      let val := vfsGetxattr L f.ino .youngest J.val d
      (err,if q.version = val then stamp L f (wrapInt (val - 1)) d else d)

def deletedAll (L : Lower) (J : Junk) (f : File) (q : Request) (d : Disk) : Int × Disk :=
  match discardLoop L q.file (counter L J f d).toNat (-ENOTTY) d with
  | (.error err,d) => (err,d)
  | (.ok err,d) => (err,vfsSetxattr L f.ino .revision (-1) d)

def lookedUp (x : Name) (d : Disk) : Disk :=
  match d.pathIno x with
  | some i => (if slash ∈ x then d else d.hash x).interpose x i
  | none => d.hash x

theorem delete_spec (L : Lower) (r : Role) (x : Name) (s : Sys) :
    (delete L r x s).1 = (removed L x s.disk).1 ∧
      (delete L r x s).2.disk = (removed L x s.disk).2 := by
  unfold delete vfsUnlink removed Lower.refusal
  cases hx : s.disk.dir x with
  | none => exact ⟨by simp [ENOENT,EBUSY],rfl⟩
  | some i =>
    cases hu : L.unlink x with
    | none => exact ⟨by simp [EBUSY],rfl⟩
    | some e => exact ⟨rfl,rfl⟩

@[simp] theorem delete_fst (L : Lower) (r : Role) (x : Name) (s : Sys) :
    (delete L r x s).1 = (removed L x s.disk).1 := (delete_spec L r x s).1

@[simp] theorem delete_disk (L : Lower) (r : Role) (x : Name) (s : Sys) :
    (delete L r x s).2.disk = (removed L x s.disk).2 := (delete_spec L r x s).2

@[simp] theorem create_fst (L : Lower) (r : Role) (x : Name) (s : Sys) :
    (create L r x s).1 = (vfsCreate L x s.disk).1 := rfl

@[simp] theorem create_disk (L : Lower) (r : Role) (x : Name) (s : Sys) :
    (create L r x s).2.disk = (vfsCreate L x s.disk).2 := rfl

theorem lookupDelete_spec (L : Lower) (r : Role) (x : Name) (s : Sys) :
    (lookupDelete L r x s).1 = (discard L x s.disk).1 ∧
      (lookupDelete L r x s).2.disk = (discard L x s.disk).2 := by
  unfold lookupDelete discard
  split_ifs with hc
  · exact ⟨congrArg some (delete_fst L r x _),delete_disk L r x _⟩
  · exact ⟨rfl,rfl⟩

@[simp] theorem lookupDelete_fst (L : Lower) (r : Role) (x : Name) (s : Sys) :
    (lookupDelete L r x s).1 = (discard L x s.disk).1 := (lookupDelete_spec L r x s).1

@[simp] theorem lookupDelete_disk (L : Lower) (r : Role) (x : Name) (s : Sys) :
    (lookupDelete L r x s).2.disk = (discard L x s.disk).2 := (lookupDelete_spec L r x s).2

theorem retain_spec (L : Lower) (f : File) (val : Int) (s : Sys) :
    (retain L f val s).1 = (if val > N then
        (discard L (backupName (val - N) f.name) s.disk).1.getD 0 else 0) ∧
      (retain L f val s).2.disk = (if val > N then
        (discard L (backupName (val - N) f.name) s.disk).2 else s.disk) := by
  unfold retain
  split_ifs with hv <;> simp

theorem deleteLoop_spec (L : Lower) (n : Name) (k : ℕ) (err : Int) (s : Sys) :
    (deleteLoop L n k err s).1 = (discardLoop L n k err s.disk).1 ∧
      (deleteLoop L n k err s).2.disk = (discardLoop L n k err s.disk).2 := by
  induction k generalizing err s with
  | zero => exact ⟨rfl,rfl⟩
  | succ i ih =>
    simp only [deleteLoop,discardLoop]
    obtain ⟨h1,h2⟩ := lookupDelete_spec L (.backup (i + 1 : ℕ)) (backupName (i + 1 : ℕ) n)
      (s.emit [.get .parent])
    rw [Sys.emit_disk] at h1 h2
    generalize lookupDelete L _ _ _ = out at h1 h2 ⊢
    generalize discard L _ _ = out' at h1 h2 ⊢
    obtain ⟨e,t⟩ := out
    obtain ⟨e',d⟩ := out'
    dsimp only at h1 h2
    subst h1 h2
    cases e with
    | none => exact ih err t
    | some e =>
      dsimp only
      split_ifs
      · exact ⟨rfl,rfl⟩
      · exact ih e t

theorem deleteOne_spec (L : Lower) (J : Junk) (f : File) (q : Request) (s : Sys) :
    (deleteOne L J f q s).1 = .returned (deletedOne L J f q s.disk).1 ∧
      (deleteOne L J f q s).2.disk = (deletedOne L J f q s.disk).2 := by
  unfold deleteOne deletedOne
  dsimp only
  obtain ⟨h1,h2⟩ := lookupDelete_spec L (.backup q.version) (backupName q.version q.file)
    (s.emit [.get .parent])
  rw [Sys.emit_disk] at h1 h2
  generalize lookupDelete L _ _ _ = out at h1 h2 ⊢
  generalize discard L _ _ = out' at h1 h2 ⊢
  obtain ⟨e,t⟩ := out
  obtain ⟨e',d⟩ := out'
  dsimp only at h1 h2
  subst h1 h2
  cases e with
  | none => exact ⟨rfl,rfl⟩
  | some err =>
    dsimp only
    split_ifs <;> exact ⟨rfl,rfl⟩

theorem deleteAll_spec (L : Lower) (J : Junk) (f : File) (q : Request) (s : Sys) :
    (deleteAll L J f q s).1 = .returned (deletedAll L J f q s.disk).1 ∧
      (deleteAll L J f q s).2.disk = (deletedAll L J f q s.disk).2 := by
  unfold deleteAll deletedAll
  obtain ⟨h1,h2⟩ := deleteLoop_spec L q.file (counter L J f s.disk).toNat (-ENOTTY) s
  generalize deleteLoop L _ _ _ _ = out at h1 h2 ⊢
  generalize discardLoop L _ _ _ _ = out' at h1 h2 ⊢
  obtain ⟨r,t⟩ := out
  obtain ⟨r',d⟩ := out'
  dsimp only at h1 h2
  subst h1 h2
  cases r <;> exact ⟨rfl,rfl⟩

theorem bkpfsLookup_some {L : Lower} (h : L.lookup = none) (r : Role) (x : Name) (s : Sys) :
    ∃ t, bkpfsLookup L r x s = some t ∧ t.disk = lookedUp x s.disk := by
  unfold bkpfsLookup lookedUp vfsPathLookup
  simp only [h]
  cases s.disk.pathIno x with
  | none =>
    refine ⟨_,rfl,?_⟩
    split_ifs <;> simp [Disk.hash]
  | some i => exact ⟨_,rfl,rfl⟩

theorem bkpfsLookup_none {L : Lower} {e : Errno} (h : L.lookup = some e) (r : Role) (x : Name)
    (s : Sys) : bkpfsLookup L r x s = none := by simp [bkpfsLookup,h]

section lookedUp
variable (x : Name) (d : Disk)

theorem lookedUp_fields : (lookedUp x d).dir = d.dir ∧ (lookedUp x d).inodes = d.inodes ∧
    (lookedUp x d).nextIno = d.nextIno ∧ (lookedUp x d).walk = d.walk := by
  unfold lookedUp
  cases d.pathIno x with
  | none => exact ⟨rfl,rfl,rfl,rfl⟩
  | some i => dsimp only; split_ifs <;> exact ⟨rfl,rfl,rfl,rfl⟩

@[simp] theorem lookedUp_dir : (lookedUp x d).dir = d.dir := (lookedUp_fields x d).1
@[simp] theorem lookedUp_inodes : (lookedUp x d).inodes = d.inodes := (lookedUp_fields x d).2.1
@[simp] theorem lookedUp_nextIno : (lookedUp x d).nextIno = d.nextIno :=
  (lookedUp_fields x d).2.2.1
@[simp] theorem lookedUp_walk : (lookedUp x d).walk = d.walk := (lookedUp_fields x d).2.2.2

@[simp] theorem lookedUp_lowerIno (y : Name) : (lookedUp x d).lowerIno y = d.lowerIno y := by
  simp [Disk.lowerIno]

end lookedUp

section removed
variable {L : Lower} {x : Name} {d : Disk}

theorem removed_missing (h : d.dir x = none) : removed L x d = (-ENOENT,d) := by
  rw [removed,h]

theorem removed_present {i : Ino} (h : d.dir x = some i) : removed L x d =
    (L.refusal x,if L.unlink x = none then d.link x none false else d) := by
  rw [removed,h]

theorem removed_fields (L : Lower) (x : Name) (d : Disk) :
    (removed L x d).2.inodes = d.inodes ∧ (removed L x d).2.nextIno = d.nextIno ∧
      (removed L x d).2.upper = d.upper ∧ (removed L x d).2.walk = d.walk := by
  unfold removed
  cases d.dir x with
  | none => exact ⟨rfl,rfl,rfl,rfl⟩
  | some i => dsimp only; split_ifs <;> exact ⟨rfl,rfl,rfl,rfl⟩

theorem removed_other {y : Name} (h : y ≠ x) : (removed L x d).2.dir y = d.dir y ∧
    (removed L x d).2.cached y = d.cached y := by
  unfold removed
  cases d.dir x with
  | none => exact ⟨rfl,rfl⟩
  | some i => dsimp only; split_ifs <;> simp [h]

theorem discard_fields (L : Lower) (x : Name) (d : Disk) :
    (discard L x d).2.inodes = d.inodes ∧ (discard L x d).2.nextIno = d.nextIno ∧
      (discard L x d).2.upper = d.upper ∧ (discard L x d).2.walk = d.walk := by
  unfold discard
  split_ifs
  · exact removed_fields L x d
  · exact ⟨rfl,rfl,rfl,rfl⟩

@[simp] theorem discard_inodes : (discard L x d).2.inodes = d.inodes := (discard_fields L x d).1
@[simp] theorem discard_nextIno : (discard L x d).2.nextIno = d.nextIno :=
  (discard_fields L x d).2.1
@[simp] theorem discard_upper : (discard L x d).2.upper = d.upper := (discard_fields L x d).2.2.1
@[simp] theorem discard_walk : (discard L x d).2.walk = d.walk := (discard_fields L x d).2.2.2

theorem discard_other {y : Name} (h : y ≠ x) : (discard L x d).2.dir y = d.dir y ∧
    (discard L x d).2.cached y = d.cached y := by
  unfold discard
  split_ifs
  · exact removed_other h
  · exact ⟨rfl,rfl⟩

theorem refusal_nonpos (L : Lower) (x : Name) : L.refusal x ≤ 0 := by
  unfold Lower.refusal
  cases hu : L.unlink x with
  | none => exact le_refl 0
  | some e =>
    dsimp only
    split_ifs
    · exact le_refl 0
    · exact e.property.le

theorem discard_cached {x : Name} (h : d.cached x = true) :
    discard L x d = (some (removed L x d).1,(removed L x d).2) := if_pos h

theorem discard_uncached {x : Name} (h : ¬ d.cached x = true) : discard L x d = (none,d) := if_neg h

theorem discard_nonpos (L : Lower) (x : Name) (d : Disk) : (discard L x d).1.getD 0 ≤ 0 := by
  by_cases hc : d.cached x = true
  · rw [discard_cached hc,Option.getD_some]
    cases hx : d.dir x with
    | none =>
      rw [removed_missing hx]
      simp [ENOENT]
    | some i =>
      rw [removed_present hx]
      exact refusal_nonpos L x
  · rw [discard_uncached hc]
    exact le_refl 0

theorem discard_zero {x : Name} : (discard L x d).1.getD 0 = 0 ↔
    (d.cached x = true → d.dir x ≠ none ∧ L.refusal x = 0) := by
  by_cases hc : d.cached x = true
  · rw [discard_cached hc,Option.getD_some]
    cases hx : d.dir x with
    | none => simp [removed_missing hx,hc,ENOENT]
    | some i => simp [removed_present hx,hc]
  · rw [discard_uncached hc]
    exact ⟨fun _ h => absurd h hc,fun _ => rfl⟩

end removed

def Blocked (L : Lower) (x : Name) (d : Disk) : Prop :=
  d.cached x = true ∧ (d.dir x = none ∨ L.refusal x ≠ 0)

section discardLoop
variable {L : Lower} {n : Name} {d : Disk}

theorem discard_blocked {x : Name} : (discard L x d).1.getD 0 ≠ 0 ↔ Blocked L x d := by
  rw [Ne,discard_zero,Blocked]
  tauto

theorem discard_free {x : Name} : (discard L x d).1.getD 0 = 0 ↔ ¬ Blocked L x d := by
  rw [← discard_blocked,not_not]

theorem discard_succeeds {x : Name} :
    (discard L x d).1 = some 0 ↔ d.cached x = true ∧ ¬ Blocked L x d := by
  constructor
  · intro h
    refine ⟨?_,discard_free.mp (by rw [h]; rfl)⟩
    by_contra hc
    rw [discard_uncached hc] at h
    cases h
  · rintro ⟨hc,hb⟩
    have h0 := discard_free.mpr hb
    rw [discard_cached hc] at h0 ⊢
    exact congrArg some h0

theorem discardLoop_rule {R : Disk → Disk → Prop} (hrefl : ∀ d, R d d)
    (htrans : ∀ {d d' d''}, R d d' → R d' d'' → R d d'')
    (hd : ∀ (v : Int) d, R d (discard L (backupName v n) d).2) (k : ℕ) (err : Int) (d : Disk) :
    R d (discardLoop L n k err d).2 := by
  induction k generalizing err d with
  | zero => exact hrefl d
  | succ k ih =>
    have hstep := hd (k + 1 : ℕ) d
    rw [discardLoop]
    generalize discard L _ d = out at hstep ⊢
    obtain ⟨e,d'⟩ := out
    cases e with
    | none => exact htrans hstep (ih err d')
    | some e =>
      dsimp only
      split_ifs
      · exact hstep
      · exact htrans hstep (ih e d')

theorem discardLoop_other (k : ℕ) (err : Int) {y : Name} (h : ∀ v, y ≠ backupName v n) :
    (discardLoop L n k err d).2.dir y = d.dir y ∧
      (discardLoop L n k err d).2.cached y = d.cached y := by
  refine discardLoop_rule (R := fun d d' => d'.dir y = d.dir y ∧ d'.cached y = d.cached y)
    (fun _ => ⟨rfl,rfl⟩) ?_ (fun v _ => discard_other (h v)) k err d
  rintro d d' d'' ⟨h1,h2⟩ ⟨h1',h2'⟩
  exact ⟨h1'.trans h1,h2'.trans h2⟩

end discardLoop

end BackupFs
