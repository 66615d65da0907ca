import BackupFs.Kernel.Effects

namespace BackupFs

def retained (L : Lower) (J : Junk) (f : File) (d : Disk) : Int × Disk :=
  let val := nextVersion (counter L J f d)
  let d := stamp L f val d
  if val > N then
    ((discard L (backupName (val - N) f.name) d).1.getD 0,
      (discard L (backupName (val - N) f.name) d).2)
  else (0,d)

def newName (L : Lower) (J : Junk) (f : File) (d : Disk) : Name :=
  backupName (nextVersion (counter L J f d)) f.name

def begun (x : Name) (d : Disk) : Disk := (lookedUp x d).created x

def snapshot (L : Lower) (i : Ino) (x : Name) (d : Disk) : Disk :=
  copyFile L i d.nextIno (begun x d)

structure Begins (L : Lower) (x : Name) (d : Disk) : Prop where
  dAlloc : L.dAlloc = true
  lookup : L.lookup = none
  free : d.lowerIno x = none
  create : L.create = none

def Opened.isNull (src dest : Opened) : Prop := src = .null ∨ src = .file ∧ dest = .null

inductive BackupRun (L : Lower) (i : Ino) (x : Name) (d : Disk) : Option Outcome → Disk → Prop
  | noDentry (h : L.dAlloc = false) : BackupRun L i x d (some (.returned (-ENOMEM))) d
  | noLookup (ha : L.dAlloc = true) {e : Errno} (h : L.lookup = some e) :
      BackupRun L i x d (some .oops) d
  | collision (ha : L.dAlloc = true) (hl : L.lookup = none) (h : (d.lowerIno x).isSome = true) :
      BackupRun L i x d (some (.returned (-EEXIST))) (lookedUp x d)
  | noCreate (ha : L.dAlloc = true) (hl : L.lookup = none) (hf : d.lowerIno x = none) {e : Errno}
      (h : L.create = some e) : BackupRun L i x d (some (.returned e)) (lookedUp x d)
  | noSource (hb : Begins L x d) {e : Errno} (h : L.openSrc = .err e) :
      BackupRun L i x d (some (.returned e)) (begun x d)
  | noDest (hb : Begins L x d) (hs : L.openSrc = .file) {e : Errno} (h : L.openDest = .err e) :
      BackupRun L i x d (some (.returned e)) (begun x d)
  | unbacked (hb : Begins L x d) (h : Opened.isNull L.openSrc L.openDest) :
      BackupRun L i x d none (begun x d)
  | backed (hb : Begins L x d) (hs : L.openSrc = .file) (hd : L.openDest = .file) :
      BackupRun L i x d none (snapshot L i x d)

inductive WriteRun (L : Lower) (J : Junk) (f : File) (pos : ℕ) (buf : Bytes) (d : Disk) :
    Outcome → Disk → Prop
  | retention (h : (retained L J f d).1 ≠ 0) :
      WriteRun L J f pos buf d (.returned (retained L J f d).1) (retained L J f d).2
  | stopped (hr : (retained L J f d).1 = 0) {out : Outcome} {d' : Disk}
      (h : BackupRun L f.ino (newName L J f d) (retained L J f d).2 (some out) d') :
      WriteRun L J f pos buf d out d'
  | wrote (hr : (retained L J f d).1 = 0) {d' : Disk}
      (h : BackupRun L f.ino (newName L J f d) (retained L J f d).2 none d') :
      WriteRun L J f pos buf d (.returned (vfsWrite L f.ino pos buf d').1)
        (vfsWrite L f.ino pos buf d').2

theorem errno_ne_zero (e : Errno) : (e : Int) ≠ 0 := ne_of_lt e.property

theorem isNull_unopened {L : Lower} (h : Opened.isNull L.openSrc L.openDest) :
    ¬ (L.openSrc = .file ∧ L.openDest = .file) := by
  rintro ⟨hs,hd⟩
  rcases h with h | ⟨_,h⟩
  · simp [hs] at h
  · simp [hd] at h

theorem backupRun_begins {L : Lower} {i : Ino} {x : Name} {d d' : Disk} {o : Option Outcome}
    (hb : Begins L x d) (h : BackupRun L i x d o d') :
    (L.openSrc = .file ∧ L.openDest = .file) ∧ o = none ∧ d' = snapshot L i x d ∨
      ¬ (L.openSrc = .file ∧ L.openDest = .file) ∧ d' = begun x d := by
  cases h with
  | noDentry ha => simp [hb.dAlloc] at ha
  | noLookup _ hl => simp [hb.lookup] at hl
  | collision _ _ hc => simp [hb.free] at hc
  | noCreate _ _ _ hc => simp [hb.create] at hc
  | noSource _ ho => exact .inr ⟨by simp [ho],rfl⟩
  | noDest _ _ ho => exact .inr ⟨by simp [ho],rfl⟩
  | unbacked _ ho => exact .inr ⟨isNull_unopened ho,rfl⟩
  | backed _ hs hd => exact .inl ⟨⟨hs,hd⟩,rfl,rfl⟩

theorem backupRun_copies {L : Lower} {i : Ino} {x : Name} {d d' : Disk} {o : Option Outcome}
    (hb : Begins L x d) (hs : L.openSrc = .file) (hd : L.openDest = .file)
    (h : BackupRun L i x d o d') : o = none ∧ d' = snapshot L i x d := by
  rcases backupRun_begins hb h with ⟨_,h⟩ | ⟨hno,_⟩
  · exact h
  · exact absurd ⟨hs,hd⟩ hno

theorem vfsCreate_exists {L : Lower} {x : Name} {d : Disk} (h : (d.lowerIno x).isSome = true) :
    vfsCreate L x d = (-EEXIST,d) := if_pos h

theorem vfsCreate_refused {L : Lower} {x : Name} {d : Disk} {e : Errno}
    (h : d.lowerIno x = none) (hc : L.create = some e) : vfsCreate L x d = ((e : Int),d) := by
  simp [vfsCreate,h,hc]

theorem vfsCreate_done {L : Lower} {x : Name} {d : Disk}
    (h : d.lowerIno x = none) (hc : L.create = none) : vfsCreate L x d = (0,d.created x) := by
  simp [vfsCreate,h,hc]

theorem create_lookedUp {L : Lower} {r : Role} {x : Name} {u : Sys} {d : Disk}
    (hu : u.disk = lookedUp x d) :
    (d.lowerIno x).isSome = true ∧ (create L r x u).1 = -EEXIST ∧
        (create L r x u).2.disk = lookedUp x d ∨
      d.lowerIno x = none ∧ (∃ e : Errno, L.create = some e ∧ (create L r x u).1 = e) ∧
        (create L r x u).2.disk = lookedUp x d ∨
      (d.lowerIno x = none ∧ L.create = none) ∧ (create L r x u).1 = 0 ∧
        (create L r x u).2.disk = begun x d := by
  have hi := lookedUp_lowerIno x d x
  rw [create_fst,create_disk,hu]
  cases hd : d.lowerIno x with
  | some j =>
    rw [vfsCreate_exists (by rw [hi,hd]; rfl)]
    exact .inl ⟨rfl,rfl,rfl⟩
  | none =>
    rw [hd] at hi
    cases hc : L.create with
    | some e =>
      rw [vfsCreate_refused hi hc]
      exact .inr (.inl ⟨rfl,⟨e,rfl,rfl⟩,rfl⟩)
    | none =>
      rw [vfsCreate_done hi hc]
      exact .inr (.inr ⟨⟨rfl,rfl⟩,rfl,rfl⟩)

theorem openAndCopy_src {L : Lower} {e : Errno} (hs : L.openSrc = .err e) (x : Name) (i : Ino)
    (y : Name) (s : Sys) : (openAndCopy L x i y s).1 = some (e : Int) ∧
      (openAndCopy L x i y s).2.disk = s.disk := by
  simp [openAndCopy,hs]

theorem openAndCopy_dest {L : Lower} {e : Errno} (hs : L.openSrc = .file)
    (hd : L.openDest = .err e) (x : Name) (i : Ino) (y : Name) (s : Sys) :
    (openAndCopy L x i y s).1 = some (e : Int) ∧ (openAndCopy L x i y s).2.disk = s.disk := by
  simp [openAndCopy,hs,hd]

theorem openAndCopy_null {L : Lower} (h : Opened.isNull L.openSrc L.openDest) (x : Name) (i : Ino)
    (y : Name) (s : Sys) :
    (openAndCopy L x i y s).1 = some 0 ∧ (openAndCopy L x i y s).2.disk = s.disk := by
  rcases h with h | ⟨hs,hd⟩
  · simp [openAndCopy,h]
  · simp [openAndCopy,hs,hd]

theorem openAndCopy_done {L : Lower} {y : Name} {j : Ino} {s : Sys} (hs : L.openSrc = .file)
    (hd : L.openDest = .file) (hy : s.disk.dir y = some j) (x : Name) (i : Ino) :
    (openAndCopy L x i y s).1 = none ∧
      (openAndCopy L x i y s).2.disk = copyFile L i j s.disk := by
  simp [openAndCopy,hs,hd,hy]

theorem writeBackup_copy {L : Lower} {f : File} {x : Name} {s u : Sys}
    (hb : Begins L x s.disk) (hu : u.disk = begun x s.disk) :
    let r := openAndCopy L f.name f.ino x (u.emit [.get (.lowerPath f.name)])
    let out : Option Outcome × Sys := match r.1 with
      | some err => if err ≠ 0 then (some (.returned err),r.2) else (none,r.2)
      | none => (none,r.2)
    BackupRun L f.ino x s.disk out.1 out.2.disk := by
  have hdir : u.disk.dir x = some s.disk.nextIno := by simp [hu,begun]
  cases hs : L.openSrc with
  | err e =>
    obtain ⟨h1,h2⟩ := openAndCopy_src hs f.name f.ino x (u.emit [.get (.lowerPath f.name)])
    simp only [h1,ne_eq,errno_ne_zero,not_false_eq_true,if_true,h2,Sys.emit_disk,hu]
    exact .noSource hb hs
  | null =>
    have hn : Opened.isNull L.openSrc L.openDest := .inl hs
    obtain ⟨h1,h2⟩ := openAndCopy_null hn f.name f.ino x (u.emit [.get (.lowerPath f.name)])
    simp only [h1,ne_eq,not_true_eq_false,if_false,h2,Sys.emit_disk,hu]
    exact .unbacked hb hn
  | file =>
    cases hd : L.openDest with
    | err e =>
      obtain ⟨h1,h2⟩ := openAndCopy_dest hs hd f.name f.ino x (u.emit [.get (.lowerPath f.name)])
      simp only [h1,ne_eq,errno_ne_zero,not_false_eq_true,if_true,h2,Sys.emit_disk,hu]
      exact .noDest hb hs hd
    | null =>
      have hn : Opened.isNull L.openSrc L.openDest := .inr ⟨hs,hd⟩
      obtain ⟨h1,h2⟩ := openAndCopy_null hn f.name f.ino x (u.emit [.get (.lowerPath f.name)])
      simp only [h1,ne_eq,not_true_eq_false,if_false,h2,Sys.emit_disk,hu]
      exact .unbacked hb hn
    | file =>
      obtain ⟨h1,h2⟩ := openAndCopy_done hs hd (s := u.emit [.get (.lowerPath f.name)]) hdir
        f.name f.ino
      simp only [h1,h2,Sys.emit_disk,hu]
      exact .backed hb hs hd

theorem writeBackup_run (L : Lower) (f : File) (val : Int) (s : Sys) :
    BackupRun L f.ino (backupName val f.name) s.disk (writeBackup L f val s).1
      (writeBackup L f val s).2.disk := by
  unfold writeBackup
  dsimp only
  generalize backupName val f.name = x
  cases ha : L.dAlloc with
  | false => exact .noDentry ha
  | true =>
    rw [if_neg (by simp)]
    cases hl : L.lookup with
    | some e =>
      rw [bkpfsLookup_none hl]
      exact .noLookup ha hl
    | none =>
      obtain ⟨t,ht,htd⟩ := bkpfsLookup_some hl (.backup val) x (s.emit [.get (.newDentry x)])
      rw [ht]
      rw [Sys.emit_disk] at htd
      dsimp only
      have hcr := create_lookedUp (L := L) (r := .backup val) htd
      generalize create L _ x t = out at hcr ⊢
      obtain ⟨err,u⟩ := out
      dsimp only at hcr ⊢
      rcases hcr with ⟨hi,rfl,h2⟩ | ⟨hi,⟨e,hc,rfl⟩,h2⟩ | ⟨⟨hi,hc⟩,rfl,h2⟩
      · rw [if_pos (by decide)]
        exact h2 ▸ .collision ha hl hi
      · rw [if_pos (errno_ne_zero e)]
        exact h2 ▸ .noCreate ha hl hi hc
      · rw [if_neg (by decide)]
        exact writeBackup_copy ⟨ha,hl,hi,hc⟩ h2

theorem bkpfsWrite_run (L : Lower) (J : Junk) (f : File) (pos : ℕ) (buf : Bytes) (s : Sys) :
    WriteRun L J f pos buf s.disk (bkpfsWrite L J f pos buf s).1
      (bkpfsWrite L J f pos buf s).2.disk := by
  unfold bkpfsWrite
  dsimp only
  obtain ⟨h1,h2⟩ := retain_spec L f (nextVersion (counter L J f s.disk))
    ((s.on (stamp L f (nextVersion (counter L J f s.disk)) s.disk)).emit [.get .parent])
  rw [Sys.emit_disk,Sys.on_disk] at h1 h2
  generalize retain L f _ _ = out at h1 h2 ⊢
  obtain ⟨err,t⟩ := out
  have hr : retained L J f s.disk = (err,t.disk) := by
    rw [retained]
    dsimp only at h1 h2 ⊢
    rw [h1,h2]
    split_ifs <;> rfl
  dsimp only
  split_ifs with he
  · have h : WriteRun L J f pos buf s.disk (.returned (retained L J f s.disk).1)
        (retained L J f s.disk).2 := .retention (by rw [hr]; exact he)
    rwa [hr] at h
  · have hr0 : (retained L J f s.disk).1 = 0 := by rw [hr]; exact not_not.mp he
    have hb := writeBackup_run L f (nextVersion (counter L J f s.disk)) t
    rw [show t.disk = (retained L J f s.disk).2 by rw [hr]] at hb
    generalize writeBackup L f _ t = out at hb ⊢
    obtain ⟨_ | out,u⟩ := out
    · exact .wrote hr0 hb
    · exact .stopped hr0 hb

def cleared (L : Lower) (q : Request) (d : Disk) : Disk := (discard L q.file d).2

def found (L : Lower) (q : Request) (d : Disk) : Except Int Ino × Disk :=
  vfsPathLookup L.pathLookup (backupName q.version q.file)
    (begun (restoredName q.file) (cleared L q d))

def refilled (L : Lower) (q : Request) (i : Ino) (d : Disk) : Disk :=
  copyFile L i (cleared L q d).nextIno (found L q d).2

def cleanup (L : Lower) (J : Junk) (f : File) (q : Request) (d : Disk) : Except Int Int × Disk :=
  discardLoop L q.file (counter L J f d).toNat 0 d

inductive RestoreRun (L : Lower) (J : Junk) (f : File) (q : Request) (d : Disk) :
    Outcome → Disk → Prop
  | current {err : Int} (h : (discard L q.file d).1 = some err) (he : err ≠ 0) :
      RestoreRun L J f q d (.returned err) (cleared L q d)
  | noDentry (hc : (discard L q.file d).1.getD 0 = 0) (h : L.dAlloc = false) :
      RestoreRun L J f q d (.returned (-ENOMEM)) (cleared L q d)
  | noLookup (hc : (discard L q.file d).1.getD 0 = 0) (ha : L.dAlloc = true) {e : Errno}
      (h : L.lookup = some e) : RestoreRun L J f q d .oops (cleared L q d)
  | collision (hc : (discard L q.file d).1.getD 0 = 0) (ha : L.dAlloc = true)
      (hl : L.lookup = none)
      (h : ((cleared L q d).lowerIno (restoredName q.file)).isSome = true) :
      RestoreRun L J f q d (.returned (-EEXIST))
        (lookedUp (restoredName q.file) (cleared L q d))
  | noCreate (hc : (discard L q.file d).1.getD 0 = 0) (ha : L.dAlloc = true)
      (hl : L.lookup = none) (hf : (cleared L q d).lowerIno (restoredName q.file) = none)
      {e : Errno} (h : L.create = some e) : RestoreRun L J f q d (.returned e)
        (lookedUp (restoredName q.file) (cleared L q d))
  | noVersion (hc : (discard L q.file d).1.getD 0 = 0)
      (hb : Begins L (restoredName q.file) (cleared L q d)) {err : Int}
      (h : (found L q d).1 = .error err) : RestoreRun L J f q d (.returned err) (found L q d).2
  | unopened (hc : (discard L q.file d).1.getD 0 = 0)
      (hb : Begins L (restoredName q.file) (cleared L q d)) {i : Ino}
      (h : (found L q d).1 = .ok i) {e : Errno}
      (ho : L.openSrc = .err e ∨ L.openSrc = .file ∧ L.openDest = .err e) :
      RestoreRun L J f q d (.returned e) (found L q d).2
  | uncopied (hc : (discard L q.file d).1.getD 0 = 0)
      (hb : Begins L (restoredName q.file) (cleared L q d)) {i : Ino}
      (h : (found L q d).1 = .ok i) (ho : Opened.isNull L.openSrc L.openDest) :
      RestoreRun L J f q d (.returned 0) (found L q d).2
  | stopped (hc : (discard L q.file d).1.getD 0 = 0)
      (hb : Begins L (restoredName q.file) (cleared L q d)) {i : Ino}
      (h : (found L q d).1 = .ok i) (hs : L.openSrc = .file) (hd : L.openDest = .file) {err : Int}
      (he : (cleanup L J f q (refilled L q i d)).1 = .error err) :
      RestoreRun L J f q d (.returned err) (cleanup L J f q (refilled L q i d)).2
  | done (hc : (discard L q.file d).1.getD 0 = 0)
      (hb : Begins L (restoredName q.file) (cleared L q d)) {i : Ino}
      (h : (found L q d).1 = .ok i) (hs : L.openSrc = .file) (hd : L.openDest = .file) {err : Int}
      (he : (cleanup L J f q (refilled L q i d)).1 = .ok err) :
      RestoreRun L J f q d (.returned err) (cleanup L J f q (refilled L q i d)).2

theorem vfsPathLookup_fields (fail : Option Errno) (x : Name) (d : Disk) :
    (vfsPathLookup fail x d).2.dir = d.dir ∧ (vfsPathLookup fail x d).2.inodes = d.inodes ∧
      (vfsPathLookup fail x d).2.nextIno = d.nextIno ∧
      (vfsPathLookup fail x d).2.upper = d.upper := by
  unfold vfsPathLookup
  cases fail with
  | some e => exact ⟨rfl,rfl,rfl,rfl⟩
  | none => dsimp only; split_ifs <;> exact ⟨rfl,rfl,rfl,rfl⟩

theorem found_dir {L : Lower} {q : Request} {d : Disk} :
    (found L q d).2.dir (restoredName q.file) = some (cleared L q d).nextIno := by
  rw [found,(vfsPathLookup_fields _ _ _).1]
  simp [begun]

def afterCopy (L : Lower) (J : Junk) (f : File) (n : Name) (out : Option Int × Sys) :
    Outcome × Sys :=
  match out with
  | (some err,t) => (.returned err,t)
  | (none,t) =>
    match deleteLoop L n (counter L J f t.disk).toNat 0 t with
    | (.error err,t) => (.returned err,t)
    | (.ok err,t) => (.returned err,t)

section
variable {L : Lower} {J : Junk} {f : File} {q : Request} {s u : Sys} {i : Ino}

theorem afterCopy_some {n : Name} {out : Option Int × Sys} {err : Int} (h : out.1 = some err) :
    afterCopy L J f n out = (.returned err,out.2) := by
  obtain ⟨r,t⟩ := out
  rw [show r = some err from h]
  rfl

theorem afterCopy_none {out : Option Int × Sys} (h : out.1 = none) :
    (∃ err, (cleanup L J f q out.2.disk).1 = .error err ∧
        (afterCopy L J f q.file out).1 = .returned err ∨
      (cleanup L J f q out.2.disk).1 = .ok err ∧
        (afterCopy L J f q.file out).1 = .returned err) ∧
      (afterCopy L J f q.file out).2.disk = (cleanup L J f q out.2.disk).2 := by
  obtain ⟨r,t⟩ := out
  rw [show r = none from h]
  obtain ⟨h1,h2⟩ := deleteLoop_spec L q.file (counter L J f t.disk).toNat 0 t
  unfold afterCopy cleanup
  dsimp only
  rw [← h1,← h2]
  generalize deleteLoop L q.file _ 0 t = out
  obtain ⟨r,v⟩ := out
  cases r with
  | error err => exact ⟨⟨err,.inl ⟨rfl,rfl⟩⟩,rfl⟩
  | ok err => exact ⟨⟨err,.inr ⟨rfl,rfl⟩⟩,rfl⟩

theorem restoreCopy_run (hc : (discard L q.file s.disk).1.getD 0 = 0)
    (hb : Begins L (restoredName q.file) (cleared L q s.disk))
    (hi : (found L q s.disk).1 = .ok i) (hu : u.disk = (found L q s.disk).2) :
    RestoreRun L J f q s.disk
      (afterCopy L J f q.file
        (openAndCopy L (backupName q.version q.file) i (restoredName q.file) u)).1
      (afterCopy L J f q.file
        (openAndCopy L (backupName q.version q.file) i (restoredName q.file) u)).2.disk := by
  have hdir := found_dir (L := L) (q := q) (d := s.disk)
  rw [← hu] at hdir
  cases hs : L.openSrc with
  | err e =>
    obtain ⟨h1,h2⟩ := openAndCopy_src hs (backupName q.version q.file) i (restoredName q.file) u
    rw [afterCopy_some h1,h2,hu]
    exact .unopened hc hb hi (.inl hs)
  | null =>
    have hn : Opened.isNull L.openSrc L.openDest := .inl hs
    obtain ⟨h1,h2⟩ := openAndCopy_null hn (backupName q.version q.file) i (restoredName q.file) u
    rw [afterCopy_some h1,h2,hu]
    exact .uncopied hc hb hi hn
  | file =>
    cases hd : L.openDest with
    | err e =>
      obtain ⟨h1,h2⟩ :=
        openAndCopy_dest hs hd (backupName q.version q.file) i (restoredName q.file) u
      rw [afterCopy_some h1,h2,hu]
      exact .unopened hc hb hi (.inr ⟨hs,hd⟩)
    | null =>
      have hn : Opened.isNull L.openSrc L.openDest := .inr ⟨hs,hd⟩
      obtain ⟨h1,h2⟩ := openAndCopy_null hn (backupName q.version q.file) i (restoredName q.file) u
      rw [afterCopy_some h1,h2,hu]
      exact .uncopied hc hb hi hn
    | file =>
      obtain ⟨h1,h2⟩ := openAndCopy_done hs hd hdir (backupName q.version q.file) i
      obtain ⟨⟨err,hcl⟩,h3⟩ := afterCopy_none (L := L) (J := J) (f := f) (q := q) h1
      rw [hu] at h2
      change _ = refilled L q i s.disk at h2
      rw [h2] at hcl h3
      rw [h3]
      rcases hcl with ⟨he,ho⟩ | ⟨he,ho⟩
      · exact ho ▸ .stopped hc hb hi hs hd he
      · exact ho ▸ .done hc hb hi hs hd he

theorem restoreTail_run (hc : (discard L q.file s.disk).1.getD 0 = 0)
    (hb : Begins L (restoredName q.file) (cleared L q s.disk))
    (hu : u.disk = begun (restoredName q.file) (cleared L q s.disk)) :
    RestoreRun L J f q s.disk
      (afterCopy L J f q.file (restoreCopy L q.file q.version (restoredName q.file) u)).1
      (afterCopy L J f q.file
        (restoreCopy L q.file q.version (restoredName q.file) u)).2.disk := by
  unfold restoreCopy
  dsimp only
  have hf : vfsPathLookup L.pathLookup (backupName q.version q.file) u.disk = found L q s.disk := by
    rw [hu,found]
  rw [hf]
  rcases hfd : found L q s.disk with ⟨err | i,d⟩
  · have h := RestoreRun.noVersion (J := J) (f := f) hc hb (congrArg Prod.fst hfd)
    rwa [hfd] at h
  · have hi : (found L q s.disk).1 = .ok i := congrArg Prod.fst hfd
    have hd2 : (found L q s.disk).2 = d := congrArg Prod.snd hfd
    exact restoreCopy_run hc hb hi hd2.symm

end

theorem restore_run (L : Lower) (J : Junk) (f : File) (q : Request) (s : Sys) :
    RestoreRun L J f q s.disk (restore L J f q s).1 (restore L J f q s).2.disk := by
  unfold restore
  dsimp only
  obtain ⟨h1,h2⟩ := lookupDelete_spec L .current q.file (s.emit [.get .parent])
  rw [Sys.emit_disk] at h1 h2
  generalize lookupDelete L _ _ _ = out at h1 h2 ⊢
  obtain ⟨err,t⟩ := out
  dsimp only at h1 h2 ⊢
  change t.disk = cleared L q s.disk at h2
  subst h1
  split_ifs with he
  · cases hc : (discard L q.file s.disk).1 with
    | none => simp [hc] at he
    | some err =>
      rw [hc] at he
      exact h2 ▸ .current hc he
  · exact h2 ▸ .noDentry (not_not.mp he) ‹_›
  · have hc := not_not.mp he
    have ha : L.dAlloc = true := by simpa using ‹¬ L.dAlloc = false›
    cases hl : L.lookup with
    | some e =>
      rw [bkpfsLookup_none hl]
      exact h2 ▸ .noLookup hc ha hl
    | none =>
      obtain ⟨u,hu,hud⟩ := bkpfsLookup_some hl .restored (restoredName q.file)
        (t.emit [.get (.newDentry (restoredName q.file))])
      rw [hu]
      rw [Sys.emit_disk,h2] at hud
      dsimp only
      have hcr := create_lookedUp (L := L) (r := .restored) hud
      generalize create L _ _ u = out at hcr ⊢
      obtain ⟨err,v⟩ := out
      dsimp only at hcr ⊢
      rcases hcr with ⟨hi,rfl,h3⟩ | ⟨hi,⟨e,hcr,rfl⟩,h3⟩ | ⟨⟨hi,hcr⟩,rfl,h3⟩
      · rw [if_pos (by decide)]
        exact h3 ▸ .collision hc ha hl hi
      · rw [if_pos (errno_ne_zero e)]
        exact h3 ▸ .noCreate hc ha hl hi hcr
      · rw [if_neg (by decide)]
        exact restoreTail_run hc ⟨ha,hl,hi,hcr⟩ h3

end BackupFs
