import BackupFs.Kernel.Write

namespace BackupFs

-- the C string at q->name, and q->version
structure Request where
  name : Bytes
  version : Int
  deriving DecidableEq, Repr

-- &q->name[11], the path behind "/mnt/bkpfs/"
def Request.file (q : Request) : Name := q.name.drop 11

-- char *file_name
def mountPoint : Bytes := bytesOf "/mnt/bkpfs/"

def clientRequest (inputFile : Name) (version : Int) : Request where
  name := mountPoint ++ inputFile
  version := version

@[simp] theorem clientRequest_file (x : Name) (v : Int) : (clientRequest x v).file = x := by
  rw [Request.file,clientRequest]
  exact List.drop_left' (by decide)

def deleteOne (L : Lower) (J : Junk) (f : File) (q : Request) (s : Sys) : Outcome × Sys :=
  let name := backupName q.version q.file
  match lookupDelete L (.backup q.version) name (s.emit [.get .parent]) with
  | (none,s) => (.returned (-ENOTTY),s)
  | (some err,s) =>
    if err ≠ 0 then (.returned err,s)
    else
      let val := vfsGetxattr L f.ino .youngest J.val s.disk
      (.returned err,
        if q.version = val then s.on (stamp L f (wrapInt (val - 1)) s.disk) else s)

-- for (i = val; i > 0; i--) with `err` carried along; `.error` is `return err`
def deleteLoop (L : Lower) (n : Name) : ℕ → Int → Sys → Except Int Int × Sys
  | 0, err, s => (.ok err,s)
  | i + 1, err, s =>
    let v : Int := (i + 1 : ℕ)
    match lookupDelete L (.backup v) (backupName v n) (s.emit [.get .parent]) with
    | (none,s) => deleteLoop L n i err s
    | (some e,s) => if e ≠ 0 then (.error e,s) else deleteLoop L n i e s

def deleteAll (L : Lower) (J : Junk) (f : File) (q : Request) (s : Sys) : Outcome × Sys :=
  match deleteLoop L q.file (counter L J f s.disk).toNat (-ENOTTY) s with
  | (.error err,s) => (.returned err,s)
  | (.ok err,s) => (.returned err,s.on (vfsSetxattr L f.ino .revision (-1) s.disk))

def restoreCopy (L : Lower) (n : Name) (version : Int) (name2 : Name) (s : Sys) :
    Option Int × Sys :=
  let name3 := backupName version n
  let t := s.emit [.get .parent,.pathLookup (.backup version) name3]
  match vfsPathLookup L.pathLookup name3 s.disk with
  | (.error err,d) => (some err,t.on d)
  | (.ok i,d) => openAndCopy L name3 i name2 ((t.on d).emit [.get (.lowerPath name3)])

def restore (L : Lower) (J : Junk) (f : File) (q : Request) (s : Sys) : Outcome × Sys :=
  let name1 := q.file
  let (err,s) := lookupDelete L .current name1 (s.emit [.get .parent])
  if err.getD 0 ≠ 0 then (.returned (err.getD 0),s)
  else
    let name2 := restoredName name1
    if L.dAlloc = false then (.returned (-ENOMEM),s)
    else
      match bkpfsLookup L .restored name2 (s.emit [.get (.newDentry name2)]) with
      | none => (.oops,s)
      | some s =>
        let (err,s) := create L .restored name2 s
        if err ≠ 0 then (.returned err,s)
        else
          match restoreCopy L name1 q.version name2 s with
          | (some err,s) => (.returned err,s)
          | (none,s) =>
            match deleteLoop L q.file (counter L J f s.disk).toNat 0 s with
            | (.error err,s) => (.returned err,s)
            | (.ok err,s) => (.returned err,s)

-- sprintf(dst, "%s", src): up to the first NUL, and the NUL
def cString (b : Bytes) : Bytes := b.takeWhile (· ≠ nul) ++ [nul]

def view (L : Lower) (J : Junk) (q : Request) (s : Sys) : Outcome × Sys × Option Query :=
  let name := backupName q.version q.file
  let t := s.emit [.get .parent,.get .parent,.get .lowerDirPath,
    .pathLookup (.backup q.version) name]
  match vfsPathLookup L.pathLookup name s.disk with
  | (.error err,d) => (.returned err,t.on d,none)
  | (.ok i,d) =>
    let s := (t.on d).emit [.get (.lowerPath name)]
    match L.openSrc with
    | .err e => (.returned e,s,none)
    | .null => (.returned 0,s,none)
    | .file =>
      let s := s.emit [.get (.file name)]
      match L.kernelRead with
      | some e => (.returned e,s,none)
      | none =>
        let buffer := pwrite J.buffer 0 ((s.disk.inodes i).content.take 1024)
        let q2 := { J.q2 with buff := pwrite J.q2.buff 0 (cString buffer) }
        if L.copyToUser then (.returned 0,s,some q2) else (.returned (-EACCES),s,none)

def list (L : Lower) (J : Junk) (f : File) (s : Sys) : Outcome × Sys × Option Query :=
  let val := counter L J f s.disk
  let q2 := { J.q2 with
    youngest := val
    oldest := if val ≤ N then 1 else wrapInt (J.val1 - N) }
  if L.copyToUser then (.returned 0,s,some q2) else (.returned (-EACCES),s,none)

def bkpfsUnlockedIoctl (L : Lower) (J : Junk) (f : File) (cmd : ℕ) (q : Request) (s : Sys) :
    Outcome × Sys × Option Query :=
  if L.lowerFile = false then (.returned (-ENOTTY),s,none)
  else
    match cmd with
    | 1000 =>
      let (out,s) := if q.version ≠ 0 then deleteOne L J f q s else deleteAll L J f q s
      (out,s,none)
    | 1001 =>
      let (out,s) := restore L J f q s
      (out,s,none)
    | 1002 => view L J q s
    | 1003 => list L J f s
    | _ => (.returned (L.unlockedIoctl.getD (-ENOTTY)),s,none)

inductive ViewFails (L : Lower) (q : Request) (d : Disk) : Int → Prop
  | pathLookup {e : Errno} (h : L.pathLookup = some e) : ViewFails L q d e
  | missing (h : d.pathIno (backupName q.version q.file) = none) : ViewFails L q d (-ENOENT)
  | openSrc {e : Errno} (h : L.openSrc = .err e) : ViewFails L q d e
  | unopened (h : L.openSrc = .null) : ViewFails L q d 0
  | kernelRead {e : Errno} (h : L.kernelRead = some e) : ViewFails L q d e
  | copyToUser (h : L.copyToUser = false) : ViewFails L q d (-EACCES)

structure Delivers (L : Lower) (q : Request) (d : Disk) : Prop where
  pathLookup : L.pathLookup = none
  version : (d.pathIno (backupName q.version q.file)).isSome = true
  openSrc : L.openSrc = .file
  kernelRead : L.kernelRead = none
  copyToUser : L.copyToUser = true

def viewReply (J : Junk) (c : Bytes) : Query :=
  { J.q2 with buff := pwrite J.q2.buff 0 (cString (pwrite J.buffer 0 (c.take 1024))) }

section
variable {L : Lower} (J : Junk) (f : File) {q : Request} (s : Sys)

theorem ioctl_noFile (h : L.lowerFile = false) (cmd : ℕ) (q : Request) :
    bkpfsUnlockedIoctl L J f cmd q s = (.returned (-ENOTTY),s,none) := if_pos h

theorem ioctl_deleteOne (h : L.lowerFile = true) (hv : q.version ≠ 0) :
    bkpfsUnlockedIoctl L J f 1000 q s =
      ((deleteOne L J f q s).1,(deleteOne L J f q s).2,none) := by
  rw [bkpfsUnlockedIoctl,if_neg (by simp [h])]
  dsimp only
  rw [if_pos hv]

theorem ioctl_deleteAll (h : L.lowerFile = true) (hv : q.version = 0) :
    bkpfsUnlockedIoctl L J f 1000 q s =
      ((deleteAll L J f q s).1,(deleteAll L J f q s).2,none) := by
  rw [bkpfsUnlockedIoctl,if_neg (by simp [h])]
  dsimp only
  rw [if_neg (not_not.mpr hv)]

theorem ioctl_restore (h : L.lowerFile = true) (q : Request) :
    bkpfsUnlockedIoctl L J f 1001 q s =
      ((restore L J f q s).1,(restore L J f q s).2,none) := by
  rw [bkpfsUnlockedIoctl,if_neg (by simp [h])]

theorem ioctl_view (h : L.lowerFile = true) (q : Request) :
    bkpfsUnlockedIoctl L J f 1002 q s = view L J q s := by
  rw [bkpfsUnlockedIoctl,if_neg (by simp [h])]

theorem ioctl_list (h : L.lowerFile = true) (q : Request) :
    bkpfsUnlockedIoctl L J f 1003 q s = list L J f s := by
  rw [bkpfsUnlockedIoctl,if_neg (by simp [h])]

theorem list_delivers (h : L.copyToUser = true) : list L J f s = (.returned 0,s,some { J.q2 with
    youngest := counter L J f s.disk
    oldest := if counter L J f s.disk ≤ N then 1 else wrapInt (J.val1 - N) }) := if_pos h

end

theorem viewFails_not_delivers {L : Lower} {q : Request} {d : Disk} {err : Int}
    (h : ViewFails L q d err) : ¬ Delivers L q d := by
  intro hd
  cases h with
  | pathLookup h => simp [hd.pathLookup] at h
  | missing h =>
    have hv := hd.version
    simp [h] at hv
  | openSrc h => simp [hd.openSrc] at h
  | unopened h => simp [hd.openSrc] at h
  | kernelRead h => simp [hd.kernelRead] at h
  | copyToUser h => simp [hd.copyToUser] at h

theorem viewFails_zero {L : Lower} {q : Request} {d : Disk} (h : ViewFails L q d 0) :
    L.openSrc = .null := by
  have herr {e : Errno} : (e : Int) ≠ 0 := e.2.ne
  generalize hz : (0 : Int) = err at h
  cases h with
  | unopened h => exact h
  | pathLookup h => exact absurd hz.symm herr
  | missing h => exact absurd hz (by decide)
  | openSrc h => exact absurd hz.symm herr
  | kernelRead h => exact absurd hz.symm herr
  | copyToUser h => exact absurd hz (by decide)

theorem view_cases (L : Lower) (q : Request) (s : Sys) :
    (∃ err t, ViewFails L q s.disk err ∧ ∀ J, view L J q s = (.returned err,t,none)) ∨
      Delivers L q s.disk ∧ ∃ i t, s.disk.pathIno (backupName q.version q.file) = some i ∧
        ∀ J, view L J q s = (.returned 0,t,some (viewReply J (s.disk.inodes i).content)) := by
  unfold view vfsPathLookup
  dsimp only
  have hin : (if slash ∈ backupName q.version q.file then s.disk
      else s.disk.hash (backupName q.version q.file)).inodes = s.disk.inodes := by
    split_ifs <;> rfl
  generalize (if slash ∈ backupName q.version q.file then s.disk
    else s.disk.hash (backupName q.version q.file)) = d at hin ⊢
  cases hp : L.pathLookup with
  | some e => exact .inl ⟨_,_,.pathLookup hp,fun J => rfl⟩
  | none =>
    cases hv : s.disk.pathIno (backupName q.version q.file) with
    | none => exact .inl ⟨_,_,.missing hv,fun J => rfl⟩
    | some i =>
      cases ho : L.openSrc with
      | err e => exact .inl ⟨_,_,.openSrc ho,fun J => rfl⟩
      | null => exact .inl ⟨_,_,.unopened ho,fun J => rfl⟩
      | file =>
        cases hk : L.kernelRead with
        | some e => exact .inl ⟨_,_,.kernelRead hk,fun J => rfl⟩
        | none =>
          cases hcu : L.copyToUser with
          | false => exact .inl ⟨_,_,.copyToUser hcu,fun J => rfl⟩
          | true =>
            rw [← hin]
            exact .inr ⟨⟨hp,by rw [hv]; rfl,ho,hk,hcu⟩,i,_,rfl,fun J => rfl⟩

end BackupFs
