import BackupFs.Lower.Names

namespace BackupFs

abbrev Ino := ℕ

inductive Attr where
  | revision
  | youngest
  deriving DecidableEq, Repr

structure Inode where
  content : Bytes := []
  revision : Option Int := none
  youngest : Option Int := none
  deriving DecidableEq, Repr

def Inode.attr (i : Inode) : Attr → Option Int
  | .revision => i.revision
  | .youngest => i.youngest

def Inode.setAttr (i : Inode) (v : Int) : Attr → Inode
  | .revision => { i with revision := some v }
  | .youngest => { i with youngest := some v }

structure File where
  name : FileName
  ino : Ino

def aTxt : File where
  name := ⟨bytesOf "a.txt",by decide⟩
  ino := 0

def bTxt : FileName := ⟨bytesOf "b.txt",by decide⟩

inductive Role where
  | current
  | restored
  | backup (v : Int)
  deriving DecidableEq, Repr

inductive Obj where
  | parent
  | lowerDirPath
  | lowerDir
  | dirLock
  | lowerEntry (x : Name)
  | newDentry (x : Name)
  | lowerPath (x : Name)
  | file (x : Name)
  deriving DecidableEq, Repr

inductive Event where
  | dLookup (r : Role) (x : Name)
  | pathLookup (r : Role) (x : Name)
  | create (r : Role) (x : Name) (err : Int)
  | unlink (r : Role) (x : Name) (err : Int)
  | get (o : Obj)
  | put (o : Obj)
  deriving DecidableEq, Repr

structure Disk where
  dir : Name → Option Ino
  inodes : Ino → Inode
  nextIno : Ino
  cached : Name → Bool
  upper : Name → Option Ino
  walk : Name → Option Ino

structure Sys where
  disk : Disk
  trace : List Event := []

abbrev Errno := {e : Int // e < 0}

def ENOENT : Int := 2
def ECHILD : Int := 10
def ENOMEM : Int := 12
def EACCES : Int := 13
def EBUSY : Int := 16
def EEXIST : Int := 17
def EINVAL : Int := 22
def ENOTTY : Int := 25

inductive Opened where
  | file
  | null
  | err (e : Errno)
  deriving DecidableEq

inductive Outcome where
  | returned (err : Int)
  | oops
  deriving DecidableEq, Repr

structure Lower where
  getxattr : Attr → Option Errno := fun _ => none
  setxattr : Attr → Option Errno := fun _ => none
  unlink : Name → Option Errno := fun _ => none
  nfsRenamed : Name → Bool := fun _ => false
  dAlloc : Bool := true
  lookup : Option Errno := none
  dRevalidate : Option (Name → Int) := none
  create : Option Errno := none
  link : Option Errno := none
  rename : Option Errno := none
  interpose : Option Errno := none
  pathLookup : Option Errno := none
  openSrc : Opened := .file
  openDest : Opened := .file
  splice : ℕ → Int := fun _ => 4096
  write : ℕ → Int := fun n => n
  writeIter : Option (ℕ → Int) := some fun n => n
  setattrPrepare : Option Errno := none
  newsizeOk : Option Errno := none
  notifyChange : Option Errno := none
  kernelRead : Option Errno := none
  copyToUser : Bool := true
  lowerFile : Bool := true
  unlockedIoctl : Option Int := none

structure Lower.Grants (L : Lower) : Prop where
  getxattr : ∀ a, L.getxattr a = none
  setxattr : ∀ a, L.setxattr a = none
  unlink : ∀ x, L.unlink x = none
  dAlloc : L.dAlloc = true
  lookup : L.lookup = none
  create : L.create = none
  pathLookup : L.pathLookup = none
  openSrc : L.openSrc = .file
  openDest : L.openDest = .file
  splice : ∀ k, 0 ≤ L.splice k
  write : ∀ n, 0 ≤ L.write n
  kernelRead : L.kernelRead = none
  copyToUser : L.copyToUser = true
  lowerFile : L.lowerFile = true

theorem grants_default : Lower.Grants {} where
  getxattr _ := rfl
  setxattr _ := rfl
  unlink _ := rfl
  dAlloc := rfl
  lookup := rfl
  create := rfl
  pathLookup := rfl
  openSrc := rfl
  openDest := rfl
  splice _ := Int.natCast_nonneg 4096
  write n := Int.natCast_nonneg n
  kernelRead := rfl
  copyToUser := rfl
  lowerFile := rfl

namespace Sys

def emit (s : Sys) (es : List Event) : Sys := { s with trace := s.trace ++ es }

def on (s : Sys) (d : Disk) : Sys := { s with disk := d }

@[simp] theorem emit_disk (s : Sys) (es : List Event) : (s.emit es).disk = s.disk := rfl
@[simp] theorem emit_trace (s : Sys) (es : List Event) :
    (s.emit es).trace = s.trace ++ es := rfl
@[simp] theorem on_disk (s : Sys) (d : Disk) : (s.on d).disk = d := rfl
@[simp] theorem on_trace (s : Sys) (d : Disk) : (s.on d).trace = s.trace := rfl

end Sys

namespace Disk

variable (d : Disk)

def link (x : Name) (i : Option Ino) (hashed : Bool) : Disk :=
  { d with
    dir := Function.update d.dir x i
    cached := Function.update d.cached x hashed }

def hash (x : Name) : Disk := { d with cached := Function.update d.cached x true }

def setInode (i : Ino) (n : Inode) : Disk := { d with inodes := Function.update d.inodes i n }

def interpose (x : Name) (i : Ino) : Disk :=
  { d with upper := Function.update d.upper x (some i) }

def drop (x : Name) : Disk := { d with upper := Function.update d.upper x none }

def created (x : Name) : Disk :=
  { (d.link x (some d.nextIno) true).setInode d.nextIno {} with nextIno := d.nextIno + 1 }

def pathIno (x : Name) : Option Ino := if slash ∈ x then d.walk x else d.dir x

def lowerIno (x : Name) : Option Ino := if slash ∈ x then (d.walk x).or (d.dir x) else d.dir x

def Exact : Prop := ∀ x, d.cached x = (d.dir x).isSome

def Allocated : Prop := ∀ x i, d.dir x = some i → i < d.nextIno

section simp
variable (x : Name) (i : Option Ino) (b : Bool) (j : Ino) (n : Inode)

@[simp] theorem link_dir : (d.link x i b).dir = Function.update d.dir x i := rfl
@[simp] theorem link_inodes : (d.link x i b).inodes = d.inodes := rfl
@[simp] theorem link_nextIno : (d.link x i b).nextIno = d.nextIno := rfl
@[simp] theorem link_cached : (d.link x i b).cached = Function.update d.cached x b := rfl
@[simp] theorem link_upper : (d.link x i b).upper = d.upper := rfl
@[simp] theorem link_walk : (d.link x i b).walk = d.walk := rfl

@[simp] theorem hash_dir : (d.hash x).dir = d.dir := rfl
@[simp] theorem hash_inodes : (d.hash x).inodes = d.inodes := rfl
@[simp] theorem hash_nextIno : (d.hash x).nextIno = d.nextIno := rfl
@[simp] theorem hash_cached : (d.hash x).cached = Function.update d.cached x true := rfl
@[simp] theorem hash_upper : (d.hash x).upper = d.upper := rfl
@[simp] theorem hash_walk : (d.hash x).walk = d.walk := rfl

@[simp] theorem interpose_dir : (d.interpose x j).dir = d.dir := rfl
@[simp] theorem interpose_inodes : (d.interpose x j).inodes = d.inodes := rfl
@[simp] theorem interpose_nextIno : (d.interpose x j).nextIno = d.nextIno := rfl
@[simp] theorem interpose_cached : (d.interpose x j).cached = d.cached := rfl
@[simp] theorem interpose_upper :
    (d.interpose x j).upper = Function.update d.upper x (some j) := rfl
@[simp] theorem interpose_walk : (d.interpose x j).walk = d.walk := rfl

@[simp] theorem created_dir :
    (d.created x).dir = Function.update d.dir x (some d.nextIno) := rfl
@[simp] theorem created_inodes :
    (d.created x).inodes = Function.update d.inodes d.nextIno {} := rfl
@[simp] theorem created_nextIno : (d.created x).nextIno = d.nextIno + 1 := rfl
@[simp] theorem created_cached :
    (d.created x).cached = Function.update d.cached x true := rfl
@[simp] theorem created_upper : (d.created x).upper = d.upper := rfl
@[simp] theorem created_walk : (d.created x).walk = d.walk := rfl

@[simp] theorem setInode_dir : (d.setInode j n).dir = d.dir := rfl
@[simp] theorem setInode_inodes : (d.setInode j n).inodes = Function.update d.inodes j n := rfl
@[simp] theorem setInode_nextIno : (d.setInode j n).nextIno = d.nextIno := rfl
@[simp] theorem setInode_cached : (d.setInode j n).cached = d.cached := rfl
@[simp] theorem setInode_upper : (d.setInode j n).upper = d.upper := rfl
@[simp] theorem setInode_walk : (d.setInode j n).walk = d.walk := rfl

end simp

def single (f : File) (n : Inode) : Disk where
  dir := Function.update (fun _ => none) f.name (some f.ino)
  inodes := Function.update (fun _ => {}) f.ino n
  nextIno := f.ino + 1
  cached := Function.update (fun _ => false) f.name true
  upper := fun _ => none
  walk := fun _ => none

@[simp] theorem single_dir (f : File) (n : Inode) :
    (single f n).dir = Function.update (fun _ => none) f.name.val (some f.ino) := rfl
@[simp] theorem single_inodes (f : File) (n : Inode) :
    (single f n).inodes = Function.update (fun _ => {}) f.ino n := rfl

theorem single_exact (f : File) (n : Inode) : (single f n).Exact := by
  intro x
  rcases eq_or_ne x f.name with rfl | hx
  · simp [single]
  · simp [single,hx]

theorem single_backups (f : File) (n : Inode) (v : Int) :
    (single f n).dir (backupName v f.name) = none := by
  simp [single,backupName_ne_self]

theorem pathIno_of_slash {x : Name} (h : slash ∉ x) : d.pathIno x = d.dir x := if_neg h

theorem lowerIno_of_slash {x : Name} (h : slash ∉ x) : d.lowerIno x = d.dir x := if_neg h

theorem dir_of_lowerIno {x : Name} (h : d.lowerIno x = none) : d.dir x = none := by
  unfold lowerIno at h
  split_ifs at h
  · exact (Option.or_eq_none_iff.mp h).2
  · exact h

end Disk

end BackupFs
