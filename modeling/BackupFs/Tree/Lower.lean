import BackupFs.Library.Forest
import BackupFs.Lower.State

namespace BackupFs
namespace Tree

def EPERM : Int := 1
def ENOTDIR : Int := 20
def EISDIR : Int := 21
def ENOTEMPTY : Int := 39
def ELOOP : Int := 40
def ESTALE : Int := 116

-- the positive dentries of one file system; 0 is its root. `chain` has those that are hashed,
-- the last one first, and not what was unlinked, removed or freed
structure Dcache where
  parent : ℕ → ℕ
  name : ℕ → Name
  inode : ℕ → ℕ
  chain : List ℕ
  next : ℕ

namespace Dcache
variable (t : Dcache)

def hashed (d : ℕ) : Bool := decide (d ∈ t.chain)

def child (dir : ℕ) (n : Name) : Option ℕ :=
  t.chain.find? fun d => d != 0 && t.parent d == dir && t.name d == n

def hasChild (dir : ℕ) : Bool := t.chain.any fun d => d != 0 && t.parent d == dir

def add (dir : ℕ) (n : Name) (i : ℕ) : Dcache where
  parent := Function.update t.parent t.next dir
  name := Function.update t.name t.next n
  inode := Function.update t.inode t.next i
  chain := t.next :: t.chain
  next := t.next + 1

def drop (d : ℕ) : Dcache := { t with chain := t.chain.filter (· != d) }

def place (d dir : ℕ) (n : Name) : Dcache :=
  { t with
    parent := Function.update t.parent d dir
    name := Function.update t.name d n
    chain := d :: t.chain.filter (· != d) }

-- d_ancestor: the child of `p1` on the way up from `p2`
def dAncestor (p1 p2 : ℕ) : Option ℕ := Forest.childAbove t.parent p1 t.next p2

def lockRename (p1 p2 : ℕ) : Option ℕ :=
  if p1 = p2 then none else (t.dAncestor p2 p1).or (t.dAncestor p1 p2)

-- the BUG_ONs of __d_move; a negative target hangs in `dir`
def dMoveBug (d dir : ℕ) (target : Option ℕ) : Bool :=
  (target.any fun e => (t.dAncestor e d).isSome) ||
    t.dAncestor (t.parent d) (target.getD dir) == some d

-- the target is unhashed, and keeps its parent and its name
def dMove (d dir : ℕ) (n : Name) (target : Option ℕ) : Dcache :=
  match target with
  | none => t.place d dir n
  | some e => (t.drop e).place d dir n

end Dcache

-- S_DEAD and i_nlink by inode; the number of links of a directory is not asked for
structure Below where
  dcache : Dcache
  isDir : ℕ → Bool
  dead : ℕ → Bool
  nlink : ℕ → ℕ
  nextIno : ℕ

def incNlink (n : ℕ) : ℕ := (n + 1) % 2 ^ 32
def dropNlink (n : ℕ) : ℕ := (n + (2 ^ 32 - 1)) % 2 ^ 32

namespace Below
variable (b : Below)

def dir (d : ℕ) : Bool := b.isDir (b.dcache.inode d)

def on (t : Dcache) : Below := { b with dcache := t }

def added (isdir : Bool) (d : ℕ) (n : Name) : Below where
  dcache := b.dcache.add d n b.nextIno
  isDir := Function.update b.isDir b.nextIno isdir
  dead := Function.update b.dead b.nextIno false
  nlink := Function.update b.nlink b.nextIno 1
  nextIno := b.nextIno + 1

def linked (l d : ℕ) (n : Name) : Below :=
  let i := b.dcache.inode l
  { b with
    dcache := b.dcache.add d n i
    nlink := Function.update b.nlink i (incNlink (b.nlink i)) }

def lost (target : Option ℕ) : Below :=
  { b with
    dead := fun i => b.dead i || target.any fun e => b.dir e && b.dcache.inode e == i
    nlink := fun i =>
      if target.any fun e => !b.dir e && b.dcache.inode e == i then dropNlink (b.nlink i)
      else b.nlink i }

end Below

def mayCreate (d : ℕ) (n : Name) (b : Below) : Int :=
  if (b.dcache.child d n).isSome then -EEXIST
  else if b.dead (b.dcache.inode d) then -ENOENT
  else 0

-- `none` is BUG_ON(victim->d_parent->d_inode != dir)
def mayDelete (dirIno l : ℕ) (isdir nfsRenamed : Bool) (b : Below) : Option Int :=
  if b.dcache.inode (b.dcache.parent l) ≠ dirIno then none
  else if isdir ∧ b.dir l = false then some (-ENOTDIR)
  else if isdir ∧ l = 0 then some (-EBUSY)
  else if isdir = false ∧ b.dir l then some (-EISDIR)
  else if b.dead dirIno then some (-ENOENT)
  else if nfsRenamed then some (-EBUSY)
  else some 0

-- vfs_create, vfs_symlink, vfs_mknod and vfs_mkdir
def vfsMake (isdir : Bool) (fails : Option Errno) (d : ℕ) (n : Name) (b : Below) : Int × Below :=
  if mayCreate d n b ≠ 0 then (mayCreate d n b,b)
  else
    match fails with
    | some e => (e,b)
    | none => (0,b.added isdir d n)

def vfsLink (fails : Option Errno) (l d : ℕ) (n : Name) (b : Below) : Int × Below :=
  if mayCreate d n b ≠ 0 then (mayCreate d n b,b)
  else if b.dir l then (-EPERM,b)
  else if b.nlink (b.dcache.inode l) = 0 then (-ENOENT,b)
  else
    match fails with
    | some e => (e,b)
    | none => (0,b.linked l d n)

-- nobody asks whether the entry is still there, unless the file system does, in `fails`
def erase (fails : Option Errno) (l : ℕ) (b : Below) : Int × Below :=
  match fails with
  | some e => (e,b)
  | none => (0,(b.lost (some l)).on (b.dcache.drop l))

def vfsUnlink (fails : Option Errno) (nfsRenamed : Bool) (dirIno l : ℕ) (b : Below) :
    Option (Int × Below) :=
  match mayDelete dirIno l false nfsRenamed b with
  | none => none
  | some err => if err ≠ 0 then some (err,b) else some (erase fails l b)

def vfsRmdir (fails : Option Errno) (dirIno l : ℕ) (b : Below) : Option (Int × Below) :=
  match mayDelete dirIno l true false b with
  | none => none
  | some err =>
    if err ≠ 0 then some (err,b)
    else if b.dcache.hasChild l then some (-ENOTEMPTY,b)
    else some (erase fails l b)

def mayRename (oldDirIno old newDir : ℕ) (n : Name) (new : Option ℕ) (b : Below) : Option Int :=
  match mayDelete oldDirIno old (b.dir old) false b with
  | none => none
  | some err =>
    if err ≠ 0 then some err
    else
      match new with
      | none => some (mayCreate newDir n b)
      | some e => mayDelete (b.dcache.inode newDir) e (b.dir old) false b

def vfsRename (fails : Option Errno) (oldDirIno old newDir : ℕ) (n : Name) (new : Option ℕ)
    (b : Below) : Option (Int × Below) :=
  if new.map b.dcache.inode = some (b.dcache.inode old) then some (0,b)
  else
    match mayRename oldDirIno old newDir n new b with
    | none => none
    | some err =>
      if err ≠ 0 then some (err,b)
      else if new.map b.dcache.hasChild = some true then some (-ENOTEMPTY,b)
      else
        match fails with
        | some e => some (e,b)
        | none =>
          if b.dcache.dMoveBug old newDir new then none
          else some (0,(b.lost new).on (b.dcache.dMove old newDir n new))

-- rename under lock_rename, with the tests of the trap; `n` is the name of a negative target
def lockedRename (fails : Option Errno) (old newDir : ℕ) (n : Name) (new : Option ℕ) (b : Below) :
    Option (Int × Below) :=
  let oldDir := b.dcache.parent old
  let trap := b.dcache.lockRename oldDir newDir
  if trap = some old then some (-EINVAL,b)
  else if trap ≠ none ∧ trap = new then some (-ENOTEMPTY,b)
  else vfsRename fails (b.dcache.inode oldDir) old newDir n new b

end Tree
end BackupFs
