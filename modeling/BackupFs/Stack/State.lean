import BackupFs.Library.Refcount
import BackupFs.Lower.State

namespace BackupFs
namespace Stack

def ESTALE : Int := 116
def EXDEV : Int := 18
def EMFILE : Int := 24

inductive Fault where
  | nullPointer
  | freed
  deriving DecidableEq, Repr

structure LowerPath where
  dentry : ℕ
  mnt : ℕ
  deriving DecidableEq, Repr

structure UpperInode where
  id : ℕ
  lower : ℕ
  deriving DecidableEq, Repr

-- d_fsdata is the bkpfs_dentry_info, with a lower path that is set or still NULL
structure Dentry where
  dOp : Bool := false
  fsdata : Option (Option LowerPath) := none
  inode : Option ℕ := none
  deriving DecidableEq, Repr

def Dentry.path (d : Dentry) : Option LowerPath := d.fsdata.join

structure State where
  lowerInodes : Refcount.Counts ℕ
  lowerPaths : Refcount.Counts LowerPath
  icache : List UpperInode
  iCounts : Refcount.Counts ℕ
  root : Option Dentry
  dentries : List Dentry
  infos : ℕ
  sFsInfo : Bool
  sActive : ℕ
  devs : ℕ
  next : ℕ

namespace State
variable (s : State)

def init : State where
  lowerInodes := fun _ => 0
  lowerPaths := fun _ => 0
  icache := []
  iCounts := fun _ => 0
  root := none
  dentries := []
  infos := 0
  sFsInfo := false
  sActive := 0
  devs := 0
  next := 0

def all : List Dentry := s.root.toList ++ s.dentries

def pathGet (p : LowerPath) : State := { s with lowerPaths := Refcount.get s.lowerPaths p }

def pathPut (p : LowerPath) : Except Fault State :=
  match Refcount.put s.lowerPaths p with
  | none => .error .freed
  | some c => .ok { s with lowerPaths := c }

def lowerGet (i : ℕ) : State := { s with lowerInodes := Refcount.get s.lowerInodes i }

def lowerIput (i : ℕ) : Except Fault State :=
  match Refcount.put s.lowerInodes i with
  | none => .error .freed
  | some c => .ok { s with lowerInodes := c }

end State

def bkpfsEvictInode (u : UpperInode) (s : State) : Except Fault State :=
  ({ s with icache := s.icache.erase u } : State).lowerIput u.lower

-- iput on an inode of the mount: generic_delete_inode drops it with its last reference
def iput (u : ℕ) (s : State) : Except Fault State :=
  match Refcount.put s.iCounts u with
  | none => .error .freed
  | some c =>
    let s := { s with iCounts := c }
    if c u = 0 then
      match s.icache.find? fun v => v.id == u with
      | none => .error .freed
      | some v => bkpfsEvictInode v s
    else .ok s

structure IgetCall where
  igrab : Bool := true
  alloc : Bool := true
  deriving DecidableEq, Repr

-- bkpfs_inode_test compares the lower inodes
def iget5Locked (w : IgetCall) (lower : ℕ) (s : State) : Option (UpperInode × Bool × State) :=
  match s.icache.find? fun v => v.lower == lower with
  | some v => some (v,false,{ s with iCounts := Refcount.get s.iCounts v.id })
  | none =>
    if w.alloc = false then none
    else
      let u : UpperInode := ⟨s.next,lower⟩
      some (u,true,{ s with
        icache := u :: s.icache
        iCounts := Refcount.get s.iCounts s.next
        next := s.next + 1 })

-- igrab follows the pointer it is given
def bkpfsIget (w : IgetCall) (lower : Option ℕ) (s : State) :
    Except Fault (Except Int ℕ × State) :=
  match lower with
  | none => .error .nullPointer
  | some lower =>
    if w.igrab = false then .ok (.error (-ESTALE),s)
    else
      match iget5Locked w lower (s.lowerGet lower) with
      | none => do
        let s ← (s.lowerGet lower).lowerIput lower
        .ok (.error (-ENOMEM),s)
      | some (u,isNew,s) =>
        if isNew then .ok (.ok u.id,s)
        else do
          let s ← s.lowerIput lower
          .ok (.ok u.id,s)

def newDentryPrivateData (zalloc : Bool) (d : Dentry) (s : State) : Int × Dentry × State :=
  if zalloc = false then (-ENOMEM,d,s)
  else (0,{ d with fsdata := some none },{ s with infos := s.infos + 1 })

def freeDentryPrivateData (d : Dentry) (s : State) : Dentry × State :=
  if d.fsdata.isNone then (d,s)
  else ({ d with fsdata := none },{ s with infos := s.infos - 1 })

def bkpfsGetLowerPath (d : Dentry) (s : State) : Except Fault (Option LowerPath × State) :=
  match d.fsdata with
  | none => .error .nullPointer
  | some none => .ok (none,s)
  | some (some p) => .ok (some p,s.pathGet p)

def bkpfsPutLowerPath (p : Option LowerPath) (s : State) : Except Fault State :=
  match p with
  | none => .ok s
  | some p => s.pathPut p

def bkpfsSetLowerPath (d : Dentry) (p : LowerPath) : Except Fault Dentry :=
  if d.fsdata.isNone then .error .nullPointer else .ok { d with fsdata := some (some p) }

def bkpfsPutResetLowerPath (d : Dentry) (s : State) : Except Fault (Dentry × State) :=
  match d.fsdata with
  | none => .error .nullPointer
  | some p => do
    let s ← bkpfsPutLowerPath p s
    .ok ({ d with fsdata := some none },s)

def bkpfsDRelease (d : Dentry) (s : State) : Except Fault State := do
  let (d,s) ← bkpfsPutResetLowerPath d s
  .ok (freeDentryPrivateData d s).2

def dentryIput (inode : Option ℕ) (s : State) : Except Fault State :=
  match inode with
  | none => .ok s
  | some u => iput u s

-- the last dput: the inode goes first, then ->d_release
def dentryKill (d : Dentry) (s : State) : Except Fault State := do
  let s ← dentryIput d.inode s
  if d.dOp then bkpfsDRelease d s else .ok s

def State.aliasOf (s : State) (u : ℕ) : Option Dentry := s.all.find? fun d => d.inode == some u

-- a directory that has a dentry already is not given a second one
def dSpliceAlias (isDir : Bool) (unalias : Option Errno) (u : ℕ) (d : Dentry) (s : State) :
    Except Fault (Except Int (Option Dentry) × Dentry × State) :=
  match if isDir then s.aliasOf u else none with
  | none => .ok (.ok none,{ d with inode := some u },s)
  | some a => do
    let s ← iput u s
    match unalias with
    | some e => .ok (.error e,d,s)
    | none => .ok (.ok (some a),d,s)

structure Found where
  path : LowerPath
  inode : ℕ
  sameSb : Bool := true
  isDir : Bool := false
  deriving DecidableEq, Repr

structure SpliceCall where
  iget : IgetCall := {}
  unalias : Option Errno := none
  deriving DecidableEq

-- __bkpfs_interpose
def innerBkpfsInterpose (w : SpliceCall) (f : Found) (d : Dentry) (s : State) :
    Except Fault (Except Int (Option Dentry) × Dentry × State) :=
  if f.sameSb = false then .ok (.error (-EXDEV),d,s)
  else do
    let (inode,s) ← bkpfsIget w.iget (some f.inode) s
    match inode with
    | .error e => .ok (.error e,d,s)
    | .ok u => dSpliceAlias f.isDir w.unalias u d s

structure LookupCall where
  zalloc : Bool := true
  pathLookup : Except Errno Found
  dLookup : Option ℕ := none
  dAlloc : Option ℕ := none
  splice : SpliceCall := {}

-- __bkpfs_lookup; vfs_path_lookup, d_lookup, d_alloc and mntget hand over a reference
def innerBkpfsLookup (w : LookupCall) (lowerParent : LowerPath) (d : Dentry) (s : State) :
    Except Fault (Except Int (Option Dentry) × Dentry × State) := do
  let d := { d with dOp := true }
  match w.pathLookup with
  | .ok f => do
    let d ← bkpfsSetLowerPath d f.path
    let (ret,d,s) ← innerBkpfsInterpose w.splice f d (s.pathGet f.path)
    match ret with
    | .ok ret => .ok (.ok ret,d,s)
    | .error e => do
      let (d,s) ← bkpfsPutResetLowerPath d s
      .ok (.error e,d,s)
  | .error e =>
    if (e : Int) ≠ -ENOENT then .ok (.error e,d,s)
    else
      match w.dLookup.or w.dAlloc with
      | none => .ok (.error (-ENOMEM),d,s)
      | some l => do
        let p : LowerPath := ⟨l,lowerParent.mnt⟩
        let d ← bkpfsSetLowerPath d p
        .ok (.ok none,d,s.pathGet p)

def bkpfsLookup (w : LookupCall) (parent d : Dentry) (s : State) :
    Except Fault (Except Int (Option Dentry) × Dentry × State) := do
  let (p,s) ← bkpfsGetLowerPath parent s
  match p with
  | none => .error .nullPointer
  | some p =>
    let (err,d,s) := newDentryPrivateData w.zalloc d s
    if err ≠ 0 then do
      let s ← bkpfsPutLowerPath (some p) s
      .ok (.error err,d,s)
    else do
      let (ret,d,s) ← innerBkpfsLookup w p d s
      let s ← bkpfsPutLowerPath (some p) s
      .ok (ret,d,s)

-- ilookup hands over a reference that the code does not put
def bkpfsNfsGetInode (ilookup : Option ℕ) (w : IgetCall) (s : State) :
    Except Fault (Except Int ℕ × State) :=
  let s := match ilookup with
    | none => s
    | some i => s.lowerGet i
  bkpfsIget w ilookup s

-- the dentry of an inode that was found by its number: an alias, or one of its own
def dObtainAlias (alloc : Bool) (u : ℕ) (s : State) : Except Fault State :=
  match s.aliasOf u with
  | some _ => iput u s
  | none =>
    if alloc = false then iput u s
    else .ok { s with dentries := { inode := some u } :: s.dentries }

def bkpfsFhToDentry (ilookup : Option ℕ) (w : IgetCall) (alloc : Bool) (s : State) :
    Except Fault State := do
  let (inode,s) ← bkpfsNfsGetInode ilookup w s
  match inode with
  | .error _ => .ok s
  | .ok u => dObtainAlias alloc u s

end Stack
end BackupFs
