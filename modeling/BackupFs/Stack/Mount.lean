import BackupFs.Library.Transition
import BackupFs.Stack.State

namespace BackupFs
namespace Stack

structure MountCall where
  devName : Bool := true
  kernPath : Except Errno (LowerPath × ℕ)
  sbInfo : Bool := true
  iget : IgetCall := {}
  dMakeRoot : Bool := true
  zalloc : Bool := true

def State.superGet (s : State) : State := { s with sFsInfo := true, sActive := s.sActive + 1 }

-- `dput(sb->s_root)`, of a root that has its d_op
def dputRoot (d : Dentry) (s : State) : Except Fault State :=
  dentryKill d { s with root := none }

-- drop refs we took earlier
def outSput (p : LowerPath) (s : State) : Except Fault State :=
  ({ s with sActive := s.sActive - 1, sFsInfo := false } : State).pathPut p

-- bkpfs_read_super from d_make_root on
def makeRoot (w : MountCall) (p : LowerPath) (u : ℕ) (s : State) : Except Fault (Int × State) :=
  if w.dMakeRoot = false then do
    -- d_make_root puts the inode itself, and so does out_iput
    let s ← iput u s
    let s ← iput u s
    let s ← outSput p s
    .ok (-ENOMEM,s)
  else
    let (err,root,s) := newDentryPrivateData w.zalloc { dOp := true, inode := some u } s
    if err ≠ 0 then do
      let s ← dputRoot root s
      let s ← iput u s
      let s ← outSput p s
      .ok (err,s)
    else do
      let root ← bkpfsSetLowerPath root p
      .ok (0,{ s with root := some root })

def bkpfsReadSuper (w : MountCall) (s : State) : Except Fault (Int × State) :=
  if w.devName = false then .ok (-EINVAL,s)
  else
    match w.kernPath with
    | .error e => .ok (e,s)
    | .ok (p,lower) =>
      let s := s.pathGet p
      if w.sbInfo = false then do
        let s ← s.pathPut p
        .ok (-ENOMEM,s)
      else do
        let (inode,s) ← bkpfsIget w.iget (some lower) s.superGet
        match inode with
        | .error e => do
          let s ← outSput p s
          .ok (e,s)
        | .ok u => makeRoot w p u s

-- mount_nodev: set_anon_super takes a device number
def bkpfsMount (minors : ℕ) (w : MountCall) (s : State) : Except Fault (Int × State) :=
  if minors ≤ s.devs then .ok (-EMFILE,s)
  else bkpfsReadSuper w { s with devs := s.devs + 1 }

def bkpfsPutSuper (s : State) : State :=
  if s.sFsInfo = false then s else { s with sActive := s.sActive - 1, sFsInfo := false }

def shrinkDcache : List Dentry → State → Except Fault State
  | [], s => .ok s
  | d :: ds, s => do
    let s ← dentryKill d s
    shrinkDcache ds s

-- kill_sb, which is generic_shutdown_super: the device number is not given back
def genericShutdownSuper (s : State) : Except Fault State := do
  let s ← shrinkDcache s.all { s with root := none, dentries := [] }
  .ok (bkpfsPutSuper s)

inductive Action where
  | mount (w : MountCall)
  | umount
  | lookup (parent : Dentry) (w : LookupCall)
  | interpose (d : Dentry) (w : SpliceCall) (f : Found)
  | use (d : Dentry)
  | drop (d : Dentry)
  | fhToDentry (ilookup : Option ℕ) (w : IgetCall) (alloc : Bool)

def Enabled (s : State) : Action → Prop
  | .mount _ => s.root = none
  | .umount => s.root ≠ none
  | .lookup d _ | .use d => s.root ≠ none ∧ d ∈ s.all
  | .interpose d _ f => s.root ≠ none ∧ d ∈ s.dentries ∧ d.inode = none ∧
      (f.isDir = true → s.lowerInodes f.inode = 0)
  | .drop d => s.root ≠ none ∧ d ∈ s.dentries
  | .fhToDentry _ _ _ => s.root ≠ none

instance (s : State) : (a : Action) → Decidable (Enabled s a)
  | .mount _ => inferInstanceAs (Decidable (s.root = none))
  | .umount | .fhToDentry _ _ _ => inferInstanceAs (Decidable (s.root ≠ none))
  | .lookup d _ | .use d => inferInstanceAs (Decidable (s.root ≠ none ∧ d ∈ s.all))
  | .interpose d _ f => inferInstanceAs (Decidable (s.root ≠ none ∧ d ∈ s.dentries ∧
      d.inode = none ∧ (f.isDir = true → s.lowerInodes f.inode = 0)))
  | .drop d => inferInstanceAs (Decidable (s.root ≠ none ∧ d ∈ s.dentries))

-- lookup_slow: the new dentry is put again unless ->lookup returns NULL
def looked (parent : Dentry) (w : LookupCall) (s : State) : Except Fault State := do
  let (ret,d,s) ← bkpfsLookup w parent {} s
  match ret with
  | .ok none => .ok { s with dentries := d :: s.dentries }
  | _ => dentryKill d s

-- the number that bkpfs_interpose returns is not read for an alias, which it cannot name
def interposed (d : Dentry) (w : SpliceCall) (f : Found) (s : State) : Except Fault State := do
  let (_,d',s) ← innerBkpfsInterpose w f d { s with dentries := s.dentries.erase d }
  .ok { s with dentries := d' :: s.dentries }

-- a method that gets the lower path and puts it
def used (d : Dentry) (s : State) : Except Fault State := do
  let (p,s) ← bkpfsGetLowerPath d s
  match p with
  | none => .error .nullPointer
  | some p => bkpfsPutLowerPath (some p) s

def step (minors : ℕ) (s : State) : Action → Except Fault State
  | .mount w => do
    let (_,s) ← bkpfsMount minors w s
    .ok s
  | .umount => genericShutdownSuper s
  | .lookup parent w => looked parent w s
  | .interpose d w f => interposed d w f s
  | .use d => used d s
  | .drop d => dentryKill d { s with dentries := s.dentries.erase d }
  | .fhToDentry ilookup w alloc => bkpfsFhToDentry ilookup w alloc s

def Step (minors : ℕ) (s : State) (a : Action) (t : State) : Prop :=
  Enabled s a ∧ step minors s a = .ok t

end Stack
end BackupFs
