import BackupFs.Library.Transition
import BackupFs.Tree.Lower

namespace BackupFs
namespace Tree

structure Mount where
  below : Below
  upper : Dcache
  lower : ℕ → ℕ

namespace Mount
variable (s : Mount)

def dir (c : ℕ) : Bool := s.below.isDir (s.upper.inode c)

def onBelow (b : Below) : Mount := { s with below := b }

def attach (u : ℕ) (n : Name) (l : ℕ) : Mount :=
  { s with
    upper := s.upper.add u n (s.below.dcache.inode l)
    lower := Function.update s.lower s.upper.next l }

-- a dentry of the directory inode `i`; one that is unhashed was removed or freed
def aliasOf (i : ℕ) : Option ℕ :=
  s.upper.chain.find? fun a => s.upper.inode a == i

end Mount

structure World where
  lookup : Option Errno := none
  interpose : Option Errno := none
  unalias : Option Errno := none
  op : Option Errno := none
  nfsRenamed : Bool := false
  deriving DecidableEq

-- d_splice_alias in bkpfs_lookup, over the lower dentry `l` that was found; `locked` is a
-- rename across directories, which keeps the mutex that __d_unalias would need
def splice (w : World) (locked : Bool) (u : ℕ) (n : Name) (l : ℕ) (s : Mount) :
    Except Int ℕ × Mount :=
  match if s.below.dir l then s.aliasOf (s.below.dcache.inode l) else none with
  | none => (.ok s.upper.next,s.attach u n l)
  | some a =>
    if a = u ∨ (s.upper.dAncestor a u).isSome then (.error (-ELOOP),s)
    else if locked ∧ s.upper.parent a ≠ u then (.error (-ESTALE),s)
    else
      match w.unalias with
      | some e => (.error e,s)
      | none => (.ok a,{ s with upper := s.upper.place a u n })

-- a cached dentry, or bkpfs_lookup; `.ok none` is a negative dentry
def lookup (w : World) (locked : Bool) (u : ℕ) (n : Name) (s : Mount) :
    Except Int (Option ℕ) × Mount :=
  match s.upper.child u n with
  | some c => (.ok (some c),s)
  | none =>
    match w.lookup with
    | some e => (.error e,s)
    | none =>
      match s.below.dcache.child (s.lower u) n with
      | none => (.ok none,s)
      | some l =>
        match w.interpose with
        | some e => (.error e,s)
        | none =>
          match splice w locked u n l s with
          | (.error e,s) => (.error e,s)
          | (.ok c,s) => (.ok (some c),s)

-- bkpfs_interpose on the negative dentry, when the lower one has become positive
def interpose (w : World) (u : ℕ) (n : Name) (l : ℕ) (s : Mount) : Int × Mount :=
  match w.interpose with
  | some e => (e,s)
  | none => (0,s.attach u n l)

def make (isdir : Bool) (w : World) (u : ℕ) (n : Name) (s : Mount) : Int × Mount :=
  let (err,b) := vfsMake isdir w.op (s.lower u) n s.below
  if err ≠ 0 then (err,s.onBelow b)
  else interpose w u n s.below.dcache.next (s.onBelow b)

def bkpfsCreate := make false
def bkpfsSymlink := make false
def bkpfsMknod := make false
def bkpfsMkdir := make true

inductive Made where
  | create
  | symlink
  | mknod
  | mkdir
  deriving DecidableEq

namespace Made

def isDir : Made → Bool
  | create | symlink | mknod => false
  | mkdir => true

def method : Made → World → ℕ → Name → Mount → Int × Mount
  | create => bkpfsCreate
  | symlink => bkpfsSymlink
  | mknod => bkpfsMknod
  | mkdir => bkpfsMkdir

theorem method_eq (k : Made) : k.method = make k.isDir := by
  cases k <;> rfl

end Made

def bkpfsLink (w : World) (c u : ℕ) (n : Name) (s : Mount) : Int × Mount :=
  let (err,b) := vfsLink w.op (s.lower c) (s.lower u) n s.below
  if err ≠ 0 then (err,s.onBelow b)
  else interpose w u n s.below.dcache.next (s.onBelow b)

-- vfs_unlink is given the lower inode of `dir`, whatever the parent of the lower dentry is
def bkpfsUnlink (w : World) (u c : ℕ) (s : Mount) : Option (Int × Mount) :=
  match vfsUnlink w.op w.nfsRenamed (s.upper.inode u) (s.lower c) s.below with
  | none => none
  | some (e,b) =>
    let err := if e = -EBUSY ∧ w.nfsRenamed then 0 else e
    if err ≠ 0 then some (err,s.onBelow b)
    else some (0,{ s.onBelow b with upper := s.upper.drop c })

def bkpfsRmdir (w : World) (c : ℕ) (s : Mount) : Option (Int × Mount) :=
  let l := s.lower c
  match vfsRmdir w.op (s.below.dcache.inode (s.below.dcache.parent l)) l s.below with
  | none => none
  | some (err,b) =>
    if err ≠ 0 then some (err,s.onBelow b)
    else some (0,{ s.onBelow b with upper := s.upper.drop c })

-- the lower target and its directory, as dget_parent finds it; a negative one is in `lower u2`
def newBelow (s : Mount) (u2 : ℕ) (n2 : Name) (new : Option ℕ) : ℕ × Name :=
  match new with
  | none => (s.lower u2,n2)
  | some c2 => (s.below.dcache.parent (s.lower c2),s.below.dcache.name (s.lower c2))

def bkpfsRename (w : World) (flags c1 u2 : ℕ) (n2 : Name) (new : Option ℕ) (s : Mount) :
    Option (Int × Mount) :=
  if flags ≠ 0 then some (-EINVAL,s)
  else
    let (d,n) := newBelow s u2 n2 new
    match lockedRename w.op (s.lower c1) d n (new.map s.lower) s.below with
    | none => none
    | some (err,b) => some (err,s.onBelow b)

inductive BelowOp where
  | make (isdir : Bool) (d : ℕ) (n : Name) (fails : Option Errno)
  | link (l d : ℕ) (n : Name) (fails : Option Errno)
  | unlink (d : ℕ) (n : Name) (fails : Option Errno) (nfsRenamed : Bool)
  | rmdir (d : ℕ) (n : Name) (fails : Option Errno)
  | rename (d1 : ℕ) (n1 : Name) (d2 : ℕ) (n2 : Name) (fails : Option Errno)

def belowStep (b : Below) : BelowOp → Option Below
  | .make isdir d n fails => some (vfsMake isdir fails d n b).2
  | .link l d n fails => some (vfsLink fails l d n b).2
  | .unlink d n fails nfsRenamed =>
    match b.dcache.child d n with
    | none => some b
    | some l => (vfsUnlink fails nfsRenamed (b.dcache.inode d) l b).map Prod.snd
  | .rmdir d n fails =>
    match b.dcache.child d n with
    | none => some b
    | some l => (vfsRmdir fails (b.dcache.inode d) l b).map Prod.snd
  | .rename d1 n1 d2 n2 fails =>
    match b.dcache.child d1 n1 with
    | none => some b
    | some old => (lockedRename fails old d2 n2 (b.dcache.child d2 n2) b).map Prod.snd

inductive Action where
  | lookup (u : ℕ) (n : Name) (w : World)
  | make (k : Made) (u : ℕ) (n : Name) (w : World)
  | link (c u : ℕ) (n : Name) (w : World)
  | unlink (u : ℕ) (n : Name) (w : World)
  | rmdir (u : ℕ) (n : Name) (w : World)
  | rename (flags u1 : ℕ) (n1 : Name) (u2 : ℕ) (n2 : Name) (w1 w2 : World)
  | prune (c : ℕ)
  | below (op : BelowOp)

def made (k : Made) (w : World) (u : ℕ) (n : Name) (s : Mount) : Mount :=
  match lookup w false u n s with
  | (.ok none,s) => (k.method w u n s).2
  | (_,s) => s

def linked (c : ℕ) (w : World) (u : ℕ) (n : Name) (s : Mount) : Mount :=
  match lookup w false u n s with
  | (.ok none,s) => if s.dir c then s else (bkpfsLink w c u n s).2
  | (_,s) => s

def unlinked (w : World) (u : ℕ) (n : Name) (s : Mount) : Option Mount :=
  match lookup w false u n s with
  | (.ok (some c),s) => if s.dir c then some s else (bkpfsUnlink w u c s).map Prod.snd
  | (_,s) => some s

def removed (w : World) (u : ℕ) (n : Name) (s : Mount) : Option Mount :=
  match lookup w false u n s with
  | (.ok (some c),s) => if s.dir c then (bkpfsRmdir w c s).map Prod.snd else some s
  | (_,s) => some s

-- do_renameat2 and vfs_rename in the mount, around ->rename
def renameAt (w : World) (flags u1 c1 u2 : ℕ) (n2 : Name) (new : Option ℕ) (s : Mount) :
    Option Mount :=
  let trap := s.upper.lockRename u1 u2
  if trap = some c1 then some s
  else if trap ≠ none ∧ trap = new then some s
  else if new.map s.upper.inode = some (s.upper.inode c1) then some s
  else if new.map s.dir = some (!s.dir c1) then some s
  else
    match bkpfsRename w flags c1 u2 n2 new s with
    | none => none
    | some (err,s) =>
      if err ≠ 0 then some s
      else if s.upper.dMoveBug c1 u2 new then none
      else some { s with upper := s.upper.dMove c1 u2 n2 new }

def renamed (flags u1 : ℕ) (n1 : Name) (u2 : ℕ) (n2 : Name) (w1 w2 : World) (s : Mount) :
    Option Mount :=
  let locked : Bool := u1 != u2
  match lookup w1 locked u1 n1 s with
  | (.ok (some c1),s) =>
    match lookup w2 locked u2 n2 s with
    | (.ok new,s) => renameAt w2 flags u1 c1 u2 n2 new s
    | (.error _,s) => some s
  | (_,s) => some s

-- `none` is a BUG_ON, of may_delete below or of d_move
def step (s : Mount) : Action → Option Mount
  | .lookup u n w => some (lookup w false u n s).2
  | .make k u n w => some (made k w u n s)
  | .link c u n w => some (linked c w u n s)
  | .unlink u n w => unlinked w u n s
  | .rmdir u n w => removed w u n s
  | .rename flags u1 n1 u2 n2 w1 w2 => renamed flags u1 n1 u2 n2 w1 w2 s
  | .prune c => some { s with upper := s.upper.drop c }
  | .below op => (belowStep s.below op).map s.onBelow

def Mount.Walked (s : Mount) (u : ℕ) : Prop :=
  u < s.upper.next ∧ s.upper.hashed u = true ∧ s.dir u = true

def Below.Walked (b : Below) (d : ℕ) : Prop := d < b.dcache.next ∧ b.dir d = true

def Below.Enabled (b : Below) : BelowOp → Prop
  | .make _ d _ _ | .unlink d _ _ _ | .rmdir d _ _ => b.Walked d
  | .link l d _ _ => b.Walked d ∧ l < b.dcache.next
  | .rename d1 _ d2 _ _ => b.Walked d1 ∧ b.Walked d2

-- an operation works in directories that a walk has reached; only a leaf is pruned
def Enabled (s : Mount) : Action → Prop
  | .lookup u _ _ | .make _ u _ _ | .unlink u _ _ | .rmdir u _ _ => s.Walked u
  | .link c u _ _ => s.Walked u ∧ c < s.upper.next ∧ s.upper.hashed c = true ∧ s.dir c = false
  | .rename _ u1 _ u2 _ _ _ => s.Walked u1 ∧ s.Walked u2
  | .prune c => c ≠ 0 ∧ c < s.upper.next ∧ s.upper.hasChild c = false
  | .below op => s.below.Enabled op

def Step (s : Mount) (a : Action) (t : Mount) : Prop := Enabled s a ∧ step s a = some t

end Tree
end BackupFs
