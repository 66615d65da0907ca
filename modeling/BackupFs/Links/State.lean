import BackupFs.Tree.Lower

namespace BackupFs

namespace Links

def PAGE_SIZE : ℕ := 4096
def MAXSYMLINKS : ℕ := 40

inductive Fault where
  | badFree
  | overflow
  deriving DecidableEq, Repr

inductive Ptr where
  | page (p : ℕ)
  | err (e : Int)
  deriving DecidableEq

-- a symbolic link below, with or without a readlink in its i_op
structure Symlink where
  readlink : Bool
  fails : Option Errno
  text : Bytes

structure Pages where
  live : ℕ → Option Bytes
  next : ℕ

def Pages.kmalloc (h : Pages) : ℕ × Pages :=
  (h.next,⟨Function.update h.live h.next (some []),h.next + 1⟩)

def Pages.set (h : Pages) (p : ℕ) (x : Option Bytes) : Pages :=
  { h with live := Function.update h.live p x }

@[simp] theorem Pages.set_live (h : Pages) (p : ℕ) (x : Option Bytes) :
    (h.set p x).live = Function.update h.live p x := rfl

def kfreeLink (h : Pages) : Ptr → Except Fault Pages
  | .err _ => .error .badFree
  | .page p =>
    match h.live p with
    | none => .error .badFree
    | some _ => .ok (h.set p none)

-- the method below copies what fits and returns how much that is
def bkpfsReadlink (l : Symlink) (bufsiz : ℕ) : Int × Bytes :=
  if l.readlink = false then (-EINVAL,[])
  else
    match l.fails with
    | some e => (e,[])
    | none => ((l.text.take bufsiz).length,l.text.take bufsiz)

-- the pointer returned, the argument of the delayed call if it is set, and the pages
def bkpfsGetLink (dentry : Option Symlink) (kmalloc : Bool) (h : Pages) :
    Except Fault (Ptr × Option Ptr × Pages) :=
  match dentry with
  | none => .ok (.err (-ECHILD),none,h)
  | some l =>
    if kmalloc = false then .ok (.err (-ENOMEM),none,h)
    else
      let (buf,h) := h.kmalloc
      let (err,text) := bkpfsReadlink l PAGE_SIZE
      if err < 0 then .ok (.err err,some (.err err),h.set buf none)
      else if err ≥ PAGE_SIZE then .error .overflow
      else .ok (.page buf,some (.page buf),h.set buf (some text))

structure Follow where
  link : Symlink
  security : Option Errno
  rcu : Bool
  unlazy : Bool
  kmalloc : Bool

inductive Step where
  | follow (f : Follow)
  | putLink

-- nd->stack with its delayed calls, total_link_count, and the texts that the walk was given
structure Walk where
  pages : Pages
  stack : List (Option Ptr)
  count : ℕ
  names : List Bytes

def doDelayedCall (h : Pages) : Option Ptr → Except Fault Pages
  | none => .ok h
  | some p => kfreeLink h p

def terminateWalk : List (Option Ptr) → Pages → Except Fault Pages
  | [],h => .ok h
  | d :: ds,h => doDelayedCall h d >>= terminateWalk ds

namespace Walk

def took (w : Walk) : Except Fault (Ptr × Option Ptr × Pages) →
    Except Fault (Option Int × Walk)
  | .error x => .error x
  | .ok (.err e,d,h) => .ok (some e,{ w with pages := h, stack := d :: w.stack })
  | .ok (.page p,d,h) =>
    .ok (none,
      { w with pages := h, stack := d :: w.stack, names := w.names ++ [(h.live p).getD []] })

-- pick_link and get_link; in RCU mode bkpfs_get_link is first called without a dentry, and
-- the walk leaves that mode for a second call
def follow (w : Walk) (f : Follow) : Except Fault (Option Int × Walk) :=
  if w.count ≥ MAXSYMLINKS then .ok (some (-Tree.ELOOP),w)
  else
    let w := { w with count := w.count + 1 }
    match f.security with
    | some e => .ok (some e.1,{ w with stack := none :: w.stack })
    | none =>
      if f.rcu = true ∧ f.unlazy = false then w.took (bkpfsGetLink none f.kmalloc w.pages)
      else w.took (bkpfsGetLink (some f.link) f.kmalloc w.pages)

end Walk

-- an error ends the walk, and so does its last component
def pathWalk : List Step → Walk → Except Fault (Int × List Bytes × Pages)
  | [],w => (terminateWalk w.stack w.pages).map fun h => (0,w.names,h)
  | .putLink :: ss,w =>
    match w.stack with
    | [] => pathWalk ss w
    | d :: ds => doDelayedCall w.pages d >>= fun h =>
        pathWalk ss { w with stack := ds, pages := h }
  | .follow f :: ss,w => w.follow f >>= fun (e,w) =>
    match e with
    | some e => (terminateWalk w.stack w.pages).map fun h => (e,w.names,h)
    | none => pathWalk ss w

namespace Follow

def Asked (f : Follow) : Prop :=
  f.security = none ∧ (f.rcu = true → f.unlazy = true) ∧ f.kmalloc = true

instance (f : Follow) : Decidable f.Asked := inferInstanceAs (Decidable (_ ∧ _ ∧ _))

def fault (f : Follow) : Option Fault :=
  if f.link.readlink = false ∨ f.link.fails ≠ none then some .badFree
  else if f.link.text.length ≥ PAGE_SIZE then some .overflow
  else none

def Good (f : Follow) : Prop := f.Asked ∧ f.fault = none

instance (f : Follow) : Decidable f.Good := inferInstanceAs (Decidable (_ ∧ _))

end Follow

def follows (ss : List Step) : List Follow :=
  ss.filterMap fun s => match s with
    | .follow f => some f
    | .putLink => none

def linksRead (n : ℕ) (ss : List Step) : List Follow :=
  ((follows ss).takeWhile fun f => decide f.Good).take n

def Meets (x : Fault) (n : ℕ) (ss : List Step) : Prop :=
  ∃ pre f post, follows ss = pre ++ f :: post ∧ (∀ g ∈ pre, g.Good) ∧ pre.length < n ∧
    f.Asked ∧ f.fault = some x

end Links

end BackupFs
