import BackupFs.Library.Refcount
import BackupFs.Lower.State

namespace BackupFs
namespace OpenFile

inductive Fault where
  | nullPointer
  | freed
  | bug
  deriving DecidableEq, Repr

structure VmOps where
  id : ℕ
  fault : Bool
  pageMkwrite : Bool
  deriving DecidableEq, Repr

structure Info where
  lowerFile : Option ℕ := none
  lowerVmOps : Option VmOps := none
  deriving DecidableEq, Repr

structure Heap where
  infos : ℕ → Option Info
  refs : Refcount.Counts ℕ
  next : ℕ

namespace Heap
variable (h : Heap)

def kzalloc : ℕ × Heap :=
  (h.next,{ h with infos := Function.update h.infos h.next (some {}), next := h.next + 1 })

-- the struct file that dentry_open returns, with the reference of its opener
def openLower : ℕ × Heap :=
  (h.next,{ h with refs := Function.update h.refs h.next 1, next := h.next + 1 })

-- BKPFS_F(f), when the memory behind private_data is followed
def info : Option ℕ → Except Fault Info
  | none => .error .nullPointer
  | some p => match h.infos p with
    | none => .error .freed
    | some i => .ok i

def setInfo (p : ℕ) (i : Info) : Heap := { h with infos := Function.update h.infos p (some i) }

def kfree : Option ℕ → Except Fault Heap
  | none => .ok h
  | some p => match h.infos p with
    | none => .error .freed
    | some _ => .ok { h with infos := Function.update h.infos p none }

def getFile (l : ℕ) : Except Fault Heap :=
  if h.refs l = 0 then .error .freed else .ok { h with refs := Refcount.get h.refs l }

def fput (l : ℕ) : Except Fault Heap :=
  match Refcount.put h.refs l with
  | none => .error .freed
  | some refs => .ok { h with refs := refs }

end Heap

def bkpfsLowerFile (privateData : Option ℕ) (h : Heap) : Except Fault (Option ℕ) :=
  match h.info privateData with
  | .error x => .error x
  | .ok i => .ok i.lowerFile

def bkpfsSetLowerFile (privateData : Option ℕ) (val : Option ℕ) (h : Heap) :
    Except Fault Heap :=
  match privateData with
  | none => .error .nullPointer
  | some p => match h.infos p with
    | none => .error .freed
    | some i => .ok (h.setInfo p { i with lowerFile := val })

structure OpenCall where
  unhashed : Bool := false
  kzalloc : Bool := true
  dentryOpen : Option Errno := none

-- the number returned, private_data as it is left, and the heap
def bkpfsOpen (w : OpenCall) (h : Heap) : Except Fault (Int × Option ℕ × Heap) :=
  if w.unhashed then .ok (-ENOENT,none,h)
  else if w.kzalloc = false then .ok (-ENOMEM,none,h)
  else
    let (p,h) := h.kzalloc
    match w.dentryOpen with
    | some e => do
      let h ← match ← bkpfsLowerFile (some p) h with
        | none => .ok h
        | some l => do
          let h ← bkpfsSetLowerFile (some p) none h
          h.fput l
      let h ← h.kfree (some p)
      .ok (e,some p,h)
    | none => do
      let (l,h) := h.openLower
      let h ← bkpfsSetLowerFile (some p) (some l) h
      .ok (0,some p,h)

def bkpfsFileRelease (privateData : Option ℕ) (h : Heap) : Except Fault Heap := do
  match ← bkpfsLowerFile privateData h with
  | none => h.kfree privateData
  | some l =>
    let h ← bkpfsSetLowerFile privateData none h
    let h ← h.fput l
    h.kfree privateData

inductive Entered where
  | returned (err : Int)
  | inside (l : ℕ)
  deriving DecidableEq, Repr

-- what the passing methods share: `op` says whether the lower file has the method, `missing`
-- is the number returned without it, `pins` are get_file and fput around the call
def enter (pins op : Bool) (missing : Int) (privateData : Option ℕ) (h : Heap) :
    Except Fault (Entered × Heap) := do
  match ← bkpfsLowerFile privateData h with
  | none => .error .nullPointer
  | some l =>
    if op = false then .ok (.returned missing,h)
    else if pins then do
      let h ← h.getFile l
      .ok (.inside l,h)
    else .ok (.inside l,h)

def leave (pins : Bool) (l : ℕ) (h : Heap) : Except Fault Heap :=
  if h.refs l = 0 then .error .freed
  else if pins then h.fput l
  else .ok h

def bkpfsRead := enter false true 0
def bkpfsReadIter (op : Bool) := enter true op (-EINVAL)
def bkpfsWriteIter (op : Bool) := enter true op (-EINVAL)
def bkpfsFasync (op : Bool) := enter false op 0

-- __generic_file_fsync, or generic_file_llseek on the upper file, goes first and may fail
def upperFirst (generic : Option Errno) (privateData : Option ℕ) (h : Heap) :
    Except Fault (Entered × Heap) :=
  match generic with
  | some e => .ok (.returned e,h)
  | none => enter false true 0 privateData h

def bkpfsFsync (generic : Option Errno) := upperFirst generic
def bkpfsFileLlseek (generic : Option Errno) := upperFirst generic

def guarded (op : Bool) (missing : Int) (privateData : Option ℕ) (h : Heap) :
    Except Fault (Entered × Heap) := do
  match ← bkpfsLowerFile privateData h with
  | none => .ok (.returned missing,h)
  | some l => .ok (if op then .inside l else .returned missing,h)

def bkpfsFlush (op : Bool) := guarded op 0
def bkpfsCompatIoctl (op : Bool) := guarded op (-ENOTTY)

inductive Method where
  | read
  | readIter (op : Bool)
  | writeIter (op : Bool)
  | fsync (generic : Option Errno)
  | fasync (op : Bool)
  | llseek (generic : Option Errno)
  | flush (op : Bool)
  | compatIoctl (op : Bool)
  deriving DecidableEq, Repr

def Method.pins : Method → Bool
  | .readIter _ | .writeIter _ => true
  | _ => false

def Method.call : Method → Option ℕ → Heap → Except Fault (Entered × Heap)
  | .read => bkpfsRead
  | .readIter op => bkpfsReadIter op
  | .writeIter op => bkpfsWriteIter op
  | .fsync generic => bkpfsFsync generic
  | .fasync op => bkpfsFasync op
  | .llseek generic => bkpfsFileLlseek generic
  | .flush op => bkpfsFlush op
  | .compatIoctl op => bkpfsCompatIoctl op

def VM_WRITE : ℕ := 2
def VM_SHARED : ℕ := 8

def willwrite (vmFlags : ℕ) : Bool := (vmFlags ||| VM_SHARED ||| VM_WRITE) == vmFlags

inductive FilePtr where
  | upper (f : ℕ)
  | lower (l : ℕ)
  deriving DecidableEq, Repr

inductive Ops where
  | bkpfs
  | lower (ops : VmOps)
  deriving DecidableEq, Repr

structure Vma where
  vmFlags : ℕ
  vmFile : FilePtr
  vmOps : Option Ops := none
  deriving DecidableEq, Repr

structure MmapCall where
  writepage : Bool := true
  mmap : Option (Int × Option VmOps) := some (0,none)

-- from the test of lower_vm_ops on: the lower mmap is called until it has given some vm_ops
def mapLower (w : MmapCall) (p : ℕ) (i : Info) (vma : Vma) (h : Heap) :
    Except Fault (Int × Vma × Heap) :=
  match i.lowerVmOps,i.lowerFile,w.mmap with
  | some _,_,_ => .ok (0,{ vma with vmOps := some .bkpfs },h)
  | none,none,_ | none,some _,none => .error .nullPointer
  | none,some _,some (err,ops) =>
    if err ≠ 0 then .ok (err,{ vma with vmOps := ops.map .lower },h)
    else .ok (0,{ vma with vmOps := some .bkpfs },h.setInfo p { i with lowerVmOps := ops })

def bkpfsMmap (w : MmapCall) (privateData : Option ℕ) (vma : Vma) (h : Heap) :
    Except Fault (Int × Vma × Heap) :=
  match privateData with
  | none => .error .nullPointer
  | some p => match h.infos p with
    | none => .error .freed
    | some i =>
      if willwrite vma.vmFlags && i.lowerFile.isNone then .error .nullPointer
      else if willwrite vma.vmFlags && !w.writepage then .ok (-EINVAL,vma,h)
      else mapLower w p i vma h

structure LowerFault where
  ops : VmOps
  vma : Vma
  deriving DecidableEq, Repr

def bkpfsFault (privateData : Option ℕ) (vma : Vma) (h : Heap) : Except Fault LowerFault := do
  let i ← h.info privateData
  match i.lowerVmOps,i.lowerFile with
  | none,_ => .error .bug
  | some _,none => .error .nullPointer
  | some ops,some l =>
    if ops.fault = false then .error .nullPointer
    else if h.refs l = 0 then .error .freed
    else .ok ⟨ops,{ vma with vmFile := .lower l }⟩

-- without a page_mkwrite below nothing is called
def bkpfsPageMkwrite (privateData : Option ℕ) (vma : Vma) (h : Heap) :
    Except Fault (Option LowerFault) := do
  let i ← h.info privateData
  match i.lowerVmOps,i.lowerFile with
  | none,_ => .error .bug
  | some _,none => .error .nullPointer
  | some ops,some l =>
    if ops.pageMkwrite = false then .ok none
    else if h.refs l = 0 then .error .freed
    else .ok (some ⟨ops,{ vma with vmFile := .lower l }⟩)

end OpenFile
end BackupFs
