import BackupFs.Library.Transition
import BackupFs.OpenFile.State

namespace BackupFs
namespace OpenFile

structure Call where
  file : ℕ
  lower : ℕ
  pins : Bool
  deriving DecidableEq, Repr

def Vma.upper (v : Vma) : ℕ :=
  match v.vmFile with
  | .upper f => f
  | .lower _ => 0

-- the struct files of the mount with their private_data, and who counts in f_count: the
-- descriptors, the calls that are running and the mappings
structure Vfs where
  heap : Heap
  files : ℕ → Option (Option ℕ)
  counts : Refcount.Counts ℕ
  fds : List ℕ
  calls : List Call
  maps : List Vma
  next : ℕ

namespace Vfs
variable (s : Vfs)

def init : Vfs where
  heap := ⟨fun _ => none,fun _ => 0,0⟩
  files := fun _ => none
  counts := fun _ => 0
  fds := []
  calls := []
  maps := []
  next := 0

def privateData (f : ℕ) : Option ℕ := (s.files f).join

-- the last reference calls ->release
def fput (f : ℕ) : Except Fault Vfs :=
  match Refcount.put s.counts f with
  | none => .error .freed
  | some counts =>
    if counts f = 0 then do
      let h ← bkpfsFileRelease (s.privateData f) s.heap
      .ok { s with heap := h, counts := counts, files := Function.update s.files f none }
    else .ok { s with counts := counts }

end Vfs

inductive Action where
  | openFile (w : OpenCall)
  | dup (f : ℕ)
  | close (f : ℕ) (flush : Bool)
  | start (f : ℕ) (m : Method)
  | finish (c : Call)
  | mmap (f vmFlags : ℕ) (w : MmapCall)
  | copyMap (v : Vma)
  | munmap (v : Vma)
  | pageFault (v : Vma)
  | mkwrite (v : Vma)

-- what the kernel may do next: only a failed open goes without ->release, and nothing is done
-- to a file without a reference to it
def Enabled (s : Vfs) : Action → Prop
  | .openFile _ => True
  | .dup f | .close f _ | .start f _ | .mmap f _ _ => f ∈ s.fds
  | .finish c => c ∈ s.calls
  | .copyMap v | .munmap v | .pageFault v | .mkwrite v => v ∈ s.maps

instance (s : Vfs) : (a : Action) → Decidable (Enabled s a)
  | .openFile _ => isTrue trivial
  | .dup f | .close f _ | .start f _ | .mmap f _ _ => inferInstanceAs (Decidable (f ∈ s.fds))
  | .finish c => inferInstanceAs (Decidable (c ∈ s.calls))
  | .copyMap v | .munmap v | .pageFault v | .mkwrite v => inferInstanceAs (Decidable (v ∈ s.maps))

def opened (w : OpenCall) (s : Vfs) : Except Fault Vfs := do
  let (err,pd,h) ← bkpfsOpen w s.heap
  if err ≠ 0 then .ok { s with heap := h, next := s.next + 1 }
  else .ok { s with
    heap := h
    files := Function.update s.files s.next (some pd)
    counts := Refcount.get s.counts s.next
    fds := s.next :: s.fds
    next := s.next + 1 }

-- filp_close
def closed (f : ℕ) (op : Bool) (s : Vfs) : Except Fault Vfs := do
  let (e,h) ← bkpfsFlush op (s.privateData f) s.heap
  let h ← match e with
    | .returned _ => .ok h
    | .inside l => leave false l h
  ({ s with heap := h, fds := s.fds.erase f } : Vfs).fput f

def started (f : ℕ) (m : Method) (s : Vfs) : Except Fault Vfs := do
  let (e,h) ← m.call (s.privateData f) s.heap
  match e with
  | .returned _ => .ok { s with heap := h }
  | .inside l => .ok { s with
      heap := h
      counts := Refcount.get s.counts f
      calls := ⟨f,l,m.pins⟩ :: s.calls }

def finished (c : Call) (s : Vfs) : Except Fault Vfs := do
  let h ← leave c.pins c.lower s.heap
  ({ s with heap := h, calls := s.calls.erase c } : Vfs).fput c.file

def mapped (f vmFlags : ℕ) (w : MmapCall) (s : Vfs) : Except Fault Vfs := do
  let (err,vma,h) ← bkpfsMmap w (s.privateData f) ⟨vmFlags,.upper f,none⟩ s.heap
  if err ≠ 0 then .ok { s with heap := h }
  else .ok { s with heap := h, counts := Refcount.get s.counts f, maps := vma :: s.maps }

def step (s : Vfs) : Action → Except Fault Vfs
  | .openFile w => opened w s
  | .dup f => .ok { s with counts := Refcount.get s.counts f, fds := f :: s.fds }
  | .close f op => closed f op s
  | .start f m => started f m s
  | .finish c => finished c s
  | .mmap f vmFlags w => mapped f vmFlags w s
  | .copyMap v => .ok { s with counts := Refcount.get s.counts v.upper, maps := v :: s.maps }
  | .munmap v => ({ s with maps := s.maps.erase v } : Vfs).fput v.upper
  | .pageFault v => do
    let _ ← bkpfsFault (s.privateData v.upper) v s.heap
    .ok s
  | .mkwrite v => do
    let _ ← bkpfsPageMkwrite (s.privateData v.upper) v s.heap
    .ok s

def Step (s : Vfs) (a : Action) (t : Vfs) : Prop := Enabled s a ∧ step s a = .ok t

def Vfs.Owns (s : Vfs) (f : ℕ) (p l : ℕ) : Prop :=
  s.files f = some (some p) ∧ ∃ ops, s.heap.infos p = some ⟨some l,ops⟩

def pinned (cs : List Call) (l : ℕ) : ℕ := cs.countP fun c => c.pins && c.lower == l

def Vfs.holders (s : Vfs) : Multiset ℕ := s.fds + s.calls.map Call.file + s.maps.map Vma.upper

structure SoundWith (extra : Multiset ℕ) (s : Vfs) : Prop where
  counts : Refcount.Held s.counts (extra + s.holders)
  live : ∀ f, 0 < s.counts f → ∃ p l, s.Owns f p l
  dead : ∀ f, s.counts f = 0 → s.files f = none
  info : ∀ f g p l m, s.Owns f p l → s.Owns g p m → f = g
  lower : ∀ f g p q l, s.Owns f p l → s.Owns g q l → f = g
  infos : ∀ p, s.heap.infos p ≠ none → ∃ f l, s.Owns f p l
  refs : ∀ f p l, s.Owns f p l → s.heap.refs l = 1 + pinned s.calls l
  unowned : ∀ l, s.heap.refs l ≠ 0 → ∃ f p, s.Owns f p l
  calls : ∀ c ∈ s.calls, ∃ p, s.Owns c.file p c.lower
  maps : ∀ v ∈ s.maps, v.vmFile = .upper v.upper ∧ v.vmOps = some .bkpfs
  fresh : ∀ p, s.heap.next ≤ p → s.heap.infos p = none ∧ s.heap.refs p = 0
  files : ∀ f, s.next ≤ f → s.counts f = 0

abbrev Sound := SoundWith 0

end OpenFile
end BackupFs
