import BackupFs.Cache.Creating
import BackupFs.Client.Command
import BackupFs.Mount.Lookup

namespace BackupFs

namespace Versions

inductive Slot where
  | own
  | version (v : Int)
  | restored
  deriving DecidableEq

def Slot.name (n : Name) : Slot → Name
  | .own => n
  | .version v => backupName v n
  | .restored => restoredName n

def Slot.Within (n : ℕ) : Slot → Prop
  | .version v => 1 ≤ v ∧ v ≤ n
  | _ => False

instance (n : ℕ) (k : Slot) : Decidable (k.Within n) :=
  match k with
  | .own => inferInstanceAs (Decidable False)
  | .version v => inferInstanceAs (Decidable (1 ≤ v ∧ v ≤ n))
  | .restored => inferInstanceAs (Decidable False)

def upTo (n : ℕ) (p : Int → Bool) : Bool := (List.range n).any fun i => p (i + 1 : ℕ)

theorem upTo_iff {n : ℕ} {p : Int → Bool} : upTo n p = true ↔
    ∃ v : Int, 1 ≤ v ∧ v ≤ n ∧ p v = true := by
  rw [upTo,List.any_eq_true]
  constructor
  · rintro ⟨i,hi,hp⟩
    have hlt := List.mem_range.mp hi
    exact ⟨(i + 1 : ℕ),by omega,by omega,hp⟩
  · rintro ⟨v,h1,h2,hp⟩
    have hv : (((v - 1).toNat + 1 : ℕ) : Int) = v := by omega
    exact ⟨(v - 1).toNat,List.mem_range.mpr (by omega),by rwa [hv]⟩

theorem upTo_congr {n : ℕ} {p q : Int → Bool} (h : ∀ v : Int, 1 ≤ v → v ≤ n → p v = q v) :
    upTo n p = upTo n q := by
  rw [Bool.eq_iff_iff,upTo_iff,upTo_iff]
  exact exists_congr fun v => and_congr_right fun h1 => and_congr_right fun h2 => by rw [h v h1 h2]

theorem upTo_succ (n : ℕ) (p : Int → Bool) : upTo (n+1) p = (p (n + 1 : ℕ) || upTo n p) := by
  rw [upTo,List.range_succ,List.any_append,Bool.or_comm]
  simp [upTo]

inductive Node where
  | base
  | copy (c : Bytes)
  deriving DecidableEq

structure Store where
  revision : Option Int
  youngest : Option Int
  current : Bytes
  entry : Slot → Option Node
  held : Bool

namespace Store

variable (J : Junk) (b : Store)

def read : Node → Bytes
  | .base => b.current
  | .copy c => c

def number : Int := b.revision.getD J.val

def stamp (v : Int) : Store := { b with revision := some v, youngest := some v }

def restart : Store := { b with revision := some (-1) }

def fill (c : Bytes) : Store := { b with current := c }

def link (k : Slot) (n : Option Node) : Store := { b with entry := Function.update b.entry k n }

def hold (h : Bool) : Store := { b with held := h }

def clear (n : ℕ) : Store := { b with entry := fun k => if k.Within n then none else b.entry k }

def anyOf (n : ℕ) : Bool := upTo n fun v => (b.entry (.version v)).isSome

def opened : Bool × Store :=
  if b.held then (true,b)
  else if (b.entry .own).isSome then (true,b.hold true)
  else (false,b)

def pruned (val : Int) : Store := if val > N then b.link (.version (val - N)) none else b

def backup (L : Lower) (pos : ℕ) (buf : Bytes) (val : Int) : Outcome × Store :=
  match b.entry (.version val) with
  | some _ => (.returned (-EEXIST),b)
  | none =>
    (.returned (taken L buf).length,
      (b.link (.version val) (some (.copy b.current))).fill (pwrite b.current pos (taken L buf)))

def write (L : Lower) (pos : ℕ) (buf : Bytes) : Outcome × Store :=
  let val := nextVersion (b.number J)
  ((b.stamp val).pruned val).backup L pos buf val

def delete (v : Int) : Int × Store :=
  match b.entry (.version v) with
  | none => (-ENOTTY,b)
  | some _ =>
    let b := b.link (.version v) none
    (0,if v = b.youngest.getD J.val then b.stamp (wrapInt (v - 1)) else b)

def deleteAll : Int × Store :=
  let n := (b.number J).toNat
  (if b.anyOf n then 0 else -ENOTTY,(b.clear n).restart)

def refill (v : Int) : Int × Store :=
  match b.entry .restored,b.entry (.version v) with
  | some _,_ => (-EEXIST,b)
  | none,none => (-ENOENT,b.link .restored (some (.copy [])))
  | none,some n => (0,(b.link .restored (some (.copy (b.read n)))).clear (b.number J).toNat)

def restore (v : Int) : Int × Store := (b.link .own none).refill J v

def view (v : Int) : Int × Option Query :=
  match b.entry (.version v) with
  | none => (-ENOENT,none)
  | some n => (0,some (viewReply J (b.read n)))

def list : Query := { J.q2 with
  youngest := b.number J
  oldest := if b.number J ≤ N then 1 else wrapInt (J.val1 - N) }

def ioctl (L : Lower) (cmd : ℕ) (q : Request) : Outcome × Store × Option Query :=
  match cmd with
  | 1000 =>
    let r := if q.version ≠ 0 then b.delete J q.version else b.deleteAll J
    (.returned r.1,r.2,none)
  | 1001 => (.returned (b.restore J q.version).1,(b.restore J q.version).2,none)
  | 1002 => (.returned (b.view J q.version).1,b,(b.view J q.version).2)
  | 1003 => (.returned 0,b,some (b.list J))
  | _ => (.returned (L.unlockedIoctl.getD (-ENOTTY)),b,none)

variable {b} {k l : Slot}

theorem link_update (b : Store) (k : Slot) (n : Option Node) :
    (b.link k n).entry = Function.update b.entry k n := rfl

@[simp] theorem link_self_entry (n : Option Node) : (b.link k n).entry k = n := by
  rw [link_update,Function.update_self]

theorem link_entry (h : l ≠ k) (n : Option Node) : (b.link k n).entry l = b.entry l := by
  rw [link_update,Function.update_of_ne h]

theorem clear_entry {n : ℕ} (h : ¬ k.Within n) : (b.clear n).entry k = b.entry k := if_neg h

theorem link_none (h : b.entry k = none) : b.link k none = b := by
  rw [link,← h,Function.update_eq_self]

end Store

structure Shelf extends Store where
  hashed : Slot → Bool

namespace Shelf

variable (J : Junk) (a : Shelf)

def hash (k : Slot) (h : Bool) : Shelf := { a with hashed := Function.update a.hashed k h }

def on (b : Store) : Shelf := { a with toStore := b }

def link (k : Slot) (n : Option Node) : Shelf := (a.on (a.toStore.link k n)).hash k n.isSome

def discard (k : Slot) : Option Int × Shelf :=
  if a.hashed k then
    match a.entry k with
    | none => (some (-ENOENT),a)
    | some _ => (some 0,a.link k none)
  else (none,a)

def sweep : ℕ → Int → Shelf → Except Int Int × Shelf
  | 0, err, a => (.ok err,a)
  | i + 1, err, a =>
    match a.discard (.version (i + 1 : ℕ)) with
    | (none,a) => sweep i err a
    | (some e,a) => if e ≠ 0 then (.error e,a) else sweep i e a

def opened : Bool × Shelf :=
  if a.held then (true,a)
  else if (a.entry .own).isSome then (true,(a.on (a.hold true)).hash .own true)
  else (false,a.hash .own true)

def pruned (val : Int) : Int × Shelf :=
  if val > N then
    ((a.discard (.version (val - N))).1.getD 0,(a.discard (.version (val - N))).2)
  else (0,a)

def write (L : Lower) (pos : ℕ) (buf : Bytes) : Outcome × Shelf :=
  let val := nextVersion (a.number J)
  let p := (a.on (a.stamp val)).pruned val
  if p.1 ≠ 0 then (.returned p.1,p.2)
  else
    match p.2.entry (.version val) with
    | some _ => (.returned (-EEXIST),p.2.hash (.version val) true)
    | none =>
      let c := p.2.link (.version val) (some (.copy p.2.current))
      (.returned (taken L buf).length,c.on (c.fill (pwrite p.2.current pos (taken L buf))))

def delete (v : Int) : Int × Shelf :=
  match a.discard (.version v) with
  | (none,a) => (-ENOTTY,a)
  | (some err,a) =>
    if err ≠ 0 then (err,a)
    else (err,if v = a.youngest.getD J.val then a.on (a.stamp (wrapInt (v - 1))) else a)

def deleteAll : Int × Shelf :=
  match sweep (a.number J).toNat (-ENOTTY) a with
  | (.error err,a) => (err,a)
  | (.ok err,a) => (err,a.on a.restart)

def swept (a : Shelf) : Int × Shelf :=
  match sweep (a.number J).toNat 0 a with
  | (.error err,a) => (err,a)
  | (.ok err,a) => (err,a)

def refilled (v : Int) (n : Node) : Shelf :=
  (a.link .restored (some (.copy (a.read n)))).hash (.version v) true

def refill (v : Int) : Int × Shelf :=
  match a.entry .restored with
  | some _ => (-EEXIST,a.hash .restored true)
  | none =>
    match a.entry (.version v) with
    | none => (-ENOENT,(a.link .restored (some (.copy []))).hash (.version v) true)
    | some n => (a.refilled v n).swept J

def restore (v : Int) : Int × Shelf :=
  if (a.discard .own).1.getD 0 ≠ 0 then ((a.discard .own).1.getD 0,(a.discard .own).2)
  else (a.discard .own).2.refill J v

def ioctl (L : Lower) (cmd : ℕ) (q : Request) : Outcome × Shelf × Option Query :=
  match cmd with
  | 1000 =>
    let r := if q.version ≠ 0 then a.delete J q.version else a.deleteAll J
    (.returned r.1,r.2,none)
  | 1001 => (.returned (a.restore J q.version).1,(a.restore J q.version).2,none)
  | 1002 => (.returned (a.view J q.version).1,a.hash (.version q.version) true,
      (a.view J q.version).2)
  | 1003 => (.returned 0,a,some (a.list J))
  | _ => (.returned (L.unlockedIoctl.getD (-ENOTTY)),a,none)

end Shelf

end Versions

end BackupFs
