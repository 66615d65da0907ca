import BackupFs.Library.Lockstep
import BackupFs.Versions.Store

namespace BackupFs

namespace Versions

-- what bkpctl gets from malloc and the lowest free descriptor
structure Process where
  mallocQuery : Bool := true
  mallocName : Bool := true
  fd : ℕ := 3
  heap : UserQuery := ⟨0,0,0,0,[]⟩

inductive Act where
  | cat (L : Lower)
  | write (L : Lower) (J : Junk) (pos : ℕ) (buf : Bytes)
  | bkpctl (L : Lower) (J : Junk) (E : Process) (argv : List Bytes)
  | evict
  | shrink (k : Slot)

inductive Answer where
  | refused
  | data (c : Bytes)
  | returned (out : Outcome)
  | ran (e : Execution)
  | killed
  | done

structure Service (S : Type) where
  opened : Lower → S → Bool × S
  data : S → Bytes
  write : Lower → Junk → ℕ → Bytes → S → Outcome × S
  ioctl : Lower → Junk → ℕ → Request → S → Outcome × S × Option Query
  evict : S → S
  shrink : Slot → S → S

-- a negative number of the kernel is -1 for the caller of ioctl
def userResult {S : Type} (r : Outcome × S × Option Query) : Int × Option UserQuery :=
  match r.1 with
  | .oops => (-1,none)
  | .returned e => (if e < 0 then -1 else e,r.2.2.map fun q => userQuery q.bytes)

def Process.host (E : Process) (ok : Bool) (ioctl : ℕ → Request → Int × Option UserQuery) :
    Host where
  mallocQuery := E.mallocQuery
  mallocName := E.mallocName
  heap := E.heap
  openFile _ := if ok then E.fd else -1
  ioctl := ioctl

def Process.tries (E : Process) (argv : List Bytes) : Bool :=
  match parseCommand argv with
  | none => false
  | some (_,x,_) => decide (x ≠ bytesOf "NULL") && E.mallocQuery && E.mallocName

namespace Service

variable {S : Type} (V : Service S)

def host (L : Lower) (J : Junk) (E : Process) (o : Bool × S) : Host :=
  E.host o.1 fun cmd q => userResult (V.ioctl L J cmd q o.2)

def bkpctl (L : Lower) (J : Junk) (E : Process) (argv : List Bytes) (s : S) : Answer × S :=
  let o := V.opened L s
  let e := main (V.host L J E o) argv
  match e.asked with
  | none => (.ran e,if E.tries argv then o.2 else s)
  | some (cmd,q) =>
    let r := V.ioctl L J cmd q o.2
    (if r.1 = .oops then .killed else .ran e,r.2.1)

def step (s : S) : Act → Answer × S
  | .cat L =>
    let o := V.opened L s
    (if o.1 then .data (V.data o.2) else .refused,o.2)
  | .write L J pos buf =>
    let o := V.opened L s
    if o.1 then (.returned (V.write L J pos buf o.2).1,(V.write L J pos buf o.2).2)
    else (.refused,o.2)
  | .bkpctl L J E argv => V.bkpctl L J E argv s
  | .evict => (.done,V.evict s)
  | .shrink k => (.done,V.shrink k s)

end Service

def mount (f : File) : Service Sys where
  opened L s := ((mountLookup L f.name s.disk).1.toBool,s.on (mountLookup L f.name s.disk).2)
  data s := (s.disk.inodes f.ino).content
  write L J pos buf s := bkpfsWrite L J f pos buf s
  ioctl L J cmd q s := bkpfsUnlockedIoctl L J f cmd q s
  evict s := s.on (s.disk.drop f.name)
  shrink k s :=
    if k = .own ∧ (s.disk.upper f.name).isSome then s
    else s.on { s.disk with cached := Function.update s.disk.cached (k.name f.name) false }

def shelves : Service Shelf where
  opened _ a := a.opened
  data a := a.current
  write L J pos buf a := a.write J L pos buf
  ioctl L J cmd q a := a.ioctl J L cmd q
  evict a := a.on (a.hold false)
  shrink k a := if k = .own ∧ a.held then a else a.hash k false

def stores : Service Store where
  opened _ b := b.opened
  data b := b.current
  write L J pos buf b := b.write J L pos buf
  ioctl L J cmd q b := b.ioctl J L cmd q
  evict b := b.hold false
  shrink _ b := b

structure Granted (L : Lower) : Prop extends L.Grants where
  dRevalidate : L.dRevalidate = none

def Act.About (f : File) : Act → Prop
  | .cat L => Granted L
  | .write L _ _ _ => Granted L
  | .bkpctl L _ _ argv => Granted L ∧ ∀ c x v, parseCommand argv = some (c,x,v) → x = f.name
  | _ => True

section main
variable {E : Process} {ok : Bool} {argv : List Bytes} {cmd : ℕ} {q : Request}

def finished (E : Process) (c : Command) (x : Name) (q : Request)
    (r : Int × Option UserQuery) : Execution :=
  if r.1 = -1 then
    { output := [bytesOf "ioctl command failed \n"]
      asked := some (c.number,q)
      status := exitStatus (-1) }
  else
    { output := c.report x (r.2.getD { E.heap with version := q.version })
      asked := some (c.number,q)
      status := exitStatus 0 }

theorem finished_asked (c : Command) (x : Name) (r : Int × Option UserQuery) :
    (finished E c x q r).asked = some (c.number,q) := by
  unfold finished
  split_ifs <;> rfl

theorem finished_status (c : Command) (x : Name) (r : Int × Option UserQuery) :
    (finished E c x q r).status = if r.1 = -1 then 255 else 0 := by
  unfold finished
  split_ifs <;> rfl

theorem perform_host (E : Process) (ok : Bool) (c : Command) (x : Name) (v : Option Int) :
    (∃ e : Execution, e.asked = none ∧ ∀ g, perform (E.host ok g) c x v = e) ∨
      ok = true ∧ ∀ g, perform (E.host ok g) c x v =
        finished E c x (clientRequest x (v.getD E.heap.version))
          (g c.number (clientRequest x (v.getD E.heap.version))) := by
  unfold perform
  by_cases hx : x = bytesOf "NULL"
  · refine .inl ⟨_,?_,fun g => if_pos hx⟩
    rfl
  by_cases hq : E.mallocQuery = false
  · refine .inl ⟨_,?_,fun g => (if_neg hx).trans (if_pos hq)⟩
    rfl
  by_cases hn : E.mallocName = false
  · refine .inl ⟨_,?_,fun g => (if_neg hx).trans ((if_neg hq).trans (if_pos hn))⟩
    rfl
  by_cases hf : (if ok then (E.fd : Int) else -1) ≤ 0
  · refine .inl ⟨_,?_,fun g =>
      (if_neg hx).trans ((if_neg hq).trans ((if_neg hn).trans (if_pos hf)))⟩
    rfl
  · refine .inr ⟨?_,fun g =>
      (if_neg hx).trans ((if_neg hq).trans ((if_neg hn).trans (if_neg hf)))⟩
    by_contra hok
    rw [if_neg hok] at hf
    exact hf (by decide)

theorem main_host (E : Process) (ok : Bool) (argv : List Bytes) :
    (∃ e : Execution, e.asked = none ∧ ∀ g, main (E.host ok g) argv = e) ∨
      ok = true ∧ ∃ c x v, parseCommand argv = some (c,x,v) ∧ ∀ g, main (E.host ok g) argv =
        finished E c x (clientRequest x (v.getD E.heap.version))
          (g c.number (clientRequest x (v.getD E.heap.version))) := by
  unfold main
  cases parseCommand argv with
  | none => exact .inl ⟨_,rfl,fun g => rfl⟩
  | some r =>
    obtain ⟨c,x,v⟩ := r
    exact (perform_host E ok c x v).imp_right fun h => ⟨h.1,c,x,v,rfl,h.2⟩

end main

section Refines
variable {S T : Type}

structure Alike (R : S → T → Prop) (r : Outcome × S × Option Query)
    (r' : Outcome × T × Option Query) : Prop where
  result : userResult r = userResult r'
  oops : r.1 = .oops ↔ r'.1 = .oops
  state : R r.2.1 r'.2.1

structure Refines (f : File) (V : Service S) (W : Service T) (R : S → T → Prop)
    (Pw : Junk → S → Prop) (Pi : Junk → ℕ → Request → S → Prop) : Prop where
  opened : ∀ {L s t}, Granted L → R s t →
    (V.opened L s).1 = (W.opened L t).1 ∧ R (V.opened L s).2 (W.opened L t).2
  data : ∀ {s t}, R s t → V.data s = W.data t
  write : ∀ {L J s t} (pos : ℕ) (buf : Bytes), Granted L → R s t →
    ((V.write L J pos buf s).1 = (W.write L J pos buf t).1 ∧
      R (V.write L J pos buf s).2 (W.write L J pos buf t).2 ↔ Pw J s)
  ioctl : ∀ {L J cmd q s t}, Granted L → R s t → q.file = f.name.val → Pi J cmd q s →
    Alike R (V.ioctl L J cmd q s) (W.ioctl L J cmd q t)
  ioctl_only : ∀ {L J cmd q s t}, Granted L → R s t → q.file = f.name.val →
    ((userResult (V.ioctl L J cmd q s)).1 = -1 ↔ (userResult (W.ioctl L J cmd q t)).1 = -1) →
      R (V.ioctl L J cmd q s).2.1 (W.ioctl L J cmd q t).2.1 → Pi J cmd q s
  evict : ∀ {s t}, R s t → R (V.evict s) (W.evict t)
  shrink : ∀ {k s t}, R s t → R (V.shrink k s) (W.shrink k t)

def Service.Suits (V : Service S) (Pw : Junk → S → Prop) (Pi : Junk → ℕ → Request → S → Prop)
    (s : S) : Act → Prop
  | .write L J _ _ => (V.opened L s).1 = true → Pw J (V.opened L s).2
  | .bkpctl L J E argv => ∀ cmd q,
    (main (V.host L J E (V.opened L s)) argv).asked = some (cmd,q) → Pi J cmd q (V.opened L s).2
  | _ => True

theorem suits_of {V : Service S} {Pw : Junk → S → Prop} {Pi : Junk → ℕ → Request → S → Prop}
    (hw : ∀ J s, Pw J s) (hi : ∀ J cmd q s, Pi J cmd q s) (s : S) (a : Act) :
    V.Suits Pw Pi s a := by
  cases a with
  | cat | evict | shrink => trivial
  | write => exact fun _ => hw _ _
  | bkpctl => exact fun _ _ _ => hi _ _ _ _

variable {f : File} {V : Service S} {W : Service T} {R : S → T → Prop} {Pw : Junk → S → Prop}
  {Pi : Junk → ℕ → Request → S → Prop} {s : S} {t : T}

theorem bkpctl_iff (h : Refines f V W R Pw Pi) {L : Lower} {J : Junk} {E : Process}
    {argv : List Bytes} (hL : Granted L)
    (hf : ∀ c x v, parseCommand argv = some (c,x,v) → x = f.name) (hR : R s t) :
    (V.bkpctl L J E argv s).1 = (W.bkpctl L J E argv t).1 ∧
        R (V.bkpctl L J E argv s).2 (W.bkpctl L J E argv t).2 ↔
      V.Suits Pw Pi s (.bkpctl L J E argv) := by
  obtain ⟨ho,hR'⟩ := h.opened hL hR
  unfold Service.bkpctl Service.Suits Service.host
  dsimp only
  rw [← ho]
  generalize (V.opened L s).1 = ok
  generalize (V.opened L s).2 = s' at hR' ⊢
  generalize (W.opened L t).2 = t' at hR' ⊢
  rcases main_host E ok argv with ⟨e,he,hmain⟩ | ⟨_,c,x,v,hp,hmain⟩
  · rw [hmain,hmain,he]
    refine iff_of_true ⟨rfl,?_⟩ (by simp)
    dsimp only
    split_ifs
    · exact hR'
    · exact hR
  · rw [hmain,hmain,finished_asked,finished_asked]
    have hq : (clientRequest x (v.getD E.heap.version)).file = f.name.val := by
      rw [clientRequest_file,hf c x v hp]
    generalize clientRequest x (v.getD E.heap.version) = q at hq ⊢
    dsimp only
    constructor
    · rintro ⟨hans,hst⟩ cmd' q' he
      cases Option.some.inj he
      refine h.ioctl_only hL hR' hq ?_ hst
      split_ifs at hans with h1 h2 h2
      · rw [userResult,userResult,h1,h2]
      · have hse := congrArg Execution.status (Answer.ran.inj hans)
        rw [finished_status,finished_status] at hse
        split_ifs at hse with h3 h4 h4
        · exact iff_of_true h3 h4
        · exact iff_of_false h3 h4
    · intro hs
      have hal := h.ioctl hL hR' hq (hs c.number q rfl)
      rw [hal.result]
      refine ⟨?_,hal.state⟩
      simp only [hal.oops]

theorem step_iff (h : Refines f V W R Pw Pi) (hR : R s t) {a : Act} (ha : a.About f) :
    (V.step s a).1 = (W.step t a).1 ∧ R (V.step s a).2 (W.step t a).2 ↔ V.Suits Pw Pi s a := by
  cases a with
  | cat L =>
    obtain ⟨ho,hR'⟩ := h.opened ha hR
    refine iff_of_true ⟨?_,hR'⟩ trivial
    rw [Service.step,Service.step,← ho,h.data hR']
  | write L J pos buf =>
    obtain ⟨ho,hR'⟩ := h.opened ha hR
    have hw := h.write (J := J) pos buf ha hR'
    rw [Service.step,Service.step,Service.Suits,← ho]
    split_ifs with hok
    · constructor
      · rintro ⟨hout,hst⟩ _
        exact hw.mp ⟨Answer.returned.inj hout,hst⟩
      · intro hs
        obtain ⟨hout,hst⟩ := hw.mpr (hs hok)
        exact ⟨congrArg Answer.returned hout,hst⟩
    · exact iff_of_true ⟨rfl,hR'⟩ fun hok' => absurd hok' hok
  | bkpctl L J E argv => exact bkpctl_iff h ha.1 ha.2 hR
  | evict => exact iff_of_true ⟨rfl,h.evict hR⟩ trivial
  | shrink k => exact iff_of_true ⟨rfl,h.shrink hR⟩ trivial

end Refines

end Versions

end BackupFs
