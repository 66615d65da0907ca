import BackupFs.Stack.Cycles

namespace BackupFs
namespace Stack

open Transition (Run exec)

-- `freed` is a slab cache that is not there, `busy` one that still has objects
inductive LoadFault where
  | freed
  | busy
  | mount (x : Fault)
  deriving DecidableEq, Repr

structure Loader where
  loaded : Bool
  inodeCachep : Option ℕ
  dentryCachep : Option ℕ
  caches : List ℕ
  next : ℕ
  registered : Bool
  mounts : State

structure InsmodCall where
  inodeCache : Bool := true
  dentryCache : Bool := true
  register : Option Errno := none

def kmemCacheCreate (ok : Bool) (m : Loader) : Option ℕ × Loader :=
  if ok then (some m.next,{ m with caches := m.next :: m.caches, next := m.next + 1 })
  else (none,m)

def kmemCacheDestroy (objects p : ℕ) (m : Loader) : Except LoadFault Loader :=
  if p ∉ m.caches then .error .freed
  else if objects ≠ 0 then .error .busy
  else .ok { m with caches := m.caches.erase p }

def bkpfsInitInodeCache (ok : Bool) (m : Loader) : Int × Loader :=
  let (p,m) := kmemCacheCreate ok m
  (if p = none then -ENOMEM else 0,{ m with inodeCachep := p })

def bkpfsInitDentryCache (ok : Bool) (m : Loader) : Int × Loader :=
  let (p,m) := kmemCacheCreate ok m
  (if p = none then -ENOMEM else 0,{ m with dentryCachep := p })

-- an object of the cache is a cached inode
def bkpfsDestroyInodeCache (m : Loader) : Except LoadFault Loader :=
  match m.inodeCachep with
  | none => .ok m
  | some p => kmemCacheDestroy m.mounts.icache.length p m

def bkpfsDestroyDentryCache (m : Loader) : Except LoadFault Loader :=
  match m.dentryCachep with
  | none => .ok m
  | some p => kmemCacheDestroy m.mounts.infos p m

def registerFilesystem (err : Option Errno) (m : Loader) : Int × Loader :=
  match err with
  | some e => (e,m)
  | none => (0,{ m with registered := true })

-- the label out
def initOut (err : Int) (m : Loader) : Except LoadFault (Int × Loader) :=
  if err ≠ 0 then do
    let m ← bkpfsDestroyInodeCache m
    let m ← bkpfsDestroyDentryCache m
    .ok (err,m)
  else .ok (err,m)

def initBkpfsFs (w : InsmodCall) (m : Loader) : Except LoadFault (Int × Loader) :=
  let (err,m) := bkpfsInitInodeCache w.inodeCache m
  if err ≠ 0 then initOut err m
  else
    let (err,m) := bkpfsInitDentryCache w.dentryCache m
    if err ≠ 0 then initOut err m
    else
      let (err,m) := registerFilesystem w.register m
      initOut err m

def exitBkpfsFs (m : Loader) : Except LoadFault Loader := do
  let m ← bkpfsDestroyInodeCache m
  let m ← bkpfsDestroyDentryCache m
  .ok { m with registered := false }

inductive LoadAction where
  | insmod (w : InsmodCall)
  | rmmod
  | mount (a : Action)

namespace Loader

def init : Loader := ⟨false,none,none,[],0,false,.init⟩

-- a mount holds a reference to the module
def Enabled (m : Loader) : LoadAction → Prop
  | .insmod _ => m.loaded = false
  | .rmmod => m.loaded = true ∧ m.mounts.root = none
  | .mount a => m.registered = true ∧ Stack.Enabled m.mounts a

-- the static pointers of a module that has just been read in are NULL
def step (minors : ℕ) (m : Loader) : LoadAction → Except LoadFault Loader
  | .insmod w => do
    let (err,m) ← initBkpfsFs w { m with inodeCachep := none, dentryCachep := none }
    .ok { m with loaded := err == 0 }
  | .rmmod => do
    let m ← exitBkpfsFs m
    .ok { m with loaded := false }
  | .mount a =>
    match Stack.step minors m.mounts a with
    | .error x => .error (.mount x)
    | .ok s => .ok { m with mounts := s }

def Step (minors : ℕ) (m : Loader) (a : LoadAction) (t : Loader) : Prop :=
  m.Enabled a ∧ m.step minors a = .ok t

end Loader

def mountAction : LoadAction → Option Action
  | .mount a => some a
  | _ => none

structure Unloaded (m : Loader) : Prop where
  caches : m.caches = []
  registered : m.registered = false
  root : m.mounts.root = none

structure Serving (m : Loader) : Prop where
  caches : ∃ p q, p ≠ q ∧ m.caches = [q,p] ∧ m.inodeCachep = some p ∧ m.dentryCachep = some q
  registered : m.registered = true

structure Loaded (minors : ℕ) (as : List LoadAction) (m : Loader) : Prop where
  mounts : Sound minors (as.filterMap mountAction) m.mounts
  unloaded : m.loaded = false → Unloaded m
  serving : m.loaded = true → Serving m

section
variable {minors : ℕ} {as : List LoadAction} {m t : Loader} {w : InsmodCall} {a : LoadAction}
  {s : State}

theorem unmounted_empty {bs : List Action} (h : Sound minors bs s) (hr : s.root = none) :
    s.icache.length = 0 ∧ s.infos = 0 := by
  obtain ⟨h1,-,h3,-⟩ := ledger_empty (sound_unmounted h hr).ledger
  exact ⟨by rw [h1]; rfl,h3⟩

theorem destroy_inodes {p q : ℕ} (hi : m.mounts.icache.length = 0) (hpq : p ≠ q)
    (hc : m.caches = [q,p]) (hp : m.inodeCachep = some p) :
    bkpfsDestroyInodeCache m = .ok { m with caches := [q] } := by
  simp [bkpfsDestroyInodeCache,kmemCacheDestroy,hp,hc,hi,hpq.symm]

theorem destroy_dentries {q : ℕ} (hn : m.mounts.infos = 0) (hc : m.caches = [q])
    (hq : m.dentryCachep = some q) :
    bkpfsDestroyDentryCache m = .ok { m with caches := [] } := by
  simp [bkpfsDestroyDentryCache,kmemCacheDestroy,hq,hc,hn]

theorem initOut_failed {p q : ℕ} {err : Int} (he : err ≠ 0) (hi : m.mounts.icache.length = 0)
    (hn : m.mounts.infos = 0) (hpq : p ≠ q) (hc : m.caches = [q,p])
    (hp : m.inodeCachep = some p) (hq : m.dentryCachep = some q) :
    initOut err m = .ok (err,{ m with caches := [] }) := by
  unfold initOut
  rw [if_pos he,destroy_inodes hi hpq hc hp]
  dsimp only [bind,Except.bind]
  rw [destroy_dentries (m := { m with caches := [q] }) hn rfl hq]

theorem exit_serving (hs : Serving m) (hi : m.mounts.icache.length = 0)
    (hn : m.mounts.infos = 0) :
    exitBkpfsFs m = .ok { m with caches := [], registered := false } := by
  obtain ⟨p,q,hpq,hc,hp,hq⟩ := hs.caches
  unfold exitBkpfsFs
  rw [destroy_inodes hi hpq hc hp]
  dsimp only [bind,Except.bind]
  rw [destroy_dentries (m := { m with caches := [q] }) hn rfl hq]

def Loader.cached (m : Loader) : Loader :=
  { m with
    inodeCachep := some m.next
    dentryCachep := some (m.next + 1)
    caches := [m.next + 1,m.next]
    next := m.next + 2 }

theorem init_noInodeCache {d : Bool} {r : Option Errno} :
    initBkpfsFs ⟨false,d,r⟩ { m with inodeCachep := none, dentryCachep := none } =
      .ok (-ENOMEM,{ m with inodeCachep := none, dentryCachep := none }) := rfl

theorem init_noDentryCache (hc : m.caches = []) (hi : m.mounts.icache.length = 0)
    {r : Option Errno} :
    initBkpfsFs ⟨true,false,r⟩ { m with inodeCachep := none, dentryCachep := none } =
      .ok (-ENOMEM,
        { m with
          inodeCachep := some m.next
          dentryCachep := none
          caches := []
          next := m.next + 1 }) := by
  simp [initBkpfsFs,bkpfsInitInodeCache,bkpfsInitDentryCache,kmemCacheCreate,initOut,
    bkpfsDestroyInodeCache,bkpfsDestroyDentryCache,kmemCacheDestroy,hc,hi,bind,Except.bind,ENOMEM]

theorem init_register (hc : m.caches = []) {r : Option Errno} :
    initBkpfsFs ⟨true,true,r⟩ { m with inodeCachep := none, dentryCachep := none } =
      initOut (registerFilesystem r m.cached).1 (registerFilesystem r m.cached).2 := by
  simp [initBkpfsFs,bkpfsInitInodeCache,bkpfsInitDentryCache,kmemCacheCreate,hc,Loader.cached]

theorem init_cases (hu : Unloaded m) (hi : m.mounts.icache.length = 0) (hn : m.mounts.infos = 0)
    (w : InsmodCall) :
    ∃ err t, initBkpfsFs w { m with inodeCachep := none, dentryCachep := none } = .ok (err,t) ∧
      t.mounts = m.mounts ∧ (err = 0 → Serving t) ∧ (err ≠ 0 → Unloaded t) ∧
      (err = 0 ↔ w.inodeCache = true ∧ w.dentryCache = true ∧ w.register = none) := by
  obtain ⟨i,d,r⟩ := w
  cases i with
  | false =>
    exact ⟨_,_,init_noInodeCache,rfl,fun h => absurd h (by decide),
      fun _ => ⟨hu.caches,hu.registered,hu.root⟩,by simp [ENOMEM]⟩
  | true =>
    cases d with
    | false =>
      exact ⟨_,_,init_noDentryCache hu.caches hi,rfl,fun h => absurd h (by decide),
        fun _ => ⟨rfl,hu.registered,hu.root⟩,by simp [ENOMEM]⟩
    | true =>
      rw [init_register hu.caches]
      cases r with
      | none =>
        exact ⟨0,_,rfl,rfl,fun _ => ⟨⟨m.next,m.next + 1,by omega,rfl,rfl,rfl⟩,rfl⟩,
          fun h => absurd rfl h,by simp⟩
      | some e =>
        have he := e.2.ne
        have hout : initOut e.1 m.cached = .ok (e.1,{ m.cached with caches := [] }) :=
          initOut_failed he hi hn (Nat.succ_ne_self _).symm rfl rfl rfl
        exact ⟨e.1,_,hout,rfl,fun h => absurd h he,fun _ => ⟨rfl,hu.registered,hu.root⟩,
          by simp [he]⟩

theorem load_sound (h : Loaded minors as m) (ha : m.Enabled a) :
    (∃ b x, a = .mount b ∧ Crash minors (as.filterMap mountAction) b x ∧
      m.step minors a = .error (.mount x)) ∨
    ∃ t, m.step minors a = .ok t ∧ Loaded minors (as ++ [a]) t ∧
      ∀ b x, a = .mount b → ¬ Crash minors (as.filterMap mountAction) b x := by
  have hsame {b : LoadAction} (hb : mountAction b = none) :
      (as ++ [b]).filterMap mountAction = as.filterMap mountAction := by
    rw [List.filterMap_append,List.filterMap_cons_none hb]
    exact List.append_nil _
  cases a with
  | insmod w =>
    have hu := h.unloaded ha
    obtain ⟨hi,hn⟩ := unmounted_empty h.mounts hu.root
    obtain ⟨err,t,ht,hm,h0,h1,-⟩ := init_cases hu hi hn w
    refine .inr ⟨{ t with loaded := err == 0 },?_,?_,fun b x hb => by cases hb⟩
    · rw [Loader.step,ht]
      rfl
    · refine ⟨?_,fun hl => ?_,fun hl => ?_⟩
      · rw [hsame rfl]
        exact hm ▸ h.mounts
      · have hu := h1 (by simpa using hl)
        exact ⟨hu.caches,hu.registered,hu.root⟩
      · have hs := h0 (by simpa using hl)
        exact ⟨hs.caches,hs.registered⟩
  | rmmod =>
    obtain ⟨hl,hr⟩ := ha
    obtain ⟨hi,hn⟩ := unmounted_empty h.mounts hr
    refine .inr ⟨{ m with caches := [], registered := false, loaded := false },?_,
      ⟨?_,fun _ => ⟨rfl,rfl,hr⟩,fun hl => by cases hl⟩,fun b x hb => by cases hb⟩
    · rw [Loader.step,exit_serving (h.serving hl) hi hn]
      rfl
    · rw [hsame rfl]
      exact h.mounts
  | mount b =>
    obtain ⟨hreg,hen⟩ := ha
    have hl : m.loaded = true := by
      by_contra hl
      rw [(h.unloaded (eq_false_of_ne_true hl)).registered] at hreg
      cases hreg
    have hmount : (as ++ [LoadAction.mount b]).filterMap mountAction =
        as.filterMap mountAction ++ [b] := List.filterMap_append
    rcases step_sound h.mounts hen with ⟨x,hc,hx⟩ | ⟨s,hs,hsound,hn⟩
    · exact .inl ⟨b,x,rfl,hc,by rw [Loader.step,hx]⟩
    · refine .inr ⟨{ m with mounts := s },by rw [Loader.step,hs],⟨?_,fun hf => ?_,fun _ => ?_⟩,
        fun b' x hb => ?_⟩
      · rw [hmount]
        exact hsound
      · rw [hl] at hf
        cases hf
      · exact ⟨(h.serving hl).caches,(h.serving hl).registered⟩
      · cases hb
        exact hn x

theorem load_init (minors : ℕ) : Loaded minors [] Loader.init :=
  ⟨init_sound minors,fun _ => ⟨rfl,rfl,rfl⟩,fun hl => by cases hl⟩

theorem run_loaded (h : Run (Loader.Step minors) Loader.init as m) : Loaded minors as m := by
  induction h with
  | nil => exact load_init minors
  | snoc _ ha ih =>
    obtain ⟨hen,hstep⟩ := ha
    rcases load_sound ih hen with ⟨b,x,-,-,hx⟩ | ⟨t,ht,hl,-⟩
    · rw [hx] at hstep
      cases hstep
    · rw [ht] at hstep
      cases hstep
      exact hl

structure Managed (minors : ℕ) (as : List LoadAction) (m : Loader) : Prop where
  unloaded : m.loaded = false → Unloaded m ∧ m.mounts.icache = [] ∧ m.mounts.infos = 0
  serving : m.loaded = true → Serving m
  insmod : m.loaded = false → ∀ w, ∃ t, m.step minors (.insmod w) = .ok t ∧
    (t.loaded = true ↔ w.inodeCache = true ∧ w.dentryCache = true ∧ w.register = none)
  faults : ∀ a, m.Enabled a → ∀ x, m.step minors a = .error x ↔
    ∃ b y, a = .mount b ∧ x = .mount y ∧ Crash minors (as.filterMap mountAction) b y

theorem crash_unique {bs : List Action} {b : Action} {x y : Fault} (hx : Crash minors bs b x)
    (hy : Crash minors bs b y) : x = y := by
  cases hx <;> cases hy <;> simp_all

theorem module_managed (h : Run (Loader.Step minors) Loader.init as m) : Managed minors as m := by
  have hl := run_loaded h
  refine ⟨fun hm => ?_,hl.serving,fun hm w => ?_,fun a ha x => ?_⟩
  · have hu := hl.unloaded hm
    obtain ⟨h1,-,h3,-⟩ := ledger_empty (sound_unmounted hl.mounts hu.root).ledger
    exact ⟨hu,h1,h3⟩
  · have hu := hl.unloaded hm
    obtain ⟨hi,hn⟩ := unmounted_empty hl.mounts hu.root
    obtain ⟨err,t,ht,-,-,-,hiff⟩ := init_cases hu hi hn w
    refine ⟨{ t with loaded := err == 0 },by rw [Loader.step,ht]; rfl,?_⟩
    rw [← hiff]
    exact beq_iff_eq
  · rcases load_sound hl ha with ⟨b,y,rfl,hc,hy⟩ | ⟨t,ht,-,hn⟩
    · rw [hy]
      constructor
      · rintro ⟨⟩
        exact ⟨b,y,rfl,rfl,hc⟩
      · rintro ⟨b',y',hb,rfl,hc'⟩
        cases hb
        rw [crash_unique hc hc']
    · rw [ht]
      refine iff_of_false (fun he => by cases he) ?_
      rintro ⟨b,y,hb,-,hc⟩
      exact hn b y hb hc

def loadCycle : List LoadAction :=
  [.insmod {},.mount (.mount lowerRoot),.mount .umount,.rmmod]

theorem run_loadCycle : Run (Loader.Step 2) Loader.init loadCycle
    (exec (Loader.step 2) Loader.init loadCycle) :=
  (((Run.nil.snoc ⟨rfl,rfl⟩).snoc ⟨⟨rfl,rfl⟩,rfl⟩).snoc ⟨⟨rfl,by decide⟩,rfl⟩).snoc
    ⟨⟨rfl,rfl⟩,rfl⟩

theorem module_managed_cycle : Managed 2 loadCycle
    (exec (Loader.step 2) Loader.init loadCycle) := module_managed run_loadCycle

end

end Stack
end BackupFs
