import BackupFs.Client.List
import BackupFs.Library.Atoi
import BackupFs.Locals.Write

namespace BackupFs

open Decimal

inductive Command where
  | delete
  | restore
  | view
  | list
  deriving DecidableEq, Repr

def Command.number : Command → ℕ
  | .delete => 1000
  | .restore => 1001
  | .view => 1002
  | .list => 1003

structure Host where
  mallocQuery : Bool := true
  mallocName : Bool := true
  heap : UserQuery
  openFile : Bytes → Int
  ioctl : ℕ → Request → Int × Option UserQuery

structure Execution where
  output : List Bytes
  asked : Option (ℕ × Request) := none
  status : ℕ

def exitStatus (error : Int) : ℕ := (error % 256).toNat

def usage : Bytes := bytesOf
  "Syntax is: ./bkpctl d|r|v <input_file> <version number>    ./bkpctl l <input_file> \n"

def ruler : Bytes := bytesOf "------------------------------------------------------\n"

def parseCommand : List Bytes → Option (Command × Bytes × Option Int)
  | [_, command, inputFile] =>
    if command = bytesOf "h" then none
    else if command = bytesOf "l" then some (.list,inputFile,none)
    else none
  | [_, command, inputFile, version] =>
    if command = bytesOf "h" then none
    else if command = bytesOf "d" then some (.delete,inputFile,some (atoi version))
    else if command = bytesOf "r" then some (.restore,inputFile,some (atoi version))
    else if command = bytesOf "v" then some (.view,inputFile,some (atoi version))
    else none
  | _ => none

def Command.report (inputFile : Name) (q : UserQuery) : Command → List Bytes
  | .delete => []
  | .restore => []
  | .view => [bytesOf "buffer is : \n",ruler,q.buff.takeWhile (· ≠ nul)]
  | .list => bytesOf "Available versions are : \n" :: ruler ::
      (listLoop inputFile N.toNat q.oldest).map fun line => line ++ bytesOf " \n"

-- a NULL from malloc, a failed open and a failed ioctl share the exit; only open leaves error 0
def perform (H : Host) (c : Command) (inputFile : Name) (version : Option Int) : Execution :=
  if inputFile = bytesOf "NULL" then
    { output := [bytesOf " invalid input file \n"], status := exitStatus (-1) }
  else if H.mallocQuery = false then
    { output := [bytesOf " memory allocation failed\n "], status := exitStatus (-1) }
  else if H.mallocName = false then
    { output := [bytesOf " memory allocation failed \n "], status := exitStatus (-1) }
  else
    let q := clientRequest inputFile (version.getD H.heap.version)
    if H.openFile q.name ≤ 0 then
      { output := [bytesOf "Incorrect file name\n"], status := exitStatus 0 }
    else
      let (r,reply) := H.ioctl c.number q
      if r = -1 then
        { output := [bytesOf "ioctl command failed \n"]
          asked := some (c.number,q)
          status := exitStatus (-1) }
      else
        { output := c.report inputFile (reply.getD { H.heap with version := q.version })
          asked := some (c.number,q)
          status := exitStatus 0 }

def main (H : Host) (argv : List Bytes) : Execution :=
  match parseCommand argv with
  | none => { output := [usage], status := exitStatus 1 }
  | some (c,inputFile,version) => perform H c inputFile version

structure ActsWellFormed (H : Host) (argv : List Bytes) : Prop where
  denotes : ∀ cmd q, (main H argv).asked = some (cmd,q) → cmd ∈ [1000,1001,1002] →
    ∃ a, argv[3]? = some a ∧ IsInt q.version ∧ Numeral a q.version
  deletesAll : ∀ q, (main H argv).asked = some (1000,q) → q.version = 0 →
    ∃ a, argv[3]? = some a ∧ Numeral a 0
  unissued : (main H argv).asked = none → (main H argv).status ≠ 0
  failed : ∀ cmd q, (main H argv).asked = some (cmd,q) → (H.ioctl cmd q).1 = -1 →
    (main H argv).status ≠ 0

structure Accepted (H : Host) (argv : List Bytes) (c : Command) (inputFile : Name)
    (version : Option Int) : Prop where
  parsed : parseCommand argv = some (c,inputFile,version)
  named : inputFile ≠ bytesOf "NULL"
  query : H.mallocQuery = true
  name : H.mallocName = true

inductive MainRun (H : Host) (argv : List Bytes) : Option (ℕ × Request) → ℕ → Prop
  | refused (h : ∀ c x v, ¬ Accepted H argv c x v) {status : ℕ} (hs : status ≠ 0) :
      MainRun H argv none status
  | unopened {c : Command} {x : Name} {v : Option Int} (h : Accepted H argv c x v)
      (hf : H.openFile (mountPoint ++ x) ≤ 0) : MainRun H argv none 0
  | issued {c : Command} {x : Name} {v : Option Int} (h : Accepted H argv c x v)
      (hf : 0 < H.openFile (mountPoint ++ x)) :
      MainRun H argv (some (c.number,clientRequest x (v.getD H.heap.version)))
        (if (H.ioctl c.number (clientRequest x (v.getD H.heap.version))).1 = -1 then 255 else 0)

def WellGiven (H : Host) (argv : List Bytes) : Prop :=
  ∀ c x v, Accepted H argv c x v → 0 < H.openFile (mountPoint ++ x) ∧
    ∀ a, argv[3]? = some a → ∃ k, IsInt k ∧ Numeral a k

section
variable {H : Host} {argv : List Bytes} {c c' : Command} {x x' : Name} {v v' : Option Int}

theorem accepted_unique (h : Accepted H argv c x v) (h' : Accepted H argv c' x' v') :
    c = c' ∧ x = x' ∧ v = v' := by
  have he := Option.some.inj (h.parsed.symm.trans h'.parsed)
  cases he
  exact ⟨rfl,rfl,rfl⟩

theorem perform_run (h : parseCommand argv = some (c,x,v)) :
    MainRun H argv (perform H c x v).asked (perform H c x v).status := by
  have hstop (hno : ¬ Accepted H argv c x v) : ∀ c' x' v', ¬ Accepted H argv c' x' v' := by
    rintro c' x' v' h'
    obtain ⟨rfl,rfl,rfl⟩ : c = c' ∧ x = x' ∧ v = v' := by
      cases Option.some.inj (h.symm.trans h'.parsed)
      exact ⟨rfl,rfl,rfl⟩
    exact hno h'
  unfold perform
  split_ifs with hx hq hn
  · exact .refused (hstop fun ha => ha.named hx) (by decide)
  · exact .refused (hstop fun ha => by simp [ha.query] at hq) (by decide)
  · exact .refused (hstop fun ha => by simp [ha.name] at hn) (by decide)
  · have ha : Accepted H argv c x v := ⟨h,hx,by simpa using hq,by simpa using hn⟩
    dsimp only
    split_ifs with hf hr
    · exact .unopened ha hf
    · have hrun := MainRun.issued ha (not_le.mp hf)
      rwa [if_pos hr] at hrun
    · have hrun := MainRun.issued ha (not_le.mp hf)
      rwa [if_neg hr] at hrun

theorem main_run (H : Host) (argv : List Bytes) :
    MainRun H argv (main H argv).asked (main H argv).status := by
  unfold main
  cases h : parseCommand argv with
  | none =>
    have hno : ∀ c x v, ¬ Accepted H argv c x v := fun c x v ha => by
      have hp := ha.parsed
      rw [h] at hp
      cases hp
    exact .refused hno one_ne_zero
  | some r =>
    obtain ⟨c,x,v⟩ := r
    exact perform_run h

theorem accepted_asked (h : Accepted H argv c x v) :
    (0 < H.openFile (mountPoint ++ x) ∧
      (main H argv).asked = some (c.number,clientRequest x (v.getD H.heap.version))) ∨
    (H.openFile (mountPoint ++ x) ≤ 0 ∧ (main H argv).asked = none ∧
      (main H argv).status = 0) := by
  have hrun := main_run H argv
  generalize (main H argv).asked = asked at hrun ⊢
  generalize (main H argv).status = status at hrun ⊢
  cases hrun with
  | refused hno _ => exact absurd h (hno c x v)
  | unopened h' hf =>
    obtain ⟨rfl,rfl,rfl⟩ := accepted_unique h h'
    exact .inr ⟨hf,rfl,rfl⟩
  | issued h' hf =>
    obtain ⟨rfl,rfl,rfl⟩ := accepted_unique h h'
    exact .inl ⟨hf,rfl⟩

theorem asked_accepted {cmd : ℕ} {q : Request} (h : (main H argv).asked = some (cmd,q)) :
    ∃ c x v, Accepted H argv c x v ∧ cmd = c.number ∧
      q = clientRequest x (v.getD H.heap.version) ∧
        ((H.ioctl cmd q).1 = -1 → (main H argv).status = 255) := by
  have hrun := main_run H argv
  rw [h] at hrun
  generalize (main H argv).status = status at hrun ⊢
  cases hrun with
  | issued h' hf => exact ⟨_,_,_,h',rfl,rfl,fun hr => if_pos hr⟩

theorem unasked_status (h : (main H argv).asked = none)
    (hf : ∀ c x v, Accepted H argv c x v → 0 < H.openFile (mountPoint ++ x)) :
    (main H argv).status ≠ 0 := by
  have hrun := main_run H argv
  rw [h] at hrun
  generalize (main H argv).status = status at hrun ⊢
  cases hrun with
  | refused _ hs => exact hs
  | unopened h' hno => exact absurd (hf _ _ _ h') (not_lt.mpr hno)

theorem parseCommand_version (h : parseCommand argv = some (c,x,v)) :
    c = .list ∧ argv[3]? = none ∨
      c ≠ .list ∧ ∃ a, argv[3]? = some a ∧ v = some (atoi a) := by
  unfold parseCommand at h
  split at h
  · split_ifs at h
    cases h
    exact .inl ⟨rfl,rfl⟩
  · split_ifs at h <;> cases h <;> exact .inr ⟨by decide,_,rfl,rfl⟩
  · cases h

theorem number_versioned : c.number ∈ [1000,1001,1002] ↔ c ≠ .list := by
  cases c <;> decide

theorem isInt_atoi (a : Text) : IsInt (atoi a) := wrapInt_bounds _

theorem numeral_atoi {a : Text} :
    (∃ k, IsInt k ∧ Numeral a k) ↔ Numeral a (atoi a) := by
  constructor
  · rintro ⟨k,hk,hn⟩
    have hi := hk
    rw [IsInt,INT_MAX] at hi
    rwa [atoi_numeral hn (by omega) (by omega)]
  · exact fun h => ⟨_,isInt_atoi a,h⟩

end

theorem bkpctl_acts_iff (H : Host) (argv : List Bytes) :
    ActsWellFormed H argv ↔ WellGiven H argv := by
  constructor
  · rintro ⟨hden,_,huniss,_⟩ c x v ha
    rcases accepted_asked ha with ⟨hf,hask⟩ | ⟨_,hask,hs⟩
    · refine ⟨hf,fun a hget => ?_⟩
      rcases parseCommand_version ha.parsed with ⟨_,hno⟩ | ⟨hc,b,hb,rfl⟩
      · rw [hno] at hget
        cases hget
      · obtain ⟨b',hb',hi,hn⟩ := hden _ _ hask (number_versioned.mpr hc)
        cases hb.symm.trans hget
        cases hb.symm.trans hb'
        exact ⟨_,hi,hn⟩
    · exact absurd hs (huniss hask)
  · intro hw
    have hden : ∀ cmd q, (main H argv).asked = some (cmd,q) → cmd ∈ [1000,1001,1002] →
        ∃ a, argv[3]? = some a ∧ IsInt q.version ∧ Numeral a q.version := by
      intro cmd q hask hcmd
      obtain ⟨c,x,v,h,rfl,rfl,_⟩ := asked_accepted hask
      rcases parseCommand_version h.parsed with ⟨rfl,_⟩ | ⟨hc,b,hb,rfl⟩
      · exact absurd hcmd (by decide)
      · exact ⟨b,hb,isInt_atoi b,numeral_atoi.mp ((hw _ _ _ h).2 b hb)⟩
    refine ⟨hden,fun q hask hv => ?_,fun hask => ?_,fun cmd q hask hr => ?_⟩
    · obtain ⟨a,ha,_,hn⟩ := hden _ q hask (by simp)
      exact ⟨a,ha,hv ▸ hn⟩
    · exact unasked_status hask fun c x v h => (hw c x v h).1
    · obtain ⟨c,x,v,_,_,_,hs⟩ := asked_accepted hask
      rw [hs hr]
      decide

def obliging : Host where
  heap := ⟨0,0,0,0,[]⟩
  openFile _ := 3
  ioctl _ _ := (0,none)

theorem misspelt_version_deletes_all : ¬ ∀ (H : Host) (argv : List Bytes),
    ActsWellFormed H argv := by
  intro h
  obtain ⟨a,ha,hn⟩ := (h obliging
    [bytesOf "./bkpctl",bytesOf "d",bytesOf "a.txt",bytesOf "abc"]).deletesAll
      (clientRequest aTxt.name 0) (by decide +kernel) rfl
  cases Option.some.inj ha
  have hb := numeral_chars hn (b := 97) (by decide)
  revert hb
  decide

end BackupFs
