import BackupFs.Library.Atoi
import BackupFs.Library.Nesting

namespace BackupFs

abbrev Bytes := List UInt8
abbrev Name := List UInt8

def bytesOf (s : String) : Bytes := s.toList.map Char.toUInt8

def slash : UInt8 := 47
def nul : UInt8 := 0

abbrev FileName := {x : Name // x ≠ [] ∧ slash ∉ x ∧ nul ∉ x}

-- sprintf "%d %s"
def backupName (v : Int) (n : Name) : Name := Decimal.labelled v n

def restored : Name := bytesOf "restored_"

-- sprintf "%s%s"
def restoredName (n : Name) : Name := restored ++ n

theorem backupName_inj {v w : Int} {n m : Name} :
    backupName v n = backupName w m ↔ v = w ∧ n = m := Decimal.labelled_inj

theorem backupName_ne_self (v : Int) (n : Name) : backupName v n ≠ n :=
  Decimal.labelled_ne_self v n

theorem restored_eq : restored = 114 :: bytesOf "estored_" := by decide

theorem restoredName_ne_backupName (m : Name) (v : Int) (n : Name) :
    restoredName m ≠ backupName v n := fun h => by
  rw [restoredName,restored_eq] at h
  exact Decimal.labelled_ne_of_head (by decide) (by simp [Decimal.isDigit]) h.symm

theorem restoredName_ne_self (n : Name) : restoredName n ≠ n := fun h => by
  have hl := congrArg List.length h
  rw [restoredName,restored_eq,List.length_append,List.length_cons] at hl
  omega

theorem slash_mem_backupName {v : Int} {n : Name} :
    slash ∈ backupName v n ↔ slash ∈ n := by
  have hv : slash ∉ Decimal.int v := fun h => by
    rcases Decimal.mem_int h with he | he
    · simp [slash,Decimal.minus] at he
    · simp [slash,Decimal.isDigit] at he
  rw [backupName,Decimal.mem_labelled]
  constructor
  · rintro (h | h | h)
    · exact absurd h hv
    · simp [slash,Decimal.space] at h
    · exact h
  · exact fun h => .inr (.inr h)

theorem slash_mem_restoredName {n : Name} : slash ∈ restoredName n ↔ slash ∈ n := by
  have hr : slash ∉ restored := by decide
  simp [restoredName,hr]

def nestedBackup (vs : List Int) (n : Name) : Name := vs.foldr backupName n

def backupsAt (k : ℕ) (n : Name) : Set Name := {x | ∃ vs, vs.length = k ∧ x = nestedBackup vs n}

def backupTree (n : Name) : Set Name := Nesting.above backupName n

def BaseName (n : Name) : Prop := ∀ v x, backupName v x ≠ n

section
variable {n m : Name}

theorem backupName_injective2 : Function.Injective2 backupName := fun _ _ _ _ h =>
  backupName_inj.mp h

theorem backupsAt_disjoint (h : n ≠ m) (k : ℕ) : Disjoint (backupsAt k n) (backupsAt k m) := by
  rw [Set.disjoint_left]
  rintro _ ⟨vs,hv,rfl⟩ ⟨ws,hw,he⟩
  exact h ((Nesting.foldr_inj backupName_injective2 (hv.trans hw.symm)).mp he).2

theorem backupTree_disjoint :
    Disjoint (backupTree n) (backupTree m) ↔ n ∉ backupTree m ∧ m ∉ backupTree n :=
  Nesting.disjoint_above backupName_injective2

theorem base_backupTree_disjoint (hn : BaseName n) (hm : BaseName m) :
    Disjoint (backupTree n) (backupTree m) ↔ n ≠ m :=
  Nesting.disjoint_roots backupName_injective2 hn hm

end

theorem backup_names_never_clash (v w : Int) (n m : Name) :
    (backupName v n = backupName w m → v = w ∧ n = m) ∧
    Decimal.splitFirst (backupName v n) = (v,n) ∧
    restoredName m ≠ backupName v n ∧
    (n ≠ m → ∀ k, Disjoint (backupsAt k n) (backupsAt k m)) ∧
    (BaseName n → BaseName m → n ≠ m → Disjoint (backupTree n) (backupTree m)) ∧
    (Disjoint (backupTree n) (backupTree m) ↔ n ∉ backupTree m ∧ m ∉ backupTree n) :=
  ⟨backupName_inj.mp,Decimal.splitFirst_labelled v n,restoredName_ne_backupName m v n,
    backupsAt_disjoint,fun hn hm => (base_backupTree_disjoint hn hm).mpr,backupTree_disjoint⟩

end BackupFs
