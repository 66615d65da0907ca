import BackupFs.Library.Decimal
import Mathlib.Data.List.TakeWhile

namespace Decimal

instance : DecidablePred isDigit := fun _ => inferInstanceAs (Decidable (_ ∧ _))

def plus : UInt8 := 43

-- isspace of the C locale
def isSpace (b : UInt8) : Bool := b == space || 9 ≤ b && b ≤ 13

def LONG_MAX : ℤ := 9223372036854775807

def ofDigits (ds : Text) : ℕ := ds.foldl (fun n b => 10 * n + (b.toNat - 48)) 0

def digits (s : Text) : Text := s.takeWhile isDigit

-- an optional sign and digits, out of range the bound of a long
def strtol (s : Text) : ℤ :=
  match s.dropWhile isSpace with
  | [] => 0
  | b :: t =>
    if b = minus then max (-LONG_MAX - 1) (-ofDigits (digits t))
    else if b = plus then min LONG_MAX (ofDigits (digits t))
    else min LONG_MAX (ofDigits (digits (b :: t)))

def atoi (s : Text) : ℤ := (strtol s).bmod 4294967296

inductive Numeral : Text → ℤ → Prop
  | unsigned {ds : Text} (h : ds ≠ []) (hd : ∀ b ∈ ds, isDigit b) : Numeral ds (ofDigits ds)
  | plus {ds : Text} (h : ds ≠ []) (hd : ∀ b ∈ ds, isDigit b) :
      Numeral (plus :: ds) (ofDigits ds)
  | minus {ds : Text} (h : ds ≠ []) (hd : ∀ b ∈ ds, isDigit b) :
      Numeral (minus :: ds) (-ofDigits ds)

theorem digits_of_all {ds : Text} (hd : ∀ b ∈ ds, isDigit b) : digits ds = ds := by
  rw [digits,List.takeWhile_eq_self_iff]
  exact fun b hb => decide_eq_true (hd b hb)

theorem isSpace_of_digit {b : UInt8} (h : isDigit b) : isSpace b = false := by
  obtain ⟨h1,_⟩ := h
  have hs : b ≠ space := by
    rintro rfl
    exact absurd h1 (by decide)
  have hle : ¬ b ≤ 13 := fun hb => by
    have hn : b.toNat ≤ 13 := UInt8.le_iff_toNat_le.mp hb
    omega
  simp [isSpace,hs,hle]

theorem strtol_unsigned {ds : Text} (h : ds ≠ []) (hd : ∀ b ∈ ds, isDigit b) :
    strtol ds = min LONG_MAX (ofDigits ds) := by
  obtain ⟨b,t,rfl⟩ := List.exists_cons_of_ne_nil h
  have hb : isDigit b := hd b List.mem_cons_self
  have hm : b ≠ minus := by
    rintro rfl
    exact absurd hb (by decide)
  have hp : b ≠ plus := by
    rintro rfl
    exact absurd hb (by decide)
  rw [strtol,List.dropWhile_cons_of_neg (by simp [isSpace_of_digit hb])]
  dsimp only
  rw [if_neg hm,if_neg hp,digits_of_all hd]

theorem strtol_minus {ds : Text} (hd : ∀ b ∈ ds, isDigit b) :
    strtol (minus :: ds) = max (-LONG_MAX - 1) (-ofDigits ds) := by
  rw [strtol,List.dropWhile_cons_of_neg (by decide)]
  dsimp only
  rw [if_pos rfl,digits_of_all hd]

theorem strtol_plus {ds : Text} (hd : ∀ b ∈ ds, isDigit b) :
    strtol (plus :: ds) = min LONG_MAX (ofDigits ds) := by
  rw [strtol,List.dropWhile_cons_of_neg (by decide)]
  dsimp only
  rw [if_neg (by decide),if_pos rfl,digits_of_all hd]

theorem strtol_numeral {s : Text} {k : ℤ} (h : Numeral s k) (hlow : -LONG_MAX - 1 ≤ k)
    (hhigh : k ≤ LONG_MAX) : strtol s = k := by
  cases h with
  | unsigned h hd => rw [strtol_unsigned h hd,min_eq_right hhigh]
  | plus _ hd => rw [strtol_plus hd,min_eq_right hhigh]
  | minus _ hd => rw [strtol_minus hd,max_eq_right hlow]

theorem atoi_numeral {s : Text} {k : ℤ} (h : Numeral s k) (hlow : -2147483648 ≤ k)
    (hhigh : k ≤ 2147483647) : atoi s = k := by
  rw [atoi,strtol_numeral h (by rw [LONG_MAX]; omega) (by rw [LONG_MAX]; omega),
    Int.bmod_eq_of_le] <;> omega

theorem numeral_chars {s : Text} {k : ℤ} (h : Numeral s k) {b : UInt8} (hb : b ∈ s) :
    isDigit b ∨ b = plus ∨ b = minus := by
  cases h with
  | unsigned _ hd => exact .inl (hd b hb)
  | plus _ hd =>
    rcases List.mem_cons.mp hb with rfl | hb
    · exact .inr (.inl rfl)
    · exact .inl (hd b hb)
  | minus _ hd =>
    rcases List.mem_cons.mp hb with rfl | hb
    · exact .inr (.inr rfl)
    · exact .inl (hd b hb)

theorem ofDigits_nat (n : ℕ) : ofDigits (nat n) = n := by
  have hd : ∀ c ∈ Nat.toDigits 10 n, c.isDigit = true := fun c =>
    Nat.isDigit_of_mem_toDigits (by decide) (by decide)
  have hfold : ∀ (cs : List Char) (m : ℕ), (∀ c ∈ cs, c.isDigit = true) →
      (cs.map Char.toUInt8).foldl (fun n b => 10 * n + (b.toNat - 48)) m =
        Nat.ofDigitChars 10 cs m := by
    intro cs
    induction cs with
    | nil => exact fun _ _ => Nat.ofDigitChars_nil.symm
    | cons c cs ih =>
      intro m hc
      rw [List.map_cons,List.foldl_cons,Nat.ofDigitChars_cons,
        toNat_toUInt8 (hc c List.mem_cons_self)]
      exact ih _ fun c' h' => hc c' (List.mem_cons_of_mem c h')
  rw [ofDigits,nat,hfold _ _ hd,Nat.ofDigitChars_ten_toDigits]

def value (s : Text) : ℤ :=
  match s with
  | [] => 0
  | b :: t => if b = minus then -ofDigits t else ofDigits (b :: t)

theorem value_int (v : ℤ) : value (int v) = v := by
  cases v with
  | ofNat n =>
    obtain ⟨b,t,ht⟩ := List.exists_cons_of_ne_nil (nat_ne_nil n)
    have hb : b ≠ minus := by
      rintro rfl
      exact minus_not_mem_nat n (by simp [ht])
    rw [int,ht,value,if_neg hb,← ht,ofDigits_nat]
    rfl
  | negSucc n =>
    rw [int,value,if_pos rfl,ofDigits_nat]
    rfl

def splitFirst (x : Text) : ℤ × Text :=
  (value (x.takeWhile (· != space)),(x.dropWhile (· != space)).tail)

theorem splitFirst_labelled (v : ℤ) (x : Text) : splitFirst (labelled v x) = (v,x) := by
  rw [splitFirst,takeWhile_labelled,dropWhile_labelled,value_int,List.tail_cons]

end Decimal
