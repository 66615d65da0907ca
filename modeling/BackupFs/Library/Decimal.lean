import Mathlib.Data.List.Basic
import Mathlib.Tactic

namespace Decimal

abbrev Text := List UInt8

def space : UInt8 := 32
def minus : UInt8 := 45

def isDigit (b : UInt8) : Prop := 48 ≤ b.toNat ∧ b.toNat ≤ 57

def nat (n : ℕ) : Text := (Nat.toDigits 10 n).map Char.toUInt8

def int : ℤ → Text
  | .ofNat n => nat n
  | .negSucc n => minus :: nat (n+1)

def charOf (b : UInt8) : Char := Char.ofNat b.toNat

theorem digit_char_bounds {c : Char} (h : c.isDigit = true) : 48 ≤ c.toNat ∧ c.toNat ≤ 57 := by
  simp only [Char.isDigit, Bool.and_eq_true, decide_eq_true_eq] at h
  exact ⟨UInt32.le_iff_toNat_le.mp h.1, UInt32.le_iff_toNat_le.mp h.2⟩

theorem toNat_toUInt8 {c : Char} (h : c.isDigit = true) : c.toUInt8.toNat = c.toNat := by
  have hb := digit_char_bounds h
  change c.toNat % 256 = c.toNat
  omega

theorem charOf_toUInt8 {c : Char} (h : c.isDigit = true) : charOf c.toUInt8 = c := by
  rw [charOf, toNat_toUInt8 h]
  exact Char.ofNat_toNat c

theorem isDigit_of_mem_nat {n : ℕ} {b : UInt8} (h : b ∈ nat n) : isDigit b := by
  obtain ⟨c,hc,rfl⟩ := List.mem_map.mp h
  have hd := Nat.isDigit_of_mem_toDigits (by decide) (by decide) hc
  rw [isDigit, toNat_toUInt8 hd]
  exact digit_char_bounds hd

theorem nat_chars (n : ℕ) : (nat n).map charOf = Nat.toDigits 10 n := by
  rw [nat, List.map_map]
  refine (List.map_congr_left fun c hc => ?_).trans (List.map_id _)
  exact charOf_toUInt8 (Nat.isDigit_of_mem_toDigits (by decide) (by decide) hc)

theorem nat_injective : Function.Injective nat := by
  intro m n h
  have hd : Nat.toDigits 10 m = Nat.toDigits 10 n := by rw [← nat_chars,← nat_chars,h]
  have hv := congrArg (fun cs => Nat.ofDigitChars 10 cs 0) hd
  simpa only [Nat.ofDigitChars_ten_toDigits] using hv

theorem nat_ne_nil (n : ℕ) : nat n ≠ [] := by
  simp [nat,Nat.toDigits_ne_nil]

theorem minus_not_mem_nat (n : ℕ) : minus ∉ nat n := fun h => by
  have hd := isDigit_of_mem_nat h
  simp [isDigit,minus] at hd

theorem mem_int {v : ℤ} {b : UInt8} (h : b ∈ int v) : b = minus ∨ isDigit b := by
  cases v with
  | ofNat n => exact .inr (isDigit_of_mem_nat h)
  | negSucc n =>
    rcases List.mem_cons.mp h with rfl | h
    · exact .inl rfl
    · exact .inr (isDigit_of_mem_nat h)

theorem int_ne_nil (v : ℤ) : int v ≠ [] := by
  cases v <;> simp [int,nat_ne_nil]

theorem int_injective : Function.Injective int := by
  intro v w h
  cases v with
  | ofNat m =>
    cases w with
    | ofNat n => exact congrArg Int.ofNat (nat_injective h)
    | negSucc n =>
      have hm : nat m = minus :: nat (n+1) := h
      exact absurd (hm ▸ List.mem_cons_self) (minus_not_mem_nat m)
  | negSucc m =>
    cases w with
    | ofNat n =>
      have hn : nat n = minus :: nat (m+1) := h.symm
      exact absurd (hn ▸ List.mem_cons_self) (minus_not_mem_nat n)
    | negSucc n =>
      have hn := nat_injective (List.cons.inj h).2
      exact congrArg Int.negSucc (by omega)

theorem space_not_mem_int (v : ℤ) : space ∉ int v := fun h => by
  rcases mem_int h with hm | hd
  · simp [space,minus] at hm
  · simp [isDigit,space] at hd

theorem nat_length (n : ℕ) : (nat n).length = (Nat.toDigits 10 n).length := List.length_map _

theorem nat_length_le {n k : ℕ} (hk : 0 < k) : (nat n).length ≤ k ↔ n < 10 ^ k := by
  rw [nat_length]
  exact Nat.length_toDigits_le_iff (by decide) hk

theorem nat_length_mono {m n : ℕ} (h : m ≤ n) : (nat m).length ≤ (nat n).length := by
  have hpos : 0 < (nat n).length := List.length_pos_iff.mpr (nat_ne_nil n)
  exact (nat_length_le hpos).mpr (h.trans_lt ((nat_length_le hpos).mp le_rfl))

theorem int_natCast (n : ℕ) : int n = nat n := rfl

theorem int_length_mono {v w : ℤ} (h : 0 ≤ v) (hvw : v ≤ w) :
    (int v).length ≤ (int w).length := by
  lift v to ℕ using h
  lift w to ℕ using by omega
  rw [int_natCast,int_natCast]
  exact nat_length_mono (by omega)

def labelled (v : ℤ) (x : Text) : Text := int v ++ space :: x

theorem takeWhile_labelled (v : ℤ) (x : Text) :
    (labelled v x).takeWhile (· != space) = int v := by
  have hd : ∀ b ∈ int v, (b != space) = true := fun b hb =>
    bne_iff_ne.mpr fun h => space_not_mem_int v (h ▸ hb)
  rw [labelled,List.takeWhile_append_of_pos hd]
  simp

theorem dropWhile_labelled (v : ℤ) (x : Text) :
    (labelled v x).dropWhile (· != space) = space :: x := by
  have hd : ∀ b ∈ int v, (b != space) = true := fun b hb =>
    bne_iff_ne.mpr fun h => space_not_mem_int v (h ▸ hb)
  rw [labelled,List.dropWhile_append_of_pos hd]
  simp

theorem labelled_inj {v w : ℤ} {x y : Text} : labelled v x = labelled w y ↔ v = w ∧ x = y := by
  refine ⟨fun h => ⟨?_,?_⟩,fun h => by rw [h.1,h.2]⟩
  · apply int_injective
    rw [← takeWhile_labelled v x,h,takeWhile_labelled]
  · have ht : space :: x = space :: y := by
      rw [← dropWhile_labelled v x,h,dropWhile_labelled]
    exact (List.cons.inj ht).2

theorem labelled_length (v : ℤ) (x : Text) :
    (labelled v x).length = (int v).length + 1 + x.length := by
  rw [labelled,List.length_append,List.length_cons]
  omega

theorem mem_labelled {v : ℤ} {x : Text} {b : UInt8} :
    b ∈ labelled v x ↔ b ∈ int v ∨ b = space ∨ b ∈ x := by
  simp [labelled]

theorem labelled_ne_self (v : ℤ) (x : Text) : labelled v x ≠ x := fun h => by
  have hl := congrArg List.length h
  simp only [labelled,List.length_append,List.length_cons] at hl
  omega

theorem labelled_ne_of_head {v : ℤ} {x y : Text} {b : UInt8} (hm : b ≠ minus)
    (hd : ¬ isDigit b) : labelled v x ≠ b :: y := fun h => by
  cases hv : int v with
  | nil => exact int_ne_nil v hv
  | cons c cs =>
    have hc : c = b := by
      have h' := h
      rw [labelled,hv] at h'
      exact (List.cons.inj h').1
    rcases mem_int (v := v) (b := c) (hv ▸ List.mem_cons_self) with he | he
    · exact hm (hc.symm.trans he)
    · exact hd (hc ▸ he)

end Decimal
