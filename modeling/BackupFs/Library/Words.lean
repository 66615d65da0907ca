import Mathlib.Tactic

namespace Words

def word : ℕ → ℕ → List UInt8
  | 0, _ => []
  | k + 1, n => n.toUInt8 :: word k (n / 256)

def value (bs : List UInt8) : ℕ := bs.foldr (fun b n => b.toNat + 256 * n) 0

def int32 (x : ℤ) : List UInt8 := word 4 (x % 4294967296).toNat

def readInt32 : List UInt8 → ℤ
  | a :: b :: c :: d :: _ => (value [a,b,c,d] : ℤ).bmod 4294967296
  | _ => 0

@[simp] theorem word_length (k n : ℕ) : (word k n).length = k := by
  induction k generalizing n with
  | zero => rfl
  | succ k ih => rw [word,List.length_cons,ih]

theorem value_word (k n : ℕ) : value (word k n) = n % 256 ^ k := by
  induction k generalizing n with
  | zero => simp [word,value,Nat.mod_one]
  | succ k ih =>
    have htail : value (word (k+1) n) = n.toUInt8.toNat + 256 * value (word k (n / 256)) := rfl
    have hhead : n.toUInt8.toNat = n % 256 := UInt8.toNat_ofNat'
    rw [htail,hhead,ih,pow_succ',Nat.mod_mul]

@[simp] theorem int32_length (x : ℤ) : (int32 x).length = 4 := word_length 4 _

theorem readInt32_value {bs : List UInt8} (h : 4 ≤ bs.length) :
    readInt32 bs = (value (bs.take 4) : ℤ).bmod 4294967296 := by
  match bs,h with
  | a :: b :: c :: d :: bs,_ => rfl

theorem readInt32_short {bs : List UInt8} (h : bs.length < 4) : readInt32 bs = 0 := by
  match bs,h with
  | [],_ | [_],_ | [_,_],_ | [_,_,_],_ => rfl

theorem readInt32_int32 (x : ℤ) (rest : List UInt8) :
    readInt32 (int32 x ++ rest) = x.bmod 4294967296 := by
  have htake : (int32 x ++ rest).take 4 = int32 x := List.take_left' (int32_length x)
  have hvalue : (value (int32 x) : ℤ) = x % 4294967296 := by
    have hpow : (256 : ℕ) ^ 4 = 4294967296 := by norm_num
    rw [int32,value_word,hpow]
    omega
  have hmod := Int.emod_bmod x 4294967296
  rw [Nat.cast_ofNat] at hmod
  rw [readInt32_value (by simp),htake,hvalue,hmod]

theorem value_append (as bs : List UInt8) :
    value (as ++ bs) = value as + 256 ^ as.length * value bs := by
  induction as with
  | nil => simp [value]
  | cons a as ih =>
    have hcons (cs : List UInt8) : value (a :: cs) = a.toNat + 256 * value cs := rfl
    rw [List.cons_append,hcons,hcons,ih,List.length_cons,pow_succ]
    ring

theorem value_lt (bs : List UInt8) : value bs < 256 ^ bs.length := by
  induction bs with
  | nil => simp [value]
  | cons b bs ih =>
    have hcons : value (b :: bs) = b.toNat + 256 * value bs := rfl
    have hb := b.toNat_lt
    rw [hcons,List.length_cons,pow_succ]
    omega

theorem readInt32_bounds (bs : List UInt8) :
    -2147483648 ≤ readInt32 bs ∧ readInt32 bs ≤ 2147483647 := by
  by_cases h : 4 ≤ bs.length
  · have h1 := Int.le_bmod (x := value (bs.take 4)) (m := 4294967296) (by norm_num)
    have h2 := Int.bmod_lt (x := value (bs.take 4)) (m := 4294967296) (by norm_num)
    rw [readInt32_value h]
    omega
  · rw [readInt32_short (Nat.lt_of_not_le h)]
    norm_num

theorem int32_inj {x y : ℤ} {as bs : List UInt8} (hx : -2147483648 ≤ x ∧ x ≤ 2147483647)
    (hy : -2147483648 ≤ y ∧ y ≤ 2147483647) (h : int32 x ++ as = int32 y ++ bs) : x = y := by
  have hread := congrArg readInt32 h
  rw [readInt32_int32,readInt32_int32,Int.bmod_eq_of_le,Int.bmod_eq_of_le] at hread <;> omega

def overlay (as bs : List UInt8) : List UInt8 := as ++ bs.drop as.length

section
variable {as bs cs ds : List UInt8}

@[simp] theorem overlay_nil : overlay [] bs = bs := rfl

theorem overlay_whole (h : bs.length ≤ as.length) : overlay as (bs ++ cs) =
    as ++ cs.drop (as.length - bs.length) := by
  rw [overlay,List.drop_append,List.drop_of_length_le h,List.nil_append]

theorem overlay_part (h : as.length ≤ bs.length) :
    overlay as (bs ++ cs) = overlay as bs ++ cs := by
  rw [overlay,overlay,List.drop_append_of_le_length h,List.append_assoc]

theorem overlay_length (h : as.length ≤ bs.length) : (overlay as bs).length = bs.length := by
  rw [overlay,List.length_append,List.length_drop]
  omega

theorem readInt32_append (h : 4 ≤ as.length) : readInt32 (as ++ bs) = readInt32 as := by
  have hlong : 4 ≤ (as ++ bs).length := by
    rw [List.length_append]
    omega
  rw [readInt32_value h,readInt32_value hlong,List.take_append_of_le_length h]

theorem readInt32_overlay (x : ℤ) :
    readInt32 (overlay as (int32 x ++ cs)) = readInt32 (overlay as (int32 x)) := by
  rcases le_total as.length 4 with h | h
  · have hle : as.length ≤ (int32 x).length := h.trans (int32_length x).ge
    rw [overlay_part hle,readInt32_append]
    rw [overlay_length hle,int32_length]
  · rw [overlay,overlay,readInt32_append h,readInt32_append h]

theorem readInt32_overlay_neg (h : as.length < 4) : readInt32 (overlay as (int32 (-1))) < 0 := by
  have hlt := value_lt as
  have hall : int32 (-1) = [255,255,255,255] := by decide
  have hlast : overlay as (int32 (-1)) = as ++ List.replicate (4 - as.length) 255 := by
    rw [overlay,hall]
    interval_cases as.length <;> rfl
  have hlen : (overlay as (int32 (-1))).length = 4 := overlay_length h.le
  rw [readInt32_value hlen.ge,List.take_of_length_le hlen.le,hlast,value_append]
  generalize value as = n at hlt
  interval_cases as.length <;> simp [value] at hlt ⊢ <;> rw [Int.bmod_def] <;> omega

theorem readInt32_overlay_pos (h : as.length < 4) :
    0 < readInt32 (overlay as (int32 16777216)) := by
  have hlt := value_lt as
  have hall : int32 16777216 = [0,0,0,1] := by decide
  have hlast : overlay as (int32 16777216) = as ++ (List.replicate (3 - as.length) 0 ++ [1]) := by
    rw [overlay,hall]
    interval_cases as.length <;> rfl
  have hlen : (overlay as (int32 16777216)).length = 4 := overlay_length h.le
  rw [readInt32_value hlen.ge,List.take_of_length_le hlen.le,hlast,value_append]
  generalize value as = n at hlt
  interval_cases as.length <;> simp [value] at hlt ⊢ <;> rw [Int.bmod_def] <;> omega

end

end Words
