import Mathlib.Data.Fintype.Card
import Mathlib.Order.Interval.Finset.Nat
import Mathlib.Tactic

namespace Ticket

inductive Stage where
  | idle
  | read (a : ℕ)
  | stored (a : ℕ)
  deriving DecidableEq

def Stage.ticket : Stage → Option ℕ
  | .idle => none
  | .read a => some a
  | .stored a => some a

structure State (ι : Type) where
  reg : ℕ
  stage : ι → Stage

def start {ι : Type} : State ι := ⟨0,fun _ => .idle⟩

section
variable {ι : Type} {s : State ι} {a b : ℕ}

structure Filled (s : State ι) : Prop where
  positive : ∀ i a, (s.stage i).ticket = some a → 0 < a
  below : ∀ b, 0 < b → b ≤ s.reg ∨ (∃ i a, (s.stage i).ticket = some a ∧ b ≤ a) →
    ∃ j, (s.stage j).ticket = some b

theorem numbers_le (h : Filled s) {t : Finset ι}
    (ht : ∀ j b, (s.stage j).ticket = some b → ∃ k ∈ t, (s.stage k).ticket = some b) {n : ℕ}
    (hn : n ≤ s.reg ∨ ∃ i a, (s.stage i).ticket = some a ∧ n ≤ a) : n ≤ t.card := by
  have hsub : Finset.Icc 1 n ⊆ t.image fun k => ((s.stage k).ticket).getD 0 := by
    intro b hb
    obtain ⟨h1,h2⟩ := Finset.mem_Icc.mp hb
    obtain ⟨j,hj⟩ := h.below b h1 (hn.imp h2.trans fun ⟨i,a,ha,hle⟩ => ⟨i,a,ha,h2.trans hle⟩)
    obtain ⟨k,hk,hb⟩ := ht j b hj
    exact Finset.mem_image.mpr ⟨k,hk,by rw [hb]; rfl⟩
  have hcard := (Finset.card_le_card hsub).trans Finset.card_image_le
  rwa [Nat.card_Icc,Nat.add_sub_cancel] at hcard

theorem filled_start : Filled (start : State ι) := by
  refine ⟨fun i a h => (by cases h),?_⟩
  rintro b hb (h | ⟨i,a,h,_⟩)
  · exact absurd hb (Nat.not_lt.mpr h)
  · cases h

def Clash (s : State ι) : Prop :=
  ∃ i j a, i ≠ j ∧ (s.stage i).ticket = some a ∧ (s.stage j).ticket = some a

structure Serial (s : State ι) : Prop where
  apart : ∀ i j a, (s.stage i).ticket = some a → (s.stage j).ticket = some a → i = j
  reading : ∀ i a, s.stage i = .read a → a = s.reg + 1
  stored : ∀ i a, s.stage i = .stored a → a ≤ s.reg

theorem serial_start : Serial (start : State ι) where
  apart i j a h := by cases h
  reading i a h := by cases h
  stored i a h := by cases h

end

section
variable {ι : Type} [DecidableEq ι]

def tick (s : State ι) (i : ι) : State ι :=
  match s.stage i with
  | .idle => ⟨s.reg,Function.update s.stage i (.read (s.reg + 1))⟩
  | .read a => ⟨a,Function.update s.stage i (.stored a)⟩
  | .stored _ => s

def run (sched : List ι) (s : State ι) : State ι := sched.foldl tick s

def Atomic : List ι → List ι → Prop
  | _,[] => True
  | before,i :: rest =>
    (i ∈ before ∨ ∀ j ∈ before, before.count j ≠ 1) ∧ Atomic (before ++ [i]) rest

instance Atomic.decide : (before sched : List ι) → Decidable (Atomic before sched)
  | _,[] => isTrue trivial
  | before,i :: rest =>
    have : Decidable (Atomic (before ++ [i]) rest) := Atomic.decide (before ++ [i]) rest
    inferInstanceAs (Decidable (_ ∧ _))

variable {s : State ι} {i j : ι} {a b : ℕ} {before sched : List ι}

theorem stage_idle (h : s.stage i = .idle) : (tick s i).stage i = .read (s.reg + 1) := by
  unfold tick
  rw [h]
  exact Function.update_self ..

theorem reg_idle (h : s.stage i = .idle) : (tick s i).reg = s.reg := by
  unfold tick
  rw [h]

theorem stage_read (h : s.stage i = .read a) : (tick s i).stage i = .stored a := by
  unfold tick
  rw [h]
  exact Function.update_self ..

theorem reg_read (h : s.stage i = .read a) : (tick s i).reg = a := by
  unfold tick
  rw [h]

theorem tick_stored (h : s.stage i = .stored a) : tick s i = s := by
  unfold tick
  rw [h]

theorem tick_other (h : j ≠ i) : (tick s i).stage j = s.stage j := by
  unfold tick
  cases s.stage i with
  | idle | read a => exact Function.update_of_ne h ..
  | stored a => rfl

theorem ticket_kept (h : (s.stage j).ticket = some a) :
    ((tick s i).stage j).ticket = some a := by
  rcases eq_or_ne j i with rfl | hj
  · cases hs : s.stage j with
    | idle =>
      rw [hs] at h
      cases h
    | read b =>
      rw [stage_read hs]
      rwa [hs] at h
    | stored b => rwa [tick_stored hs]
  · rwa [tick_other hj]

theorem ticket_self (s : State ι) (i : ι) : ∃ a, ((tick s i).stage i).ticket = some a := by
  cases hs : s.stage i with
  | idle => exact ⟨s.reg + 1,by rw [stage_idle hs]; rfl⟩
  | read a => exact ⟨a,by rw [stage_read hs]; rfl⟩
  | stored a => exact ⟨a,by rw [tick_stored hs,hs]; rfl⟩

theorem ticket_tick (h : ((tick s i).stage j).ticket = some a) :
    (s.stage j).ticket = some a ∨ j = i ∧ s.stage i = .idle ∧ a = s.reg + 1 := by
  rcases eq_or_ne j i with rfl | hj
  · cases hs : s.stage j with
    | idle =>
      rw [stage_idle hs] at h
      exact .inr ⟨rfl,rfl,(Option.some.inj h).symm⟩
    | read b =>
      rw [stage_read hs] at h
      exact .inl h
    | stored b =>
      rw [tick_stored hs,hs] at h
      exact .inl h
  · rw [tick_other hj] at h
    exact .inl h

structure Follows (before : List ι) (s : State ι) : Prop where
  idle : ∀ i, s.stage i = .idle ↔ before.count i = 0
  reading : ∀ i, (∃ a, s.stage i = .read a) ↔ before.count i = 1

theorem follows_start : Follows [] (start : State ι) where
  idle i := by simp [start]
  reading i := by simp [start]

theorem follows_tick (h : Follows before s) (i : ι) : Follows (before ++ [i]) (tick s i) := by
  have hcount (j : ι) (hj : j ≠ i) : (before ++ [i]).count j = before.count j := by
    rw [List.count_append,List.count_singleton,beq_eq_false_iff_ne.mpr hj.symm]
    rfl
  have hself : (before ++ [i]).count i = before.count i + 1 := by
    rw [List.count_append,List.count_singleton_self]
  have h0 := h.idle i
  have h1 := h.reading i
  constructor
  all_goals
    intro j
    rcases eq_or_ne j i with rfl | hj
  · rw [hself]
    cases hs : s.stage j with
    | idle => simp [stage_idle hs]
    | read a => simp [stage_read hs]
    | stored a => simp [tick_stored hs,hs]
  · rw [hcount j hj,tick_other hj]
    exact h.idle j
  · rw [hself]
    rw [Nat.add_eq_right]
    cases hs : s.stage j with
    | idle => simp [stage_idle hs,h0.mp hs]
    | read a =>
      rw [hs] at h0
      simp [stage_read hs,← h0]
    | stored a =>
      rw [hs] at h0
      simp [tick_stored hs,hs,← h0]
  · rw [hcount j hj,tick_other hj]
    exact h.reading j

theorem reg_tick : (tick s i).reg = s.reg ∨ s.stage i = .read (tick s i).reg := by
  cases hs : s.stage i with
  | idle => exact .inl (reg_idle hs)
  | read a => exact .inr (by rw [reg_read hs])
  | stored a => exact .inl (by rw [tick_stored hs])

theorem filled_tick (h : Filled s) (i : ι) : Filled (tick s i) := by
  have hold (b : ℕ) (hb : 0 < b)
      (hle : b ≤ s.reg ∨ ∃ i a, (s.stage i).ticket = some a ∧ b ≤ a) :
      ∃ j, ((tick s i).stage j).ticket = some b := by
    obtain ⟨j,hj⟩ := h.below b hb hle
    exact ⟨j,ticket_kept hj⟩
  refine ⟨fun j a ha => ?_,?_⟩
  · rcases ticket_tick ha with hs | ⟨_,_,rfl⟩
    · exact h.positive j a hs
    · exact Nat.succ_pos _
  rintro b hb (hle | ⟨j,a,ha,hle⟩)
  · rcases reg_tick (s := s) (i := i) with he | he
    · exact hold b hb (.inl (he ▸ hle))
    · exact hold b hb (.inr ⟨i,_,by rw [he]; rfl,hle⟩)
  · rcases ticket_tick ha with hs | ⟨_,hs,rfl⟩
    · exact hold b hb (.inr ⟨j,a,hs,hle⟩)
    · rcases Nat.le_succ_iff.mp hle with hle | rfl
      · exact hold b hb (.inl hle)
      · refine ⟨i,?_⟩
        rw [stage_idle hs]
        rfl

theorem clash_tick (h : Clash s) (i : ι) : Clash (tick s i) := by
  obtain ⟨j,k,a,hne,hj,hk⟩ := h
  exact ⟨j,k,a,hne,ticket_kept hj,ticket_kept hk⟩

theorem serial_read (h : Serial s) (hs : s.stage i = .idle)
    (hq : ∀ j a, s.stage j ≠ .read a) : Serial (tick s i) := by
  have hlow (j : ι) (a : ℕ) (hj : (s.stage j).ticket = some a) : a ≤ s.reg := by
    cases hst : s.stage j with
    | idle =>
      rw [hst] at hj
      cases hj
    | read b => exact absurd hst (hq j b)
    | stored b =>
      rw [hst] at hj
      cases hj
      exact h.stored j a hst
  refine ⟨fun j k a hj hk => ?_,fun j a hj => ?_,fun j a hj => ?_⟩
  · rcases ticket_tick hj with h1 | ⟨rfl,_,rfl⟩
    · rcases ticket_tick hk with h2 | ⟨rfl,_,rfl⟩
      · exact h.apart j k a h1 h2
      · exact absurd (hlow j _ h1) (by omega)
    · rcases ticket_tick hk with h2 | ⟨rfl,_,_⟩
      · exact absurd (hlow k _ h2) (by omega)
      · rfl
  · rcases eq_or_ne j i with rfl | hne
    · rw [stage_idle hs] at hj
      rw [reg_idle hs]
      exact (Stage.read.inj hj).symm
    · rw [tick_other hne] at hj
      exact absurd hj (hq j a)
  · rcases eq_or_ne j i with rfl | hne
    · rw [stage_idle hs] at hj
      cases hj
    · rw [tick_other hne] at hj
      rw [reg_idle hs]
      exact h.stored j a hj

theorem serial_store (h : Serial s) (hs : s.stage i = .read a) : Serial (tick s i) := by
  have hreg := h.reading i a hs
  have hold (j : ι) (b : ℕ) (hj : ((tick s i).stage j).ticket = some b) :
      (s.stage j).ticket = some b :=
    (ticket_tick hj).resolve_right fun hx => by simp [hs] at hx
  refine ⟨fun j k b hj hk => h.apart j k b (hold j b hj) (hold k b hk),fun j b hj => ?_,
    fun j b hj => ?_⟩
  · rcases eq_or_ne j i with rfl | hne
    · rw [stage_read hs] at hj
      cases hj
    · rw [tick_other hne] at hj
      have hb := h.reading j b hj
      refine absurd (h.apart j i a ?_ (by rw [hs]; rfl)) hne
      rw [hj,hb,hreg]
      rfl
  · rw [reg_read hs]
    rcases eq_or_ne j i with rfl | hne
    · rw [stage_read hs] at hj
      exact (Stage.stored.inj hj).ge
    · rw [tick_other hne] at hj
      have hb := h.stored j b hj
      omega

theorem serial_tick (h : Serial s) (hi : s.stage i = .idle → ∀ j a, s.stage j ≠ .read a) :
    Serial (tick s i) := by
  cases hs : s.stage i with
  | idle => exact serial_read h hs (hi hs)
  | read a => exact serial_store h hs
  | stored a =>
    rw [tick_stored hs]
    exact h

theorem clash_read (h : Serial s) (hs : s.stage i = .idle) (hj : s.stage j = .read a) :
    Clash (tick s i) := by
  have hne : i ≠ j := by
    rintro rfl
    rw [hs] at hj
    cases hj
  refine ⟨i,j,a,hne,?_,ticket_kept (by rw [hj]; rfl)⟩
  rw [stage_idle hs,h.reading j a hj]
  rfl

theorem run_cons : run (i :: sched) s = run sched (tick s i) := rfl

theorem filled_run (h : Filled s) : Filled (run sched s) :=
  List.foldlRecOn sched _ h fun _ h i _ => filled_tick h i

theorem clash_run (h : Clash s) : Clash (run sched s) :=
  List.foldlRecOn sched _ h fun _ h i _ => clash_tick h i

theorem serial_follows (hf : Follows before s) (h : Serial s)
    (hq : i ∈ before ∨ ∀ j ∈ before, before.count j ≠ 1) : Serial (tick s i) := by
  refine serial_tick h fun hs j a hj => ?_
  have h1 : before.count j = 1 := (hf.reading j).mp ⟨a,hj⟩
  rcases hq with hi | hn
  · exact (List.count_pos_iff.mpr hi).ne' ((hf.idle i).mp hs)
  · exact hn j (List.count_pos_iff.mp (h1 ▸ Nat.one_pos)) h1

theorem serial_run (hf : Follows before s) (h : Serial s) :
    (Atomic before sched ∧ Serial (run sched s)) ∨
      (¬ Atomic before sched ∧ Clash (run sched s)) := by
  induction sched generalizing before s with
  | nil => exact .inl ⟨trivial,h⟩
  | cons i rest ih =>
    rw [run_cons,Atomic]
    by_cases hq : i ∈ before ∨ ∀ j ∈ before, before.count j ≠ 1
    · rw [and_iff_right hq]
      exact ih (follows_tick hf i) (serial_follows hf h hq)
    · refine .inr ⟨fun hx => hq hx.1,?_⟩
      push Not at hq
      obtain ⟨hi,j,_,h1⟩ := hq
      obtain ⟨a,hj⟩ := (hf.reading j).mpr h1
      exact clash_run (clash_read h ((hf.idle i).mpr (List.count_eq_zero.mpr hi)) hj)

theorem atomic_iff : Atomic [] sched ↔ Serial (run sched start) :=
  (serial_run follows_start serial_start).elim (fun h => iff_of_true h.1 h.2) fun h =>
    iff_of_false h.1 fun hs => by
      obtain ⟨i,j,a,hne,hi,hj⟩ := h.2
      exact hne (hs.apart i j a hi hj)

theorem clash_iff : Clash (run sched start) ↔ ¬ Atomic [] sched :=
  (serial_run follows_start serial_start).elim
    (fun h => iff_of_false (fun hc => by
      obtain ⟨i,j,a,hne,hi,hj⟩ := hc
      exact hne (h.2.apart i j a hi hj)) (not_not.mpr h.1))
    fun h => iff_of_true h.2 h.1

section
variable {σ : Type} {f : σ → ι → σ} {c : σ} {R : σ → State ι → Prop}

theorem simulate (h0 : R c s) (hs : Filled s)
    (hstep : ∀ c s i, Filled s → R c s → R (f c i) (tick s i)) :
    R (sched.foldl f c) (run sched s) := by
  induction sched generalizing c s with
  | nil => exact h0
  | cons i rest ih => exact ih (hstep c s i hs h0) (filled_tick hs i)

theorem simulate_atomic (h0 : R c s) (hs : Filled s) (hf : Follows before s) (h : Serial s)
    (ha : Atomic before sched) (hstep : ∀ c s i, Filled s → Serial s → Serial (tick s i) →
      R c s → R (f c i) (tick s i)) : R (sched.foldl f c) (run sched s) := by
  induction sched generalizing before c s with
  | nil => exact h0
  | cons i rest ih =>
    have hnext := serial_follows hf h ha.1
    exact ih (hstep c s i hs h hnext h0) (filled_tick hs i) (follows_tick hf i) hnext ha.2

end

end

section
variable {ι : Type} [Fintype ι] {s : State ι} {i : ι} {a : ℕ}

theorem serial_card (h : Serial s) (hf : Filled s) (hd : ∀ i, ∃ a, s.stage i = .stored a) :
    Fintype.card ι ≤ s.reg := by
  have hinj : Set.InjOn (fun i => ((s.stage i).ticket).getD 0) (Finset.univ : Finset ι) := by
    intro i _ j _ he
    obtain ⟨a,ha⟩ := hd i
    obtain ⟨b,hb⟩ := hd j
    dsimp only at he
    rw [ha,hb] at he
    have hab : a = b := he
    exact h.apart i j a (by rw [ha]; rfl) (by rw [hb,hab]; rfl)
  have hsub : Finset.univ.image (fun i => ((s.stage i).ticket).getD 0) ⊆ Finset.Icc 1 s.reg := by
    intro b hb
    obtain ⟨i,_,rfl⟩ := Finset.mem_image.mp hb
    obtain ⟨a,ha⟩ := hd i
    rw [ha]
    exact Finset.mem_Icc.mpr ⟨hf.positive i a (by rw [ha]; rfl),h.stored i a ha⟩
  have hcard := Finset.card_le_card hsub
  rwa [Finset.card_image_of_injOn hinj,Finset.card_univ,Nat.card_Icc,Nat.add_sub_cancel] at hcard

theorem reg_le (h : Filled s) : s.reg ≤ Fintype.card ι :=
  numbers_le h (t := Finset.univ) (fun j _ hj => ⟨j,Finset.mem_univ j,hj⟩) (.inl (le_refl s.reg))

theorem ticket_le (h : Filled s) (ha : (s.stage i).ticket = some a) : a ≤ Fintype.card ι :=
  numbers_le h (t := Finset.univ) (fun j _ hj => ⟨j,Finset.mem_univ j,hj⟩) (.inr ⟨i,a,ha,le_refl a⟩)

variable [DecidableEq ι]

theorem reg_lt_idle (h : Filled s) (hi : s.stage i = .idle) : s.reg < Fintype.card ι := by
  have hle := numbers_le h (t := Finset.univ.erase i) (fun j b hj => by
    refine ⟨j,Finset.mem_erase.mpr ⟨?_,Finset.mem_univ j⟩,hj⟩
    rintro rfl
    rw [hi] at hj
    cases hj) (.inl (le_refl s.reg))
  rw [Finset.card_erase_of_mem (Finset.mem_univ i),Finset.card_univ] at hle
  have hpos := Fintype.card_pos_iff.mpr ⟨i⟩
  omega

theorem reg_lt_clash (h : Filled s) (hc : Clash s) : s.reg < Fintype.card ι := by
  obtain ⟨i,j,a,hne,hi,hj⟩ := hc
  have hle := numbers_le h (t := Finset.univ.erase j) (fun k b hk => by
    rcases eq_or_ne k j with rfl | hkj
    · exact ⟨i,Finset.mem_erase.mpr ⟨hne,Finset.mem_univ i⟩,hi.trans (hj ▸ hk)⟩
    · exact ⟨k,Finset.mem_erase.mpr ⟨hkj,Finset.mem_univ k⟩,hk⟩) (.inl (le_refl s.reg))
  rw [Finset.card_erase_of_mem (Finset.mem_univ j),Finset.card_univ] at hle
  have hpos := Fintype.card_pos_iff.mpr ⟨j⟩
  omega

end

end Ticket
