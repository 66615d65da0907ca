import BackupFs.Chain.History
import BackupFs.Library.Words
import Mathlib.Data.Set.Card
import Mathlib.Data.Int.Interval

namespace BackupFs

open Numbered Transition Words

-- struct query of bkpctl.c: `oldest` before `youngest`
structure UserQuery where
  name : ℕ
  version : Int
  oldest : Int
  youngest : Int
  buff : Bytes
  deriving DecidableEq, Repr

def Query.bytes (q : Query) : Bytes :=
  word 8 q.name ++ (int32 q.version ++ (int32 q.youngest ++ (int32 q.oldest ++ q.buff)))

def userQuery (b : Bytes) : UserQuery where
  name := value (b.take 8)
  version := readInt32 (b.drop 8)
  oldest := readInt32 (b.drop 12)
  youngest := readInt32 (b.drop 16)
  buff := b.drop 20

theorem userQuery_fields (q : Query) : (userQuery q.bytes).version = wrapInt q.version ∧
    (userQuery q.bytes).oldest = wrapInt q.youngest ∧
      (userQuery q.bytes).youngest = wrapInt q.oldest ∧ (userQuery q.bytes).buff = q.buff := by
  have h1 : q.bytes.drop 8 =
      int32 q.version ++ (int32 q.youngest ++ (int32 q.oldest ++ q.buff)) :=
    List.drop_left' (word_length 8 _)
  have h2 : q.bytes.drop 12 = int32 q.youngest ++ (int32 q.oldest ++ q.buff) := by
    rw [show 12 = 8 + 4 from rfl,← List.drop_drop,h1]
    exact List.drop_left' (int32_length _)
  have h3 : q.bytes.drop 16 = int32 q.oldest ++ q.buff := by
    rw [show 16 = 12 + 4 from rfl,← List.drop_drop,h2]
    exact List.drop_left' (int32_length _)
  have h4 : q.bytes.drop 20 = q.buff := by
    rw [show 20 = 16 + 4 from rfl,← List.drop_drop,h3]
    exact List.drop_left' (int32_length _)
  refine ⟨?_,?_,?_,h4⟩
  · rw [userQuery,h1,readInt32_int32,wrapInt]
  · rw [userQuery,h2,readInt32_int32,wrapInt]
  · rw [userQuery,h3,readInt32_int32,wrapInt]

-- for (i = q->oldest; ++j <= N; i--) with the lines it prints
def listLoop (inputFile : Name) : ℕ → Int → List Name
  | 0, _ => []
  | j + 1, i =>
    if i > 0 then backupName i inputFile :: listLoop inputFile j (wrapInt (i - 1))
    else listLoop inputFile j (wrapInt (i - 1))

def listCommand (L : Lower) (J : Junk) (f : File) (inputFile : Name) (version : Int) (s : Sys) :
    Option (List Name) :=
  match bkpfsUnlockedIoctl L J f 1003 (clientRequest inputFile version) s with
  | (.returned 0,_,some q) => some (listLoop inputFile N.toNat (userQuery q.bytes).oldest)
  | _ => none

def descend : ℕ → Int → List Int
  | 0, _ => []
  | k + 1, i => i :: descend k (i - 1)

theorem mem_descend {k : ℕ} {i v : Int} : v ∈ descend k i ↔ i - k < v ∧ v ≤ i := by
  induction k generalizing i with
  | zero =>
    simp only [descend,List.not_mem_nil,false_iff]
    omega
  | succ k ih =>
    rw [descend,List.mem_cons,ih]
    omega

theorem descend_pairwise (k : ℕ) (i : Int) : (descend k i).Pairwise (· > ·) := by
  induction k generalizing i with
  | zero => exact .nil
  | succ k ih =>
    refine List.pairwise_cons.mpr ⟨fun v hv => ?_,ih (i-1)⟩
    have hle := (mem_descend.mp hv).2
    omega

theorem listLoop_descend (x : Name) (j : ℕ) {i : Int} (hj : -INT_MAX - 1 + j ≤ i + 1)
    (hm : i ≤ INT_MAX) :
    listLoop x j i = (descend (min j i.toNat) i).map fun v => backupName v x := by
  induction j generalizing i with
  | zero => simp [listLoop,descend]
  | succ j ih =>
    have hrest : listLoop x j (wrapInt (i - 1)) =
        (descend (min j (i - 1).toNat) (i - 1)).map fun v => backupName v x := by
      cases j with
      | zero => simp [listLoop,descend]
      | succ j =>
        rw [wrapInt_low (by push_cast at hj; omega) (by omega)]
        exact ih (by push_cast at hj ⊢; omega) (by omega)
    rw [listLoop,hrest]
    split_ifs with hi
    · have hmin : min (j + 1) i.toNat = min j (i - 1).toNat + 1 := by omega
      rw [hmin,descend,List.map_cons]
    · have hz : i.toNat = 0 := by omega
      have hz' : (i - 1).toNat = 0 := by omega
      simp [hz,hz',descend]

theorem listLoop_wraps (x : Name) (j : ℕ) {i : Int} (hi : -INT_MAX - 1 ≤ i)
    (hj : i + 1 < -INT_MAX - 1 + j) : listLoop x j i ≠ [] := by
  induction j generalizing i with
  | zero => omega
  | succ j ih =>
    rw [listLoop]
    split_ifs with hp
    · simp
    · rcases eq_or_lt_of_le hi with rfl | hlt
      · cases j with
        | zero => omega
        | succ j =>
          have hw : wrapInt (-INT_MAX - 1 - 1) = INT_MAX := by decide
          rw [hw,listLoop,if_pos (by decide)]
          simp
      · have hm : i - 1 ≤ INT_MAX := by
          rw [INT_MAX]
          omega
        rw [wrapInt_low (by omega) hm]
        exact ih (by omega) (by push_cast at hj; omega)

def ShowsTruth (n : Name) (S : Set Int) (lines : List Name) : Prop :=
  ∃ vs : List Int, vs.Pairwise (· > ·) ∧ (∀ v, v ∈ vs ↔ v ∈ S) ∧
    lines = vs.map fun v => backupName v n

theorem listCommand_granted {L : Lower} (hL : L.Grants) (J : Junk) (f : File) (x : Name)
    (version : Int) (s : Sys) : listCommand L J f x version s =
      some (listLoop x N.toNat (wrapInt (counter L J f s.disk))) := by
  rw [listCommand,ioctl_list J f s hL.lowerFile,list_delivers J f s hL.copyToUser]
  exact congrArg (fun i => some (listLoop x N.toNat i)) (userQuery_fields _).2.1

theorem showsTruth_descend {n : Name} {S : Set Int} {k : ℕ} {i : Int} :
    ShowsTruth n S ((descend k i).map fun v => backupName v n) ↔
      ∀ v, i - k < v ∧ v ≤ i ↔ v ∈ S := by
  have hinj : Function.Injective fun v => backupName v n := fun _ _ h => (backupName_inj.mp h).1
  constructor
  · rintro ⟨vs,_,hmem,hlines⟩ v
    rw [← hmem,← hinj.list_map hlines,mem_descend]
  · intro h
    exact ⟨descend k i,descend_pairwise k i,fun v => mem_descend.trans (h v),rfl⟩

theorem numbers_laid {f : File} {d : Disk} {lo : Int} {xs : List Bytes}
    (h : Laid lo xs (chain f d).backups) :
    (∀ v, v ∈ numbers f d ↔ lo ≤ v ∧ v < lo + xs.length) ∧
      (numbers f d).encard = xs.length := by
  have hmem : ∀ v, v ∈ numbers f d ↔ lo ≤ v ∧ v < lo + xs.length := by
    intro v
    rw [numbers_eq]
    exact laid_isSome h v
  have hset : numbers f d = Finset.Ico lo (lo + xs.length) := by
    ext v
    rw [hmem,Finset.coe_Ico]
    rfl
  refine ⟨hmem,?_⟩
  rw [hset,Set.encard_coe_eq_coe_finsetCard,Int.card_Ico,add_sub_cancel_left,Int.toNat_natCast]

theorem holds_shows {f : File} {d : Disk} {H : History} {lo c : Int}
    (h : Holds (chain f d) H lo) (hc : H.items ≠ [] → c = lo + H.items.length - 1)
    (hlow : -INT_MAX - 1 ≤ c) (hhigh : c ≤ INT_MAX) :
    ShowsTruth f.name (numbers f d) (listLoop f.name N.toNat c) ↔
      (numbers f d).encard = (min N.toNat c.toNat : ℕ) ∧ -INT_MAX - 1 + N ≤ c + 1 := by
  obtain ⟨hmem,hcard⟩ := numbers_laid h.laid
  have hlo := h.low
  have hN : ((N.toNat : ℕ) : Int) = N := by decide
  rw [hcard,Nat.cast_inj]
  have hempty : H.items = [] ∨ 0 < H.items.length ∧ c = lo + H.items.length - 1 := by
    rcases eq_or_ne H.items [] with he | hne
    · exact .inl he
    · exact .inr ⟨List.length_pos_iff.mpr hne,hc hne⟩
  rcases lt_or_ge (c + 1) (-INT_MAX - 1 + N) with hwrap | hwrap
  · refine ⟨?_,fun hr => absurd hr.2 (by omega)⟩
    rintro ⟨vs,_,hvs,hlines⟩
    have hnil : H.items = [] := by
      rcases hempty with he | ⟨hpos,hce⟩
      · exact he
      · rw [INT_MAX,N] at hwrap
        omega
    have hvs' : vs = [] := by
      rw [List.eq_nil_iff_forall_not_mem]
      intro v hv
      have hlv := (hmem v).mp ((hvs v).mp hv)
      rw [hnil,List.length_nil] at hlv
      omega
    rw [hvs'] at hlines
    exact absurd hlines (listLoop_wraps f.name N.toNat hlow (by rw [hN]; exact hwrap))
  · rw [listLoop_descend f.name N.toNat (by rw [hN]; exact hwrap) hhigh,showsTruth_descend]
    simp only [hmem]
    generalize hk : min N.toNat c.toNat = k
    have hkc : k ≤ c.toNat := by omega
    constructor
    · intro hv
      refine ⟨?_,hwrap⟩
      have h1 := hv c
      have h2 := hv lo
      have h3 := hv (c - k + 1)
      rcases hempty with he | ⟨hpos,hce⟩
      · rw [he,List.length_nil] at h1 h2 h3 ⊢
        omega
      · omega
    · rintro ⟨hlen,_⟩ v
      rcases hempty with he | ⟨hpos,hce⟩
      · rw [he,List.length_nil] at hlen ⊢
        omega
      · omega

theorem listed_numbers_exact {f : File} {s t : Sys} {es : List Edit} (hs : Sound f s.disk)
    (hn : ∀ v, s.disk.dir (backupName v f.name) = none) (run : Run (EditStep f) s es t)
    {L : Lower} (hL : L.Grants) (J : Junk) (version : Int) :
    ∃ lines, listCommand L J f f.name version t = some lines ∧
      (ShowsTruth f.name (numbers f t.disk) lines ↔
        (numbers f t.disk).encard = (min N.toNat (wrapInt (counter L J f t.disk)).toNat : ℕ) ∧
          -INT_MAX - 1 + N ≤ wrapInt (counter L J f t.disk) + 1) := by
  obtain ⟨lo,hh⟩ := (simulates_run hs hn run).holds
  obtain ⟨hlow,hhigh⟩ := wrapInt_bounds (counter L J f t.disk)
  refine ⟨_,listCommand_granted hL J f f.name version t,holds_shows hh ?_ hlow hhigh⟩
  intro hne
  have hlo := hh.low
  have hmax := hh.high hne
  have hpos := List.length_pos_iff.mpr hne
  rw [counter_revision hL (hh.revision hne)]
  exact wrapInt_eq (by omega) hmax

def oldestDeleted : Sys :=
  (bkpfsUnlockedIoctl {} {} aTxt 1000 (clientRequest aTxt.name 1)
    (bkpfsWrite {} {} aTxt 0 (bytesOf "two")
      (bkpfsWrite {} {} aTxt 0 (bytesOf "one") ⟨Disk.single aTxt {},[]⟩).2).2).2.1

theorem oldestDeleted_reached : Run (EditStep aTxt) ⟨Disk.single aTxt {},[]⟩
    [.write {} {} 0 (bytesOf "one"),.write {} {} 0 (bytesOf "two"),
      .deleteOldest {} {} (clientRequest aTxt.name 1)] oldestDeleted := by
  have h1 : Run (EditStep aTxt) ⟨Disk.single aTxt {},[]⟩ _ _ :=
    Run.nil.snoc (@EditStep.write aTxt _ {} {} 0 (bytesOf "one") grants_default
      (by decide +kernel))
  have h2 := h1.snoc (@EditStep.write aTxt _ {} {} 0 (bytesOf "two") grants_default
    (by decide +kernel))
  refine h2.snoc (.deleteOldest grants_default (clientRequest_file _ _) ?_)
  obtain ⟨lo,hh⟩ := (simulates_run (sound_single aTxt {}) (Disk.single_backups aTxt {}) h2).holds
  have hr := hh.revision (by decide +kernel)
  change some 2 = some (lo + 2 - 1) at hr
  have hlo : lo = 1 := by
    have hv := Option.some.inj hr
    omega
  rw [numbers_eq]
  subst hlo
  have hl : Laid 1 [[],bytesOf "one"] (chain aTxt _).backups := hh.laid
  exact laid_isLeast hl

theorem listed_numbers_exact_oldestDeleted :
    ∃ lines, listCommand {} {} aTxt aTxt.name 0 oldestDeleted = some lines ∧
      (ShowsTruth aTxt.name (numbers aTxt oldestDeleted.disk) lines ↔
        (numbers aTxt oldestDeleted.disk).encard =
            (min N.toNat (wrapInt (counter {} {} aTxt oldestDeleted.disk)).toNat : ℕ) ∧
          -INT_MAX - 1 + N ≤ wrapInt (counter {} {} aTxt oldestDeleted.disk) + 1) :=
  listed_numbers_exact (sound_single aTxt {}) (Disk.single_backups aTxt {}) oldestDeleted_reached
    grants_default {} 0

theorem listed_numbers_stale : ¬ ∀ (f : File) (s t : Sys) (es : List Edit), Sound f s.disk →
    (∀ v, s.disk.dir (backupName v f.name) = none) → Run (EditStep f) s es t →
      ∀ (L : Lower) (J : Junk) (version : Int) (lines : List Name), L.Grants →
        listCommand L J f f.name version t = some lines →
          ShowsTruth f.name (numbers f t.disk) lines := by
  intro h
  obtain ⟨vs,_,hmem,hlines⟩ := h aTxt _ _ _ (sound_single aTxt {}) (Disk.single_backups aTxt {})
    oldestDeleted_reached {} {} 0 [backupName 2 aTxt.name,backupName 1 aTxt.name] grants_default
    (by decide +kernel)
  have hin : backupName 1 aTxt.name ∈ vs.map fun v => backupName v aTxt.name := by
    rw [← hlines]
    simp
  obtain ⟨v,hv,he⟩ := List.mem_map.mp hin
  rw [(backupName_inj.mp he).1,hmem] at hv
  have hgone : (oldestDeleted.disk.dir (backupName 1 aTxt.name)).isSome = false := by
    decide +kernel
  exact Bool.false_ne_true (hgone.symm.trans hv)

end BackupFs
