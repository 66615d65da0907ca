import BackupFs.Versions.Ideal

namespace BackupFs

namespace Versions

namespace Shelf

variable (J : Junk) (a : Shelf)

def WriteSuits : Prop :=
  nextVersion (a.number J) > N → a.Settled (.version (nextVersion (a.number J) - N))

def AllSettled (n : ℕ) : Prop := ∀ v : Int, 1 ≤ v → v ≤ n → a.Settled (.version v)

structure RestoreSuits (v : Int) : Prop where
  own : a.Settled .own ∨ a.entry .own = none ∧ a.entry .restored ≠ none
  swept : a.entry .restored = none → a.entry (.version v) ≠ none →
    ∀ w : Int, 1 ≤ w → w ≤ (a.number J).toNat → w ≠ v → a.Settled (.version w)

structure IoctlSuits (cmd : ℕ) (q : Request) : Prop where
  one : cmd = 1000 → q.version ≠ 0 → a.entry (.version q.version) ≠ none →
    a.hashed (.version q.version) = true
  all : cmd = 1000 → q.version = 0 → a.AllSettled (a.number J).toNat
  restore : cmd = 1001 → a.RestoreSuits J q.version

end Shelf

section
variable {a : Shelf} {k : Slot} {n : ℕ} {err : Int} {J : Junk} {L : Lower} {v : Int}

theorem unsettled (h : ¬ a.Settled k) :
    a.Ghost k ∨ a.hashed k = false ∧ ∃ m, a.entry k = some m := by
  unfold Shelf.Settled at h
  unfold Shelf.Ghost
  cases hh : a.hashed k <;> cases he : a.entry k <;> simp_all

section sweep

theorem sweep_frame (n : ℕ) (err : Int) (a : Shelf) :
    (Shelf.sweep n err a).2.revision = a.revision ∧
      ∀ k : Slot, ¬ k.Within n → (Shelf.sweep n err a).2.entry k = a.entry k := by
  induction n generalizing err a with
  | zero => exact ⟨rfl,fun _ _ => rfl⟩
  | succ n ih =>
    have hd : (a.discard (.version (n + 1 : ℕ))).2.revision = a.revision ∧
        ∀ k : Slot, ¬ k.Within (n+1) →
          (a.discard (.version (n + 1 : ℕ))).2.entry k = a.entry k := by
      unfold Shelf.discard
      split_ifs
      · cases a.entry (.version (n + 1 : ℕ)) with
        | none => exact ⟨rfl,fun _ _ => rfl⟩
        | some m =>
          refine ⟨rfl,fun k hk => (link_other ?_ none).1⟩
          rintro rfl
          exact hk ⟨by omega,le_refl _⟩
      · exact ⟨rfl,fun _ _ => rfl⟩
    have hw {k : Slot} (hk : ¬ k.Within (n+1)) : ¬ k.Within n := by
      cases k with
      | version v => exact fun hv => hk ⟨hv.1,by have := hv.2; omega⟩
      | own | restored => exact hk
    have hnext (err : Int) := ih err (a.discard (.version (n + 1 : ℕ))).2
    rw [Shelf.sweep]
    generalize a.discard (.version (n + 1 : ℕ)) = out at hd hnext ⊢
    obtain ⟨e,a'⟩ := out
    have hrest (err : Int) : (Shelf.sweep n err a').2.revision = a.revision ∧
        ∀ k : Slot, ¬ k.Within (n+1) → (Shelf.sweep n err a').2.entry k = a.entry k :=
      ⟨(hnext err).1.trans hd.1,fun k hk => ((hnext err).2 k (hw hk)).trans (hd.2 k hk)⟩
    cases e with
    | none => exact hrest err
    | some e =>
      dsimp only
      split_ifs
      · exact hd
      · exact hrest e

theorem cleared_settled (h : a.AllSettled n) : a.cleared n = a.toStore.clear n := by
  refine congrArg (fun e => { a.toStore with entry := e }) ?_
  funext k
  by_cases hk : k.Within n
  · rw [if_pos hk]
    cases k with
    | own | restored => cases hk
    | version v =>
      have hs := h v hk.1 hk.2
      rw [Shelf.Settled] at hs
      rw [hs]
      cases he : a.entry (.version v) <;> simp [hk]
  · rw [if_neg hk,if_neg fun hw => hk hw.1]

theorem sweep_settled (h : a.AllSettled n) (err : Int) :
    (Shelf.sweep n err a).1 = .ok (if a.anyOf n then 0 else err) ∧
      (Shelf.sweep n err a).2.toStore = a.toStore.clear n := by
  obtain ⟨h1,h2⟩ := sweep_free (fun v hv hn => settled_ghost (h v hv hn)) err
  have hany : a.anyHashed n = a.anyOf n := upTo_congr h
  exact ⟨by rw [h1,hany],h2.trans (cleared_settled h)⟩

theorem sweep_only (err : Int) {e : Int} (hok : (Shelf.sweep n err a).1 = .ok e)
    (hst : (Shelf.sweep n err a).2.entry = (a.toStore.clear n).entry) : a.AllSettled n := by
  have hfree : ∀ v : Int, 1 ≤ v → v ≤ n → ¬ a.Ghost (.version v) := by
    intro v h1 hn hg
    rw [sweep_ghost h1 hn hg] at hok
    cases hok
  intro v h1 hn
  by_contra hs
  rcases unsettled hs with hg | ⟨hh,m,hm⟩
  · exact hfree v h1 hn hg
  · have he := congrFun hst (.version v)
    rw [(sweep_free hfree err).2] at he
    have hreal : (a.cleared n).entry (.version v) = some m :=
      (if_neg fun hw => by simp [hh] at hw).trans hm
    have hideal : (a.toStore.clear n).entry (.version v) = none := if_pos ⟨h1,hn⟩
    rw [hreal,hideal] at he
    cases he

end sweep

section write
variable {pos : ℕ} {buf : Bytes} {b : Store} {val : Int}

theorem backup_entry (h : k ≠ .version val) :
    (b.backup L pos buf val).2.entry k = b.entry k := by
  unfold Store.backup
  cases b.entry (.version val) with
  | some m => rfl
  | none => exact Function.update_of_ne h _ _

theorem backup_found : (b.backup L pos buf val).1 ≠ .returned (-ENOENT) := by
  unfold Store.backup
  cases b.entry (.version val) with
  | some m => simp [EEXIST,ENOENT]
  | none =>
    intro h
    have hn := Outcome.returned.inj h
    rw [ENOENT] at hn
    omega

theorem write_refused (J : Junk) (L : Lower) (pos : ℕ) (buf : Bytes) {p : Int × Shelf}
    (hp : (a.on (a.stamp (nextVersion (a.number J)))).pruned (nextVersion (a.number J)) = p)
    (h0 : p.1 ≠ 0) : a.write J L pos buf = (.returned p.1,p.2) := by
  unfold Shelf.write
  dsimp only
  rw [hp,if_pos h0]

theorem write_backup (J : Junk) (L : Lower) (pos : ℕ) (buf : Bytes) {p : Int × Shelf}
    (hp : (a.on (a.stamp (nextVersion (a.number J)))).pruned (nextVersion (a.number J)) = p)
    (h0 : p.1 = 0) :
    (a.write J L pos buf).1 = (p.2.toStore.backup L pos buf (nextVersion (a.number J))).1 ∧
      (a.write J L pos buf).2.toStore =
        (p.2.toStore.backup L pos buf (nextVersion (a.number J))).2 := by
  unfold Shelf.write Store.backup
  dsimp only
  rw [hp,if_neg (not_not.mpr h0)]
  cases p.2.entry (.version (nextVersion (a.number J))) <;> exact ⟨rfl,rfl⟩

theorem write_serves (J : Junk) (L : Lower) (pos : ℕ) (buf : Bytes) (a : Shelf) :
    (a.write J L pos buf).1 = (a.toStore.write J L pos buf).1 ∧
        (a.write J L pos buf).2.toStore = (a.toStore.write J L pos buf).2 ↔ a.WriteSuits J := by
  unfold Store.write Shelf.WriteSuits
  dsimp only
  have hw (p) := write_backup (a := a) (p := p) J L pos buf
  have hno (p) := write_refused (a := a) (p := p) J L pos buf
  generalize nextVersion (a.number J) = val at hw hno ⊢
  by_cases hv : val > N
  · have hne : Slot.version (val - N) ≠ .version val := version_ne (by rw [N]; omega)
    have hp : (a.on (a.stamp val)).pruned val =
        (((a.on (a.stamp val)).discard (.version (val - N))).1.getD 0,
          ((a.on (a.stamp val)).discard (.version (val - N))).2) := if_pos hv
    rw [Store.pruned,if_pos hv]
    constructor
    · rintro ⟨hout,hst⟩ _
      by_contra hs
      rcases unsettled hs with hg | ⟨hh,m,hm⟩
      · have hd : (a.on (a.stamp val)).discard (.version (val - N)) =
            (some (-ENOENT),a.on (a.stamp val)) := discard_ghost hg
        rw [hd] at hp
        rw [hno _ hp (by simp [ENOENT])] at hout
        exact backup_found hout.symm
      · have hd : (a.on (a.stamp val)).discard (.version (val - N)) = (none,a.on (a.stamp val)) :=
          discard_unhashed fun h => by
            rw [show (a.on (a.stamp val)).hashed (.version (val - N)) = false from hh] at h
            cases h
        rw [hd] at hp
        rw [(hw _ hp rfl).2] at hst
        have he := congrFun (congrArg Store.entry hst) (.version (val - N))
        rw [backup_entry hne,backup_entry hne] at he
        have hideal : ((a.stamp val).link (.version (val - N)) none).entry (.version (val - N)) =
            none := Store.link_self_entry _
        have hreal : (a.on (a.stamp val)).entry (.version (val - N)) = some m := hm
        rw [hideal,hreal] at he
        cases he
    · intro hs
      obtain ⟨h1,h2⟩ := discard_settled (a := a.on (a.stamp val)) (hs hv)
      obtain ⟨h3,h4⟩ := hw _ hp (by rw [h1]; split_ifs <;> rfl)
      rw [h3,h4,h2]
      exact ⟨rfl,rfl⟩
  · have hp : (a.on (a.stamp val)).pruned val = (0,a.on (a.stamp val)) := if_neg hv
    obtain ⟨h3,h4⟩ := hw _ hp rfl
    rw [h3,h4,Store.pruned,if_neg hv]
    exact iff_of_true ⟨rfl,rfl⟩ fun h => absurd h hv

end write

section ioctl
variable {q : Request}

def Serves (r : Int × Shelf) (r' : Int × Store) : Prop :=
  (r.1 = r'.1 ∨ r.1 < 0 ∧ r'.1 < 0) ∧ r.2.toStore = r'.2

theorem delete_serves (h : a.entry (.version v) ≠ none → a.hashed (.version v) = true) (J : Junk) :
    Serves (a.delete J v) (a.toStore.delete J v) := by
  unfold Shelf.delete Store.delete
  cases he : a.entry (.version v) with
  | none =>
    by_cases hh : a.hashed (.version v) = true
    · rw [discard_ghost ⟨hh,he⟩]
      exact ⟨.inr ⟨(by decide : -ENOENT < 0),(by decide : -ENOTTY < 0)⟩,rfl⟩
    · rw [discard_unhashed hh]
      exact ⟨.inl rfl,rfl⟩
  | some m =>
    rw [discard_hashed (h (by simp [he])) fun hg => by simp [hg.2] at he]
    refine ⟨.inl rfl,?_⟩
    dsimp only
    rw [if_neg (by simp)]
    change (if v = a.youngest.getD J.val then _ else _ : Shelf).toStore =
      if v = a.youngest.getD J.val then _ else _
    split_ifs <;> rfl

theorem delete_only (hm : a.entry (.version v) ≠ none)
    (h : (a.delete J v).1 < 0 ↔ (a.toStore.delete J v).1 < 0) :
    a.hashed (.version v) = true := by
  by_contra hh
  obtain ⟨m,hm⟩ := Option.ne_none_iff_exists'.mp hm
  rw [Shelf.delete,Store.delete,discard_unhashed hh,hm] at h
  exact lt_irrefl (0 : Int) (h.mp (by decide : -ENOTTY < 0))

theorem deleteAll_serves (h : a.AllSettled (a.number J).toNat) :
    Serves (a.deleteAll J) (a.toStore.deleteAll J) := by
  obtain ⟨h1,h2⟩ := sweep_settled h (-ENOTTY)
  unfold Shelf.deleteAll Store.deleteAll
  dsimp only
  rw [← h2]
  generalize Shelf.sweep _ _ a = out at h1 ⊢
  obtain ⟨r,a'⟩ := out
  obtain rfl : r = _ := h1
  exact ⟨.inl rfl,rfl⟩

theorem number_restarted (h : a.revision = some (-1)) (J : Junk) : (a.number J).toNat = 0 := by
  rw [Store.number,h]
  rfl

theorem deleteAll_only (h : (a.deleteAll J).2.toStore = (a.toStore.deleteAll J).2) :
    a.AllSettled (a.number J).toNat := by
  obtain ⟨hrev,_⟩ := sweep_frame (a.number J).toNat (-ENOTTY) a
  have honly (e : Int) := sweep_only (n := (a.number J).toNat) (a := a) (-ENOTTY) (e := e)
  unfold Shelf.deleteAll at h
  generalize Shelf.sweep _ _ a = out at h hrev honly
  obtain ⟨r,a'⟩ := out
  cases r with
  | ok e =>
    have he := congrArg Store.entry h
    exact honly e rfl he
  | error e =>
    have hr : a'.revision = some (-1) := congrArg Store.revision h
    rw [number_restarted (hrev.symm.trans hr)]
    intro v h1 hn
    omega

theorem swept_serves (h : a.AllSettled (a.number J).toNat) :
    a.swept J = (0,(Shelf.sweep (a.number J).toNat 0 a).2) ∧
      (a.swept J).2.toStore = a.toStore.clear (a.number J).toNat := by
  obtain ⟨h1,h2⟩ := sweep_settled h 0
  rw [ite_self] at h1
  unfold Shelf.swept
  generalize Shelf.sweep _ _ a = out at h1 h2 ⊢
  obtain ⟨r,a'⟩ := out
  obtain rfl : r = _ := h1
  exact ⟨rfl,h2⟩

theorem sweep_error (err : Int) {e : Int} (h : (Shelf.sweep n err a).1 = .error e) : e < 0 := by
  by_cases hg : ∃ v : Int, 1 ≤ v ∧ v ≤ n ∧ a.Ghost (.version v)
  · obtain ⟨v,h1,hn,hg⟩ := hg
    rw [sweep_ghost h1 hn hg] at h
    cases h
    decide
  · rw [(sweep_free (fun v h1 hn hgv => hg ⟨v,h1,hn,hgv⟩) err).1] at h
    cases h

theorem swept_only (h0 : ¬ (a.swept J).1 < 0)
    (h : (a.swept J).2.toStore = a.toStore.clear (a.number J).toNat) :
    a.AllSettled (a.number J).toNat := by
  have honly (e : Int) := sweep_only (n := (a.number J).toNat) (a := a) 0 (e := e)
  have herr (e : Int) := sweep_error (n := (a.number J).toNat) (a := a) 0 (e := e)
  unfold Shelf.swept at h h0
  generalize Shelf.sweep _ _ a = out at h h0 honly herr
  obtain ⟨r,a'⟩ := out
  cases r with
  | ok e => exact honly e rfl (congrArg Store.entry h)
  | error e => exact absurd (herr e rfl) h0

theorem refilled_version (a : Shelf) (v : Int) (m : Node) (w : Int) :
    (a.refilled v m).entry (.version w) = a.entry (.version w) ∧
      (a.refilled v m).hashed (.version w) = if w = v then true else a.hashed (.version w) := by
  obtain ⟨h1,h2⟩ := link_other (a := a) (l := .version w) (k := .restored) (by simp)
    (some (.copy (a.read m)))
  refine ⟨h1,?_⟩
  unfold Shelf.refilled Shelf.hash
  dsimp only
  split_ifs with hw
  · rw [hw,Function.update_self]
  · rw [Function.update_of_ne (version_ne hw),h2]

theorem refilled_settled {m : Node} (hm : a.entry (.version v) = some m) :
    (a.refilled v m).AllSettled n ↔
      ∀ w : Int, 1 ≤ w → w ≤ n → w ≠ v → a.Settled (.version w) := by
  refine forall_congr' fun w => forall_congr' fun _ => forall_congr' fun _ => ?_
  obtain ⟨h1,h2⟩ := refilled_version a v m w
  rw [Shelf.Settled,Shelf.Settled,h1,h2]
  split_ifs with hw
  · subst hw
    rw [hm]
    exact iff_of_true rfl fun hne => absurd rfl hne
  · exact ⟨fun h _ => h,fun h => h hw⟩

theorem refill_serves (h : a.entry .restored = none → a.entry (.version v) ≠ none →
      ∀ w : Int, 1 ≤ w → w ≤ (a.number J).toNat → w ≠ v → a.Settled (.version w)) :
    Serves (a.refill J v) (a.toStore.refill J v) := by
  unfold Shelf.refill Store.refill
  cases hr : a.entry .restored with
  | some m => exact ⟨.inl rfl,rfl⟩
  | none =>
    cases hm : a.entry (.version v) with
    | none => exact ⟨.inl rfl,rfl⟩
    | some m =>
      obtain ⟨h1,h2⟩ := swept_serves ((refilled_settled hm).mpr (h hr (by simp [hm])))
      exact ⟨.inl (congrArg Prod.fst h1),h2⟩

theorem refill_only (hr : a.entry .restored = none) (hm : a.entry (.version v) ≠ none)
    (h0 : (a.refill J v).1 < 0 ↔ (a.toStore.refill J v).1 < 0)
    (h : (a.refill J v).2.toStore = (a.toStore.refill J v).2) :
    ∀ w : Int, 1 ≤ w → w ≤ (a.number J).toNat → w ≠ v → a.Settled (.version w) := by
  obtain ⟨m,hm⟩ := Option.ne_none_iff_exists'.mp hm
  unfold Shelf.refill Store.refill at h0 h
  rw [hr,hm] at h0 h
  refine (refilled_settled hm).mp (swept_only (fun hlt => ?_) h)
  exact lt_irrefl (0 : Int) (h0.mp hlt)

theorem restore_eq (h0 : (a.discard .own).1.getD 0 = 0) :
    a.restore J v = (a.discard .own).2.refill J v := if_neg (not_not.mpr h0)

theorem discard_own_entry (k : Slot) (h : k ≠ .own) :
    (a.discard .own).2.entry k = a.entry k := by
  unfold Shelf.discard
  split_ifs
  · cases a.entry .own with
    | none => rfl
    | some m => exact (link_other h none).1
  · rfl

theorem discard_own_settled (k : Slot) (h : k ≠ .own) :
    (a.discard .own).2.Settled k ↔ a.Settled k := by
  unfold Shelf.discard
  split_ifs
  · cases a.entry .own with
    | none => exact Iff.rfl
    | some m => exact settled_link h none
  · exact Iff.rfl

theorem discard_number (J : Junk) : (a.discard k).2.number J = a.number J := by
  unfold Shelf.discard
  split_ifs
  · cases a.entry k <;> rfl
  · rfl

theorem restore_serves (h : a.RestoreSuits J v) :
    Serves (a.restore J v) (a.toStore.restore J v) := by
  have hslot (w : Int) : Slot.version w ≠ .own := by simp
  by_cases hs : a.Settled .own
  · obtain ⟨h1,h2⟩ := discard_settled hs
    rw [restore_eq (by rw [h1]; split_ifs <;> rfl),Store.restore,← h2]
    refine refill_serves fun hr hm w hw hn hne => ?_
    rw [discard_own_entry _ (by simp)] at hr
    rw [discard_own_entry _ (hslot v)] at hm
    rw [discard_number] at hn
    exact (discard_own_settled _ (hslot w)).mpr (h.swept hr hm w hw hn hne)
  · obtain ⟨he,hr⟩ := h.own.resolve_left hs
    obtain ⟨m,hr⟩ := Option.ne_none_iff_exists'.mp hr
    have hg : a.Ghost .own := by
      rcases unsettled hs with hg | ⟨_,m,hm⟩
      · exact hg
      · rw [he] at hm
        cases hm
    unfold Shelf.restore Store.restore Store.refill
    rw [discard_ghost hg,Store.link_none he,hr]
    exact ⟨.inr ⟨(by decide : -ENOENT < 0),(by decide : -EEXIST < 0)⟩,rfl⟩

theorem refill_own (h : a.entry .own ≠ none) : (a.refill J v).2.entry .own ≠ none := by
  unfold Shelf.refill
  cases a.entry .restored with
  | some m => exact h
  | none =>
    cases a.entry (.version v) with
    | none =>
      have ho := (link_other (a := a) (l := .own) (k := .restored) (by simp) (some (.copy []))).1
      exact fun he => h (ho.symm.trans he)
    | some m =>
      have ho := (link_other (a := a) (l := .own) (k := .restored) (by simp)
        (some (.copy (a.read m)))).1
      have hf := (sweep_frame ((a.refilled v m).number J).toNat 0 (a.refilled v m)).2 .own id
      dsimp only
      unfold Shelf.swept
      generalize Shelf.sweep _ _ (a.refilled v m) = out at hf ⊢
      obtain ⟨r,a'⟩ := out
      cases r <;> exact fun he => h ((hf.trans ho).symm.trans he)

theorem storeRefill_own (b : Store) (h : b.entry .own = none) :
    (b.refill J v).2.entry .own = none := by
  unfold Store.refill
  cases b.entry .restored with
  | some m => exact h
  | none =>
    cases b.entry (.version v) with
    | none => exact (Store.link_entry (by simp) _).trans h
    | some m => exact (Store.clear_entry id).trans ((Store.link_entry (by simp) _).trans h)

theorem storeRefill_restored (b : Store) (h : b.entry .restored = none) :
    (b.refill J v).2.entry .restored ≠ none := by
  unfold Store.refill
  rw [h]
  cases b.entry (.version v) with
  | none => simp
  | some m =>
    have hkeep : ((b.link .restored (some (.copy (b.read m)))).clear (b.number J).toNat).entry
        .restored = some (.copy (b.read m)) :=
      (Store.clear_entry id).trans (Store.link_self_entry _)
    simp [hkeep]

theorem restore_only (h0 : (a.restore J v).1 < 0 ↔ (a.toStore.restore J v).1 < 0)
    (h : (a.restore J v).2.toStore = (a.toStore.restore J v).2) : a.RestoreSuits J v := by
  have hslot (w : Int) : Slot.version w ≠ .own := by simp
  have hideal : (a.toStore.restore J v).2.entry .own = none :=
    storeRefill_own _ (Store.link_self_entry _)
  have hown : a.Settled .own ∨ a.entry .own = none ∧ a.entry .restored ≠ none := by
    by_contra hno
    obtain ⟨hs,hno⟩ := not_or.mp hno
    rcases unsettled hs with hg | ⟨hh,m,hm⟩
    · have hr : a.entry .restored = none := by
        by_contra hr
        exact hno ⟨hg.2,hr⟩
      have hreal : (a.restore J v).2 = a := by
        rw [Shelf.restore,discard_ghost hg,if_pos (by simp [ENOENT])]
      rw [hreal] at h
      refine storeRefill_restored (J := J) (v := v) (a.toStore.link .own none) ?_ ?_
      · exact (Store.link_entry (by simp) _).trans hr
      · exact (congrFun (congrArg Store.entry h) .restored).symm.trans hr
    · have hd : a.discard .own = (none,a) := discard_unhashed (by simp [hh])
      have hreal := refill_own (J := J) (v := v) (a := a) (by simp [hm])
      rw [restore_eq (by rw [hd]; rfl),hd] at h
      exact hreal ((congrFun (congrArg Store.entry h) .own).trans hideal)
  refine ⟨hown,fun hr hm => ?_⟩
  have hs := hown.resolve_right fun hno => hno.2 hr
  obtain ⟨h1,h2⟩ := discard_settled hs
  rw [restore_eq (by rw [h1]; split_ifs <;> rfl),Store.restore,← h2] at h0 h
  have hsw := refill_only ((discard_own_entry _ (by simp)).trans hr)
    (by rwa [discard_own_entry _ (hslot v)]) h0 h
  intro w hw hn hne
  exact (discard_own_settled _ (hslot w)).mp (hsw w hw (by rwa [discard_number]) hne)

end ioctl

end

end Versions

end BackupFs
