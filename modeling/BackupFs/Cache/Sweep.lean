import BackupFs.Cache.SameTree

namespace BackupFs

structure LoopAgrees (L : Lower) (n : Name) (k : ℕ) (d₁ d₂ : Disk) : Prop where
  fails : ∀ e, Fails L n k d₁ e ↔ Fails L n k d₂ e
  takes : ∀ v, Takes L n k d₁ v ↔ Takes L n k d₂ v

def loopResult (out : Except Int Int × Disk) : Outcome × Disk :=
  match out with
  | (.error err,d) => (.returned err,d)
  | (.ok err,d) => (.returned err,d)

theorem loopResult_error {out : Except Int Int × Disk} {err : Int} (h : out.1 = .error err) :
    loopResult out = (.returned err,out.2) := by
  obtain ⟨r,d⟩ := out
  rw [show r = .error err from h]
  rfl

theorem loopResult_ok {out : Except Int Int × Disk} {err : Int} (h : out.1 = .ok err) :
    loopResult out = (.returned err,out.2) := by
  obtain ⟨r,d⟩ := out
  rw [show r = .ok err from h]
  rfl

section
variable {L : Lower} {n : Name} {k : ℕ} {d₁ d₂ d₁' d₂' : Disk} {err : Int}
  {r₁ r₂ : Except Int Int}

theorem takes_agree (h : d₁.dir = d₂.dir) (h₁ : Sweeps L n k d₁ err r₁ d₁')
    (h₂ : Sweeps L n k d₂ err r₂ d₂') :
    d₁'.dir = d₂'.dir ↔ ∀ v, Takes L n k d₁ v ↔ Takes L n k d₂ v := by
  constructor
  · intro he v
    have hv := congrFun he (backupName v n)
    constructor
    · intro ht
      by_contra hn
      rw [h₁.gone v ht,h₂.kept _ fun w hw => (backupName_inj.mp hw).1 ▸ hn] at hv
      exact ht.present (by rw [h,← hv])
    · intro ht
      by_contra hn
      rw [h₂.gone v ht,h₁.kept _ fun w hw => (backupName_inj.mp hw).1 ▸ hn] at hv
      exact ht.present (by rw [← h,hv])
  · intro ht
    funext x
    by_cases hx : ∃ v, x = backupName v n ∧ Takes L n k d₁ v
    · obtain ⟨v,rfl,hv⟩ := hx
      rw [h₁.gone v hv,h₂.gone v ((ht v).mp hv)]
    · have hno : ∀ v, x = backupName v n → ¬ Takes L n k d₁ v := fun v hv hn => hx ⟨v,hv,hn⟩
      rw [h₁.kept x hno,h₂.kept x fun v hv hn => hno v hv ((ht v).mpr hn),h]

theorem loopAgrees_congr
    (h₁ : ∀ v : Int, 1 ≤ v → v ≤ k → d₁'.dir (backupName v n) = d₁.dir (backupName v n) ∧
      (d₁'.cached (backupName v n) = true ↔ d₁.cached (backupName v n) = true))
    (h₂ : ∀ v : Int, 1 ≤ v → v ≤ k → d₂'.dir (backupName v n) = d₂.dir (backupName v n) ∧
      (d₂'.cached (backupName v n) = true ↔ d₂.cached (backupName v n) = true)) :
    LoopAgrees L n k d₁' d₂' ↔ LoopAgrees L n k d₁ d₂ := by
  constructor
  · intro h
    exact ⟨fun e => (fails_congr h₁).symm.trans ((h.fails e).trans (fails_congr h₂)),
      fun v => (takes_congr h₁).symm.trans ((h.takes v).trans (takes_congr h₂))⟩
  · intro h
    exact ⟨fun e => (fails_congr h₁).trans ((h.fails e).trans (fails_congr h₂).symm),
      fun v => (takes_congr h₁).trans ((h.takes v).trans (takes_congr h₂).symm)⟩

theorem fails_agree {e e' : Int} (h₁ : Fails L n k d₁ e) (h₂ : Fails L n k d₂ e') :
    (∀ e, Fails L n k d₁ e ↔ Fails L n k d₂ e) ↔ e = e' := by
  constructor
  · exact fun h => fails_unique ((h e).mp h₁) h₂
  · rintro rfl a
    exact ⟨fun h => fails_unique h₁ h ▸ h₂,fun h => fails_unique h₂ h ▸ h₁⟩

theorem loop_agrees (h : d₁.dir = d₂.dir) (hin : d₁.inodes = d₂.inodes)
    (h₁ : Sweeps L n k d₁ 0 r₁ d₁') (h₂ : Sweeps L n k d₂ 0 r₂ d₂') :
    SameResult (loopResult (r₁,d₁')) (loopResult (r₂,d₂')) ↔ LoopAgrees L n k d₁ d₂ := by
  have ht := takes_agree h h₁ h₂
  have hin' : d₁'.inodes = d₂'.inodes := h₁.inodes.trans (hin.trans h₂.inodes.symm)
  have hr : (loopResult (r₁,d₁')).1 = (loopResult (r₂,d₂')).1 ↔
      ∀ e, Fails L n k d₁ e ↔ Fails L n k d₂ e := by
    have hok {d : Disk} {r : Except Int Int} : ((∀ e, ¬ Fails L n k d e) ∧
        (Finds n k d ∧ r = .ok 0 ∨ ¬ Finds n k d ∧ r = .ok 0)) →
          (∀ e, ¬ Fails L n k d e) ∧ r = .ok 0 := by tauto
    rcases h₁.result with ⟨e₁,hf₁,rfl⟩ | hno₁ <;> rcases h₂.result with ⟨e₂,hf₂,rfl⟩ | hno₂
    · rw [fails_agree hf₁ hf₂]
      exact Outcome.returned.injEq e₁ e₂ ▸ Iff.rfl
    · obtain ⟨hno,rfl⟩ := hok hno₂
      refine iff_of_false (fun he => fails_ne_zero hf₁ (Outcome.returned.inj he)) ?_
      exact fun hf => hno e₁ ((hf e₁).mp hf₁)
    · obtain ⟨hno,rfl⟩ := hok hno₁
      refine iff_of_false (fun he => fails_ne_zero hf₂ (Outcome.returned.inj he).symm) ?_
      exact fun hf => hno e₂ ((hf e₂).mpr hf₂)
    · obtain ⟨hn₁,rfl⟩ := hok hno₁
      obtain ⟨hn₂,rfl⟩ := hok hno₂
      exact iff_of_true rfl fun e => iff_of_false (hn₁ e) (hn₂ e)
  constructor
  · intro hs
    refine ⟨hr.mp hs.outcome,ht.mp ?_⟩
    have hd := hs.dir
    cases r₁ <;> cases r₂ <;> exact hd
  · intro hl
    refine ⟨hr.mpr hl.fails,?_,?_⟩
    · have hd := ht.mpr hl.takes
      cases r₁ <;> cases r₂ <;> exact hd
    · cases r₁ <;> cases r₂ <;> exact hin'

end

end BackupFs
