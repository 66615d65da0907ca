import BackupFs.Cache.Creating

namespace BackupFs

def DeleteOneAgrees (L : Lower) (q : Request) (d₁ d₂ : Disk) : Prop :=
  d₁.cached (backupName q.version q.file) = d₂.cached (backupName q.version q.file) ∨
    d₁.dir (backupName q.version q.file) ≠ none ∧
      L.refusal (backupName q.version q.file) = -ENOTTY

def answered (out : Int × Disk) : Outcome × Disk := (.returned out.1,out.2)

def allDeleted (L : Lower) (f : File) (out : Except Int Int × Disk) : Int × Disk :=
  match out with
  | (.error err,d) => (err,d)
  | (.ok err,d) => (err,vfsSetxattr L f.ino .revision (-1) d)

def KeepsRevision (L : Lower) (f : File) (d : Disk) : Prop :=
  L.setxattr .revision ≠ none ∨ (d.inodes f.ino).revision = some (-1)

structure AllMissed (L : Lower) (f : File) (n : Name) (k : ℕ) (d₁ d₂ : Disk) : Prop where
  takes : ∀ v, Takes L n k d₁ v ↔ Takes L n k d₂ v
  fails : Fails L n k d₁ (-ENOTTY) ∧ ¬ Finds n k d₂ ∨ Fails L n k d₂ (-ENOTTY) ∧ ¬ Finds n k d₁
  keeps : KeepsRevision L f d₁

def DeleteAllAgrees (L : Lower) (f : File) (n : Name) (k : ℕ) (d₁ d₂ : Disk) : Prop :=
  LoopAgrees L n k d₁ d₂ ∧ ((∀ e, ¬ Fails L n k d₁ e) → (Finds n k d₁ ↔ Finds n k d₂)) ∨
    AllMissed L f n k d₁ d₂

section
variable {L : Lower} {J : Junk} {f : File} {q : Request} {d d₁ d₂ : Disk}

theorem deletedOne_unlinked (h : (discard L (backupName q.version q.file) d).1 = some 0) :
    deletedOne L J f q d = (0,if q.version = vfsGetxattr L f.ino .youngest J.val d then
      stamp L f (wrapInt (q.version - 1)) (discard L (backupName q.version q.file) d).2
    else (discard L (backupName q.version q.file) d).2) := by
  have hin : (discard L (backupName q.version q.file) d).2.inodes = d.inodes := discard_inodes
  unfold deletedOne
  generalize discard L _ d = out at h hin ⊢
  obtain ⟨r,d'⟩ := out
  dsimp only at h hin
  subst h
  dsimp only
  rw [if_neg (by simp),vfsGetxattr,vfsGetxattr,hin]
  split_ifs with hv
  · rw [← hv]
  · rfl

theorem deletedOne_failed (h : (discard L (backupName q.version q.file) d).1 ≠ some 0)
    (J' : Junk) : deletedOne L J f q d = deletedOne L J' f q d := by
  unfold deletedOne
  generalize discard L _ d = out at h ⊢
  obtain ⟨r,d'⟩ := out
  cases r with
  | none => rfl
  | some err =>
    have he : err ≠ 0 := fun he => h (congrArg some he)
    dsimp only
    rw [if_pos he,if_pos he]

theorem deletedOne_sameTree (h : SameTree d₁ d₂)
    (hc : d₁.cached (backupName q.version q.file) = d₂.cached (backupName q.version q.file)) :
    SameResult (answered (deletedOne L J f q d₁)) (answered (deletedOne L J f q d₂)) := by
  obtain ⟨h1,h2⟩ := h.discard L hc
  unfold deletedOne
  generalize discard L _ d₁ = out₁ at h1 h2 ⊢
  generalize discard L _ d₂ = out₂ at h1 h2 ⊢
  obtain ⟨e₁,t₁⟩ := out₁
  obtain ⟨e₂,t₂⟩ := out₂
  dsimp only at h1 h2
  subst h1
  cases e₁ with
  | none => exact ⟨rfl,h2.dir,h2.inodes⟩
  | some err =>
    have hy : vfsGetxattr L f.ino .youngest J.val t₁ = vfsGetxattr L f.ino .youngest J.val t₂ := by
      rw [vfsGetxattr,vfsGetxattr,h2.inodes]
    dsimp only
    rw [hy]
    split_ifs
    · exact ⟨rfl,h2.dir,h2.inodes⟩
    · have hs := h2.stamp L f (wrapInt (vfsGetxattr L f.ino .youngest J.val t₂ - 1))
      exact ⟨rfl,hs.dir,hs.inodes⟩
    · exact ⟨rfl,h2.dir,h2.inodes⟩

theorem deletedOne_differs (h : SameTree d₁ d₂)
    (h₁ : d₁.cached (backupName q.version q.file) = true)
    (h₂ : ¬ d₂.cached (backupName q.version q.file) = true) :
    SameResult (answered (deletedOne L J f q d₁)) (answered (deletedOne L J f q d₂)) ↔
      d₁.dir (backupName q.version q.file) ≠ none ∧
        L.refusal (backupName q.version q.file) = -ENOTTY := by
  have hkept : Blocked L (backupName q.version q.file) d₁ →
      (removed L (backupName q.version q.file) d₁).2 = d₁ := fun hb => removed_kept hb.kept
  have herr := unlinkError_blocked (L := L) h₁
  unfold deletedOne
  rw [discard_cached h₁,discard_uncached h₂,removed_fst]
  dsimp only
  have hcode : L.unlinkError (backupName q.version q.file) d₁ = -ENOTTY ↔
      d₁.dir (backupName q.version q.file) ≠ none ∧
        L.refusal (backupName q.version q.file) = -ENOTTY := by
    unfold Lower.unlinkError
    split_ifs with hx
    · simp [hx,ENOENT,ENOTTY]
    · simp [hx]
  rw [← hcode]
  split_ifs with he hv
  · rw [hkept (herr.mp he)]
    exact ⟨fun hs => Outcome.returned.inj hs.outcome,
      fun hs => ⟨congrArg Outcome.returned hs,h.dir,h.inodes⟩⟩
  · refine iff_of_false (fun hs => ?_) fun hs => he (by simp [hs,ENOTTY])
    exact absurd (Outcome.returned.inj hs.outcome) (by rw [not_not.mp he]; simp [ENOTTY])
  · refine iff_of_false (fun hs => ?_) fun hs => he (by simp [hs,ENOTTY])
    exact absurd (Outcome.returned.inj hs.outcome) (by rw [not_not.mp he]; simp [ENOTTY])

theorem deleteOne_agrees (h : SameTree d₁ d₂) :
    SameResult (answered (deletedOne L J f q d₁)) (answered (deletedOne L J f q d₂)) ↔
      DeleteOneAgrees L q d₁ d₂ := by
  unfold DeleteOneAgrees
  by_cases hc : d₁.cached (backupName q.version q.file) = d₂.cached (backupName q.version q.file)
  · exact iff_of_true (deletedOne_sameTree h hc) (.inl hc)
  · rw [or_iff_right hc]
    cases h₁ : d₁.cached (backupName q.version q.file) with
    | true => exact deletedOne_differs h h₁ fun h₂ => hc (h₁.trans h₂.symm)
    | false =>
      have h₂ := Bool.eq_true_of_not_eq_false fun h => hc (h₁.trans h.symm)
      rw [h.dir,← deletedOne_differs h.symm h₂ (by simp [h₁])]
      exact ⟨SameResult.symm,SameResult.symm⟩

theorem vfsSetxattr_dir {i : Ino} {a : Attr} {v : Int} : (vfsSetxattr L i a v d).dir = d.dir := by
  obtain ⟨n,hn,_⟩ := vfsSetxattr_setInode L i a v d
  rw [hn,Disk.setInode_dir]

theorem setxattr_keeps : (vfsSetxattr L f.ino .revision (-1) d).inodes = d.inodes ↔
    KeepsRevision L f d := by
  unfold vfsSetxattr KeepsRevision
  cases L.setxattr .revision with
  | some e => simp
  | none =>
    dsimp only
    rw [Disk.setInode_inodes,Function.update_eq_self_iff,Inode.setAttr]
    refine ⟨fun he => .inr (congrArg Inode.revision he).symm,fun hr => ?_⟩
    have hr := hr.resolve_left (by simp)
    generalize d.inodes f.ino = n at hr ⊢
    obtain ⟨c,r,y⟩ := n
    simp_all

theorem keepsRevision_congr (h : d₁.inodes = d₂.inodes) :
    KeepsRevision L f d₁ ↔ KeepsRevision L f d₂ := by
  rw [KeepsRevision,KeepsRevision,h]

theorem deleteAllAgrees_symm {n : Name} {k : ℕ} (h : d₁.inodes = d₂.inodes)
    (ha : DeleteAllAgrees L f n k d₁ d₂) : DeleteAllAgrees L f n k d₂ d₁ := by
  rcases ha with ⟨hl,hf⟩ | ha
  · exact .inl ⟨⟨fun e => (hl.fails e).symm,fun v => (hl.takes v).symm⟩,
      fun hno => (hf fun e he => hno e ((hl.fails e).mp he)).symm⟩
  · exact .inr ⟨fun v => (ha.takes v).symm,ha.fails.symm,(keepsRevision_congr h).mp ha.keeps⟩

theorem all_fails {n : Name} {k : ℕ} {e : Int} {d₁' d₂' : Disk} {r : Except Int Int}
    (h : SameTree d₁ d₂) (h₁ : Sweeps L n k d₁ (-ENOTTY) (.error e) d₁')
    (h₂ : Sweeps L n k d₂ (-ENOTTY) r d₂') (hf : Fails L n k d₁ e)
    (hno : ∀ e, ¬ Fails L n k d₂ e)
    (hr : Finds n k d₂ ∧ r = .ok 0 ∨ ¬ Finds n k d₂ ∧ r = .ok (-ENOTTY)) :
    SameResult (.returned e,d₁') (answered (allDeleted L f (r,d₂'))) ↔
      DeleteAllAgrees L f n k d₁ d₂ := by
  have ht := takes_agree h.dir h₁ h₂
  have hin : d₂'.inodes = d₁.inodes := h₂.inodes.trans h.inodes.symm
  have hkeep := (setxattr_keeps (L := L) (f := f) (d := d₂')).trans (keepsRevision_congr hin)
  have hmissed : DeleteAllAgrees L f n k d₁ d₂ ↔ AllMissed L f n k d₁ d₂ := by
    refine ⟨fun ha => ?_,.inr⟩
    rcases ha with ⟨hl,_⟩ | ha
    · exact absurd ((hl.fails e).mp hf) (hno e)
    · exact ha
  rw [hmissed]
  constructor
  · intro hs
    rcases hr with ⟨_,rfl⟩ | ⟨hn,rfl⟩
    · exact absurd (Outcome.returned.inj hs.outcome) (fails_ne_zero hf)
    · have he : e = -ENOTTY := Outcome.returned.inj hs.outcome
      refine ⟨ht.mp (hs.dir.trans vfsSetxattr_dir),.inl ⟨he ▸ hf,hn⟩,?_⟩
      exact hkeep.mp (hs.inodes.symm.trans (h₁.inodes.trans hin.symm))
  · intro ha
    have hfind : ¬ Finds n k d₂ := by
      rcases ha.fails with ⟨_,hn⟩ | ⟨hf',_⟩
      · exact hn
      · exact absurd hf' (hno _)
    rcases hr with ⟨hn,_⟩ | ⟨_,rfl⟩
    · exact absurd hn hfind
    · have he : e = -ENOTTY := by
        rcases ha.fails with ⟨hf',_⟩ | ⟨hf',_⟩
        · exact fails_unique hf hf'
        · exact absurd hf' (hno _)
      refine ⟨congrArg Outcome.returned he,(ht.mpr ha.takes).trans vfsSetxattr_dir.symm,?_⟩
      exact h₁.inodes.trans (hin.symm.trans (hkeep.mpr ha.keeps).symm)

theorem all_fail {n : Name} {k : ℕ} {e₁ e₂ : Int} {d₁' d₂' : Disk}
    (h : SameTree d₁ d₂) (h₁ : Sweeps L n k d₁ (-ENOTTY) (.error e₁) d₁')
    (h₂ : Sweeps L n k d₂ (-ENOTTY) (.error e₂) d₂') (hf₁ : Fails L n k d₁ e₁)
    (hf₂ : Fails L n k d₂ e₂) :
    SameResult (.returned e₁,d₁') (.returned e₂,d₂') ↔ DeleteAllAgrees L f n k d₁ d₂ := by
  have ht := takes_agree h.dir h₁ h₂
  have hin : d₁'.inodes = d₂'.inodes := h₁.inodes.trans (h.inodes.trans h₂.inodes.symm)
  constructor
  · intro hs
    refine .inl ⟨⟨?_,ht.mp hs.dir⟩,fun hno => absurd hf₁ (hno e₁)⟩
    exact (fails_agree hf₁ hf₂).mpr (Outcome.returned.inj hs.outcome)
  · rintro (⟨hl,_⟩ | ha)
    · have he := (fails_agree hf₁ hf₂).mp hl.fails
      exact ⟨congrArg Outcome.returned he,ht.mpr hl.takes,hin⟩
    · rcases ha.fails with ⟨_,hn⟩ | ⟨_,hn⟩
      · exact absurd (fails_finds hf₂) hn
      · exact absurd (fails_finds hf₁) hn

theorem all_pass {n : Name} {k : ℕ} {d₁' d₂' : Disk} {r₁ r₂ : Except Int Int}
    (h : SameTree d₁ d₂) (h₁ : Sweeps L n k d₁ (-ENOTTY) r₁ d₁')
    (h₂ : Sweeps L n k d₂ (-ENOTTY) r₂ d₂') (hno₁ : ∀ e, ¬ Fails L n k d₁ e)
    (hno₂ : ∀ e, ¬ Fails L n k d₂ e)
    (hr₁ : Finds n k d₁ ∧ r₁ = .ok 0 ∨ ¬ Finds n k d₁ ∧ r₁ = .ok (-ENOTTY))
    (hr₂ : Finds n k d₂ ∧ r₂ = .ok 0 ∨ ¬ Finds n k d₂ ∧ r₂ = .ok (-ENOTTY)) :
    SameResult (answered (allDeleted L f (r₁,d₁'))) (answered (allDeleted L f (r₂,d₂'))) ↔
      DeleteAllAgrees L f n k d₁ d₂ := by
  have ht := takes_agree h.dir h₁ h₂
  have hin : d₁'.inodes = d₂'.inodes := h₁.inodes.trans (h.inodes.trans h₂.inodes.symm)
  have hset := setxattr_congr (L := L) hin f.ino .revision (-1)
  have hfind : (answered (allDeleted L f (r₁,d₁'))).1 = (answered (allDeleted L f (r₂,d₂'))).1 ↔
      (Finds n k d₁ ↔ Finds n k d₂) := by
    rcases hr₁ with ⟨hf₁,rfl⟩ | ⟨hf₁,rfl⟩ <;> rcases hr₂ with ⟨hf₂,rfl⟩ | ⟨hf₂,rfl⟩ <;>
      simp [hf₁,hf₂,answered,allDeleted,ENOTTY]
  have hdir : (answered (allDeleted L f (r₁,d₁'))).2.dir = d₁'.dir ∧
      (answered (allDeleted L f (r₂,d₂'))).2.dir = d₂'.dir := by
    rcases hr₁ with ⟨_,rfl⟩ | ⟨_,rfl⟩ <;> rcases hr₂ with ⟨_,rfl⟩ | ⟨_,rfl⟩ <;>
      exact ⟨vfsSetxattr_dir,vfsSetxattr_dir⟩
  constructor
  · intro hs
    have htk := ht.mp (hdir.1.symm.trans (hs.dir.trans hdir.2))
    exact .inl ⟨⟨fun e => iff_of_false (hno₁ e) (hno₂ e),htk⟩,fun _ => hfind.mp hs.outcome⟩
  · rintro (⟨hla,hf⟩ | ha)
    · refine ⟨hfind.mpr (hf hno₁),hdir.1.trans ((ht.mpr hla.takes).trans hdir.2.symm),?_⟩
      rcases hr₁ with ⟨_,rfl⟩ | ⟨_,rfl⟩ <;> rcases hr₂ with ⟨_,rfl⟩ | ⟨_,rfl⟩ <;> exact hset
    · rcases ha.fails with ⟨hf,_⟩ | ⟨hf,_⟩
      · exact absurd hf (hno₁ _)
      · exact absurd hf (hno₂ _)

theorem all_agrees {n : Name} {k : ℕ} {d₁' d₂' : Disk} {r₁ r₂ : Except Int Int}
    (h : SameTree d₁ d₂) (h₁ : Sweeps L n k d₁ (-ENOTTY) r₁ d₁')
    (h₂ : Sweeps L n k d₂ (-ENOTTY) r₂ d₂') :
    SameResult (answered (allDeleted L f (r₁,d₁'))) (answered (allDeleted L f (r₂,d₂'))) ↔
      DeleteAllAgrees L f n k d₁ d₂ := by
  rcases h₁.result with ⟨e₁,hf₁,rfl⟩ | ⟨hno₁,hr₁⟩ <;>
    rcases h₂.result with ⟨e₂,hf₂,rfl⟩ | ⟨hno₂,hr₂⟩
  · exact all_fail h h₁ h₂ hf₁ hf₂
  · exact all_fails h h₁ h₂ hf₁ hno₂ hr₂
  · have hswap := all_fails (f := f) h.symm h₂ h₁ hf₂ hno₁ hr₁
    exact ⟨fun hs => deleteAllAgrees_symm h.inodes.symm (hswap.mp hs.symm),
      fun ha => (hswap.mpr (deleteAllAgrees_symm h.inodes ha)).symm⟩
  · exact all_pass h h₁ h₂ hno₁ hno₂ hr₁ hr₂

theorem deleteAll_agrees (h : SameTree d₁ d₂) :
    SameResult (answered (deletedAll L J f q d₁)) (answered (deletedAll L J f q d₂)) ↔
      DeleteAllAgrees L f q.file (counter L J f d₁).toNat d₁ d₂ := by
  have hd (d : Disk) : deletedAll L J f q d =
      allDeleted L f (discardLoop L q.file (counter L J f d).toNat (-ENOTTY) d) := rfl
  rw [hd,hd,← h.counter L J f]
  exact all_agrees h (discardLoop_sweeps _ _ _) (discardLoop_sweeps _ _ _)

end

inductive VersionCall where
  | write (J : Junk) (pos : ℕ) (buf : Bytes)
  | delete (J : Junk) (q : Request)
  | restore (J : Junk) (q : Request)

def VersionCall.result (L : Lower) (f : File) : VersionCall → Sys → Outcome × Disk
  | .write J pos buf, s => ((bkpfsWrite L J f pos buf s).1,(bkpfsWrite L J f pos buf s).2.disk)
  | .delete J q, s => ((bkpfsUnlockedIoctl L J f 1000 q s).1,
      (bkpfsUnlockedIoctl L J f 1000 q s).2.1.disk)
  | .restore J q, s => ((bkpfsUnlockedIoctl L J f 1001 q s).1,
      (bkpfsUnlockedIoctl L J f 1001 q s).2.1.disk)

def CacheAgrees (L : Lower) (f : File) : VersionCall → Disk → Disk → Prop
  | .write J _ _, d₁, d₂ => nextVersion (counter L J f d₁) > N →
      d₁.cached (oldName L J f d₁) ≠ d₂.cached (oldName L J f d₁) →
        Harmless L (oldName L J f d₁) (newName L J f d₁) d₁
  | .delete J q, d₁, d₂ => L.lowerFile = true →
      (q.version ≠ 0 → DeleteOneAgrees L q d₁ d₂) ∧
        (q.version = 0 → DeleteAllAgrees L f q.file (counter L J f d₁).toNat d₁ d₂)
  | .restore J q, d₁, d₂ => L.lowerFile = true → RestoreAgrees L J f q d₁ d₂

theorem calls_agree_iff (L : Lower) (f : File) (c : VersionCall) (s₁ s₂ : Sys)
    (h : SameTree s₁.disk s₂.disk) (hf : f.ino < s₁.disk.nextIno) :
    SameResult (c.result L f s₁) (c.result L f s₂) ↔ CacheAgrees L f c s₁.disk s₂.disk := by
  cases c with
  | write J pos buf =>
    have hw (s : Sys) := (writeRun_effect (bkpfsWrite_run L J f pos buf s)).symm
    rw [VersionCall.result,VersionCall.result,hw,hw]
    exact write_agrees h
  | delete J q =>
    rw [VersionCall.result,VersionCall.result,CacheAgrees]
    cases hl : L.lowerFile with
    | false =>
      rw [ioctl_noFile J f s₁ hl,ioctl_noFile J f s₂ hl]
      exact iff_of_true ⟨rfl,h.dir,h.inodes⟩ (by simp)
    | true =>
      rcases eq_or_ne q.version 0 with hv | hv
      · have hd (s : Sys) := deleteAll_spec L J f q s
        rw [ioctl_deleteAll J f s₁ hl hv,ioctl_deleteAll J f s₂ hl hv]
        dsimp only
        rw [(hd s₁).1,(hd s₁).2,(hd s₂).1,(hd s₂).2]
        refine (deleteAll_agrees h).trans ?_
        simp [hv]
      · have hd (s : Sys) := deleteOne_spec L J f q s
        rw [ioctl_deleteOne J f s₁ hl hv,ioctl_deleteOne J f s₂ hl hv]
        dsimp only
        rw [(hd s₁).1,(hd s₁).2,(hd s₂).1,(hd s₂).2]
        refine (deleteOne_agrees h).trans ?_
        simp [hv]
  | restore J q =>
    rw [VersionCall.result,VersionCall.result,CacheAgrees]
    cases hl : L.lowerFile with
    | false =>
      rw [ioctl_noFile J f s₁ hl,ioctl_noFile J f s₂ hl]
      exact iff_of_true ⟨rfl,h.dir,h.inodes⟩ (by simp)
    | true =>
      have hr (s : Sys) := (restoreRun_effect (restore_run L J f q s)).symm
      rw [ioctl_restore J f s₁ hl,ioctl_restore J f s₂ hl]
      dsimp only
      rw [hr,hr,restore_agrees hf h]
      simp

def firstBackup : Disk := (Disk.single aTxt {}).created (backupName 1 aTxt.name)

def remounted : Disk := { firstBackup with cached := (Disk.single aTxt {}).cached }

theorem calls_agree_iff_remounted :
    SameResult ((VersionCall.write {} 0 [1]).result {} aTxt ⟨firstBackup,[]⟩)
        ((VersionCall.write {} 0 [1]).result {} aTxt ⟨remounted,[]⟩) ↔
      CacheAgrees {} aTxt (.write {} 0 [1]) firstBackup remounted :=
  calls_agree_iff {} aTxt (.write {} 0 [1]) ⟨firstBackup,[]⟩ ⟨remounted,[]⟩ ⟨rfl,rfl,rfl,rfl⟩
    (by decide)

theorem remounted_delete_misses : ¬ ∀ (L : Lower) (f : File) (c : VersionCall) (s₁ s₂ : Sys),
    SameTree s₁.disk s₂.disk → f.ino < s₁.disk.nextIno →
      SameResult (c.result L f s₁) (c.result L f s₂) := by
  intro h
  have hs := h {} aTxt (.delete {} (clientRequest aTxt.name 1)) ⟨firstBackup,[]⟩ ⟨remounted,[]⟩
    ⟨rfl,rfl,rfl,rfl⟩ (by decide)
  have hout := hs.outcome
  revert hout
  decide +kernel

end BackupFs
