import BackupFs.Content.Coverage
import BackupFs.Locals.Requests

namespace BackupFs

inductive Breaks (splice : ℕ → Int) : ℕ → ℕ → Int → Prop
  | stop {k rest : ℕ} (h : splice k < 0) : Breaks splice k rest (splice k)
  | step {k rest : ℕ} {e : Int} (hr : 0 ≤ splice k) (hp : rest ≠ 0)
      (h : Breaks splice (k+1) (rest - spliceLen (splice k) rest) e) : Breaks splice k rest e

section
variable {splice : ℕ → Int} {k rest : ℕ} {e : Int}

theorem breaks_neg (h : Breaks splice k rest e) : e < 0 := by
  induction h with
  | stop h => exact h
  | step _ _ _ ih => exact ih

theorem breaks_of_neg (h : splice k < 0) : Breaks splice k rest e ↔ splice k = e := by
  constructor
  · rintro (_ | ⟨hr,_,_⟩)
    · rfl
    · omega
  · rintro rfl
    exact .stop h

theorem breaks_of_nonneg (h : 0 ≤ splice k) : Breaks splice k rest e ↔
    rest ≠ 0 ∧ Breaks splice (k+1) (rest - spliceLen (splice k) rest) e := by
  constructor
  · rintro (hn | ⟨_,hp,hb⟩)
    · omega
    · exact ⟨hp,hb⟩
  · rintro ⟨hp,hb⟩
    exact .step h hp hb

theorem copyLoop_breaks (splice : ℕ → Int) (fuel k : ℕ) (p : Pipe) (hf : p.rest < fuel) :
    ∃ bytes p', copyLoop splice fuel k p = some (bytes,p') ∧
      ∀ e, e < 0 → (bytes = e ↔ Breaks splice k p.rest e) := by
  induction fuel generalizing k p with
  | zero => omega
  | succ fuel ih =>
    simp only [copyLoop]
    rcases lt_or_ge (splice k) 0 with hr | hr
    · rw [splice_error hr,if_neg (by dsimp only; omega)]
      exact ⟨_,_,rfl,fun e _ => (breaks_of_neg hr).symm⟩
    · by_cases hz : p.rest = 0
      · rw [splice_end hr hz,if_neg (by simp)]
        refine ⟨_,_,rfl,fun e he => ?_⟩
        rw [breaks_of_nonneg hr]
        exact iff_of_false he.ne' fun h => h.1 hz
      · obtain ⟨hm,hrest⟩ := splice_rest hr hz
        have hp := spliceLen_pos (splice k) p.rest
        rw [if_pos (by omega)]
        obtain ⟨bytes,p',he,hiff⟩ := ih (k+1) (doSpliceDirect (splice k) p).2 (by omega)
        refine ⟨bytes,p',he,fun e hn => (hiff e hn).trans ?_⟩
        rw [hrest,breaks_of_nonneg hr]
        exact (and_iff_right hz).symm

theorem copyBytes_breaks (splice : ℕ → Int) (c dst : Bytes) (he : e < 0) :
    (copyBytes splice c dst).1 = e ↔ Breaks splice 0 c.length e := by
  obtain ⟨bytes,p',hl,hiff⟩ := copyLoop_breaks splice (c.length + 1) 0 ⟨c,0,dst,0⟩
    (by simp [Pipe.rest])
  rw [copyBytes,hl]
  exact hiff e he

end

structure WriteCopies (L : Lower) (J : Junk) (f : File) (d : Disk) : Prop where
  retention : nextVersion (counter L J f d) > N → ¬ Blocked L (oldName L J f d) d
  begins : Begins L (newName L J f d) d
  openSrc : L.openSrc = .file
  openDest : L.openDest = .file

def KernelCall.Reported (L : Lower) (J : Junk) (f : File) (s : Sys) : KernelCall → Prop
  | .write pos buf => WriteCopies L J f s.disk → ∀ e < 0,
      (copyBytes L.splice (s.disk.inodes f.ino).content []).1 = e →
        (bkpfsWrite L J f pos buf s).1 = .returned e ∧
          ((bkpfsWrite L J f pos buf s).2.disk.inodes f.ino).content =
            (s.disk.inodes f.ino).content
  | .ioctl cmd q => L.lowerFile = true → cmd = 1001 → CleansUpOf L q s.disk →
      ∀ i, s.disk.pathIno (backupName q.version q.file) = some i → ∀ e < 0,
        (copyBytes L.splice (s.disk.inodes i).content []).1 = e →
          (bkpfsUnlockedIoctl L J f cmd q s).1 = .returned e ∧
            ∀ v, (bkpfsUnlockedIoctl L J f cmd q s).2.1.disk.dir (backupName v q.file) =
              s.disk.dir (backupName v q.file)

def KernelCall.Echoes (L : Lower) (J : Junk) (f : File) (d : Disk) : KernelCall → Prop
  | .write _ buf => WriteCopies L J f d →
      ∀ e, Breaks L.splice 0 (d.inodes f.ino).content.length e → L.write buf.length = e
  | .ioctl cmd q => L.lowerFile = true → cmd = 1001 → CleansUpOf L q d →
      ∀ i, d.pathIno (backupName q.version q.file) = some i →
        ∀ e, Breaks L.splice 0 (d.inodes i).content.length e →
          Fails L q.file (counter L J f d).toNat (asked q d) e ∧
            ∀ v, ¬ Takes L q.file (counter L J f d).toNat (asked q d) v

section
variable {L : Lower} {J : Junk} {f : File} {q : Request} {s : Sys} {d d' : Disk} {pos : ℕ}
  {buf : Bytes}

theorem retained_begins :
    Begins L (newName L J f d) (retained L J f d).2 ↔ Begins L (newName L J f d) d := by
  have hslash := slash_not_mem_newName (L := L) (J := J) (f := f) (d := d)
  have hl : (retained L J f d).2.lowerIno (newName L J f d) =
      d.lowerIno (newName L J f d) := by
    rw [Disk.lowerIno_of_slash _ hslash,Disk.lowerIno_of_slash _ hslash,retained_new]
  exact ⟨fun h => ⟨h.dAlloc,h.lookup,hl ▸ h.free,h.create⟩,
    fun h => ⟨h.dAlloc,h.lookup,hl ▸ h.free,h.create⟩⟩

theorem writeCopies_writes (h : WriteCopies L J f s.disk) (pos : ℕ) (buf : Bytes) :
    let d := snapshot L f.ino (newName L J f s.disk) (retained L J f s.disk).2
    (bkpfsWrite L J f pos buf s).1 = .returned (vfsWrite L f.ino pos buf d).1 ∧
      (bkpfsWrite L J f pos buf s).2.disk = (vfsWrite L f.ino pos buf d).2 := by
  have hrun := bkpfsWrite_run L J f pos buf s
  have h0 : (retained L J f s.disk).1 = 0 := retained_zero.mpr h.retention
  have hbeg := retained_begins.mpr h.begins
  generalize bkpfsWrite L J f pos buf s = out at hrun ⊢
  obtain ⟨o,t⟩ := out
  dsimp only at hrun ⊢
  generalize t.disk = d' at hrun ⊢
  cases hrun with
  | retention hr => exact absurd h0 hr
  | stopped _ hb => cases (backupRun_copies hbeg h.openSrc h.openDest hb).1
  | wrote _ hb =>
    obtain ⟨_,rfl⟩ := backupRun_copies hbeg h.openSrc h.openDest hb
    exact ⟨rfl,rfl⟩

theorem retained_apart (hf : f.ino < d.nextIno) : f.ino ≠ (retained L J f d).2.nextIno := by
  rw [retained_inodes.1]
  exact Nat.ne_of_lt hf

theorem begun_content (hf : f.ino < d.nextIno) {x : Name} :
    ((begun x (retained L J f d).2).inodes f.ino).content = (d.inodes f.ino).content := by
  rw [begun,Disk.created_inodes,lookedUp_nextIno,Function.update_of_ne (retained_apart hf),
    lookedUp_inodes,retained_content]

theorem snapshot_content (hf : f.ino < d.nextIno) {x : Name} :
    ((snapshot L f.ino x (retained L J f d).2).inodes f.ino).content =
      (d.inodes f.ino).content := by
  rw [snapshot,copyFile,Disk.setInode_inodes,Function.update_of_ne (retained_apart hf),
    begun_content hf]

theorem write_reported (hf : f.ino < s.disk.nextIno) :
    (KernelCall.write pos buf).Reported L J f s ↔
      (KernelCall.write pos buf).Echoes L J f s.disk := by
  refine forall_congr' fun hc => ?_
  obtain ⟨ho,hd'⟩ := writeCopies_writes hc pos buf
  have hd := snapshot_content (L := L) (J := J) hf (x := newName L J f s.disk)
  generalize snapshot L f.ino _ _ = d at ho hd hd'
  refine ⟨fun h e hb => ?_,fun h e he hcopy => ?_⟩
  · have he := breaks_neg hb
    have hr := (h e he ((copyBytes_breaks _ _ _ he).mpr hb)).1
    rw [ho] at hr
    have hv := Outcome.returned.inj hr
    rcases vfsWrite_result L f.ino pos buf d with ⟨_,hw⟩ | ⟨_,k,hw⟩
    · rw [hw] at hv
      exact hv
    · rw [hw] at hv
      dsimp only at hv
      omega
  · have hw := h e ((copyBytes_breaks _ _ _ he).mp hcopy)
    rcases vfsWrite_result L f.ino pos buf d with ⟨_,hv⟩ | ⟨hn,_⟩
    · rw [hv] at ho hd'
      rw [ho,hd',hw]
      exact ⟨rfl,hd⟩
    · omega

theorem loop_returns {n : Name} {k : ℕ} {e : Int} (he : e ≠ 0) :
    (loopResult (discardLoop L n k 0 d)).1 = .returned e ∧
        (∀ v, (loopResult (discardLoop L n k 0 d)).2.dir (backupName v n) =
          d.dir (backupName v n)) ↔
      Fails L n k d e ∧ ∀ v, ¬ Takes L n k d v := by
  have hs := discardLoop_sweeps (L := L) (n := n) k 0 d
  rw [loopResult_disk]
  generalize discardLoop L n k 0 d = out at hs ⊢
  obtain ⟨r,d'⟩ := out
  dsimp only at hs
  constructor
  · rintro ⟨ho,hdir⟩
    refine ⟨?_,fun v hv => hv.present ((hdir v).symm.trans (hs.gone v hv))⟩
    rcases hs.result with ⟨e',he',rfl⟩ | ⟨_,⟨_,rfl⟩ | ⟨_,rfl⟩⟩
    · cases Outcome.returned.inj ho
      exact he'
    · exact absurd (Outcome.returned.inj ho).symm he
    · exact absurd (Outcome.returned.inj ho).symm he
  · rintro ⟨hf,ht⟩
    refine ⟨?_,fun v => by rw [sweeps_stay hs ht]⟩
    rcases hs.result with ⟨e',he',rfl⟩ | ⟨hno,_⟩
    · exact congrArg Outcome.returned (fails_unique he' hf)
    · exact absurd hf (hno e)

theorem refilled_asked {i : Ino} (h : (found L q d).1 = .ok i) (v : Int) :
    (refilled L q i d).dir (backupName v q.file) = (asked q d).dir (backupName v q.file) ∧
      ((refilled L q i d).cached (backupName v q.file) = true ↔
        (asked q d).cached (backupName v q.file) = true) := by
  obtain ⟨hd,hc⟩ := refilled_backup h v
  refine ⟨by rw [hd,asked_fields.1],hc.trans ?_⟩
  unfold asked
  split_ifs with hs
  · simp [hs]
  · rw [Disk.hash_cached]
    rcases eq_or_ne v q.version with rfl | hv
    · simp [hs]
    · rw [Function.update_of_ne fun he => hv (backupName_inj.mp he).1]
      simp [hv]

theorem restore_reported (hf : f.ino < s.disk.nextIno) {cmd : ℕ} :
    (KernelCall.ioctl cmd q).Reported L J f s ↔ (KernelCall.ioctl cmd q).Echoes L J f s.disk := by
  refine forall_congr' fun hl => forall_congr' fun hcmd => forall_congr' fun hc =>
    forall_congr' fun i => forall_congr' fun _ => forall_congr' fun e => ?_
  subst hcmd
  obtain ⟨j,hj,heff⟩ := restoreEffect_cleansUp hf hc
  have hrun := restoreRun_effect (restore_run L J f q s)
  rw [heff J] at hrun
  have hreturns (he : e ≠ 0) : ((bkpfsUnlockedIoctl L J f 1001 q s).1 = .returned e ∧
      ∀ v, (bkpfsUnlockedIoctl L J f 1001 q s).2.1.disk.dir (backupName v q.file) =
        s.disk.dir (backupName v q.file)) ↔
      Fails L q.file (counter L J f s.disk).toNat (asked q s.disk) e ∧
        ∀ v, ¬ Takes L q.file (counter L J f s.disk).toNat (asked q s.disk) v := by
    have hloop := @loop_returns L (refilled L q j s.disk) q.file
      (counter L J f s.disk).toNat e he
    have hcongr := fun v (_ : 1 ≤ v) (_ : v ≤ ((counter L J f s.disk).toNat : Int)) =>
      refilled_asked hj v
    rw [hrun,fails_congr hcongr] at hloop
    simp only [takes_congr hcongr,(refilled_backup hj _).1] at hloop
    rw [ioctl_restore J f s hl]
    exact hloop
  constructor
  · intro h hb
    have he := breaks_neg hb
    exact (hreturns he.ne).mp (h he ((copyBytes_breaks _ _ _ he).mpr hb))
  · intro h he hcopy
    exact (hreturns he.ne).mpr (h ((copyBytes_breaks _ _ _ he).mp hcopy))

theorem reported_iff (hf : f.ino < s.disk.nextIno) (c : KernelCall) :
    c.Reported L J f s ↔ c.Echoes L J f s.disk := by
  cases c with
  | write pos buf => exact write_reported hf
  | ioctl cmd q => exact restore_reported hf

end

end BackupFs
