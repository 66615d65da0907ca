import BackupFs.Failure.Write

namespace BackupFs

open Transition

-- a call through .write, .write_iter or, with ATTR_SIZE, .setattr
inductive ContentCall where
  | write (J : Junk) (pos : ℕ) (buf : Bytes)
  | writeIter (pos : ℕ) (buf : Bytes)
  | setattr (size : ℕ)

def ContentCall.run (L : Lower) (f : File) (s : Sys) : ContentCall → Outcome × Sys
  | .write J pos buf => bkpfsWrite L J f pos buf s
  | .writeIter pos buf => bkpfsWriteIter L f pos buf s
  | .setattr size => bkpfsSetattr L f (some size) s

structure Made where
  file : File
  lower : Lower
  call : ContentCall
  before : Disk
  outcome : Outcome
  after : Disk

structure Audited where
  sys : Sys
  made : List Made

def AuditStep (s : Audited) (c : File × Lower × ContentCall) (t : Audited) : Prop :=
  c.1.ino < s.sys.disk.nextIno ∧
    t = ⟨(c.2.2.run c.2.1 c.1 s.sys).2,s.made ++ [⟨c.1,c.2.1,c.2.2,s.sys.disk,
      (c.2.2.run c.2.1 c.1 s.sys).1,(c.2.2.run c.2.1 c.1 s.sys).2.disk⟩]⟩

def LeavesBackup (f : File) (d d' : Disk) : Prop :=
  ∃ v, d.dir (backupName v f.name) = none ∧
    (chain f d').backups v = some (d.inodes f.ino).content

def Guarded (m : Made) : Prop :=
  ∀ r, 0 ≤ r → m.outcome = .returned r →
    (m.after.inodes m.file.ino).content ≠ (m.before.inodes m.file.ino).content →
      LeavesBackup m.file m.before m.after

structure Copies (L : Lower) (n : ℕ) : Prop where
  openSrc : L.openSrc = .file
  openDest : L.openDest = .file
  drains : Drains L.splice 0 n

def Covered (f : File) (L : Lower) (d : Disk) : ContentCall → Prop
  | .write J pos buf => L.lookup ≠ none ∨ ¬ GoesThrough L J f buf d ∨
      pwrite (d.inodes f.ino).content pos (taken L buf) = (d.inodes f.ino).content ∨
      (d.inodes f.ino).content = [] ∨ Copies L (d.inodes f.ino).content.length
  | .writeIter pos buf => ∀ r, L.writeIter = some r → r buf.length < 0 ∨
      pwrite (d.inodes f.ino).content pos (taken (L.iter r) buf) =
        (d.inodes f.ino).content
  | .setattr size => L.setattrPrepare ≠ none ∨ L.newsizeOk ≠ none ∨ L.notifyChange ≠ none ∨
      size = (d.inodes f.ino).content.length

section
variable {L : Lower} {J : Junk} {f : File} {d d' : Disk} {pos : ℕ} {buf : Bytes}

theorem vfsWrite_result (L : Lower) (i : Ino) (pos : ℕ) (buf : Bytes) (d : Disk) :
    L.write buf.length < 0 ∧ vfsWrite L i pos buf d = (L.write buf.length,d) ∨
      0 ≤ L.write buf.length ∧ ∃ k : ℕ, vfsWrite L i pos buf d = ((k : Int),d.setInode i
        { d.inodes i with content := pwrite (d.inodes i).content pos (taken L buf) }) := by
  rcases lt_or_ge (L.write buf.length) 0 with h | h
  · refine .inl ⟨h,?_⟩
    rw [vfsWrite,if_pos h]
  · refine .inr ⟨h,min (L.write buf.length).toNat buf.length,?_⟩
    rw [vfsWrite,if_neg (not_lt.mpr h)]
    rfl

theorem leavesBackup_same (hdir : d'.dir = d.dir) : ¬ LeavesBackup f d d' := by
  rintro ⟨v,hv,hb⟩
  rw [← hdir,← chain_backups_eq_none (f := f),hb] at hv
  cases hv

theorem guarded_writeIter {s : Sys} : Guarded ⟨f,L,.writeIter pos buf,s.disk,
    (bkpfsWriteIter L f pos buf s).1,(bkpfsWriteIter L f pos buf s).2.disk⟩ ↔
      Covered f L s.disk (.writeIter pos buf) := by
  unfold Guarded Covered bkpfsWriteIter
  cases hw : L.writeIter with
  | none =>
    refine iff_of_true ?_ (fun r hr => by cases hr)
    intro r hr ho
    cases ho
    simp [EINVAL] at hr
  | some w =>
    dsimp only
    rcases vfsWrite_result (L.iter w) f.ino pos buf s.disk with
      ⟨hneg,he⟩ | ⟨hpos,k,he⟩
    · rw [he]
      refine iff_of_true ?_ ?_
      · intro r hr ho
        cases ho
        exact absurd hneg (not_lt.mpr hr)
      · intro r hr
        cases hr
        exact .inl hneg
    · rw [he]
      have hlb (n : Inode) : ¬ LeavesBackup f s.disk (s.disk.setInode f.ino n) :=
        leavesBackup_same rfl
      constructor
      · intro h r hr
        cases hr
        refine .inr ?_
        by_contra hne
        refine hlb _ (h k (Int.natCast_nonneg k) rfl ?_)
        simpa using hne
      · intro h r _ _ hne
        rcases h w rfl with hn | he'
        · exact absurd hn (not_lt.mpr hpos)
        · simp [he'] at hne

theorem guarded_setattr {s : Sys} {size : ℕ} : Guarded ⟨f,L,.setattr size,s.disk,
    (bkpfsSetattr L f (some size) s).1,(bkpfsSetattr L f (some size) s).2.disk⟩ ↔
      Covered f L s.disk (.setattr size) := by
  have hfail : ∀ (e : Errno) (d' : Disk), Guarded ⟨f,L,.setattr size,s.disk,.returned e,d'⟩ := by
    intro e d' r hr ho
    cases ho
    exact absurd e.property (not_lt.mpr hr)
  unfold Covered bkpfsSetattr notifyChange
  cases hp : L.setattrPrepare with
  | some e => exact iff_of_true (hfail e _) (.inl (by simp))
  | none =>
    cases hn : L.newsizeOk with
    | some e => exact iff_of_true (hfail e _) (.inr (.inl (by simp)))
    | none =>
      cases hc : L.notifyChange with
      | some e => exact iff_of_true (hfail e _) (.inr (.inr (.inl (by simp))))
      | none =>
        have hlb (n : Inode) : ¬ LeavesBackup f s.disk (s.disk.setInode f.ino n) :=
          leavesBackup_same rfl
        constructor
        · intro h
          refine .inr (.inr (.inr ?_))
          by_contra hne
          refine hlb _ (h 0 (le_refl 0) rfl ?_)
          simpa [resize_eq] using hne
        · rintro (h | h | h | h)
          · exact absurd rfl h
          · exact absurd rfl h
          · exact absurd rfl h
          · intro r _ _ hne
            simp [resize_eq.mpr h] at hne

theorem copies_iff {c : Bytes} (hs : L.openSrc = .file) (hd : L.openDest = .file) :
    (copyBytes L.splice c []).2 = c ↔ c = [] ∨ Copies L c.length := by
  rw [copyBytes_full]
  constructor
  · intro h
    exact .inr ⟨hs,hd,h⟩
  · rintro (rfl | h)
    · exact .done
    · exact h.drains

theorem empty_stored (hs : ¬ (L.openSrc = .file ∧ L.openDest = .file)) (c : Bytes) :
    [] = c ↔ c = [] ∨ Copies L c.length := by
  constructor
  · intro h
    exact .inl h.symm
  · rintro (h | h)
    · exact h.symm
    · exact absurd ⟨h.openSrc,h.openDest⟩ hs

theorem begun_stored (hs : ¬ (L.openSrc = .file ∧ L.openDest = .file)) (x : Name) (d : Disk)
    (c : Bytes) : ((begun x d).inodes d.nextIno).content = c ↔ c = [] ∨ Copies L c.length := by
  rw [begun,Disk.created_inodes,lookedUp_nextIno,Function.update_self]
  exact empty_stored hs c

theorem backupRun_stored {x : Name} {i : Ino} (h : BackupRun L i x d none d')
    (hi : i ≠ d.nextIno) : (d'.inodes d.nextIno).content = (d.inodes i).content ↔
      (d.inodes i).content = [] ∨ Copies L (d.inodes i).content.length := by
  cases h with
  | unbacked hb h => exact begun_stored (isNull_unopened h) x d _
  | backed hb hs hd =>
    rw [snapshot,copyFile,begun,Disk.setInode_inodes,Disk.created_inodes,lookedUp_nextIno,
      lookedUp_inodes,Function.update_self,Function.update_self,Function.update_of_ne hi]
    exact copies_iff hs hd

theorem retained_le {x : Name} {i : Ino} (h : (retained L J f d).2.dir x = some i) :
    d.dir x = some i := by
  obtain ⟨n,hs,_⟩ := stamp_setInode L f (nextVersion (counter L J f d)) d
  unfold retained at h
  dsimp only at h
  rw [hs] at h
  split_ifs at h
  · rcases eq_or_ne x (backupName (nextVersion (counter L J f d) - N) f.name) with rfl | hx
    · unfold discard removed at h
      split_ifs at h with hc hu
      · cases hx : d.dir (backupName (nextVersion (counter L J f d) - N) f.name) with
        | none => simp [hx] at h
        | some j => simp [hx] at h
      · cases hx : d.dir (backupName (nextVersion (counter L J f d) - N) f.name) with
        | none => simp [hx] at h
        | some j => simpa [hx] using h
      · exact h
    · rwa [(discard_other hx).1] at h
  · exact h

theorem retained_content : ((retained L J f d).2.inodes f.ino).content =
    (d.inodes f.ino).content := by
  obtain ⟨n,hs,hc⟩ := stamp_setInode L f (nextVersion (counter L J f d)) d
  rw [retained_inodes.2,hs,Disk.setInode_inodes,Function.update_self,hc]

theorem leavesBackup_made {d₁ d₂ : Disk} (hdir : d₂.dir = d₁.dir)
    (hmade : d₁.dir = Function.update (retained L J f d).2.dir (newName L J f d)
      (some d.nextIno)) (hfree : d.dir (newName L J f d) = none) :
    LeavesBackup f d d₂ ↔ (d₂.inodes d.nextIno).content = (d.inodes f.ino).content := by
  have hnew : (chain f d₂).backups (nextVersion (counter L J f d)) =
      some (d₂.inodes d.nextIno).content := by
    change (d₂.dir (newName L J f d)).map (fun i => (d₂.inodes i).content) = _
    rw [hdir,hmade,Function.update_self,Option.map_some]
  constructor
  · rintro ⟨v,hv,hb⟩
    rcases eq_or_ne v (nextVersion (counter L J f d)) with rfl | hne
    · rw [hnew] at hb
      exact Option.some.inj hb
    · have hnone : d₂.dir (backupName v f.name) = none := by
        have hx : backupName v f.name ≠ newName L J f d := fun he =>
          hne (backupName_inj.mp he).1
        rw [hdir,hmade,Function.update_of_ne hx]
        by_contra hex
        obtain ⟨i,hi⟩ := Option.ne_none_iff_exists'.mp hex
        rw [retained_le hi] at hv
        cases hv
      rw [← chain_backups_eq_none (f := f),hb] at hnone
      cases hnone
  · intro h
    exact ⟨_,hfree,hnew.trans (congrArg some h)⟩

theorem writeRun_refused {o : Outcome} (hl : L.lookup ≠ none)
    (h : WriteRun L J f pos buf d o d') (r : Int) (hr : 0 ≤ r) : o ≠ .returned r := by
  have hback : ∀ {i x d₁ d₂} {o : Option Outcome}, BackupRun L i x d₁ o d₂ →
      o = some (.returned (-ENOMEM)) ∨ o = some .oops := by
    intro i x d₁ d₂ o hb
    cases hb with
    | noDentry => exact .inl rfl
    | noLookup => exact .inr rfl
    | collision _ h => exact absurd h hl
    | noCreate _ h => exact absurd h hl
    | noSource h | noDest h | unbacked h | backed h => exact absurd h.lookup hl
  rintro rfl
  generalize ho : Outcome.returned r = o at h
  cases h with
  | retention h =>
    cases ho
    exact h (le_antisymm retained_nonpos hr)
  | stopped _ h =>
    subst ho
    rcases hback h with he | he
    · cases he
      simp [ENOMEM] at hr
    · cases he
  | wrote _ h => rcases hback h with he | he <;> cases he

theorem guarded_write {o : Outcome} (hf : f.ino < d.nextIno)
    (h : WriteRun L J f pos buf d o d') :
    Guarded ⟨f,L,.write J pos buf,d,o,d'⟩ ↔ Covered f L d (.write J pos buf) := by
  unfold Guarded Covered
  dsimp only
  by_cases hl : L.lookup = none
  · by_cases hg : GoesThrough L J f buf d
    · obtain ⟨d₁,hb,rfl,rfl⟩ := writeRun_wrote hl hg h
      have hnx : (retained L J f d).2.nextIno = d.nextIno := retained_inodes.1
      have hne : f.ino ≠ (retained L J f d).2.nextIno := hnx ▸ Nat.ne_of_lt hf
      have hcontent := retained_content (L := L) (J := J) (f := f) (d := d)
      have hsame : (d₁.inodes f.ino).content = (d.inodes f.ino).content := by
        rw [backupRun_inodes hb hne,hcontent]
      have hstored := backupRun_stored hb hne
      rw [hcontent,hnx] at hstored
      have hmade := (backupRun_made hb).1
      rw [hnx] at hmade
      rcases vfsWrite_result L f.ino pos buf d₁ with ⟨hneg,_⟩ | ⟨_,k,he⟩
      · exact absurd hneg (not_lt.mpr hg.write)
      · rw [he]
        have hleaves (n : Inode) : LeavesBackup f d (d₁.setInode f.ino n) ↔
            (d.inodes f.ino).content = [] ∨ Copies L (d.inodes f.ino).content.length := by
          refine (leavesBackup_made (Disk.setInode_dir d₁ f.ino n) hmade hg.backs.free).trans ?_
          rw [Disk.setInode_inodes,Function.update_of_ne (Nat.ne_of_gt hf),hstored]
        dsimp only
        rw [hleaves,Disk.setInode_inodes,Function.update_self,hsame]
        constructor
        · intro hk
          by_cases hch : pwrite (d.inodes f.ino).content pos (taken L buf) =
              (d.inodes f.ino).content
          · exact .inr (.inr (.inl hch))
          · exact .inr (.inr (.inr (hk k (Int.natCast_nonneg k) rfl hch)))
        · rintro (h | h | h | h) _ _ _ hch
          · exact absurd hl h
          · exact absurd hg h
          · exact absurd h hch
          · exact h
    · refine iff_of_true ?_ (.inr (.inl hg))
      intro r hr ho
      rcases writeRun_outcome hl h with ⟨_,hg'⟩ | ⟨⟨e,he,ho'⟩,_⟩
      · exact absurd hg' hg
      · rw [ho] at ho'
        cases ho'
        exact absurd he (not_lt.mpr hr)
  · refine iff_of_true ?_ (.inl hl)
    intro r hr ho
    exact absurd ho (writeRun_refused hl h r hr)

end

theorem guarded_iff_covered {L : Lower} {f : File} {s : Sys} (c : ContentCall)
    (hf : f.ino < s.disk.nextIno) :
    Guarded ⟨f,L,c,s.disk,(c.run L f s).1,(c.run L f s).2.disk⟩ ↔ Covered f L s.disk c := by
  cases c with
  | write J pos buf => exact guarded_write hf (bkpfsWrite_run L J f pos buf s)
  | writeIter pos buf => exact guarded_writeIter
  | setattr size => exact guarded_setattr

def AuditHolds (s : Audited) : Prop :=
  ∀ m ∈ s.made, Guarded m ↔ Covered m.file m.lower m.before m.call

theorem audit_step {s t : Audited} {c : File × Lower × ContentCall} (h : AuditHolds s)
    (hs : AuditStep s c t) : AuditHolds t := by
  obtain ⟨f,L,c⟩ := c
  obtain ⟨hf,rfl⟩ := hs
  intro m hm
  rcases List.mem_append.mp hm with hm | hm
  · exact h m hm
  · rw [List.mem_singleton] at hm
    subst hm
    exact guarded_iff_covered c hf

theorem writeIter_revision (L : Lower) (f : File) (pos : ℕ) (buf : Bytes) (s : Sys) :
    ((bkpfsWriteIter L f pos buf s).2.disk.inodes f.ino).revision =
      (s.disk.inodes f.ino).revision := by
  unfold bkpfsWriteIter
  cases L.writeIter with
  | none => rfl
  | some w => exact vfsWrite_attrs (L.iter w) f.ino pos buf s.disk

theorem content_changes_backed_up (s : Sys) :
    (∀ (t : Audited) (calls : List (File × Lower × ContentCall)),
      Run AuditStep ⟨s,[]⟩ calls t → ((∀ m ∈ t.made, Guarded m) ↔
        ∀ m ∈ t.made, Covered m.file m.lower m.before m.call)) ∧
    ∀ (L : Lower) (J : Junk) (f : File) (pos : ℕ) (buf : Bytes), ListedFaults L →
      f.ino < s.disk.nextIno → chain f (bkpfsWrite L J f pos buf s).2.disk ≠
        chain f (bkpfsWriteIter L f pos buf s).2.disk := by
  constructor
  · intro t calls run
    have h := run.invariant AuditHolds (fun _ _ _ h hs => audit_step h hs)
      (fun m hm => by cases hm)
    exact forall₂_congr h
  · intro L J f pos buf hL hf he
    have hr := congrArg Chain.revision he
    change ((bkpfsWrite L J f pos buf s).2.disk.inodes f.ino).revision =
      ((bkpfsWriteIter L f pos buf s).2.disk.inodes f.ino).revision at hr
    rw [writeRun_revision hL hf (bkpfsWrite_run L J f pos buf s),writeIter_revision] at hr
    have hcount := counter_reads hL.getxattr J f s.disk
    rw [← hr,Option.getD_some] at hcount
    exact nextVersion_ne _ hcount.symm

def aTxtOne : Sys := ⟨Disk.single aTxt { content := bytesOf "one" },[]⟩

def truncated : Made :=
  ⟨aTxt,{},.setattr 0,aTxtOne.disk,(bkpfsSetattr {} aTxt (some 0) aTxtOne).1,
    (bkpfsSetattr {} aTxt (some 0) aTxtOne).2.disk⟩

theorem content_changes_backed_up_truncate :
    ((∀ m ∈ [truncated], Guarded m) ↔
      ∀ m ∈ [truncated], Covered m.file m.lower m.before m.call) ∧
      chain aTxt (bkpfsWrite {} {} aTxt 0 (bytesOf "two") aTxtOne).2.disk ≠
        chain aTxt (bkpfsWriteIter {} aTxt 0 (bytesOf "two") aTxtOne).2.disk := by
  refine ⟨(content_changes_backed_up aTxtOne).1
    ⟨(bkpfsSetattr {} aTxt (some 0) aTxtOne).2,[truncated]⟩ [(aTxt,{},.setattr 0)]
    (Run.single ⟨by decide,rfl⟩),?_⟩
  exact (content_changes_backed_up aTxtOne).2 {} {} aTxt 0 _ ⟨fun _ => rfl,fun _ => rfl,rfl⟩
    (by decide)

theorem writeIter_escapes : ¬ ∀ (s : Sys) (t : Audited)
    (calls : List (File × Lower × ContentCall)), Run AuditStep ⟨s,[]⟩ calls t →
      ∀ m ∈ t.made, Guarded m := by
  intro h
  have hm := h aTxtOne _ [(aTxt,{},.writeIter 0 (bytesOf "two"))]
    (Run.single ⟨by decide,rfl⟩) _ (List.mem_singleton.mpr rfl) 3 (by decide)
    (by decide +kernel) (by decide +kernel)
  refine leavesBackup_same ?_ hm
  rfl

end BackupFs
