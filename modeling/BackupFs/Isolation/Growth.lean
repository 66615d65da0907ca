import BackupFs.Cache.Creating

namespace BackupFs

inductive IoctlEffect (L : Lower) (J : Junk) (f : File) (q : Request) : (Disk → Disk) → Prop
  | none : IoctlEffect L J f q id
  | deleteOne : IoctlEffect L J f q fun d => (deletedOne L J f q d).2
  | deleteAll : IoctlEffect L J f q fun d => (deletedAll L J f q d).2
  | restore : IoctlEffect L J f q fun d => (restoreEffect L J f q d).2
  | view : IoctlEffect L J f q fun d =>
      (vfsPathLookup L.pathLookup (backupName q.version q.file) d).2

structure Grows (f : File) (d d' : Disk) : Prop where
  inodes : ∀ i < d.nextIno, i ≠ f.ino → d'.inodes i = d.inodes i
  nextIno : d.nextIno ≤ d'.nextIno
  entered : ∀ x i, d'.dir x = some i → d.dir x = some i ∨ d.nextIno ≤ i ∧ i < d'.nextIno
  walk : d'.walk = d.walk

def family (n : Name) : Set Name :=
  {x | x = n ∨ x = restoredName n ∨ ∃ v, x = backupName v n}

theorem self_family (n : Name) : n ∈ family n := .inl rfl

theorem restored_family (n : Name) : restoredName n ∈ family n := .inr (.inl rfl)

theorem backup_family (v : Int) (n : Name) : backupName v n ∈ family n := .inr (.inr ⟨v,rfl⟩)

structure Confined (S : Set Name) (f : File) (d d' : Disk) : Prop extends Grows f d d' where
  dir : ∀ x ∉ S, d'.dir x = d.dir x
  cached : ∀ x ∉ S, d'.cached x = d.cached x

section
variable {L : Lower} {J : Junk} {f : File} {q : Request}

theorem view_disk (s : Sys) : (view L J q s).2.1.disk =
    (vfsPathLookup L.pathLookup (backupName q.version q.file) s.disk).2 := by
  unfold view
  dsimp only
  generalize vfsPathLookup L.pathLookup _ s.disk = out
  obtain ⟨r,d⟩ := out
  cases r with
  | error err => rfl
  | ok i =>
    dsimp only
    cases L.openSrc with
    | err e => rfl
    | null => rfl
    | file =>
      cases L.kernelRead with
      | some e => rfl
      | none =>
        dsimp only
        split_ifs <;> rfl

theorem list_disk (s : Sys) : (list L J f s).2.1 = s := by
  unfold list
  dsimp only
  split_ifs <;> rfl

theorem ioctl_effect (cmd : ℕ) : ∃ effect, IoctlEffect L J f q effect ∧
    ∀ s, (bkpfsUnlockedIoctl L J f cmd q s).2.1.disk = effect s.disk := by
  cases hl : L.lowerFile with
  | false => exact ⟨id,.none,fun s => by rw [ioctl_noFile J f s hl]; rfl⟩
  | true =>
    unfold bkpfsUnlockedIoctl
    rw [hl]
    split
    · contradiction
    · split
      · by_cases hv : q.version = 0
        · refine ⟨_,.deleteAll,fun s => ?_⟩
          rw [if_neg (not_not.mpr hv)]
          exact (deleteAll_spec L J f q s).2
        · refine ⟨_,.deleteOne,fun s => ?_⟩
          rw [if_pos hv]
          exact (deleteOne_spec L J f q s).2
      · exact ⟨_,.restore,fun s => by rw [restoreRun_effect (restore_run L J f q s)]⟩
      · exact ⟨_,.view,view_disk⟩
      · exact ⟨id,.none,fun s => by rw [list_disk]; rfl⟩
      · exact ⟨id,.none,fun s => rfl⟩

end

namespace Confined

variable {S : Set Name} {f : File} {L : Lower} {J : Junk} {q : Request} {d d' d'' : Disk}
  {x : Name} {effect : Disk → Disk}

theorem refl (S : Set Name) (f : File) (d : Disk) : Confined S f d d where
  inodes _ _ _ := rfl
  nextIno := le_refl _
  entered _ _ h := .inl h
  walk := rfl
  dir _ _ := rfl
  cached _ _ := rfl

theorem trans (h : Confined S f d d') (h' : Confined S f d' d'') : Confined S f d d'' where
  inodes i hi hf := (h'.inodes i (hi.trans_le h.nextIno) hf).trans (h.inodes i hi hf)
  nextIno := h.nextIno.trans h'.nextIno
  entered x i hi := by
    rcases h'.entered x i hi with hi | ⟨h1,h2⟩
    · exact (h.entered x i hi).imp_right fun h1 => ⟨h1.1,h1.2.trans_le h'.nextIno⟩
    · exact .inr ⟨h.nextIno.trans h1,h2⟩
  walk := h'.walk.trans h.walk
  dir x hx := (h'.dir x hx).trans (h.dir x hx)
  cached x hx := (h'.cached x hx).trans (h.cached x hx)

theorem setInode (h : Confined S f d d') {j : Ino} (hj : j = f.ino ∨ d.nextIno ≤ j)
    (n : Inode) : Confined S f d (d'.setInode j n) where
  inodes i hi hf := by
    rw [Disk.setInode_inodes,Function.update_of_ne]
    · exact h.inodes i hi hf
    · rintro rfl
      rcases hj with hj | hj
      · exact hf hj
      · exact absurd hi (Nat.not_lt.mpr hj)
  nextIno := h.nextIno
  entered := h.entered
  walk := h.walk
  dir := h.dir
  cached := h.cached

theorem own (S : Set Name) (f : File) (n : Inode) (d : Disk) :
    Confined S f d (d.setInode f.ino n) := (refl S f d).setInode (.inl rfl) n

theorem stamp (L : Lower) (v : Int) (d : Disk) : Confined S f d (stamp L f v d) := by
  obtain ⟨n,hn,_⟩ := stamp_setInode L f v d
  rw [hn]
  exact own S f n d

theorem vfsWrite (L : Lower) (pos : ℕ) (buf : Bytes) (d : Disk) :
    Confined S f d (vfsWrite L f.ino pos buf d).2 := by
  unfold BackupFs.vfsWrite
  dsimp only
  split_ifs
  · exact refl S f d
  · exact own S f _ d

theorem vfsSetxattr (L : Lower) (a : Attr) (v : Int) (d : Disk) :
    Confined S f d (vfsSetxattr L f.ino a v d) := by
  obtain ⟨n,hn,_⟩ := vfsSetxattr_setInode L f.ino a v d
  rw [hn]
  exact own S f n d

theorem update_notMem {A : Type} {y : Name} (hx : x ∈ S) (hy : y ∉ S) (g : Name → A) (a : A) :
    Function.update g x a y = g y :=
  Function.update_of_ne (fun he => hy (by rwa [he])) a g

theorem link_none (hx : x ∈ S) (d : Disk) : Confined S f d (d.link x none false) where
  inodes _ _ _ := rfl
  nextIno := le_refl _
  entered y i hi := by
    rw [Disk.link_dir] at hi
    rcases eq_or_ne y x with rfl | hy
    · simp at hi
    · rw [Function.update_of_ne hy] at hi
      exact .inl hi
  walk := rfl
  dir _ hy := update_notMem hx hy _ _
  cached _ hy := update_notMem hx hy _ _

theorem discard (hx : x ∈ S) (L : Lower) (d : Disk) : Confined S f d (discard L x d).2 := by
  by_cases hc : d.cached x = true
  · rw [discard_cached hc]
    cases hi : d.dir x with
    | none =>
      rw [removed_missing hi]
      exact refl S f d
    | some i =>
      rw [removed_present hi]
      dsimp only
      split_ifs
      · exact link_none hx d
      · exact refl S f d
  · rw [discard_uncached hc]
    exact refl S f d

theorem discardLoop {n : Name} (hn : family n ⊆ S) (L : Lower) (k : ℕ) (err : Int) (d : Disk) :
    Confined S f d (discardLoop L n k err d).2 :=
  discardLoop_rule (refl S f) trans (fun v d => discard (hn (backup_family v n)) L d) k err d

theorem hash (hx : x ∈ S) (d : Disk) : Confined S f d (d.hash x) :=
  { refl S f d with cached := fun _ hy => update_notMem hx hy _ _ }

theorem lookedUp (hx : x ∈ S) (d : Disk) : Confined S f d (lookedUp x d) where
  inodes i _ _ := by rw [lookedUp_inodes]
  nextIno := by rw [lookedUp_nextIno]
  entered y i h := .inl (by rwa [lookedUp_dir] at h)
  walk := lookedUp_walk x d
  dir _ _ := by rw [lookedUp_dir]
  cached _ hy := lookedUp_other fun he => hy (by rwa [he])

theorem begun (hx : x ∈ S) (d : Disk) : Confined S f d (begun x d) where
  inodes i hi _ := by
    rw [BackupFs.begun,Disk.created_inodes,lookedUp_nextIno,Function.update_of_ne hi.ne,
      lookedUp_inodes]
  nextIno := by
    rw [BackupFs.begun,Disk.created_nextIno,lookedUp_nextIno]
    exact Nat.le_succ _
  entered y i hi := by
    rw [BackupFs.begun,Disk.created_dir,lookedUp_nextIno,lookedUp_dir] at hi
    rcases eq_or_ne y x with rfl | hy
    · rw [Function.update_self] at hi
      cases hi
      refine .inr ⟨le_refl _,?_⟩
      rw [BackupFs.begun,Disk.created_nextIno,lookedUp_nextIno]
      exact Nat.lt_succ_self _
    · rw [Function.update_of_ne hy] at hi
      exact .inl hi
  walk := by rw [BackupFs.begun,Disk.created_walk,lookedUp_walk]
  dir _ hy := (begun_other fun he => hy (by rwa [he])).1
  cached _ hy := (begun_other fun he => hy (by rwa [he])).2.1

theorem vfsPathLookup (hx : x ∈ S) (fail : Option Errno) (d : Disk) :
    Confined S f d (vfsPathLookup fail x d).2 := by
  unfold BackupFs.vfsPathLookup
  cases fail with
  | some e => exact refl S f d
  | none =>
    dsimp only
    split_ifs
    · exact refl S f d
    · exact hash hx d

theorem retained (hS : family f.name ⊆ S) (L : Lower) (J : Junk) (d : Disk) :
    Confined S f d (retained L J f d).2 := by
  unfold BackupFs.retained
  dsimp only
  split_ifs
  · exact (stamp L _ d).trans (discard (hS (backup_family _ _)) L _)
  · exact stamp L _ d

theorem backupRun {i : Ino} {o : Option Outcome} (hx : x ∈ S) (h : BackupRun L i x d o d') :
    Confined S f d d' := by
  cases h with
  | noDentry | noLookup => exact refl S f d
  | collision | noCreate => exact lookedUp hx d
  | noSource | noDest | unbacked => exact begun hx d
  | backed => exact (begun hx d).setInode (.inr (le_refl _)) _

theorem writeRun {pos : ℕ} {buf : Bytes} {o : Outcome} (hS : family f.name ⊆ S)
    (h : WriteRun L J f pos buf d o d') : Confined S f d d' := by
  have hr := retained hS L J d
  have hx := hS (backup_family (nextVersion (counter L J f d)) f.name)
  cases h with
  | retention => exact hr
  | stopped _ h => exact hr.trans (backupRun hx h)
  | wrote _ h => exact (hr.trans (backupRun hx h)).trans (vfsWrite L pos buf _)

theorem restoreRun {o : Outcome} (hS : family q.file ⊆ S) (h : RestoreRun L J f q d o d') :
    Confined S f d d' := by
  have hc : Confined S f d (cleared L q d) := discard (hS (self_family q.file)) L d
  have hr := hS (restored_family q.file)
  have hf : Confined S f d (found L q d).2 :=
    (hc.trans (begun hr _)).trans (vfsPathLookup (hS (backup_family q.version q.file)) _ _)
  have hcopy (i : Ino) : Confined S f d (refilled L q i d) := hf.setInode (.inr hc.nextIno) _
  have hclean (i : Ino) : Confined S f d (cleanup L J f q (refilled L q i d)).2 :=
    (hcopy i).trans (discardLoop hS L _ 0 _)
  cases h with
  | current | noDentry | noLookup => exact hc
  | collision | noCreate => exact hc.trans (lookedUp hr _)
  | noVersion | unopened | uncopied => exact hf
  | stopped | done => exact hclean _

theorem deletedOne (hS : family q.file ⊆ S) (L : Lower) (J : Junk) (d : Disk) :
    Confined S f d (deletedOne L J f q d).2 := by
  have hd := discard (f := f) (hS (backup_family q.version q.file)) L d
  unfold BackupFs.deletedOne
  generalize BackupFs.discard L _ d = out at hd ⊢
  obtain ⟨e,d'⟩ := out
  cases e with
  | none => exact hd
  | some e =>
    dsimp only
    split_ifs
    · exact hd
    · exact hd.trans (stamp L _ d')
    · exact hd

theorem deletedAll (hS : family q.file ⊆ S) (L : Lower) (J : Junk) (d : Disk) :
    Confined S f d (deletedAll L J f q d).2 := by
  have hd := discardLoop (f := f) hS L (counter L J f d).toNat (-ENOTTY) d
  unfold BackupFs.deletedAll
  generalize BackupFs.discardLoop L _ _ _ d = out at hd ⊢
  obtain ⟨r,d'⟩ := out
  cases r with
  | error e => exact hd
  | ok e => exact hd.trans (vfsSetxattr L .revision (-1) d')

theorem ioctl (hS : family q.file ⊆ S) (h : IoctlEffect L J f q effect) (s : Sys) :
    Confined S f s.disk (effect s.disk) := by
  cases h with
  | none => exact refl S f s.disk
  | deleteOne => exact deletedOne hS L J s.disk
  | deleteAll => exact deletedAll hS L J s.disk
  | restore =>
    have hr := restore_run L J f q s
    dsimp only
    rw [restoreRun_effect hr]
    exact restoreRun hS hr
  | view => exact vfsPathLookup (hS (backup_family q.version q.file)) _ s.disk

end Confined

section
variable {f : File} {L : Lower} {J : Junk} {q : Request} {d d' : Disk} {effect : Disk → Disk}

theorem Grows.vfsWrite (L : Lower) (pos : ℕ) (buf : Bytes) (d : Disk) :
    Grows f d (vfsWrite L f.ino pos buf d).2 :=
  (Confined.vfsWrite (S := Set.univ) L pos buf d).toGrows

theorem Grows.writeRun {pos : ℕ} {buf : Bytes} {o : Outcome}
    (h : WriteRun L J f pos buf d o d') : Grows f d d' :=
  (Confined.writeRun (Set.subset_univ _) h).toGrows

theorem Grows.ioctl (h : IoctlEffect L J f q effect) (s : Sys) : Grows f s.disk (effect s.disk) :=
  (Confined.ioctl (Set.subset_univ _) h s).toGrows

end

theorem slash_family {n : FileName} {x : Name} (h : x ∈ family n) : slash ∉ x := by
  rcases h with rfl | rfl | ⟨v,rfl⟩
  · exact n.property.2.1
  · exact slash_mem_restoredName.not.mpr n.property.2.1
  · exact slash_mem_backupName.not.mpr n.property.2.1

structure Unrelated (n m : Name) : Prop where
  ne : n ≠ m
  backup : ∀ v, n ≠ backupName v m
  restored : n ≠ restoredName m
  backup' : ∀ v, m ≠ backupName v n
  restored' : m ≠ restoredName n

theorem restoredName_inj {n m : Name} (h : restoredName n = restoredName m) : n = m :=
  List.append_cancel_left h

theorem family_disjoint {n m x : Name} (h : Unrelated n m) (hn : x ∈ family n) :
    x ∉ family m := by
  rcases hn with rfl | rfl | ⟨v,rfl⟩
  · rintro (he | he | ⟨w,he⟩)
    · exact h.ne he
    · exact h.restored he
    · exact h.backup w he
  · rintro (he | he | ⟨w,he⟩)
    · exact h.restored' he.symm
    · exact h.ne (restoredName_inj he)
    · exact restoredName_ne_backupName _ _ _ he
  · rintro (he | he | ⟨w,he⟩)
    · exact h.backup' v he.symm
    · exact restoredName_ne_backupName _ _ _ he.symm
    · exact h.ne (backupName_inj.mp he).2

structure Within (f : File) (d d' : Disk) : Prop where
  dir : ∀ x ∉ family f.name, d'.dir x = d.dir x
  cached : ∀ x ∉ family f.name, d'.cached x = d.cached x
  inodes : ∀ i < d.nextIno, i ≠ f.ino → d'.inodes i = d.inodes i
  nextIno : d.nextIno ≤ d'.nextIno
  entered : ∀ x i, d'.dir x = some i → d.dir x = some i ∨ d.nextIno ≤ i ∧ i < d'.nextIno

theorem Confined.within {f : File} {d d' : Disk} (h : Confined (family f.name) f d d') :
    Within f d d' where
  dir := h.dir
  cached := h.cached
  inodes := h.inodes
  nextIno := h.nextIno
  entered := h.entered

end BackupFs
