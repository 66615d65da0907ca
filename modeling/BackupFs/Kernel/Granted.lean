import BackupFs.Kernel.Runs

namespace BackupFs

theorem refusal_grants {L : Lower} (hL : L.Grants) (x : Name) : L.refusal x = 0 := by
  simp [Lower.refusal,hL.unlink]

theorem vfsGetxattr_reads {L : Lower} (h : ∀ a, L.getxattr a = none) (i : Ino) (a : Attr) (b : Int)
    (d : Disk) : vfsGetxattr L i a b d = ((d.inodes i).attr a).getD b := by
  simp [vfsGetxattr,h]

theorem counter_reads {L : Lower} (h : ∀ a, L.getxattr a = none) (J : Junk) (f : File) (d : Disk) :
    counter L J f d = (d.inodes f.ino).revision.getD J.val :=
  vfsGetxattr_reads h f.ino .revision J.val d

theorem counter_revision {L : Lower} (hL : L.Grants) {f : File} {d : Disk} {v : Int}
    (hr : (d.inodes f.ino).revision = some v) (J : Junk) : counter L J f d = v := by
  rw [counter_reads hL.getxattr,hr,Option.getD_some]

theorem stamp_sets {L : Lower} (h : ∀ a, L.setxattr a = none) (f : File) (val : Int) (d : Disk) :
    stamp L f val d =
      d.setInode f.ino { d.inodes f.ino with revision := some val, youngest := some val } := by
  simp [stamp,vfsSetxattr,h,Disk.setInode,Inode.setAttr]

section Exact
variable {L : Lower} {d : Disk}

theorem discard_present (hL : L.Grants) (hd : d.Exact) {x : Name} {i : Ino}
    (hx : d.dir x = some i) : discard L x d = (some 0,d.link x none false) := by
  rw [discard,if_pos (by rw [hd x,hx]; rfl),removed_present hx,refusal_grants hL,
    if_pos (hL.unlink x)]

theorem discard_absent (hd : d.Exact) {x : Name} (hx : d.dir x = none) :
    discard L x d = (none,d) := by
  rw [discard,if_neg (by rw [hd x,hx]; simp)]

theorem link_none_exact (hd : d.Exact) (x : Name) : (d.link x none false).Exact := by
  intro y
  rw [Disk.link_cached,Disk.link_dir]
  rcases eq_or_ne y x with rfl | h
  · simp
  · simp [h,hd y]

theorem created_exact (hd : d.Exact) (x : Name) : (begun x d).Exact := by
  intro y
  rw [begun,Disk.created_cached,Disk.created_dir,lookedUp_dir]
  rcases eq_or_ne y x with rfl | h
  · simp
  · rw [Function.update_of_ne h,Function.update_of_ne h,lookedUp]
    cases d.pathIno x with
    | none => simp [h,hd y]
    | some i =>
      dsimp only
      split_ifs <;> simp [h,hd y]

theorem discard_exact (hL : L.Grants) (hd : d.Exact) (x : Name) :
    (discard L x d).1.getD 0 = 0 ∧ (discard L x d).2.dir = Function.update d.dir x none ∧
      (discard L x d).2.Exact := by
  cases hx : d.dir x with
  | none =>
    rw [discard_absent hd hx]
    refine ⟨rfl,?_,hd⟩
    rw [← hx,Function.update_eq_self]
  | some i =>
    rw [discard_present hL hd hx]
    exact ⟨rfl,rfl,link_none_exact hd x⟩

structure Swept (n : Name) (k : ℕ) (d d' : Disk) : Prop where
  gone : ∀ v : Int, 1 ≤ v → v ≤ k → d'.dir (backupName v n) = none
  kept : ∀ x, (∀ v : Int, 1 ≤ v → v ≤ k → x ≠ backupName v n) → d'.dir x = d.dir x
  exact : d'.Exact
  inodes : d'.inodes = d.inodes
  nextIno : d'.nextIno = d.nextIno

theorem swept_succ {n : Name} {k : ℕ} {d d' : Disk}
    (h : Swept n k (discard L (backupName (k + 1 : ℕ) n) d).2 d')
    (hdir : (discard L (backupName (k + 1 : ℕ) n) d).2.dir =
      Function.update d.dir (backupName (k + 1 : ℕ) n) none) : Swept n (k+1) d d' where
  gone v h1 h2 := by
    rcases eq_or_ne v (k + 1 : ℕ) with rfl | hv
    · rw [h.kept _ fun w _ hw he => ?_,hdir,Function.update_self]
      have hvw := (backupName_inj.mp he).1
      omega
    · exact h.gone v h1 (by omega)
  kept x hx := by
    rw [h.kept x fun v h1 h2 => hx v h1 (by omega),hdir]
    exact Function.update_of_ne (hx _ (by omega) (le_refl _)) none d.dir
  exact := h.exact
  inodes := h.inodes.trans discard_inodes
  nextIno := h.nextIno.trans discard_nextIno

theorem discardLoop_exact (hL : L.Grants) (n : Name) (k : ℕ) (err : Int) (hd : d.Exact) :
    (∃ e, (discardLoop L n k err d).1 = .ok e) ∧ Swept n k d (discardLoop L n k err d).2 := by
  induction k generalizing err d with
  | zero =>
    refine ⟨⟨err,rfl⟩,?_,fun x _ => rfl,hd,rfl,rfl⟩
    intro v h1 h2
    omega
  | succ k ih =>
    obtain ⟨h0,hdir,hex⟩ := discard_exact hL hd (backupName (k + 1 : ℕ) n)
    have hrest (e : Int) := ih e hex
    have hclear (e : Int) := swept_succ (hrest e).2 hdir
    rw [discardLoop]
    generalize discard L _ d = out at h0 hrest hclear ⊢
    obtain ⟨e,d'⟩ := out
    cases e with
    | none => exact ⟨(hrest err).1,hclear err⟩
    | some e =>
      dsimp only [Option.getD_some] at h0 ⊢
      rw [if_neg (by simp [h0])]
      exact ⟨(hrest e).1,hclear e⟩

end Exact

def prunedDir (val : Int) (n : Name) (dir : Name → Option Ino) : Name → Option Ino :=
  if val > N then Function.update dir (backupName (val - N) n) none else dir

def taken (L : Lower) (buf : Bytes) : Bytes :=
  buf.take (min (L.write buf.length).toNat buf.length)

structure Written (L : Lower) (f : File) (val : Int) (pos : ℕ) (buf : Bytes) (d d' : Disk) :
    Prop where
  dir : d'.dir = Function.update (prunedDir val f.name d.dir) (backupName val f.name)
    (some d.nextIno)
  exact : d'.Exact
  nextIno : d'.nextIno = d.nextIno + 1
  fresh : d'.inodes d.nextIno = { content := (d.inodes f.ino).content }
  base : d'.inodes f.ino = { content := pwrite (d.inodes f.ino).content pos (taken L buf)
                             revision := some val
                             youngest := some val }
  other : ∀ j, j ≠ f.ino → j ≠ d.nextIno → d'.inodes j = d.inodes j

section Granted
variable {L : Lower} {J : Junk} {f : File} {d : Disk}

theorem retained_granted (hL : L.Grants) (hd : d.Exact) :
    (retained L J f d).1 = 0 ∧
      (retained L J f d).2.dir = prunedDir (nextVersion (counter L J f d)) f.name d.dir ∧
      (retained L J f d).2.Exact ∧
      (retained L J f d).2.inodes = (stamp L f (nextVersion (counter L J f d)) d).inodes ∧
      (retained L J f d).2.nextIno = d.nextIno := by
  rw [retained,prunedDir]
  generalize nextVersion (counter L J f d) = val
  have hs := stamp_sets hL.setxattr f val d
  have hd' : (stamp L f val d).Exact := by
    rw [hs]
    exact hd
  split_ifs with hv
  · obtain ⟨h0,hdir,hex⟩ := discard_exact hL hd' (backupName (val - N) f.name)
    refine ⟨h0,?_,hex,discard_inodes,?_⟩
    · rw [hdir,hs,Disk.setInode_dir]
    · rw [discard_nextIno,hs,Disk.setInode_nextIno]
  · refine ⟨rfl,?_,hd',rfl,?_⟩
    · rw [hs,Disk.setInode_dir]
    · rw [hs,Disk.setInode_nextIno]

theorem prunedDir_new (val : Int) (n : Name) (dir : Name → Option Ino) :
    prunedDir val n dir (backupName val n) = dir (backupName val n) := by
  unfold prunedDir
  split_ifs
  · rw [Function.update_of_ne]
    intro h
    have hv := (backupName_inj.mp h).1
    rw [N] at hv
    omega
  · rfl

theorem begins_granted (hL : L.Grants) {x : Name} (hs : slash ∉ x) (h : d.dir x = none) :
    Begins L x d := by
  refine ⟨hL.dAlloc,hL.lookup,?_,hL.create⟩
  rw [Disk.lowerIno_of_slash d hs,h]

theorem backupRun_granted (hL : L.Grants) {x : Name} (hs : slash ∉ x) (h : d.dir x = none)
    {i : Ino} {o : Option Outcome} {d' : Disk} (hr : BackupRun L i x d o d') :
    o = none ∧ d' = snapshot L i x d :=
  backupRun_copies (begins_granted hL hs h) hL.openSrc hL.openDest hr

theorem snapshot_granted (hL : L.Grants) {x : Name} {i : Ino} (hi : i ≠ d.nextIno) :
    (snapshot L i x d).inodes =
      Function.update d.inodes d.nextIno { content := (d.inodes i).content } := by
  have hc : (copyBytes L.splice (d.inodes i).content []).2 = (d.inodes i).content :=
    (copyBytes_full L.splice _).mpr (drains_of_nonneg hL.splice 0 _)
  rw [snapshot,copyFile,begun,Disk.setInode_inodes,Disk.created_inodes,lookedUp_nextIno,
    lookedUp_inodes,Function.update_self,Function.update_of_ne hi,Function.update_idem,hc]

theorem setInode_exact (hd : d.Exact) (i : Ino) (n : Inode) : (d.setInode i n).Exact := hd

theorem slash_not_mem_newName : slash ∉ newName L J f d := fun h =>
  f.name.property.2.1 (slash_mem_backupName.mp h)

theorem vfsWrite_granted (hL : L.Grants) (i : Ino) (pos : ℕ) (buf : Bytes) :
    ∃ k : ℕ, vfsWrite L i pos buf d = ((k : Int),d.setInode i { d.inodes i with
      content := pwrite (d.inodes i).content pos (taken L buf) }) := by
  have hw := hL.write buf.length
  rw [vfsWrite,if_neg (by omega)]
  exact ⟨_,rfl⟩

theorem written_snapshot (hL : L.Grants) {val : Int} {pos : ℕ} {buf : Bytes} {d₁ : Disk}
    (hf : f.ino ≠ d.nextIno) (hdir : d₁.dir = prunedDir val f.name d.dir) (hd : d₁.Exact)
    (hin : d₁.inodes = (stamp L f val d).inodes) (hnx : d₁.nextIno = d.nextIno) :
    let d₂ := snapshot L f.ino (backupName val f.name) d₁
    Written L f val pos buf d (d₂.setInode f.ino { d₂.inodes f.ino with
      content := pwrite (d₂.inodes f.ino).content pos (taken L buf) }) := by
  have hin₂ := snapshot_granted hL (x := backupName val f.name) (d := d₁) (i := f.ino)
    (by rwa [hnx])
  rw [hin,hnx,stamp_sets hL.setxattr,Disk.setInode_inodes,Function.update_self] at hin₂
  dsimp only
  refine ⟨?_,?_,?_,?_,?_,?_⟩
  · rw [Disk.setInode_dir,snapshot,copyFile,Disk.setInode_dir,begun,Disk.created_dir,lookedUp_dir,
      lookedUp_nextIno,hdir,hnx]
  · exact setInode_exact (setInode_exact (created_exact hd _) _ _) _ _
  · rw [Disk.setInode_nextIno,snapshot,copyFile,Disk.setInode_nextIno,begun,Disk.created_nextIno,
      lookedUp_nextIno,hnx]
  · rw [Disk.setInode_inodes,Function.update_of_ne hf.symm,hin₂,Function.update_self]
  · rw [Disk.setInode_inodes,Function.update_self,hin₂,Function.update_of_ne hf,
      Function.update_self]
  · intro j hj hn
    rw [Disk.setInode_inodes,Function.update_of_ne hj,hin₂,Function.update_of_ne hn,
      Function.update_of_ne hj]

theorem bkpfsWrite_granted (hL : L.Grants) {s : Sys} (hd : s.disk.Exact)
    (hf : f.ino < s.disk.nextIno) (hfree : s.disk.dir (newName L J f s.disk) = none) (pos : ℕ)
    (buf : Bytes) : (∃ k : ℕ, (bkpfsWrite L J f pos buf s).1 = .returned k) ∧
      Written L f (nextVersion (counter L J f s.disk)) pos buf s.disk
        (bkpfsWrite L J f pos buf s).2.disk := by
  have hslash := slash_not_mem_newName (L := L) (J := J) (f := f) (d := s.disk)
  have hr := bkpfsWrite_run L J f pos buf s
  obtain ⟨h0,hdir,hex,hin,hnx⟩ := retained_granted (J := J) (f := f) hL hd
  have hfree' : (retained L J f s.disk).2.dir (newName L J f s.disk) = none := by
    rw [hdir,newName,prunedDir_new]
    exact hfree
  generalize bkpfsWrite L J f pos buf s = out at hr ⊢
  obtain ⟨o,t⟩ := out
  dsimp only at hr ⊢
  generalize t.disk = d' at hr ⊢
  cases hr with
  | retention h => exact absurd h0 h
  | stopped _ h => cases (backupRun_granted hL hslash hfree' h).1
  | wrote _ h =>
    obtain ⟨_,rfl⟩ := backupRun_granted hL hslash hfree' h
    obtain ⟨k,hk⟩ := vfsWrite_granted hL f.ino pos buf
      (d := snapshot L f.ino (newName L J f s.disk) (retained L J f s.disk).2)
    rw [hk]
    exact ⟨⟨k,rfl⟩,written_snapshot hL (Nat.ne_of_lt hf) hdir hex hin hnx⟩

theorem deletedOne_absent (hd : d.Exact) {q : Request}
    (hv : d.dir (backupName q.version q.file) = none) :
    deletedOne L J f q d = (-ENOTTY,d) := by
  rw [deletedOne,discard_absent hd hv]

theorem deletedOne_present (hL : L.Grants) (hd : d.Exact) {q : Request} {i : Ino}
    (hv : d.dir (backupName q.version q.file) = some i) : deletedOne L J f q d =
      (0,if q.version = (d.inodes f.ino).youngest.getD J.val then
          stamp L f (wrapInt (q.version - 1)) (d.link (backupName q.version q.file) none false)
        else d.link (backupName q.version q.file) none false) := by
  rw [deletedOne,discard_present hL hd hv]
  dsimp only
  rw [if_neg (by simp),vfsGetxattr_reads hL.getxattr,Disk.link_inodes,Inode.attr]
  split_ifs with he
  · rw [he]
  · rfl

theorem deletedAll_granted (hL : L.Grants) (hd : d.Exact) (q : Request) :
    ∃ d₁, Swept q.file (counter L J f d).toNat d d₁ ∧ (deletedAll L J f q d).2 =
      d₁.setInode f.ino { d.inodes f.ino with revision := some (-1) } := by
  obtain ⟨⟨e,he⟩,hsw⟩ := discardLoop_exact hL q.file (counter L J f d).toNat (-ENOTTY) hd
  refine ⟨_,hsw,?_⟩
  rw [deletedAll]
  generalize discardLoop L _ _ _ _ = out at he hsw ⊢
  obtain ⟨r,d₁⟩ := out
  dsimp only at he hsw
  subst he
  dsimp only
  rw [vfsSetxattr,hL.setxattr,hsw.inodes]
  rfl

end Granted

end BackupFs
