import BackupFs.Chain.History
import BackupFs.Chain.Window

namespace BackupFs

open Transition

structure ListedFaults (L : Lower) : Prop where
  getxattr : ∀ a, L.getxattr a = none
  setxattr : ∀ a, L.setxattr a = none
  lookup : L.lookup = none

def oldName (L : Lower) (J : Junk) (f : File) (d : Disk) : Name :=
  backupName (nextVersion (counter L J f d) - N) f.name

structure Backs (L : Lower) (x : Name) (d : Disk) : Prop where
  dAlloc : L.dAlloc = true
  free : d.dir x = none
  create : L.create = none
  openSrc : ∀ e, L.openSrc ≠ .err e
  openDest : L.openSrc = .file → ∀ e, L.openDest ≠ .err e

structure GoesThrough (L : Lower) (J : Junk) (f : File) (buf : Bytes) (d : Disk) : Prop where
  retention : nextVersion (counter L J f d) > N → ¬ Blocked L (oldName L J f d) d
  backs : Backs L (newName L J f d) d
  write : 0 ≤ L.write buf.length

structure Prunes (L : Lower) (J : Junk) (f : File) (d : Disk) : Prop where
  counter : counter L J f d < INT_MAX
  removes : nextVersion (BackupFs.counter L J f d) > N → d.dir (oldName L J f d) ≠ none →
    d.cached (oldName L J f d) = true ∧ L.unlink (oldName L J f d) = none

def IntactOnFailure (L : Lower) (J : Junk) (f : File) (pos : ℕ) (buf : Bytes) (s : Sys) : Prop :=
  ∀ e, (bkpfsWrite L J f pos buf s).1 = .returned e → e < 0 →
    chain f (bkpfsWrite L J f pos buf s).2.disk = chain f s.disk

section
variable {L : Lower} {J : Junk} {f : File} {d d' : Disk} {pos : ℕ} {buf : Bytes}

theorem vfsSetxattr_attr (L : Lower) (i : Ino) (a b : Attr) (v : Int) (d : Disk) :
    ((vfsSetxattr L i a v d).inodes i).attr b =
      if a = b ∧ L.setxattr a = none then some v else (d.inodes i).attr b := by
  unfold vfsSetxattr
  cases L.setxattr a with
  | some e => simp
  | none =>
    dsimp only
    rw [Disk.setInode_inodes,Function.update_self]
    cases a <;> cases b <;> simp [Inode.setAttr,Inode.attr]

theorem setxattr_congr {d' : Disk} (h : d'.inodes = d.inodes) (i : Ino) (a : Attr) (v : Int) :
    (vfsSetxattr L i a v d').inodes = (vfsSetxattr L i a v d).inodes := by
  unfold vfsSetxattr
  cases L.setxattr a with
  | some e => exact h
  | none =>
    dsimp only
    rw [Disk.setInode_inodes,Disk.setInode_inodes,h]

theorem vfsSetxattr_setInode (L : Lower) (i : Ino) (a : Attr) (v : Int) (d : Disk) :
    ∃ n, vfsSetxattr L i a v d = d.setInode i n ∧ n.content = (d.inodes i).content := by
  unfold vfsSetxattr
  cases L.setxattr a with
  | some e => exact ⟨d.inodes i,by simp [Disk.setInode],rfl⟩
  | none =>
    refine ⟨_,rfl,?_⟩
    cases a <;> rfl

theorem stamp_setInode (L : Lower) (f : File) (val : Int) (d : Disk) :
    ∃ n, stamp L f val d = d.setInode f.ino n ∧ n.content = (d.inodes f.ino).content := by
  obtain ⟨n,hn,hc⟩ := vfsSetxattr_setInode L f.ino .revision val d
  obtain ⟨m,hm,hc'⟩ := vfsSetxattr_setInode L f.ino .youngest val (d.setInode f.ino n)
  refine ⟨m,?_,?_⟩
  · rw [stamp,hn,hm]
    simp [Disk.setInode]
  · rw [hc',Disk.setInode_inodes,Function.update_self,hc]

theorem stamp_dir (v : Int) : (stamp L f v d).dir = d.dir := by
  obtain ⟨n,hn,_⟩ := stamp_setInode L f v d
  rw [hn,Disk.setInode_dir]

theorem stamp_attr (L : Lower) (f : File) (v : Int) (d : Disk) (a : Attr) :
    ((stamp L f v d).inodes f.ino).attr a =
      if L.setxattr a = none then some v else (d.inodes f.ino).attr a := by
  rw [stamp,vfsSetxattr_attr,vfsSetxattr_attr]
  cases a <;> simp

theorem newName_ne_oldName : newName L J f d ≠ oldName L J f d := by
  intro h
  have hv := (backupName_inj.mp h).1
  rw [N] at hv
  omega

theorem retained_nonpos : (retained L J f d).1 ≤ 0 := by
  unfold retained
  dsimp only
  split_ifs
  · exact discard_nonpos _ _ _
  · exact le_refl 0

theorem retained_zero : (retained L J f d).1 = 0 ↔
    (nextVersion (counter L J f d) > N → ¬ Blocked L (oldName L J f d) d) := by
  obtain ⟨n,hs,_⟩ := stamp_setInode L f (nextVersion (counter L J f d)) d
  unfold retained
  dsimp only
  split_ifs with hv
  · rw [discard_free,hs]
    exact ⟨fun h _ => h,fun h => h hv⟩
  · exact ⟨fun _ h => absurd h hv,fun _ => rfl⟩

theorem retained_new :
    (retained L J f d).2.dir (newName L J f d) = d.dir (newName L J f d) := by
  obtain ⟨n,hs,_⟩ := stamp_setInode L f (nextVersion (counter L J f d)) d
  unfold retained
  dsimp only
  split_ifs
  · rw [hs]
    exact (discard_other newName_ne_oldName).1
  · rw [hs,Disk.setInode_dir]

theorem retained_inodes : (retained L J f d).2.nextIno = d.nextIno ∧
    (retained L J f d).2.inodes = (stamp L f (nextVersion (counter L J f d)) d).inodes := by
  obtain ⟨n,hs,_⟩ := stamp_setInode L f (nextVersion (counter L J f d)) d
  unfold retained
  dsimp only
  split_ifs
  · rw [discard_nextIno,discard_inodes,hs]
    exact ⟨rfl,rfl⟩
  · rw [hs]
    exact ⟨rfl,rfl⟩

theorem backupRun_outcome {x : Name} {i : Ino} {o : Option Outcome} (hl : L.lookup = none)
    (hs : slash ∉ x) (h : BackupRun L i x d o d') :
    o = none ∧ Backs L x d ∨ (∃ e < 0, o = some (.returned e)) ∧ ¬ Backs L x d := by
  have hdir : d.lowerIno x = d.dir x := Disk.lowerIno_of_slash d hs
  cases h with
  | noDentry ha => exact .inr ⟨⟨-ENOMEM,by decide,rfl⟩,fun hb => by simp [hb.dAlloc] at ha⟩
  | noLookup _ h => simp [hl] at h
  | collision _ _ h =>
    exact .inr ⟨⟨-EEXIST,by decide,rfl⟩,fun hb => by simp [hdir,hb.free] at h⟩
  | noCreate _ _ _ h =>
    rename_i e
    exact .inr ⟨⟨e,e.property,rfl⟩,fun hb => by simp [hb.create] at h⟩
  | noSource _ h =>
    rename_i e
    exact .inr ⟨⟨e,e.property,rfl⟩,fun hb => hb.openSrc e h⟩
  | noDest _ hs h =>
    rename_i e
    exact .inr ⟨⟨e,e.property,rfl⟩,fun hb => hb.openDest hs e h⟩
  | unbacked hb h =>
    refine .inl ⟨rfl,hb.dAlloc,hdir ▸ hb.free,hb.create,?_,?_⟩
    · rcases h with h | ⟨h,_⟩ <;> simp [h]
    · intro hf e
      rcases h with h | ⟨_,h⟩
      · simp [h] at hf
      · simp [h]
  | backed hb h h' => exact .inl ⟨rfl,hb.dAlloc,hdir ▸ hb.free,hb.create,by simp [h],by simp [h']⟩

theorem backupRun_inodes {x : Name} {i j : Ino} {o : Option Outcome}
    (h : BackupRun L i x d o d') (hj : j ≠ d.nextIno) : d'.inodes j = d.inodes j := by
  have hbegun : (begun x d).inodes j = d.inodes j := by
    rw [begun,Disk.created_inodes,lookedUp_nextIno,lookedUp_inodes,Function.update_of_ne hj]
  cases h with
  | noDentry | noLookup => rfl
  | collision | noCreate => rw [lookedUp_inodes]
  | noSource | noDest | unbacked => exact hbegun
  | backed =>
    rw [snapshot,copyFile,Disk.setInode_inodes,Function.update_of_ne hj]
    exact hbegun

theorem vfsWrite_attrs (L : Lower) (i : Ino) (pos : ℕ) (buf : Bytes) (d : Disk) :
    ((vfsWrite L i pos buf d).2.inodes i).revision = (d.inodes i).revision := by
  unfold vfsWrite
  dsimp only
  split_ifs
  · rfl
  · rw [Disk.setInode_inodes,Function.update_self]

theorem writeRun_outcome {o : Outcome} (hl : L.lookup = none)
    (h : WriteRun L J f pos buf d o d') :
    (∃ e, 0 ≤ e ∧ o = .returned e) ∧ GoesThrough L J f buf d ∨
      (∃ e < 0, o = .returned e) ∧ ¬ GoesThrough L J f buf d := by
  have hbacks : Backs L (newName L J f d) (retained L J f d).2 ↔ Backs L (newName L J f d) d := by
    have hnew : (retained L J f d).2.dir (newName L J f d) = d.dir (newName L J f d) :=
      retained_new
    exact ⟨fun h => ⟨h.dAlloc,hnew ▸ h.free,h.create,h.openSrc,h.openDest⟩,
      fun h => ⟨h.dAlloc,hnew ▸ h.free,h.create,h.openSrc,h.openDest⟩⟩
  have hz : (retained L J f d).1 = 0 ↔
      (nextVersion (counter L J f d) > N → ¬ Blocked L (oldName L J f d) d) := retained_zero
  cases h with
  | retention h =>
    refine .inr ⟨⟨_,lt_of_le_of_ne retained_nonpos h,rfl⟩,fun hg => h ?_⟩
    exact hz.mpr hg.retention
  | stopped hr h =>
    rcases backupRun_outcome hl slash_not_mem_newName h with ⟨he,_⟩ | ⟨⟨e,he,ho⟩,hn⟩
    · cases he
    · cases ho
      exact .inr ⟨⟨e,he,rfl⟩,fun hg => hn (hbacks.mpr hg.backs)⟩
  | wrote hr h =>
    rename_i d₂
    rcases backupRun_outcome hl slash_not_mem_newName h with ⟨_,hb⟩ | ⟨⟨_,_,ho⟩,_⟩
    · rcases lt_or_ge (L.write buf.length) 0 with hw | hw
      · have hv : (vfsWrite L f.ino pos buf d₂).1 = L.write buf.length := by
          unfold vfsWrite
          rw [if_pos hw]
        exact .inr ⟨⟨_,hw,congrArg Outcome.returned hv⟩,fun hg => absurd hw (not_lt.mpr hg.write)⟩
      · have hv : 0 ≤ (vfsWrite L f.ino pos buf d₂).1 := by
          unfold vfsWrite
          rw [if_neg (not_lt.mpr hw)]
          exact Int.natCast_nonneg _
        exact .inl ⟨⟨_,hv,rfl⟩,hz.mp hr,hbacks.mp hb,hw⟩
    · cases ho

theorem writeRun_revision {o : Outcome} (hL : ListedFaults L) (hf : f.ino < d.nextIno)
    (h : WriteRun L J f pos buf d o d') :
    (d'.inodes f.ino).revision = some (nextVersion (counter L J f d)) := by
  have hr : ((retained L J f d).2.inodes f.ino).revision =
      some (nextVersion (counter L J f d)) := by
    rw [retained_inodes.2,stamp_sets hL.setxattr,Disk.setInode_inodes,Function.update_self]
  have hne : f.ino ≠ (retained L J f d).2.nextIno := by
    rw [retained_inodes.1]
    exact Nat.ne_of_lt hf
  cases h with
  | retention => exact hr
  | stopped _ h => rw [backupRun_inodes h hne,hr]
  | wrote _ h => rw [vfsWrite_attrs,backupRun_inodes h hne,hr]

theorem nextVersion_ne (val : Int) : nextVersion val ≠ val := by
  unfold nextVersion
  split_ifs with hv
  · omega
  · intro h
    have hm := congrArg (Int.emod · 4294967296) h
    have hb := Int.bmod_emod (x := val + 1) (m := 4294967296)
    rw [Nat.cast_ofNat] at hb
    change wrapInt (val + 1) % 4294967296 = val % 4294967296 at hm
    rw [wrapInt,hb] at hm
    omega

theorem intactOnFailure_iff {s : Sys} (hL : ListedFaults L) (hf : f.ino < s.disk.nextIno) :
    IntactOnFailure L J f pos buf s ↔ GoesThrough L J f buf s.disk := by
  have hrun := bkpfsWrite_run L J f pos buf s
  have hrev := writeRun_revision hL hf hrun
  rcases writeRun_outcome hL.lookup hrun with ⟨⟨e,he,ho⟩,hg⟩ | ⟨⟨e,he,ho⟩,hg⟩
  · refine iff_of_true ?_ hg
    intro e' ho' he'
    rw [ho] at ho'
    cases ho'
    omega
  · refine iff_of_false ?_ hg
    intro hi
    have hc := congrArg Chain.revision (hi e ho he)
    change _ = (s.disk.inodes f.ino).revision at hc
    change _ = some (nextVersion (counter L J f s.disk)) at hrev
    have hcount := counter_reads hL.getxattr J f s.disk
    rw [hc.symm.trans hrev,Option.getD_some] at hcount
    exact nextVersion_ne _ hcount.symm

theorem discard_prunes {x : Name} (hn : d.dir x = none → ¬ d.cached x = true)
    (hp : d.dir x ≠ none → d.cached x = true ∧ L.unlink x = none) :
    (discard L x d).2.dir = Function.update d.dir x none := by
  cases hx : d.dir x with
  | none => rw [discard_uncached (hn hx),← hx,Function.update_eq_self]
  | some i =>
    obtain ⟨hc,hu⟩ := hp (by simp [hx])
    rw [discard_cached hc,removed_present hx,if_pos hu,Disk.link_dir]

theorem retained_prunes (hg : GoesThrough L J f buf d) (hp : Prunes L J f d) :
    (retained L J f d).2.dir = prunedDir (nextVersion (counter L J f d)) f.name d.dir := by
  obtain ⟨n,hs,_⟩ := stamp_setInode L f (nextVersion (counter L J f d)) d
  unfold retained prunedDir
  dsimp only
  split_ifs with hv
  · rw [hs]
    refine discard_prunes (fun hx hc => ?_) (hp.removes hv)
    exact hg.retention hv ⟨hc,.inl hx⟩
  · rw [hs,Disk.setInode_dir]

theorem backupRun_made {x : Name} {i : Ino} (h : BackupRun L i x d none d') :
    d'.dir = Function.update d.dir x (some d.nextIno) ∧ d'.nextIno = d.nextIno + 1 := by
  have hbegun : (begun x d).dir = Function.update d.dir x (some d.nextIno) ∧
      (begun x d).nextIno = d.nextIno + 1 := by
    rw [begun,Disk.created_dir,Disk.created_nextIno,lookedUp_dir,lookedUp_nextIno]
    exact ⟨rfl,rfl⟩
  cases h with
  | unbacked => exact hbegun
  | backed =>
    rw [snapshot,copyFile,Disk.setInode_dir,Disk.setInode_nextIno]
    exact hbegun

theorem vfsWrite_dir (L : Lower) (i : Ino) (pos : ℕ) (buf : Bytes) (d : Disk) :
    (vfsWrite L i pos buf d).2.dir = d.dir ∧ (vfsWrite L i pos buf d).2.nextIno = d.nextIno := by
  unfold vfsWrite
  dsimp only
  split_ifs <;> exact ⟨rfl,rfl⟩

theorem writeRun_wrote {o : Outcome} (hl : L.lookup = none) (hg : GoesThrough L J f buf d)
    (h : WriteRun L J f pos buf d o d') :
    ∃ d₁, BackupRun L f.ino (newName L J f d) (retained L J f d).2 none d₁ ∧
      o = .returned (vfsWrite L f.ino pos buf d₁).1 ∧ d' = (vfsWrite L f.ino pos buf d₁).2 := by
  cases h with
  | retention h => exact absurd (retained_zero.mpr hg.retention) h
  | stopped _ h =>
    rcases backupRun_outcome hl slash_not_mem_newName h with ⟨he,_⟩ | ⟨_,hn⟩
    · cases he
    · refine absurd ⟨hg.backs.dAlloc,?_,hg.backs.create,hg.backs.openSrc,hg.backs.openDest⟩ hn
      rw [retained_new]
      exact hg.backs.free
  | wrote _ h => exact ⟨_,h,rfl,rfl⟩

theorem writeRun_made {o : Outcome} (hL : ListedFaults L) (hg : GoesThrough L J f buf d)
    (hp : Prunes L J f d) (h : WriteRun L J f pos buf d o d') :
    d'.dir = Function.update (prunedDir (nextVersion (counter L J f d)) f.name d.dir)
        (newName L J f d) (some d.nextIno) ∧ d'.nextIno = d.nextIno + 1 := by
  obtain ⟨d₂,hb,_,rfl⟩ := writeRun_wrote hL.lookup hg h
  obtain ⟨hdir,hnx⟩ := backupRun_made hb
  obtain ⟨hwd,hwn⟩ := vfsWrite_dir L f.ino pos buf d₂
  rw [hwd,hwn,hdir,hnx,retained_prunes hg hp,retained_inodes.1]
  exact ⟨rfl,rfl⟩

end

structure WriteCall where
  lower : Lower
  junk : Junk
  pos : ℕ
  buf : Bytes

def MetStep (f : File) (s : Sys) (c : WriteCall) (t : Sys) : Prop :=
  ListedFaults c.lower ∧ GoesThrough c.lower c.junk f c.buf s.disk ∧
    Prunes c.lower c.junk f s.disk ∧ t = (bkpfsWrite c.lower c.junk f c.pos c.buf s).2

structure Bounded (f : File) (d : Disk) : Prop where
  base : f.ino < d.nextIno
  window : ∀ v ∈ numbers f d, ∃ r, (d.inodes f.ino).revision = some r ∧ r - N < v ∧ v ≤ r
  pos : ∀ v ∈ numbers f d, 1 ≤ v

theorem numbers_made {f : File} {d d' : Disk} {val v : Int} {i : Ino}
    (h : d'.dir = Function.update (prunedDir val f.name d.dir) (backupName val f.name) (some i))
    (hv : v ∈ numbers f d') : v = val ∨ v ∈ numbers f d ∧ (val > N → v ≠ val - N) := by
  change (d'.dir (backupName v f.name)).isSome = true at hv
  rw [h] at hv
  rcases eq_or_ne v val with rfl | hne
  · exact .inl rfl
  · refine .inr ?_
    rw [Function.update_of_ne fun he => hne (backupName_inj.mp he).1,prunedDir_backup] at hv
    split_ifs at hv with hN
    · rcases eq_or_ne v (val - N) with rfl | hne'
      · simp at hv
      · rw [Function.update_of_ne hne'] at hv
        exact ⟨hv,fun _ => hne'⟩
    · exact ⟨hv,fun h => absurd h hN⟩

theorem bounded_step {f : File} {s t : Sys} {c : WriteCall} (h : Bounded f s.disk)
    (hs : MetStep f s c t) : Bounded f t.disk := by
  obtain ⟨hL,hg,hp,rfl⟩ := hs
  have hrun := bkpfsWrite_run c.lower c.junk f c.pos c.buf s
  have hrev := writeRun_revision hL h.base hrun
  obtain ⟨hdir,hnx⟩ := writeRun_made hL hg hp hrun
  have hval := one_le_nextVersion hp.counter
  have hnext : ∀ v ∈ numbers f s.disk, v < nextVersion (counter c.lower c.junk f s.disk) ∧
      nextVersion (counter c.lower c.junk f s.disk) - N ≤ v := by
    intro v hv
    obtain ⟨r,hr,h1,h2⟩ := h.window v hv
    have hpos := h.pos v hv
    have hcr : counter c.lower c.junk f s.disk = r := by
      rw [counter_reads hL.getxattr,hr,Option.getD_some]
    have hlt := hp.counter
    rw [hcr] at hlt ⊢
    rw [nextVersion_eq hlt,if_neg (by omega)]
    omega
  refine ⟨?_,?_,?_⟩
  · rw [hnx]
    exact Nat.lt_succ_of_lt h.base
  · intro v hv
    refine ⟨_,hrev,?_⟩
    rcases numbers_made hdir hv with rfl | ⟨hv,hne⟩
    · rw [N]
      omega
    · obtain ⟨h1,h2⟩ := hnext v hv
      have hpos := h.pos v hv
      refine ⟨lt_of_le_of_ne h2 ?_,h1.le⟩
      rintro rfl
      exact hne (by omega) rfl
  · intro v hv
    rcases numbers_made hdir hv with rfl | ⟨hv,_⟩
    · exact hval.1
    · exact h.pos v hv

theorem failed_writes_intact {f : File} {s : Sys} (hf : f.ino < s.disk.nextIno) :
    (∀ (L : Lower) (J : Junk) (pos : ℕ) (buf : Bytes), ListedFaults L →
      (IntactOnFailure L J f pos buf s ↔ GoesThrough L J f buf s.disk)) ∧
    ∀ (t : Sys) (calls : List WriteCall), (∀ v, s.disk.dir (backupName v f.name) = none) →
      Run (MetStep f) s calls t → (numbers f t.disk).encard ≤ N.toNat := by
  refine ⟨fun L J pos buf hL => intactOnFailure_iff hL hf,?_⟩
  intro t calls hn run
  have hempty : ∀ v, v ∉ numbers f s.disk := by
    intro v hv
    change (s.disk.dir (backupName v f.name)).isSome = true at hv
    rw [hn v] at hv
    cases hv
  have h := run.invariant (fun s => Bounded f s.disk) (fun _ _ _ h hs => bounded_step h hs)
    ⟨hf,fun v hv => absurd hv (hempty v),fun v hv => absurd hv (hempty v)⟩
  exact window_encard h.window

theorem failed_writes_intact_first :
    (IntactOnFailure { openSrc := .err ⟨-5,by decide⟩ } {} aTxt 0 (bytesOf "one")
        ⟨Disk.single aTxt {},[]⟩ ↔
      GoesThrough { openSrc := .err ⟨-5,by decide⟩ } {} aTxt (bytesOf "one")
        (Disk.single aTxt {})) ∧
      (numbers aTxt
        (bkpfsWrite {} {} aTxt 0 (bytesOf "one") ⟨Disk.single aTxt {},[]⟩).2.disk).encard ≤
        N.toNat := by
  have hL : ListedFaults { openSrc := .err ⟨-5,by decide⟩ } := ⟨fun _ => rfl,fun _ => rfl,rfl⟩
  have hL' : ListedFaults {} := ⟨fun _ => rfl,fun _ => rfl,rfl⟩
  have hg : GoesThrough {} {} aTxt (bytesOf "one") (Disk.single aTxt {}) := by
    refine ⟨fun h => absurd h (by decide),⟨rfl,Disk.single_backups aTxt {} _,rfl,?_,?_⟩,by decide⟩
    · intro e he
      cases he
    · intro _ e he
      cases he
  have hp : Prunes {} {} aTxt (Disk.single aTxt {}) := ⟨by decide,fun h => absurd h (by decide)⟩
  have hf : aTxt.ino < (⟨Disk.single aTxt {},[]⟩ : Sys).disk.nextIno := by decide
  exact ⟨(failed_writes_intact hf).1 _ _ _ _ hL,(failed_writes_intact hf).2 _
    [⟨{},{},0,bytesOf "one"⟩] (Disk.single_backups aTxt {}) (Run.single ⟨hL',hg,hp,rfl⟩)⟩

theorem failed_write_moves_counter : ¬ ∀ (L : Lower) (J : Junk) (f : File) (pos : ℕ)
    (buf : Bytes) (s : Sys), ListedFaults L → Sound f s.disk → IntactOnFailure L J f pos buf s := by
  intro h
  have hi := h { dAlloc := false } {} aTxt 0 (bytesOf "one") ⟨Disk.single aTxt {},[]⟩
    ⟨fun _ => rfl,fun _ => rfl,rfl⟩ (sound_single aTxt {}) (-ENOMEM) (by decide +kernel) (by decide)
  have hr := congrArg Chain.revision hi
  revert hr
  decide +kernel

end BackupFs
