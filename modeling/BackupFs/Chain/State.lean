import BackupFs.Kernel.Granted

namespace BackupFs

@[ext]
structure Chain where
  revision : Option Int
  youngest : Option Int
  current : Bytes
  backups : Int → Option Bytes

namespace Chain

def counter (c : Chain) (junk : Int) : Int := c.revision.getD junk

def next (c : Chain) (junk : Int) : Int := nextVersion (c.counter junk)

def write (c : Chain) (val : Int) (current : Bytes) : Chain where
  revision := some val
  youngest := some val
  current := current
  backups := Function.update
    (if val > N then Function.update c.backups (val - N) none else c.backups) val (some c.current)

def deleteOne (c : Chain) (v junk : Int) : Chain :=
  if (c.backups v).isSome = true then
    if v = c.youngest.getD junk then
      { c with
        revision := some (wrapInt (v - 1))
        youngest := some (wrapInt (v - 1))
        backups := Function.update c.backups v none }
    else { c with backups := Function.update c.backups v none }
  else c

def deleteAll (c : Chain) (val : Int) : Chain :=
  { c with
    revision := some (-1)
    backups := fun v => if 1 ≤ v ∧ v ≤ val then none else c.backups v }

end Chain

def chain (f : File) (d : Disk) : Chain where
  revision := (d.inodes f.ino).revision
  youngest := (d.inodes f.ino).youngest
  current := (d.inodes f.ino).content
  backups v := (d.dir (backupName v f.name)).map fun i => (d.inodes i).content

structure Sound (f : File) (d : Disk) : Prop where
  exact : d.Exact
  allocated : d.Allocated
  base : f.ino < d.nextIno
  apart : ∀ v, d.dir (backupName v f.name) ≠ some f.ino

theorem sound_single (f : File) (n : Inode) : Sound f (Disk.single f n) where
  exact := Disk.single_exact f n
  allocated x i hx := by
    rcases eq_or_ne x f.name with rfl | hne
    · rw [Disk.single_dir,Function.update_self] at hx
      cases hx
      exact Nat.lt_succ_self _
    · rw [Disk.single_dir,Function.update_of_ne hne] at hx
      cases hx
  base := Nat.lt_succ_self _
  apart v hv := by
    rw [Disk.single_backups] at hv
    cases hv

section
variable {L : Lower} {J : Junk} {f : File} {d d' : Disk}

theorem chain_backups_eq_none {v : Int} :
    (chain f d).backups v = none ↔ d.dir (backupName v f.name) = none := Option.map_eq_none_iff

theorem chain_backups_isSome {v : Int} :
    ((chain f d).backups v).isSome = (d.dir (backupName v f.name)).isSome := Option.isSome_map

theorem chain_counter (hL : L.Grants) : counter L J f d = (chain f d).counter J.val :=
  counter_reads hL.getxattr J f d

theorem chain_next (hL : L.Grants) :
    nextVersion (counter L J f d) = (chain f d).next J.val := by
  rw [chain_counter hL,Chain.next]

theorem prunedDir_le {val : Int} {n x : Name} {dir : Name → Option Ino} {i : Ino}
    (h : prunedDir val n dir x = some i) : dir x = some i := by
  unfold prunedDir at h
  split_ifs at h
  · rcases eq_or_ne x (backupName (val - N) n) with rfl | hx
    · simp at h
    · rwa [Function.update_of_ne hx] at h
  · exact h

theorem prunedDir_backup (val v : Int) (n : Name) (dir : Name → Option Ino) :
    prunedDir val n dir (backupName v n) =
      if val > N then Function.update (fun w => dir (backupName w n)) (val - N) none v
      else dir (backupName v n) := by
  unfold prunedDir
  split_ifs
  · rcases eq_or_ne v (val - N) with rfl | hv
    · simp
    · rw [Function.update_of_ne hv,Function.update_of_ne]
      exact fun h => hv (backupName_inj.mp h).1
  · rfl

theorem sound_of_dir (hd : Sound f d) (hx : d'.Exact) (hn : d'.nextIno = d.nextIno)
    (h : ∀ x i, d'.dir x = some i → d.dir x = some i) : Sound f d' where
  exact := hx
  allocated x i hi := by
    rw [hn]
    exact hd.allocated x i (h x i hi)
  base := by
    rw [hn]
    exact hd.base
  apart v hv := hd.apart v (h _ _ hv)

theorem sound_written {val : Int} {pos : ℕ} {buf : Bytes} (hd : Sound f d)
    (h : Written L f val pos buf d d') : Sound f d' where
  exact := h.exact
  allocated x i hi := by
    rw [h.nextIno]
    rw [h.dir] at hi
    rcases eq_or_ne x (backupName val f.name) with rfl | hx
    · rw [Function.update_self] at hi
      cases hi
      exact Nat.lt_succ_self _
    · rw [Function.update_of_ne hx] at hi
      exact Nat.lt_succ_of_lt (hd.allocated x i (prunedDir_le hi))
  base := by
    rw [h.nextIno]
    exact Nat.lt_succ_of_lt hd.base
  apart v hv := by
    rw [h.dir] at hv
    rcases eq_or_ne (backupName v f.name) (backupName val f.name) with hx | hx
    · rw [hx,Function.update_self] at hv
      exact absurd (Option.some.inj hv) (Nat.ne_of_gt hd.base)
    · rw [Function.update_of_ne hx] at hv
      exact hd.apart v (prunedDir_le hv)

theorem chain_written {val : Int} {pos : ℕ} {buf : Bytes} (hd : Sound f d)
    (h : Written L f val pos buf d d') : chain f d' =
      (chain f d).write val (pwrite (d.inodes f.ino).content pos (taken L buf)) := by
  have hold : ∀ v i, prunedDir val f.name d.dir (backupName v f.name) = some i →
      d'.inodes i = d.inodes i := by
    intro v i hi
    have hd' := prunedDir_le hi
    refine h.other i ?_ ?_
    · rintro rfl
      exact hd.apart v hd'
    · exact Nat.ne_of_lt (hd.allocated _ i hd')
  refine Chain.ext ?_ ?_ ?_ (funext fun v => ?_)
  · rw [chain,h.base,Chain.write]
  · rw [chain,h.base,Chain.write]
  · rw [chain,h.base,Chain.write]
  · rw [chain,h.dir,Chain.write]
    dsimp only
    rcases eq_or_ne v val with rfl | hv
    · rw [Function.update_self,Function.update_self,Option.map_some,h.fresh]
      rfl
    · have hx : backupName v f.name ≠ backupName val f.name := fun he =>
        hv (backupName_inj.mp he).1
      rw [Function.update_of_ne hx,Function.update_of_ne hv]
      have hmap : (prunedDir val f.name d.dir (backupName v f.name)).map
          (fun i => (d'.inodes i).content) =
          (prunedDir val f.name d.dir (backupName v f.name)).map
            (fun i => (d.inodes i).content) := by
        cases hp : prunedDir val f.name d.dir (backupName v f.name) with
        | none => rfl
        | some i => rw [Option.map_some,Option.map_some,hold v i hp]
      rw [hmap,prunedDir_backup]
      split_ifs
      · rcases eq_or_ne v (val - N) with rfl | hv'
        · simp
        · rw [Function.update_of_ne hv',Function.update_of_ne hv']
          rfl
      · rfl

theorem chain_unlinked {v : Int} {i : Option Ino} (hi : i = none) (hin : d'.inodes = d.inodes)
    (hdir : d'.dir = Function.update d.dir (backupName v f.name) i) :
    chain f d' = { chain f d with
      backups := Function.update (chain f d).backups v none } := by
  subst hi
  refine Chain.ext ?_ ?_ ?_ (funext fun w => ?_)
  · rw [chain,hin]
    rfl
  · rw [chain,hin]
    rfl
  · rw [chain,hin]
    rfl
  · rw [chain,hin,hdir]
    dsimp only
    rcases eq_or_ne w v with rfl | hw
    · simp
    · rw [Function.update_of_ne hw,Function.update_of_ne]
      · rfl
      · exact fun he => hw (backupName_inj.mp he).1

theorem chain_setInode (hd : Sound f d) (n : Inode) : chain f (d.setInode f.ino n) =
    { revision := n.revision
      youngest := n.youngest
      current := n.content
      backups := (chain f d).backups } := by
  refine Chain.ext ?_ ?_ ?_ (funext fun w => ?_)
  · simp [chain]
  · simp [chain]
  · simp [chain]
  · rw [chain,chain,Disk.setInode_dir,Disk.setInode_inodes]
    dsimp only
    cases hw : d.dir (backupName w f.name) with
    | none => rfl
    | some i =>
      have hi : i ≠ f.ino := fun he => hd.apart w (he ▸ hw)
      rw [Option.map_some,Option.map_some,Function.update_of_ne hi]

theorem sound_setInode (hd : Sound f d) (i : Ino) (n : Inode) : Sound f (d.setInode i n) :=
  sound_of_dir hd hd.exact rfl fun _ _ => id

theorem sound_unlinked (hd : Sound f d) (x : Name) : Sound f (d.link x none false) := by
  refine sound_of_dir hd (link_none_exact hd.exact x) rfl fun y i hy => ?_
  rw [Disk.link_dir] at hy
  rcases eq_or_ne y x with rfl | hx
  · simp at hy
  · rwa [Function.update_of_ne hx] at hy

theorem deletedOne_chain (hL : L.Grants) (hd : Sound f d) {q : Request} (hq : q.file = f.name) :
    Sound f (deletedOne L J f q d).2 ∧
      chain f (deletedOne L J f q d).2 = (chain f d).deleteOne q.version J.val := by
  have hs := chain_backups_isSome (f := f) (d := d) (v := q.version)
  rw [Chain.deleteOne,hs]
  rw [← hq] at hs ⊢
  cases hv : d.dir (backupName q.version q.file) with
  | none =>
    rw [deletedOne_absent hd.exact hv]
    exact ⟨hd,rfl⟩
  | some i =>
    rw [deletedOne_present hL hd.exact hv]
    have hu := sound_unlinked hd (backupName q.version q.file)
    have hc : chain f (d.link (backupName q.version q.file) none false) = { chain f d with
        backups := Function.update (chain f d).backups q.version none } :=
      chain_unlinked rfl rfl (by rw [Disk.link_dir,hq])
    have hy : (chain f d).youngest = (d.inodes f.ino).youngest := rfl
    rw [hy]
    dsimp only [Option.isSome_some]
    rw [if_pos rfl]
    split_ifs with he
    · rw [stamp_sets hL.setxattr]
      refine ⟨sound_setInode hu _ _,?_⟩
      rw [chain_setInode hu,hc]
      rfl
    · exact ⟨hu,hc⟩

theorem deletedAll_chain (hL : L.Grants) (hd : Sound f d) {q : Request} (hq : q.file = f.name) :
    Sound f (deletedAll L J f q d).2 ∧
      chain f (deletedAll L J f q d).2 =
        (chain f d).deleteAll ((chain f d).counter J.val) := by
  obtain ⟨d₁,hsw,he⟩ := deletedAll_granted (J := J) (f := f) hL hd.exact q
  rw [he]
  rw [hq,chain_counter hL] at hsw
  have hle : ∀ x i, d₁.dir x = some i → d.dir x = some i := by
    intro x i hi
    rwa [hsw.kept x] at hi
    rintro v h1 h2 rfl
    rw [hsw.gone v h1 h2] at hi
    cases hi
  have hd₁ : Sound f d₁ := sound_of_dir hd hsw.exact hsw.nextIno hle
  refine ⟨sound_setInode hd₁ _ _,?_⟩
  rw [chain_setInode hd₁]
  refine Chain.ext rfl rfl rfl (funext fun v => ?_)
  change (d₁.dir (backupName v f.name)).map (fun i => (d₁.inodes i).content) =
    if 1 ≤ v ∧ v ≤ (chain f d).counter J.val then none
    else (d.dir (backupName v f.name)).map fun i => (d.inodes i).content
  rw [hsw.inodes]
  split_ifs with hv
  · rw [hsw.gone v hv.1 (by omega)]
    rfl
  · rw [hsw.kept]
    intro w h1 h2 hw
    have hvw := (backupName_inj.mp hw).1
    omega

end

end BackupFs
