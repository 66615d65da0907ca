import BackupFs.Versions.Store

namespace BackupFs

namespace Versions

def node (f : File) (d : Disk) (i : Ino) : Node :=
  if i = f.ino then .base else .copy (d.inodes i).content

def shelf (f : File) (d : Disk) : Shelf where
  revision := (d.inodes f.ino).revision
  youngest := (d.inodes f.ino).youngest
  current := (d.inodes f.ino).content
  entry k := (d.dir (k.name f.name)).map (node f d)
  held := (d.upper f.name).isSome
  hashed k := d.cached (k.name f.name)

structure Tidy (f : File) (d : Disk) : Prop where
  base : f.ino < d.nextIno
  allocated : d.Allocated
  own : ∀ i, d.dir f.name = some i → i = f.ino
  pinned : ∀ i, d.upper f.name = some i → i = f.ino

structure Shows (f : File) (d : Disk) (a : Shelf) : Prop extends Tidy f d where
  revision : (d.inodes f.ino).revision = a.revision
  youngest : (d.inodes f.ino).youngest = a.youngest
  current : (d.inodes f.ino).content = a.current
  entry : ∀ k : Slot, (d.dir (k.name f.name)).map (node f d) = a.entry k
  held : (d.upper f.name).isSome = a.held
  hashed : ∀ k : Slot, d.cached (k.name f.name) = a.hashed k

theorem Tidy.shows {f : File} {d : Disk} (h : Tidy f d) : Shows f d (shelf f d) :=
  ⟨h,rfl,rfl,rfl,fun _ => rfl,rfl,fun _ => rfl⟩

section Slot
variable {n : Name} {k l : Slot}

theorem name_inj : k.name n = l.name n ↔ k = l := by
  refine ⟨fun h => ?_,fun h => by rw [h]⟩
  cases k <;> cases l
  case version.version v w => rw [(backupName_inj.mp h).1]
  case own.version v => exact absurd h.symm (backupName_ne_self v n)
  case version.own v => exact absurd h (backupName_ne_self v n)
  case own.restored => exact absurd h.symm (restoredName_ne_self n)
  case restored.own => exact absurd h (restoredName_ne_self n)
  case version.restored v => exact absurd h.symm (restoredName_ne_backupName n v n)
  case restored.version v => exact absurd h (restoredName_ne_backupName n v n)
  all_goals rfl

theorem update_name {α : Type} (g : Name → α) (v : α) : Function.update g (k.name n) v (l.name n) =
    Function.update (fun k => g (k.name n)) k v l := by
  rcases eq_or_ne l k with rfl | h
  · rw [Function.update_self,Function.update_self]
  · rw [Function.update_of_ne fun he => h (name_inj.mp he),Function.update_of_ne h]

theorem slash_notMem_name {f : File} : slash ∉ k.name f.name := by
  have hf := f.name.property.2.1
  cases k with
  | own => exact hf
  | version v => exact slash_mem_backupName.not.mpr hf
  | restored => exact slash_mem_restoredName.not.mpr hf

theorem name_ne_own (h : k ≠ .own) : k.name n ≠ n := fun he => h (name_inj.mp he)

end Slot

section
variable {f : File} {d d' : Disk} {a : Shelf} {k : Slot} {i : Ino}

theorem Shows.eq_shelf (h : Shows f d a) : a = shelf f d := by
  obtain ⟨⟨revision,youngest,current,entry,held⟩,hashed⟩ := a
  obtain ⟨_,rfl,rfl,rfl,he,rfl,hh⟩ := h
  obtain rfl := funext he
  obtain rfl := funext hh
  rfl

theorem Shows.entry_none (h : Shows f d a) :
    d.dir (k.name f.name) = none ↔ a.entry k = none := by
  rw [← h.entry k,Option.map_eq_none_iff]

theorem Shows.entry_some (h : Shows f d a) (hi : d.dir (k.name f.name) = some i) :
    a.entry k = some (node f d i) := by
  rw [← h.entry k,hi,Option.map_some]

theorem Shows.read_node (h : Shows f d a) (i : Ino) :
    a.read (node f d i) = (d.inodes i).content := by
  unfold node
  split_ifs with hi
  · rw [hi]
    exact h.current.symm
  · rfl

theorem shows_unlink (h : Shows f d a) (k : Slot) :
    Shows f (d.link (k.name f.name) none false) (a.link k none) := by
  have hdir {x : Name} {i : Ino} (hx : Function.update d.dir (k.name f.name) none x = some i) :
      d.dir x = some i := by
    rcases eq_or_ne x (k.name f.name) with rfl | hne
    · rw [Function.update_self] at hx
      cases hx
    · rwa [Function.update_of_ne hne] at hx
  refine ⟨⟨h.base,fun x i hx => h.allocated x i (hdir hx),fun i hi => h.own i (hdir hi),h.pinned⟩,
    h.revision,h.youngest,h.current,fun l => ?_,h.held,fun l => ?_⟩
  · rw [Disk.link_dir,update_name]
    change _ = Function.update a.entry k none l
    rcases eq_or_ne l k with rfl | hne
    · rw [Function.update_self,Function.update_self]
      rfl
    · rw [Function.update_of_ne hne,Function.update_of_ne hne]
      exact h.entry l
  · rw [Disk.link_cached,update_name,funext h.hashed]
    rfl

theorem shows_hash (h : Shows f d a) (k : Slot) :
    Shows f (d.hash (k.name f.name)) (a.hash k true) := by
  refine ⟨⟨h.base,h.allocated,h.own,h.pinned⟩,h.revision,h.youngest,h.current,h.entry,h.held,
    fun l => ?_⟩
  rw [Disk.hash_cached,update_name,funext h.hashed]
  rfl

theorem shows_interpose (h : Shows f d a) (hk : k ≠ .own) (i : Ino) :
    Shows f (d.interpose (k.name f.name) i) a := by
  have hu : (d.interpose (k.name f.name) i).upper f.name = d.upper f.name := by
    rw [Disk.interpose_upper,Function.update_of_ne (name_ne_own hk).symm]
  refine ⟨⟨h.base,h.allocated,h.own,fun i hi => h.pinned i (by rwa [hu] at hi)⟩,h.revision,
    h.youngest,h.current,h.entry,?_,h.hashed⟩
  rw [hu]
  exact h.held

theorem node_setInode (m : Inode) : node f (d.setInode f.ino m) = node f d := by
  funext i
  unfold node
  split_ifs with hi
  · rfl
  · rw [Disk.setInode_inodes,Function.update_of_ne hi]

theorem shows_setInode (h : Shows f d a) (m : Inode) : Shows f (d.setInode f.ino m)
    (a.on { a.toStore with
      revision := m.revision, youngest := m.youngest, current := m.content }) := by
  refine ⟨⟨h.base,h.allocated,h.own,h.pinned⟩,?_,?_,?_,fun l => ?_,h.held,h.hashed⟩
  · rw [Disk.setInode_inodes,Function.update_self]
    rfl
  · rw [Disk.setInode_inodes,Function.update_self]
    rfl
  · rw [Disk.setInode_inodes,Function.update_self]
    rfl
  · rw [node_setInode]
    exact h.entry l

theorem shows_new {m : Inode} (h : Shows f d a) (hk : k ≠ .own)
    (hdir : d'.dir = Function.update d.dir (k.name f.name) (some d.nextIno))
    (hin : d'.inodes = Function.update d.inodes d.nextIno m) (hnx : d'.nextIno = d.nextIno + 1)
    (hca : ∀ l : Slot, d'.cached (l.name f.name) = Function.update a.hashed k true l)
    (hup : d'.upper = d.upper) : Shows f d' (a.link k (some (.copy m.content))) := by
  have hbase : d'.inodes f.ino = d.inodes f.ino := by
    rw [hin,Function.update_of_ne (Nat.ne_of_lt h.base)]
  have hnode {x : Name} {i : Ino} (hx : d.dir x = some i) : node f d' i = node f d i := by
    unfold node
    rw [hin,Function.update_of_ne (Nat.ne_of_lt (h.allocated x i hx))]
  have hnew : node f d' d.nextIno = .copy m.content := by
    unfold node
    rw [if_neg (Nat.ne_of_gt h.base),hin,Function.update_self]
  refine ⟨⟨hnx ▸ Nat.lt_succ_of_lt h.base,fun x i hx => ?_,fun i hi => ?_,?_⟩,?_,?_,?_,
    fun l => ?_,?_,hca⟩
  · rw [hnx]
    rw [hdir] at hx
    rcases eq_or_ne x (k.name f.name) with rfl | hne
    · rw [Function.update_self] at hx
      cases hx
      exact Nat.lt_succ_self _
    · rw [Function.update_of_ne hne] at hx
      exact Nat.lt_succ_of_lt (h.allocated x i hx)
  · rw [hdir,Function.update_of_ne (name_ne_own hk).symm] at hi
    exact h.own i hi
  · rw [hup]
    exact h.pinned
  · rw [hbase]
    exact h.revision
  · rw [hbase]
    exact h.youngest
  · rw [hbase]
    exact h.current
  · rw [hdir,update_name]
    change _ = Function.update a.entry k (some (.copy m.content)) l
    rcases eq_or_ne l k with rfl | hne
    · rw [Function.update_self,Function.update_self,Option.map_some,hnew]
    · rw [Function.update_of_ne hne,Function.update_of_ne hne,← h.entry l]
      exact Option.map_congr fun i hi => hnode hi
  · rw [hup]
    exact h.held

end

end Versions

end BackupFs
