import BackupFs.Kernel.Effects

namespace BackupFs

def vfsLink (L : Lower) (old new : Name) (d : Disk) : Int × Disk :=
  match d.dir old with
  | none => (-ENOENT,d)
  | some i =>
    if (d.dir new).isSome then (-EEXIST,d)
    else
      match L.link with
      | some e => (e,d)
      | none => (0,d.link new (some i) true)

-- two names of one inode, or two missing names, are left as they are
def vfsRename (L : Lower) (old new : Name) (d : Disk) : Int × Disk :=
  if d.dir old = d.dir new then (0,d)
  else
    match d.dir old with
    | none => (-ENOENT,d)
    | some i =>
      match L.rename with
      | some e => (e,d)
      | none => (0,(d.link old none false).link new (some i) true)

def bkpfsInterpose (L : Lower) (x : Name) (d : Disk) : Int × Disk :=
  match L.interpose,d.dir x with
  | some e,_ => (e,d)
  | none,some i => (0,d.interpose x i)
  | none,none => (0,d)

def bkpfsCreate (L : Lower) (x : FileName) (d : Disk) : Int × Disk :=
  let (err,d) := vfsCreate L x d
  if err ≠ 0 then (err,d) else bkpfsInterpose L x d

def bkpfsLink (L : Lower) (old new : FileName) (d : Disk) : Int × Disk :=
  let (err,d) := vfsLink L old new d
  if err ≠ 0 ∨ d.dir new = none then (err,d) else bkpfsInterpose L new d

def bkpfsUnlink (L : Lower) (x : FileName) (d : Disk) : Int × Disk :=
  let (e,d) := vfsUnlink L x d
  let err := if e = -EBUSY ∧ L.nfsRenamed x = true then 0 else e
  if err ≠ 0 then (err,d) else (0,d.drop x)

-- both names are in one directory, so lock_rename gives no trap
def bkpfsRename (L : Lower) (old new : FileName) (flags : ℕ) (d : Disk) : Int × Disk :=
  if flags ≠ 0 then (-EINVAL,d) else vfsRename L old new d

section
variable {L : Lower} {d : Disk}

theorem bkpfsInterpose_tree (x : Name) :
    ∃ u, (bkpfsInterpose L x d).2 = { d with upper := u } := by
  unfold bkpfsInterpose
  cases L.interpose with
  | some e => exact ⟨d.upper,rfl⟩
  | none =>
    cases d.dir x with
    | some i => exact ⟨_,rfl⟩
    | none => exact ⟨d.upper,rfl⟩

end

end BackupFs
