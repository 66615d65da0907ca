import BackupFs.Lower.Splice

namespace BackupFs

def vfsGetxattr (L : Lower) (i : Ino) (a : Attr) (buffer : Int) (d : Disk) : Int :=
  match L.getxattr a with
  | some _ => buffer
  | none => ((d.inodes i).attr a).getD buffer

def vfsSetxattr (L : Lower) (i : Ino) (a : Attr) (val : Int) (d : Disk) : Disk :=
  match L.setxattr a with
  | some _ => d
  | none => d.setInode i ((d.inodes i).setAttr val a)

def vfsUnlink (L : Lower) (x : Name) (d : Disk) : Int × Disk :=
  match d.dir x with
  | none => (-ENOENT,d)
  | some _ =>
    match L.unlink x with
    | some e => (e,d)
    | none => (0,d.link x none false)

def vfsCreate (L : Lower) (x : Name) (d : Disk) : Int × Disk :=
  if (d.lowerIno x).isSome then (-EEXIST,d)
  else
    match L.create with
    | some e => (e,d)
    | none => (0,d.created x)

def vfsPathLookup (fail : Option Errno) (x : Name) (d : Disk) : Except Int Ino × Disk :=
  match fail with
  | some e => (.error e,d)
  | none =>
    (match d.pathIno x with | some i => .ok i | none => .error (-ENOENT),
      if slash ∈ x then d else d.hash x)

def vfsWrite (L : Lower) (i : Ino) (pos : ℕ) (buf : Bytes) (d : Disk) : Int × Disk :=
  let r := L.write buf.length
  if r < 0 then (r,d)
  else
    let n := min r.toNat buf.length
    (n,d.setInode i { d.inodes i with content := pwrite (d.inodes i).content pos (buf.take n) })

def create (L : Lower) (r : Role) (x : Name) (s : Sys) : Int × Sys :=
  let (err,d) := vfsCreate L x s.disk
  (err,(s.on d).emit [.get (.lowerPath x),.get .lowerDir,.get .dirLock,.create r x err,
    .put .dirLock,.put .lowerDir,.put (.lowerPath x)])

def delete (L : Lower) (r : Role) (x : Name) (s : Sys) : Int × Sys :=
  let (e,d) := vfsUnlink L x s.disk
  let err := if e = -EBUSY ∧ L.nfsRenamed x = true then 0 else e
  (err,(s.on d).emit [.get (.lowerEntry x),.get .lowerDir,.get .dirLock,.unlink r x e,
    .put .dirLock,.put .lowerDir,.put (.lowerEntry x)])

-- d_lookup in the lower directory, and `delete` on the dentry if there is one
def lookupDelete (L : Lower) (r : Role) (x : Name) (s : Sys) : Option Int × Sys :=
  let t := s.emit [.get .lowerDirPath,.dLookup r x]
  if s.disk.cached x then
    let (err,s) := delete L r x (t.emit [.get (.lowerEntry x),.get .parent])
    (some err,s)
  else (none,t)

-- `none` is an error pointer: the callers ignore it and `create` then
-- follows a lower path that was never set
def bkpfsLookup (L : Lower) (r : Role) (x : Name) (s : Sys) : Option Sys :=
  let es := [.get .parent,.get .lowerDirPath,.pathLookup r x,.put .lowerDirPath,.put .parent]
  match L.lookup with
  | some _ => none
  | none =>
    match vfsPathLookup none x s.disk with
    | (.ok i,d) => some ((s.on (d.interpose x i)).emit es)
    | (.error _,d) => some ((s.on (d.hash x)).emit es)

-- do_splice_direct until it stops, from one open file into another
def copyFile (L : Lower) (src dest : Ino) (d : Disk) : Disk :=
  d.setInode dest { d.inodes dest with
    content := (copyBytes L.splice (d.inodes src).content (d.inodes dest).content).2 }

end BackupFs
