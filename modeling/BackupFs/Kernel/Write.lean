import BackupFs.Kernel.Helpers

namespace BackupFs

def N : Int := 10
def INT_MAX : Int := 2147483647

def wrapInt (x : Int) : Int := x.bmod 4294967296

structure Query where
  name : ℕ := 0
  version : Int := 0
  youngest : Int := 0
  oldest : Int := 0
  buff : Bytes := []
  deriving DecidableEq, Repr

-- what the locals and the kmalloc'ed buffer hold before anything is stored in them
structure Junk where
  val : Int := 0
  val1 : Int := 0
  q2 : Query := {}
  buffer : Bytes := []
  deriving DecidableEq, Repr

def nextVersion (val : Int) : Int := if val < 0 then 1 else wrapInt (val + 1)

theorem wrapInt_bounds (x : Int) : -INT_MAX - 1 ≤ wrapInt x ∧ wrapInt x ≤ INT_MAX := by
  have h1 := Int.le_bmod (x := x) (m := 4294967296) (by decide)
  have h2 := Int.bmod_lt (x := x) (m := 4294967296) (by decide)
  rw [wrapInt,INT_MAX]
  omega

theorem wrapInt_low {x : Int} (h : -INT_MAX - 1 ≤ x) (hm : x ≤ INT_MAX) : wrapInt x = x := by
  rw [INT_MAX] at h hm
  rw [wrapInt,Int.bmod_eq_of_le] <;> omega

theorem wrapInt_eq {x : Int} (h : 0 ≤ x) (hm : x ≤ INT_MAX) : wrapInt x = x := by
  have hlow : -INT_MAX - 1 ≤ x := le_trans (by decide) h
  exact wrapInt_low hlow hm

theorem nextVersion_le (v : Int) : nextVersion v ≤ INT_MAX := by
  unfold nextVersion
  split_ifs
  · decide
  · exact (wrapInt_bounds _).2

def counter (L : Lower) (J : Junk) (f : File) (d : Disk) : Int :=
  vfsGetxattr L f.ino .revision J.val d

def retain (L : Lower) (f : File) (val : Int) (s : Sys) : Int × Sys :=
  if val > N then
    let (err,s) := lookupDelete L (.backup (val - N)) (backupName (val - N) f.name) s
    (err.getD 0,s)
  else (0,s)

-- `some err` is `goto out`; dentry_open's NULL gives PTR_ERR(NULL) = 0
def openAndCopy (L : Lower) (srcName : Name) (src : Ino) (name : Name) (s : Sys) :
    Option Int × Sys :=
  match L.openSrc with
  | .err e => (some e,s)
  | .null => (some 0,s)
  | .file =>
    let t := s.emit [.get (.file srcName),.get (.lowerPath name)]
    match L.openDest with
    | .err e => (some e,t)
    | .null => (some 0,t)
    | .file =>
      let t := t.emit [.get (.file name)]
      match s.disk.dir name with
      | some dest => (none,t.on (copyFile L src dest s.disk))
      | none => (none,t)

def stamp (L : Lower) (f : File) (val : Int) (d : Disk) : Disk :=
  vfsSetxattr L f.ino .youngest val (vfsSetxattr L f.ino .revision val d)

def writeBackup (L : Lower) (f : File) (val : Int) (s : Sys) : Option Outcome × Sys :=
  let name := backupName val f.name
  if L.dAlloc = false then (some (.returned (-ENOMEM)),s)
  else
    match bkpfsLookup L (.backup val) name (s.emit [.get (.newDentry name)]) with
    | none => (some .oops,s)
    | some s =>
      let (err,s) := create L (.backup val) name s
      if err ≠ 0 then (some (.returned err),s)
      else
        let (out,s) := openAndCopy L f.name f.ino name (s.emit [.get (.lowerPath f.name)])
        match out with
        | some err => if err ≠ 0 then (some (.returned err),s) else (none,s)
        | none => (none,s)

def bkpfsWrite (L : Lower) (J : Junk) (f : File) (pos : ℕ) (buf : Bytes) (s : Sys) :
    Outcome × Sys :=
  let val := nextVersion (counter L J f s.disk)
  let s := s.on (stamp L f val s.disk)
  let (err,s) := retain L f val (s.emit [.get .parent])
  if err ≠ 0 then (.returned err,s)
  else
    match writeBackup L f val s with
    | (some out,s) => (out,s)
    | (none,s) =>
      let (err,d) := vfsWrite L f.ino pos buf s.disk
      (.returned err,s.on d)

-- the file system's write_iter has the outcomes `w` and does what vfs_write does
def Lower.iter (L : Lower) (w : ℕ → Int) : Lower := { L with write := w }

-- `none` is a lower file without write_iter
def bkpfsWriteIter (L : Lower) (f : File) (pos : ℕ) (buf : Bytes) (s : Sys) : Outcome × Sys :=
  match L.writeIter with
  | none => (.returned (-EINVAL),s)
  | some write =>
    let (err,d) := vfsWrite (L.iter write) f.ino pos buf s.disk
    (.returned err,(s.on d).emit [.get (.file f.name),.put (.file f.name)])

def resize (c : Bytes) (n : ℕ) : Bytes := c.take n ++ List.replicate (n - c.length) 0

def notifyChange (L : Lower) (i : Ino) (size : Option ℕ) (d : Disk) : Int × Disk :=
  match L.notifyChange,size with
  | some e,_ => (e,d)
  | none,none => (0,d)
  | none,some n =>
    (0,d.setInode i { d.inodes i with content := resize (d.inodes i).content n })

-- `some n` is ATTR_SIZE with ia_size = n
def bkpfsSetattr (L : Lower) (f : File) (size : Option ℕ) (s : Sys) : Outcome × Sys :=
  match L.setattrPrepare with
  | some e => (.returned e,s)
  | none =>
    let t := s.emit [.get (.lowerPath f.name)]
    match L.newsizeOk,size with
    | some e,some _ => (.returned e,t.emit [.put (.lowerPath f.name)])
    | _,_ =>
      let (err,d) := notifyChange L f.ino size s.disk
      (.returned err,(t.on d).emit [.put (.lowerPath f.name)])

theorem resize_eq {c : Bytes} {n : ℕ} : resize c n = c ↔ n = c.length := by
  constructor
  · intro h
    have hl := congrArg List.length h
    rw [resize,List.length_append,List.length_take,List.length_replicate] at hl
    omega
  · rintro rfl
    simp [resize]

end BackupFs
