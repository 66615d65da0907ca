import BackupFs.Content.Coverage

namespace BackupFs

namespace Session

-- an open regular file of the mount: its offset, and O_APPEND in its flags and in the lower file's
structure Handle where
  file : File
  pos : ℕ
  append : Bool
  lowerAppend : Bool

-- `size` is the i_size of the mount's inode over a lower one, if the mount has that inode
structure Desk where
  sys : Sys
  size : Ino → Option ℕ
  files : ℕ → Option Handle
  next : ℕ

inductive Whence where
  | set
  | cur
  | end
  deriving DecidableEq

inductive Call where
  | open (f : File) (append : Bool) (err : Option Errno)
  | close (h : ℕ)
  | read (h n : ℕ) (got : ℕ → Int)
  | write (h : ℕ) (L : Lower) (J : Junk) (buf : Bytes)
  | writev (h : ℕ) (w : ℕ → Int) (buf : Bytes)
  | lseek (h : ℕ) (off : Int) (whence : Whence)
  | ftruncate (h : ℕ) (L : Lower) (n : ℕ)
  | setfl (h : ℕ) (append : Bool)
  | reclaim (i : Ino)
  | below (i : Ino) (c : Bytes)

inductive Reply where
  | ret (r : Int)
  | data (bs : Bytes)
  | handle (h : ℕ)
  | oops
  deriving DecidableEq

def EBADF : Int := 9

-- generic_write_checks
def place (append : Bool) (pos len : ℕ) (buf : Bytes) : ℕ :=
  if append = true ∧ buf ≠ [] then len else pos

def vfsRead (got : ℕ → Int) (c : Bytes) (pos n : ℕ) : Reply × ℕ :=
  let avail := min n (c.length - pos)
  let r := got avail
  if r < 0 then (.ret r,pos)
  else (.data ((c.drop pos).take (min r.toNat avail)),pos + min r.toNat avail)

def vfsSetpos (max : ℕ) (off : Int) : Option ℕ :=
  if off < 0 ∨ off > max then none else some off.toNat

-- `max` is s_maxbytes, and the mount's is that of the lower file system
def genericFileLlseek (max eof pos : ℕ) (off : Int) : Whence → Option ℕ
  | .set => vfsSetpos max off
  | .cur => if off = 0 then some pos else vfsSetpos max (pos + off)
  | .end => vfsSetpos max (off + eof)

def sought (pos : ℕ) : Option ℕ → Reply × ℕ
  | some p => (.ret p,p)
  | none => (.ret (-EINVAL),pos)

namespace Desk

def length (s : Desk) (i : Ino) : ℕ := (s.sys.disk.inodes i).content.length

-- bkpfs_iget copies the size into an inode it makes
def iget (s : Desk) (i : Ino) : Desk :=
  { s with size := Function.update s.size i (some ((s.size i).getD (s.length i))) }

def put (s : Desk) (h : ℕ) (a : Option Handle) : Desk :=
  { s with files := Function.update s.files h a }

-- fsstack_copy_inode_size
def copySize (s : Desk) (i : Ino) : Desk :=
  { s with size := Function.update s.size i (some (s.length i)) }

def on (s : Desk) (t : Sys) : Desk := { s with sys := t }

def opened (s : Desk) (f : File) (append : Bool) : Desk :=
  { s.put s.next (some ⟨f,0,append,append⟩) with next := s.next + 1 }

def wrote (s : Desk) (h : ℕ) (a : Handle) (pos : ℕ) (out : Outcome × Sys) : Reply × Desk :=
  match out.1 with
  | .oops => (.oops,s.on out.2)
  | .returned r =>
    if r < 0 then (.ret r,s.on out.2)
    else (.ret r,((s.on out.2).copySize a.file.ino).put h (some { a with pos := pos + r.toNat }))

-- truncate_setsize comes before notify_change on the lower inode
def truncated (s : Desk) (L : Lower) (i : Ino) (n : ℕ) : Desk :=
  if L.setattrPrepare = none ∧ L.newsizeOk = none then
    { s with size := Function.update s.size i (some n) }
  else s

def replied : Outcome → Reply
  | .returned r => .ret r
  | .oops => .oops

def Idle (s : Desk) (i : Ino) : Prop :=
  ∀ h < s.next, (s.files h).map (fun a => a.file.ino) ≠ some i

instance (s : Desk) (i : Ino) : Decidable (s.Idle i) := Nat.decidableBallLT _ _

def call (max : ℕ) (s : Desk) : Call → Reply × Desk
  | .open f _ (some e) => (.ret e,s.iget f.ino)
  | .open f append none => (.handle s.next,(s.iget f.ino).opened f append)
  | .close h =>
    match s.files h with
    | none => (.ret (-EBADF),s)
    | some _ => (.ret 0,s.put h none)
  | .read h n got =>
    match s.files h with
    | none => (.ret (-EBADF),s)
    | some a =>
      let (r,pos) := vfsRead got (s.sys.disk.inodes a.file.ino).content a.pos n
      (r,s.put h (some { a with pos := pos }))
  | .write h L J buf =>
    match s.files h with
    | none => (.ret (-EBADF),s)
    | some a =>
      let pos := place a.lowerAppend a.pos (s.length a.file.ino) buf
      s.wrote h a pos (bkpfsWrite L J a.file pos buf s.sys)
  | .writev h w buf =>
    match s.files h with
    | none => (.ret (-EBADF),s)
    | some a =>
      let pos := place a.append a.pos (s.length a.file.ino) buf
      s.wrote h a pos (bkpfsWriteIter { writeIter := some w } a.file pos buf s.sys)
  | .lseek h off whence =>
    match s.files h with
    | none => (.ret (-EBADF),s)
    | some a =>
      let (r,pos) := sought a.pos
        (genericFileLlseek max ((s.size a.file.ino).getD 0) a.pos off whence)
      (r,s.put h (some { a with pos := pos }))
  | .ftruncate h L n =>
    match s.files h with
    | none => (.ret (-EBADF),s)
    | some a =>
      let (out,t) := bkpfsSetattr L a.file (some n) s.sys
      (replied out,(s.truncated L a.file.ino n).on t)
  | .setfl h append =>
    match s.files h with
    | none => (.ret (-EBADF),s)
    | some a => (.ret 0,s.put h (some { a with append := append }))
  | .reclaim i => (.ret 0,if s.Idle i then { s with size := Function.update s.size i none } else s)
  | .below i c => (.ret 0,s.on (s.sys.on (s.sys.disk.setInode i
      { s.sys.disk.inodes i with content := c })))

end Desk

structure Fd where
  file : File
  pos : ℕ
  append : Bool

structure Plain where
  content : Ino → Bytes
  files : ℕ → Option Fd
  next : ℕ

def Reply.failure : Reply → Option Int
  | .ret r => if r < 0 then some r else none
  | _ => none

namespace Plain

def put (p : Plain) (h : ℕ) (a : Option Fd) : Plain :=
  { p with files := Function.update p.files h a }

def store (p : Plain) (i : Ino) (c : Bytes) : Plain :=
  { p with content := Function.update p.content i c }

def write (p : Plain) (h : ℕ) (a : Fd) (w : ℕ → Int) (buf : Bytes) : Reply × Plain :=
  let pos := place a.append a.pos (p.content a.file.ino).length buf
  let r := w buf.length
  if r < 0 then (.ret r,p)
  else
    let n := min r.toNat buf.length
    (.ret n,(p.store a.file.ino (pwrite (p.content a.file.ino) pos (buf.take n))).put h
      (some { a with pos := pos + n }))

-- a write or a truncation may fail as the one it stands for does
def call (max : ℕ) (p : Plain) : Call × Option Int → Reply × Plain
  | (.open _ _ (some e),_) => (.ret e,p)
  | (.open f append none,_) =>
    (.handle p.next,{ p.put p.next (some ⟨f,0,append⟩) with next := p.next + 1 })
  | (.close h,_) =>
    match p.files h with
    | none => (.ret (-EBADF),p)
    | some _ => (.ret 0,p.put h none)
  | (.read h n got,_) =>
    match p.files h with
    | none => (.ret (-EBADF),p)
    | some a =>
      let (r,pos) := vfsRead got (p.content a.file.ino) a.pos n
      (r,p.put h (some { a with pos := pos }))
  | (.write h L _ buf,fail) =>
    match p.files h,fail with
    | none,_ => (.ret (-EBADF),p)
    | some _,some e => (.ret e,p)
    | some a,none => p.write h a L.write buf
  | (.writev h w buf,_) =>
    match p.files h with
    | none => (.ret (-EBADF),p)
    | some a => p.write h a w buf
  | (.lseek h off whence,_) =>
    match p.files h with
    | none => (.ret (-EBADF),p)
    | some a =>
      let (r,pos) := sought a.pos
        (genericFileLlseek max (p.content a.file.ino).length a.pos off whence)
      (r,p.put h (some { a with pos := pos }))
  | (.ftruncate h _ n,fail) =>
    match p.files h,fail with
    | none,_ => (.ret (-EBADF),p)
    | some _,some e => (.ret e,p)
    | some a,none => (.ret 0,p.store a.file.ino (resize (p.content a.file.ino) n))
  | (.setfl h append,_) =>
    match p.files h with
    | none => (.ret (-EBADF),p)
    | some a => (.ret 0,p.put h (some { a with append := append }))
  | (.reclaim _,_) => (.ret 0,p)
  | (.below i c,_) => (.ret 0,p.store i c)

end Plain

end Session

end BackupFs
