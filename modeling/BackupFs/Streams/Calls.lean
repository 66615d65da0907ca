import BackupFs.Session.Calls

namespace BackupFs

namespace Streams

open Session (Whence genericFileLlseek EBADF)

-- what one call of the iterate method below takes, and buf.error of getdents after it
structure Listing where
  entries : List Name
  pos : ℕ
  result : Int
  error : Int

structure Dir where
  list : ℕ → ℕ → Listing
  size : ℕ
  dead : Bool

-- i_size and S_DEAD of the mount's inode over a directory
structure Above where
  size : ℕ
  dead : Bool

structure Stream where
  ino : Ino
  pos : ℕ
  lowerPos : ℕ

structure Fd where
  ino : Ino
  pos : ℕ

structure DirContext where
  entries : List Name := []
  pos : ℕ := 0
  error : Int := 0

structure Rack where
  dirs : Ino → Dir
  above : Ino → Option Above
  files : ℕ → Option Stream
  next : ℕ

inductive Call where
  | open (i : Ino) (err : Option Errno)
  | close (h : ℕ)
  | getdents (h room : ℕ) (refused lowerRefused : Option Errno)
  | lseek (h : ℕ) (off : Int) (whence : Whence)
  | entries (i : Ino) (list : ℕ → ℕ → Listing) (size : ℕ)
  | link (i : Ino) (list : ℕ → ℕ → Listing) (size fileSize : ℕ)
  | rmdir (i : Ino)
  | reclaim (i : Ino)
  | below (i : Ino) (d : Dir)

inductive Reply where
  | ret (r : Int)
  | entries (es : List Name) (pos : ℕ)
  | handle (h : ℕ)
  deriving DecidableEq

-- `refused` is what the permission check or a fatal signal makes of the call
def iterateDir {F : Type} (pos : F → ℕ) (setPos : F → ℕ → F) (refused : Option Errno)
    (dead : Bool) (iterate : F → DirContext → Int × F × DirContext) (f : F) (ctx : DirContext) :
    Int × F × DirContext :=
  match refused with
  | some e => (e,f,ctx)
  | none =>
    if dead then (-ENOENT,f,ctx)
    else
      let (r,f,ctx) := iterate f { ctx with pos := pos f }
      (r,setPos f ctx.pos,ctx)

namespace Dir

def iterate (d : Dir) (room : ℕ) (pos : ℕ) (ctx : DirContext) : Int × ℕ × DirContext :=
  let l := d.list room ctx.pos
  (l.result,pos,⟨ctx.entries ++ l.entries,l.pos,l.error⟩)

-- iterate_dir of a file of the file system below, which is its f_pos
def iterateLower (d : Dir) (refused : Option Errno) (room : ℕ) :
    ℕ → DirContext → Int × ℕ × DirContext :=
  iterateDir id (fun _ pos => pos) refused d.dead (d.iterate room)

end Dir

def bkpfsReaddir (refused : Option Errno) (d : Dir) (room : ℕ) (c : Stream) (ctx : DirContext) :
    Int × Stream × DirContext :=
  let (r,pos,ctx) := d.iterateLower refused room c.lowerPos ctx
  (r,{ c with pos := pos, lowerPos := pos },ctx)

-- iterate_dir of a file of the mount
def iterateAbove (refused : Option Errno) (dead : Bool) (lowerRefused : Option Errno) (d : Dir)
    (room : ℕ) : Stream → DirContext → Int × Stream × DirContext :=
  iterateDir Stream.pos (fun c pos => { c with pos := pos }) refused dead
    (bkpfsReaddir lowerRefused d room)

-- getdents: the bytes it returns stand for the entries and the d_off of the last
def answer (r : Int) (ctx : DirContext) : Reply :=
  if ctx.entries = [] then .ret (if r < 0 then r else ctx.error)
  else .entries ctx.entries ctx.pos

def sought (pos : ℕ) : Option ℕ → Int × ℕ
  | some p => (p,p)
  | none => (-EINVAL,pos)

-- err is an int
def bkpfsFileLlseek (max size lowerSize : ℕ) (off : Int) (whence : Whence) (c : Stream) :
    Int × Stream :=
  let (r,pos) := sought c.pos (genericFileLlseek max size c.pos off whence)
  if wrapInt r < 0 then (wrapInt r,{ c with pos := pos })
  else
    let (r,lowerPos) := sought c.lowerPos (genericFileLlseek max lowerSize c.lowerPos off whence)
    (wrapInt r,{ c with pos := pos, lowerPos := lowerPos })

namespace Rack

def sizeAbove (s : Rack) (i : Ino) : ℕ := ((s.above i).map Above.size).getD 0

def deadAbove (s : Rack) (i : Ino) : Bool := (s.above i).any Above.dead

def put (s : Rack) (h : ℕ) (c : Option Stream) : Rack :=
  { s with files := Function.update s.files h c }

def setDir (s : Rack) (i : Ino) (d : Dir) : Rack :=
  { s with dirs := Function.update s.dirs i d }

def setAbove (s : Rack) (i : Ino) (a : Option Above) : Rack :=
  { s with above := Function.update s.above i a }

-- bkpfs_iget copies the size into an inode it makes
def iget (s : Rack) (i : Ino) : Rack :=
  s.setAbove i (some ((s.above i).getD ⟨(s.dirs i).size,false⟩))

def changed (s : Rack) (i : Ino) (list : ℕ → ℕ → Listing) (size copied : ℕ) : Rack :=
  (s.setDir i ⟨list,size,(s.dirs i).dead⟩).setAbove i
    ((s.above i).map fun a => { a with size := copied })

def opened (s : Rack) (i : Ino) : Rack :=
  { s.put s.next (some ⟨i,0,0⟩) with next := s.next + 1 }

def Idle (s : Rack) (i : Ino) : Prop := ∀ h < s.next, (s.files h).map Stream.ino ≠ some i

instance (s : Rack) (i : Ino) : Decidable (s.Idle i) := Nat.decidableBallLT _ _

def call (max : ℕ) (s : Rack) : Call → Reply × Rack
  | .open i (some e) => (.ret e,s.iget i)
  | .open i none => (.handle s.next,(s.iget i).opened i)
  | .close h =>
    match s.files h with
    | none => (.ret (-EBADF),s)
    | some _ => (.ret 0,s.put h none)
  | .getdents h room refused lowerRefused =>
    match s.files h with
    | none => (.ret (-EBADF),s)
    | some c =>
      let (r,c,ctx) :=
        iterateAbove refused (s.deadAbove c.ino) lowerRefused (s.dirs c.ino) room c {}
      (answer r ctx,s.put h (some c))
  | .lseek h off whence =>
    match s.files h with
    | none => (.ret (-EBADF),s)
    | some c =>
      let (r,c) := bkpfsFileLlseek max (s.sizeAbove c.ino) (s.dirs c.ino).size off whence c
      (.ret r,s.put h (some c))
  | .entries i list size => (.ret 0,s.changed i list size size)
  -- bkpfs_link copies the size of the file
  | .link i list size fileSize => (.ret 0,s.changed i list size fileSize)
  | .rmdir i =>
    (.ret 0,(s.setDir i { s.dirs i with dead := true }).setAbove i
      ((s.above i).map fun a => { a with dead := true }))
  | .reclaim i => (.ret 0,if s.Idle i then s.setAbove i none else s)
  -- S_DEAD is for ever
  | .below i d => (.ret 0,s.setDir i { d with dead := (s.dirs i).dead || d.dead })

def refused (s : Rack) : Call → Option Errno
  | .getdents h _ refused lowerRefused =>
    refused.or (if (s.files h).any fun c => s.deadAbove c.ino then none else lowerRefused)
  | _ => none

end Rack

structure Plain where
  dirs : Ino → Dir
  files : ℕ → Option Fd
  next : ℕ

namespace Plain

def put (p : Plain) (h : ℕ) (b : Option Fd) : Plain :=
  { p with files := Function.update p.files h b }

def setDir (p : Plain) (i : Ino) (d : Dir) : Plain :=
  { p with dirs := Function.update p.dirs i d }

-- directories whose llseek is generic_file_llseek
def call (max : ℕ) (p : Plain) : Call × Option Errno → Reply × Plain
  | (.open _ (some e),_) => (.ret e,p)
  | (.open i none,_) =>
    (.handle p.next,{ p.put p.next (some ⟨i,0⟩) with next := p.next + 1 })
  | (.close h,_) =>
    match p.files h with
    | none => (.ret (-EBADF),p)
    | some _ => (.ret 0,p.put h none)
  | (.getdents h room _ _,refused) =>
    match p.files h with
    | none => (.ret (-EBADF),p)
    | some b =>
      let (r,pos,ctx) := (p.dirs b.ino).iterateLower refused room b.pos {}
      (answer r ctx,p.put h (some { b with pos := pos }))
  | (.lseek h off whence,_) =>
    match p.files h with
    | none => (.ret (-EBADF),p)
    | some b =>
      let (r,pos) := sought b.pos (genericFileLlseek max (p.dirs b.ino).size b.pos off whence)
      (.ret r,p.put h (some { b with pos := pos }))
  | (.entries i list size,_) | (.link i list size _,_) =>
    (.ret 0,p.setDir i ⟨list,size,(p.dirs i).dead⟩)
  | (.rmdir i,_) => (.ret 0,p.setDir i { p.dirs i with dead := true })
  | (.reclaim _,_) => (.ret 0,p)
  | (.below i d,_) => (.ret 0,p.setDir i { d with dead := (p.dirs i).dead || d.dead })

end Plain

end Streams

end BackupFs
