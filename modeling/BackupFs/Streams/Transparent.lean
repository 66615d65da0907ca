import BackupFs.Streams.Calls
import BackupFs.Library.Lockstep

namespace BackupFs

namespace Streams

open Session (Whence genericFileLlseek EBADF)

def Stream.fd (c : Stream) : Fd := ⟨c.ino,c.pos⟩

structure Alike (s : Rack) (p : Plain) : Prop where
  dirs : p.dirs = s.dirs
  files : ∀ h, p.files h = (s.files h).map Stream.fd
  level : ∀ h c, s.files h = some c → c.lowerPos = c.pos
  dead : ∀ i, s.deadAbove i = true → (s.dirs i).dead = true
  next : p.next = s.next

def Same (o : Int × Stream) (o' : Int × ℕ) : Prop :=
  o.1 = o'.1 ∧ o.2.lowerPos = o.2.pos ∧ o'.2 = o.2.pos

def Agrees (max : ℕ) (s : Rack) (p : Plain) (c : Call) : Prop :=
  (s.call max c).1 = (p.call max (c,s.refused c)).1 ∧
    Alike (s.call max c).2 (p.call max (c,s.refused c)).2

section
variable {max size lowerSize h : ℕ} {s : Rack} {p : Plain} {c : Stream} {b : Fd} {off : Int}
  {whence : Whence} {i : Ino}

end

def Rack.start (dirs : Ino → Dir) : Rack := ⟨dirs,fun _ => none,fun _ => none,0⟩

def Plain.start (dirs : Ino → Dir) : Plain := ⟨dirs,fun _ => none,0⟩

end Streams

end BackupFs
