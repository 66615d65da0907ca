import BackupFs.Library.Lockstep
import BackupFs.Session.Calls

namespace BackupFs

namespace Session

def Handle.fd (a : Handle) : Fd := ⟨a.file,a.pos,a.append⟩

structure Matches (base : Ino) (s : Desk) (p : Plain) : Prop where
  bound : base ≤ s.sys.disk.nextIno
  content : ∀ i < base, (s.sys.disk.inodes i).content = p.content i
  files : ∀ h, p.files h = (s.files h).map Handle.fd
  own : ∀ h a, s.files h = some a → a.file.ino < base
  next : p.next = s.next

def Call.Within (base : Ino) : Call → Prop
  | .open f _ _ => f.ino < base
  | .below i _ => i < base
  | _ => True

section
variable {L : Lower} {J : Junk} {f : File} {pos : ℕ} {buf : Bytes} {d d' d'' : Disk} {i : Ino}
  {c : Bytes}

def count (w : ℕ → Int) (buf : Bytes) : ℕ := min (w buf.length).toNat buf.length

end

section
variable {base : Ino} {s : Desk} {p : Plain} {h : ℕ} {a : Handle} {b : Fd}

end

end Session

end BackupFs
