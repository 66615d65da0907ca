import BackupFs.Session.Agreement

namespace BackupFs

namespace Session

def Placed (a : Handle) (len : ℕ) (buf : Bytes) : Prop :=
  buf = [] ∨ a.append = a.lowerAppend ∨ a.pos = len

def Fits (max : ℕ) (off : Int) : Prop := 0 ≤ off ∧ off ≤ max

section
variable {max : ℕ} {pos len eof : ℕ} {off : Int} {x y : Option ℕ} {buf : Bytes} {a : Handle}

end

section
variable {base : Ino} {max : ℕ} {s : Desk} {p : Plain} {h : ℕ} {a : Handle}

def Agrees (base : Ino) (max : ℕ) (s : Desk) (p : Plain) (c : Call) : Prop :=
  (s.call max c).1 = (p.call max (c,(s.call max c).1.failure)).1 ∧
    Matches base (s.call max c).2 (p.call max (c,(s.call max c).1.failure)).2

end

def Desk.start (s : Sys) : Desk := ⟨s,fun _ => none,fun _ => none,0⟩

def Plain.start (d : Disk) : Plain := ⟨fun i => (d.inodes i).content,fun _ => none,0⟩

end Session

end BackupFs
