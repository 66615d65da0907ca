import BackupFs.Streams.Transparent

namespace BackupFs

namespace Streams

open Session (genericFileLlseek)

def Short (max : ℕ) (s : Rack) : Call → Prop
  | .lseek h off whence => ∀ c, s.files h = some c →
      ∀ q, genericFileLlseek max (s.dirs c.ino).size c.pos off whence = some q → q ≤ INT_MAX
  | _ => True

structure Settled (s : Rack) : Prop where
  size : ∀ i a, s.above i = some a → a.size = (s.dirs i).size
  held : ∀ h c, s.files h = some c → h < s.next ∧ (s.above c.ino).isSome

section
variable {max h : ℕ} {s : Rack} {c : Stream} {i : Ino}

theorem Settled.sizeAbove (hs : Settled s) (hc : s.files h = some c) :
    s.sizeAbove c.ino = (s.dirs c.ino).size := by
  obtain ⟨a,ha⟩ := Option.isSome_iff_exists.mp (hs.held h c hc).2
  rw [Rack.sizeAbove,ha]
  exact hs.size _ a ha

end

def hashed : Ino → Dir := fun _ =>
  ⟨fun _ pos => if pos = 0 then ⟨[aTxt.name],8589934592,0,0⟩ else ⟨[],pos,0,0⟩,4096,false⟩

end Streams

end BackupFs
