import BackupFs.Session.Transparent

namespace BackupFs

namespace Session

structure Settled (base : Ino) (s : Desk) : Prop where
  bound : base ≤ s.sys.disk.nextIno
  flags : ∀ h a, s.files h = some a → a.append = a.lowerAppend
  seen : ∀ h a, s.files h = some a → s.size a.file.ino ≠ none
  unused : ∀ h, s.next ≤ h → s.files h = none
  known : ∀ i, s.size i ≠ none → i < s.sys.disk.nextIno
  exact : ∀ i n, s.size i = some n → n = s.length i

section
variable {base : Ino} {s : Desk} {t : Sys} {i : Ino} {c : Bytes} {h max : ℕ} {a : Handle}

end

end Session

end BackupFs
