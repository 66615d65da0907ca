import BackupFs.Kernel.Effects

namespace BackupFs

-- LOOKUP_RCU asks for a retry in ref-walk mode; 1 is valid, 0 is invalid
def bkpfsDRevalidate (L : Lower) (rcu : Bool) (x : Name) : Int :=
  if rcu then -ECHILD
  else
    match L.dRevalidate with
    | none => 1
    | some hook => hook x

def lookupSlow (L : Lower) (x : Name) (d : Disk) : Except Int Ino × Disk :=
  match L.lookup with
  | some e => (.error e,d)
  | none =>
    match vfsPathLookup none x d with
    | (.ok i,d) => (.ok i,d.interpose x i)
    | (.error e,d) => (.error e,d.hash x)

def mountLookup (L : Lower) (x : Name) (d : Disk) : Except Int Ino × Disk :=
  match d.upper x with
  | none => lookupSlow L x d
  | some i =>
    let status := bkpfsDRevalidate L true x
    let status := if status = -ECHILD then bkpfsDRevalidate L false x else status
    if status > 0 then (.ok i,d)
    else if status = 0 then lookupSlow L x (d.drop x)
    else (.error status,d)

-- bkpfs_open opens the lower path that the dentry pins, and bkpfs_read reads it
def mountRead (L : Lower) (x : Name) (d : Disk) : Except Int Bytes :=
  match mountLookup L x d with
  | (.ok i,d) => .ok (d.inodes i).content
  | (.error e,_) => .error e

def Pinned (d : Disk) : Prop := ∀ x i, slash ∉ x → d.upper x = some i → d.dir x = some i

structure LooksUp (L : Lower) : Prop where
  lookup : L.lookup = none
  hook : ∀ hook, L.dRevalidate = some hook → ∀ x, 0 ≤ hook x

structure MountMatches (L : Lower) (d : Disk) (x : Name) : Prop where
  found : (∃ c, mountRead L x d = .ok c) ↔ d.dir x ≠ none
  content : ∀ i, d.dir x = some i → mountRead L x d = .ok (d.inodes i).content

section
variable {L : Lower} {x y : Name} {d : Disk} {i : Ino}

theorem lookupSlow_disk (h : L.lookup = none) : (lookupSlow L x d).2 = lookedUp x d := by
  unfold lookupSlow lookedUp vfsPathLookup
  simp only [h]
  cases d.pathIno x with
  | none =>
    dsimp only
    split_ifs <;> simp [Disk.hash]
  | some i => rfl

theorem lookupSlow_result (h : L.lookup = none) :
    (lookupSlow L x d).1 = match d.pathIno x with
      | some i => .ok i
      | none => .error (-ENOENT) := by
  unfold lookupSlow vfsPathLookup
  simp only [h]
  cases d.pathIno x <;> rfl

theorem mountLookup_cached (h : d.upper x = some i) : mountLookup L x d =
    if bkpfsDRevalidate L false x > 0 then (.ok i,d)
    else if bkpfsDRevalidate L false x = 0 then lookupSlow L x (d.drop x)
    else (.error (bkpfsDRevalidate L false x),d) := by
  rw [mountLookup,h]
  rfl

theorem lookupSlow_inodes : (lookupSlow L x d).2.inodes = d.inodes := by
  unfold lookupSlow vfsPathLookup
  cases L.lookup with
  | some e => rfl
  | none =>
    dsimp only
    cases d.pathIno x <;> dsimp only <;> split_ifs <;> rfl

theorem mountLookup_inodes : (mountLookup L x d).2.inodes = d.inodes := by
  cases hu : d.upper x with
  | none =>
    rw [mountLookup,hu]
    exact lookupSlow_inodes
  | some i =>
    rw [mountLookup_cached hu]
    split_ifs
    · rfl
    · exact lookupSlow_inodes
    · rfl

theorem mountRead_eq : mountRead L x d = match (mountLookup L x d).1 with
    | .ok i => .ok (d.inodes i).content
    | .error e => .error e := by
  have hin := mountLookup_inodes (L := L) (x := x) (d := d)
  unfold mountRead
  generalize mountLookup L x d = out at hin ⊢
  obtain ⟨r,d'⟩ := out
  dsimp only at hin ⊢
  cases r with
  | error e => rfl
  | ok i =>
    dsimp only
    rw [hin]

theorem revalidate_nonneg (hL : LooksUp L) : 0 ≤ bkpfsDRevalidate L false x := by
  unfold bkpfsDRevalidate
  cases hd : L.dRevalidate with
  | none => simp
  | some hook => simpa using hL.hook hook hd x

theorem lookupSlow_dir (hL : LooksUp L) (hx : slash ∉ x) :
    (lookupSlow L x d).1 = match d.dir x with
      | some i => .ok i
      | none => .error (-ENOENT) := by
  rw [lookupSlow_result hL.lookup,Disk.pathIno_of_slash d hx]

theorem mountLookup_dir (hL : LooksUp L) (hx : slash ∉ x)
    (hp : ∀ i, d.upper x = some i → d.dir x = some i) :
    (mountLookup L x d).1 = match d.dir x with
      | some i => .ok i
      | none => .error (-ENOENT) := by
  cases hu : d.upper x with
  | none =>
    rw [mountLookup,hu]
    exact lookupSlow_dir hL hx
  | some i =>
    have hn := revalidate_nonneg (x := x) hL
    rw [mountLookup_cached hu]
    split_ifs with h1 h2
    · rw [hp i hu]
    · exact lookupSlow_dir hL hx
    · omega

theorem pinned_matches (hL : LooksUp L) (hp : Pinned d) (hx : slash ∉ x) : MountMatches L d x := by
  have hr := mountRead_eq (L := L) (x := x) (d := d)
  rw [mountLookup_dir hL hx fun i => hp x i hx] at hr
  cases hd : d.dir x with
  | none =>
    rw [hd] at hr
    refine ⟨iff_of_false (fun ⟨c,hc⟩ => ?_) (fun h => h hd),fun i hi => ?_⟩
    · rw [hr] at hc
      cases hc
    · rw [hd] at hi
      cases hi
  | some i =>
    rw [hd] at hr
    refine ⟨iff_of_true ⟨_,hr⟩ (by simp [hd]),fun j hj => ?_⟩
    rw [hd] at hj
    cases hj
    exact hr

theorem pinned_found (hh : L.dRevalidate = none) (hu : d.upper x = some i) :
    mountRead L x d = .ok (d.inodes i).content := by
  rw [mountRead_eq,mountLookup_cached hu]
  simp [bkpfsDRevalidate,hh]

end

end BackupFs
