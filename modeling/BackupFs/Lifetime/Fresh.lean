import BackupFs.Chain.History
import BackupFs.Kernel.Namespace

namespace BackupFs

open Transition

inductive DirCall where
  | create (L : Lower) (x : FileName)
  | write (L : Lower) (J : Junk) (f : File) (pos : ℕ) (buf : Bytes)
  | unlink (L : Lower) (x : FileName)
  | rename (L : Lower) (old new : FileName) (flags : ℕ)
  | link (L : Lower) (old new : FileName)
  | delete (L : Lower) (J : Junk) (f : File) (q : Request)

def File.In (f : File) (d : Disk) : Prop := d.dir f.name = some f.ino

inductive DirStep : Sys → DirCall → Sys → Prop
  | create {s : Sys} (L : Lower) (x : FileName) :
      DirStep s (.create L x) (s.on (bkpfsCreate L x s.disk).2)
  | write {s : Sys} {L : Lower} (J : Junk) {f : File} (pos : ℕ) (buf : Bytes) (hL : L.Grants)
      (hf : f.In s.disk) : DirStep s (.write L J f pos buf) (bkpfsWrite L J f pos buf s).2
  | unlink {s : Sys} (L : Lower) (x : FileName) :
      DirStep s (.unlink L x) (s.on (bkpfsUnlink L x s.disk).2)
  | rename {s : Sys} (L : Lower) (old new : FileName) (flags : ℕ) :
      DirStep s (.rename L old new flags) (s.on (bkpfsRename L old new flags s.disk).2)
  | link {s : Sys} (L : Lower) (old new : FileName) :
      DirStep s (.link L old new) (s.on (bkpfsLink L old new s.disk).2)
  | delete {s : Sys} {L : Lower} (J : Junk) {f : File} {q : Request} (hL : L.Grants)
      (hf : f.In s.disk) (hq : q.file = f.name) :
      DirStep s (.delete L J f q) (bkpfsUnlockedIoctl L J f 1000 q s).2.1

structure Unclaimed (d : Disk) (x : Name) : Prop where
  backups : ∀ v, d.dir (backupName v x) = none
  backup : ∀ m v, d.dir m ≠ none → x ≠ backupName v m

def DirCall.Keeps : DirCall → Disk → Prop
  | .create _ x, d => d.dir x = none → Unclaimed d x
  | .write L J f _ _, d => counter L J f d < INT_MAX ∧
    ∀ v, d.dir (backupName v (newName L J f d)) = none
  | .unlink _ _, _ => True
  | .rename _ old new _, d => d.dir old ≠ none → d.dir old ≠ d.dir new →
    Unclaimed (d.link old none false) new
  | .link _ old new, d => d.dir old ≠ none → d.dir new = none → Unclaimed d new
  | .delete _ _ f q, d => q.version = 0 → ∀ g : File, g.In d → g.ino = f.ino → g.name ≠ f.name →
    ∀ v, d.dir (backupName v g.name) = none

structure Numbers (n : Inode) (v : Int) : Prop where
  pos : 1 ≤ v
  last : ∃ r, n.revision = some r ∧ n.youngest = some r ∧ v ≤ r ∧ r ≤ INT_MAX

structure Tidy (d : Disk) : Prop where
  exact : d.Exact
  allocated : d.Allocated
  numbered : ∀ f : File, f.In d → ∀ v, d.dir (backupName v f.name) ≠ none →
    Numbers (d.inodes f.ino) v
  apart : ∀ f g : File, f.In d → g.In d → f.ino = g.ino → f.name ≠ g.name →
    ∀ v, d.dir (backupName v f.name) ≠ none → d.dir (backupName v g.name) = none

def NoBackups (d : Disk) : Prop := ∀ f : File, f.In d → ∀ v, d.dir (backupName v f.name) = none

section
variable {d d' : Disk} {L : Lower} {J : Junk} {f : File} {q : Request} {x : FileName}

theorem tidy_start (he : d.Exact) (ha : d.Allocated) (h : NoBackups d) : Tidy d where
  exact := he
  allocated := ha
  numbered _ hf v hv := absurd (h _ hf v) hv
  apart _ g _ hg _ _ v _ := h g hg v

theorem numbers_next (hL : L.Grants) {v : Int} (h : Numbers (d.inodes f.ino) v)
    (hc : counter L J f d < INT_MAX) : v < nextVersion (counter L J f d) := by
  obtain ⟨h1,r,hr,_,hv,_⟩ := h
  rw [counter_revision hL hr] at hc ⊢
  rw [nextVersion_eq hc,if_neg (by omega)]
  omega

theorem nextVersion_top : nextVersion INT_MAX < 1 := by decide

theorem tidy_free (hL : L.Grants) (h : Tidy d) (hf : f.In d) : d.dir (newName L J f d) = none := by
  by_contra hv
  have hn := h.numbered f hf _ hv
  rcases lt_or_ge (counter L J f d) INT_MAX with hc | hc
  · exact absurd (numbers_next hL hn hc) (lt_irrefl _)
  · obtain ⟨h1,r,hr,_,_,hm⟩ := hn
    have hcr : counter L J f d = INT_MAX := by
      rw [counter_revision hL hr] at hc ⊢
      omega
    rw [hcr] at h1
    exact absurd nextVersion_top (by omega)

theorem tidy_upper (h : Tidy d) (u : Name → Option Ino) : Tidy { d with upper := u } :=
  ⟨h.exact,h.allocated,h.numbered,h.apart⟩

theorem ne_none_of_le (hle : ∀ y i, d'.dir y = some i → d.dir y = some i) {y : Name}
    (hy : d'.dir y ≠ none) : d.dir y ≠ none := by
  obtain ⟨i,hi⟩ := Option.ne_none_iff_exists'.mp hy
  simp [hle y i hi]

theorem tidy_fewer (h : Tidy d) (hle : ∀ y i, d'.dir y = some i → d.dir y = some i)
    (he : d'.Exact) (hin : d'.inodes = d.inodes) (hnx : d'.nextIno = d.nextIno) : Tidy d' := by
  refine ⟨he,fun y i hy => ?_,?_,?_⟩
  · rw [hnx]
    exact h.allocated y i (hle y i hy)
  · intro f hf v hv
    rw [hin]
    exact h.numbered f (hle _ _ hf) v (ne_none_of_le hle hv)
  · intro f g hf hg hi hn v hv
    by_contra hgv
    exact ne_none_of_le hle hgv
      (h.apart f g (hle _ _ hf) (hle _ _ hg) hi hn v (ne_none_of_le hle hv))

theorem unlinked_le {x : Name} :
    ∀ y i, (d.link x none false).dir y = some i → d.dir y = some i := by
  intro y i hy
  rcases eq_or_ne y x with rfl | hne
  · simp at hy
  · rwa [Disk.link_dir,Function.update_of_ne hne] at hy

theorem tidy_unlinked (h : Tidy d) (x : Name) : Tidy (d.link x none false) :=
  tidy_fewer h unlinked_le (link_none_exact h.exact x) rfl rfl

theorem tidy_entered {i : Ino} (h : Tidy d) (hu : Unclaimed d x)
    (hdir : d'.dir = Function.update d.dir x.val (some i)) (he : d'.Exact) (ha : d'.Allocated)
    (hin : ∀ j < d.nextIno, d'.inodes j = d.inodes j) : Tidy d' := by
  have hback : ∀ f : File, f.In d' → ∀ v, d'.dir (backupName v f.name) ≠ none →
      f.In d ∧ d.dir (backupName v f.name) ≠ none := by
    intro f hf v hv
    unfold File.In at hf
    rw [hdir] at hf hv
    rcases eq_or_ne f.name.val x.val with hx | hx
    · rw [hx,Function.update_of_ne (backupName_ne_self v _)] at hv
      exact absurd (hu.backups v) hv
    · rw [Function.update_of_ne hx] at hf
      have hbx : backupName v f.name ≠ x := (hu.backup f.name v (by simp [hf])).symm
      rw [Function.update_of_ne hbx] at hv
      exact ⟨hf,hv⟩
  refine ⟨he,ha,?_,?_⟩
  · intro f hf v hv
    obtain ⟨hf',hv'⟩ := hback f hf v hv
    rw [hin f.ino (h.allocated _ _ hf')]
    exact h.numbered f hf' v hv'
  · intro f g hf hg hi hn v hv
    by_contra hgv
    obtain ⟨hf',hv'⟩ := hback f hf v hv
    obtain ⟨hg',hgv'⟩ := hback g hg v hgv
    exact hgv' (h.apart f g hf' hg' hi hn v hv')

theorem tidy_linked {i : Ino} (h : Tidy d) (hu : Unclaimed d x) (hi : i < d.nextIno) :
    Tidy (d.link x (some i) true) := by
  refine tidy_entered h hu rfl ?_ ?_ fun _ _ => rfl
  · intro y
    rw [Disk.link_cached,Disk.link_dir]
    rcases eq_or_ne y x with rfl | hne
    · simp
    · simp [hne,h.exact y]
  · intro y j hy
    rcases eq_or_ne y x with rfl | hne
    · rw [Disk.link_dir,Function.update_self] at hy
      cases hy
      exact hi
    · rw [Disk.link_dir,Function.update_of_ne hne] at hy
      exact h.allocated y j hy

theorem tidy_created (h : Tidy d) (hu : Unclaimed d x) : Tidy (d.created x) := by
  refine tidy_entered h hu rfl ?_ ?_ fun j hj => ?_
  · intro y
    rw [Disk.created_cached,Disk.created_dir]
    rcases eq_or_ne y x with rfl | hne
    · simp
    · simp [hne,h.exact y]
  · intro y j hy
    rw [Disk.created_nextIno]
    rcases eq_or_ne y x with rfl | hne
    · rw [Disk.created_dir,Function.update_self] at hy
      cases hy
      exact Nat.lt_succ_self _
    · rw [Disk.created_dir,Function.update_of_ne hne] at hy
      exact (h.allocated y j hy).trans (Nat.lt_succ_self _)
  · rw [Disk.created_inodes,Function.update_of_ne (Nat.ne_of_lt hj)]

theorem unclaimed_unlinked {y : Name} (hu : Unclaimed d x) :
    Unclaimed (d.link y none false) x := by
  refine ⟨fun v => ?_,fun m v hm => hu.backup m v (ne_none_of_le unlinked_le hm)⟩
  by_contra hv
  exact ne_none_of_le unlinked_le hv (hu.backups v)

theorem tidy_interpose (h : Tidy d) (y : Name) : Tidy (bkpfsInterpose L y d).2 := by
  obtain ⟨u,hu⟩ := bkpfsInterpose_tree (L := L) (d := d) y
  rw [hu]
  exact tidy_upper h u

theorem tidy_create (h : Tidy d) (hk : (DirCall.create L x).Keeps d) :
    Tidy (bkpfsCreate L x d).2 := by
  unfold bkpfsCreate vfsCreate
  rw [Disk.lowerIno_of_slash d x.property.2.1]
  split_ifs with hs
  · exact h
  · cases hc : L.create with
    | some e =>
      dsimp only
      rw [if_pos (errno_ne_zero e)]
      exact h
    | none => exact tidy_interpose (tidy_created h (hk (by simpa using hs))) x

theorem tidy_unlink (h : Tidy d) : Tidy (bkpfsUnlink L x d).2 := by
  have hu : Tidy (vfsUnlink L x d).2 := by
    unfold vfsUnlink
    cases d.dir x with
    | none => exact h
    | some i =>
      cases L.unlink x with
      | some e => exact h
      | none => exact tidy_unlinked h x
  unfold bkpfsUnlink
  generalize vfsUnlink L x d = out at hu
  obtain ⟨e,d'⟩ := out
  dsimp only at hu ⊢
  split_ifs
  · exact hu
  · exact tidy_upper hu _
  · exact hu
  · exact tidy_upper hu _

theorem link_idem {y : Name} {i j : Option Ino} {a b : Bool} :
    (d.link y i a).link y j b = d.link y j b := by simp [Disk.link]

section names
variable {old new : FileName}

theorem tidy_link (h : Tidy d) (hk : (DirCall.link L old new).Keeps d) :
    Tidy (bkpfsLink L old new d).2 := by
  have hl : Tidy (vfsLink L old new d).2 := by
    unfold vfsLink
    cases ho : d.dir old with
    | none => exact h
    | some i =>
      dsimp only
      split_ifs with hs
      · exact h
      · cases L.link with
        | some e => exact h
        | none =>
          exact tidy_linked h (hk (by simp [ho]) (by simpa using hs)) (h.allocated _ _ ho)
  unfold bkpfsLink
  generalize vfsLink L old new d = out at hl
  obtain ⟨e,d'⟩ := out
  dsimp only at hl ⊢
  split_ifs
  · exact hl
  · exact tidy_interpose hl new

theorem tidy_rename {flags : ℕ} (h : Tidy d) (hk : (DirCall.rename L old new flags).Keeps d) :
    Tidy (bkpfsRename L old new flags d).2 := by
  unfold bkpfsRename vfsRename
  split_ifs with hf hs
  · exact h
  · exact h
  · cases ho : d.dir old with
    | none => exact h
    | some i =>
      cases L.rename with
      | some e => exact h
      | none =>
        have hu := hk (by simp [ho]) hs
        have ht := tidy_linked (tidy_unlinked (tidy_unlinked h old) new) (unclaimed_unlinked hu)
          (h.allocated _ _ ho)
        rwa [link_idem] at ht

end names

section write
variable {val : Int} {pos : ℕ} {buf : Bytes}

theorem written_dir (hw : Written L f val pos buf d d') {y : Name} {i : Ino}
    (hy : d'.dir y = some i) :
    y = backupName val f.name ∧ i = d.nextIno ∨ y ≠ backupName val f.name ∧ d.dir y = some i := by
  rw [hw.dir] at hy
  rcases eq_or_ne y (backupName val f.name) with rfl | hne
  · rw [Function.update_self] at hy
    exact .inl ⟨rfl,(Option.some.inj hy).symm⟩
  · rw [Function.update_of_ne hne] at hy
    exact .inr ⟨hne,prunedDir_le hy⟩

theorem written_file (hw : Written L f val pos buf d d')
    (hk : ∀ v, d.dir (backupName v (backupName val f.name)) = none) {g : File} (hg : g.In d')
    {v : Int} (hv : d'.dir (backupName v g.name) ≠ none) :
    g.In d ∧ (g.name.val = f.name.val ∧ v = val ∨ d.dir (backupName v g.name) ≠ none) := by
  obtain ⟨i,hi⟩ := Option.ne_none_iff_exists'.mp hv
  rcases written_dir hw hg with ⟨hn,_⟩ | ⟨_,hgd⟩
  · rcases written_dir hw hi with ⟨hb,_⟩ | ⟨_,hd⟩
    · rw [hn] at hb
      exact absurd hb (backupName_ne_self v _)
    · rw [hn,hk] at hd
      cases hd
  · refine ⟨hgd,?_⟩
    rcases written_dir hw hi with ⟨hb,_⟩ | ⟨_,hd⟩
    · obtain ⟨hv,hn⟩ := backupName_inj.mp hb
      exact .inl ⟨hn,hv⟩
    · exact .inr (by simp [hd])

theorem in_unique {a b : File} (ha : a.In d) (hb : b.In d) (hn : a.name.val = b.name.val) :
    a.ino = b.ino := by
  unfold File.In at ha hb
  rw [hn,hb] at ha
  exact (Option.some.inj ha).symm

theorem fresh_elsewhere (h : Tidy d) (hf : f.In d)
    (hlt : ∀ v, Numbers (d.inodes f.ino) v → v < val) {a b : File} (ha : a.In d) (hb : b.In d)
    (hab : a.ino = b.ino) (hn : a.name.val = f.name.val) :
    d.dir (backupName val b.name) = none := by
  by_contra hbv
  have hnum := h.numbered b hb val hbv
  rw [← hab,in_unique ha hf hn] at hnum
  exact absurd (hlt val hnum) (lt_irrefl val)

theorem tidy_written (h : Tidy d) (hf : f.In d) (hw : Written L f val pos buf d d')
    (hval : 1 ≤ val ∧ val ≤ INT_MAX)
    (hlt : ∀ v, Numbers (d.inodes f.ino) v → v < val)
    (hk : ∀ v, d.dir (backupName v (backupName val f.name)) = none) : Tidy d' := by
  refine ⟨hw.exact,?_,?_,?_⟩
  · intro y i hy
    rw [hw.nextIno]
    rcases written_dir hw hy with ⟨_,rfl⟩ | ⟨_,hd⟩
    · exact Nat.lt_succ_self _
    · exact (h.allocated y i hd).trans (Nat.lt_succ_self _)
  · intro g hg v hv
    obtain ⟨hgd,hor⟩ := written_file hw hk hg hv
    rcases eq_or_ne g.ino f.ino with hi | hi
    · rw [hi,hw.base]
      rcases hor with ⟨_,rfl⟩ | hd
      · exact ⟨hval.1,v,rfl,rfl,le_refl _,hval.2⟩
      · have hn := h.numbered g hgd v hd
        rw [hi] at hn
        exact ⟨hn.pos,val,rfl,rfl,(hlt v hn).le,hval.2⟩
    · rw [hw.other g.ino hi (Nat.ne_of_lt (h.allocated _ _ hgd))]
      exact h.numbered g hgd v (hor.resolve_left fun he => hi (in_unique hgd hf he.1))
  · intro g k hg hk' hi hn v hv
    by_contra hkv
    obtain ⟨hgd,hgo⟩ := written_file hw hk hg hv
    obtain ⟨hkd,hko⟩ := written_file hw hk hk' hkv
    rcases hgo with ⟨hgn,rfl⟩ | hgo
    · rcases hko with ⟨hkn,_⟩ | hko
      · exact hn (Subtype.ext (hgn.trans hkn.symm))
      · exact hko (fresh_elsewhere h hf hlt hgd hkd hi hgn)
    · rcases hko with ⟨hkn,rfl⟩ | hko
      · exact hgo (fresh_elsewhere h hf hlt hkd hgd hi.symm hkn)
      · exact hko (h.apart g k hgd hkd hi hn v hgo)

theorem tidy_write {s : Sys} (hL : L.Grants) (h : Tidy s.disk) (hf : f.In s.disk)
    (hk : (DirCall.write L J f pos buf).Keeps s.disk) :
    Tidy (bkpfsWrite L J f pos buf s).2.disk := by
  have hw := (bkpfsWrite_granted hL h.exact (h.allocated _ _ hf)
    (tidy_free (J := J) hL h hf) pos buf).2
  exact tidy_written h hf hw (one_le_nextVersion hk.1) (fun v hv => numbers_next hL hv hk.1) hk.2

end write

section delete

theorem tidy_attrs {n : Inode} (h : Tidy d)
    (hn : ∀ g : File, g.In d → g.ino = f.ino → ∀ v, d.dir (backupName v g.name) ≠ none →
      Numbers n v) : Tidy (d.setInode f.ino n) := by
  refine ⟨setInode_exact h.exact f.ino n,h.allocated,?_,h.apart⟩
  intro g hg v hv
  rw [Disk.setInode_inodes]
  rcases eq_or_ne g.ino f.ino with hi | hi
  · rw [hi,Function.update_self]
    exact hn g hg hi v hv
  · rw [Function.update_of_ne hi]
    exact h.numbered g hg v hv

theorem tidy_deleteOne (hL : L.Grants) (h : Tidy d) (hf : f.In d) (hq : q.file = f.name) :
    Tidy (deletedOne L J f q d).2 := by
  cases hd : d.dir (backupName q.version q.file) with
  | none =>
    rw [deletedOne_absent h.exact hd]
    exact h
  | some i =>
    have hu := tidy_unlinked h (backupName q.version q.file)
    rw [deletedOne_present hL h.exact hd]
    dsimp only
    split_ifs with hv
    · rw [stamp_sets hL.setxattr]
      obtain ⟨h1,r,_,hy,hvr,hm⟩ := h.numbered f hf q.version (by rw [← hq]; simp [hd])
      rw [hy,Option.getD_some] at hv
      refine tidy_attrs hu fun g hg hi w hw => ?_
      have hgd : g.In d := unlinked_le _ _ hg
      have hwd := ne_none_of_le unlinked_le hw
      have hlow := h.numbered g hgd w hwd
      rw [hi] at hlow
      obtain ⟨hw1,r',_,hy',hwr,_⟩ := hlow
      rw [hy,Option.some.injEq] at hy'
      have hne : w ≠ q.version := by
        rintro rfl
        rcases eq_or_ne g.name f.name with hn | hn
        · rw [hn,← hq] at hw
          simp at hw
        · exact hwd (h.apart f g hf hgd hi.symm hn.symm _ (by rw [← hq]; simp [hd]))
      have hwrap : wrapInt (q.version - 1) = q.version - 1 := wrapInt_eq (by omega) (by omega)
      exact ⟨hw1,_,rfl,rfl,by omega,by omega⟩
    · exact hu

theorem tidy_deleteAll (hL : L.Grants) (h : Tidy d) (hq : q.file = f.name)
    (hk : ∀ g : File, g.In d → g.ino = f.ino → g.name ≠ f.name →
      ∀ v, d.dir (backupName v g.name) = none) : Tidy (deletedAll L J f q d).2 := by
  obtain ⟨d₁,hs,he⟩ := deletedAll_granted (J := J) (f := f) hL h.exact q
  have hle : ∀ y i, d₁.dir y = some i → d.dir y = some i := by
    intro y i hy
    by_cases hv : ∃ v : Int, 1 ≤ v ∧ v ≤ (counter L J f d).toNat ∧ y = backupName v q.file
    · obtain ⟨v,h1,h2,rfl⟩ := hv
      rw [hs.gone v h1 h2] at hy
      cases hy
    · rwa [hs.kept y fun v h1 h2 hyv => hv ⟨v,h1,h2,hyv⟩] at hy
  rw [he]
  refine tidy_attrs (tidy_fewer h hle hs.exact hs.inodes hs.nextIno) fun g hg hi v hv => ?_
  have hgd : g.In d := hle _ _ hg
  have hvd := ne_none_of_le hle hv
  rcases eq_or_ne g.name f.name with hn | hn
  · obtain ⟨h1,r,hr,_,hvr,_⟩ := h.numbered g hgd v hvd
    rw [hi] at hr
    rw [hn,← hq,hs.gone v h1] at hv
    · exact absurd rfl hv
    · rw [counter_revision hL hr]
      omega
  · exact absurd (hk g hgd hi hn v) hvd

end delete

end

theorem tidy_step {s s' : Sys} {c : DirCall} (h : Tidy s.disk) (hs : DirStep s c s')
    (hk : c.Keeps s.disk) : Tidy s'.disk := by
  cases hs with
  | create L x => exact tidy_create h hk
  | write J pos buf hL hf => exact tidy_write hL h hf hk
  | unlink L x => exact tidy_unlink h
  | rename L old new flags => exact tidy_rename h hk
  | link L old new => exact tidy_link h hk
  | @delete L J f q hL hf hq =>
    rcases eq_or_ne q.version 0 with hv | hv
    · rw [ioctl_deletedAll hL hv]
      exact tidy_deleteAll hL h hq (hk hv)
    · rw [ioctl_deletedOne hL hv]
      exact tidy_deleteOne hL h hf hq

def KeepingStep (s : Sys) (c : DirCall) (s' : Sys) : Prop := DirStep s c s' ∧ c.Keeps s.disk

theorem fresh_numbers {s s' : Sys} {cs : List DirCall} (he : s.disk.Exact)
    (ha : s.disk.Allocated) (hn : NoBackups s.disk) (hr : Run KeepingStep s cs s') (L : Lower)
    (J : Junk) (f : File) (hL : L.Grants) (hf : f.In s'.disk) :
    s'.disk.dir (newName L J f s'.disk) = none ∧
      ∀ pos buf, ∃ k : ℕ, (bkpfsWrite L J f pos buf s').1 = .returned k := by
  have ht : Tidy s'.disk := Run.invariant (fun s => Tidy s.disk)
    (fun _ _ _ h hs => tidy_step h hs.1 hs.2) hr (tidy_start he ha hn)
  have hfree := tidy_free (J := J) hL ht hf
  exact ⟨hfree,fun pos buf =>
    (bkpfsWrite_granted hL ht.exact (ht.allocated _ _ hf) hfree pos buf).1⟩

theorem single_unclaimed (n : Inode) (v : Int) (m : Name) :
    (Disk.single aTxt n).dir (backupName v m) = none := by
  have ha : aTxt.name.val = 97 :: bytesOf ".txt" := by decide
  have hne : backupName v m ≠ aTxt.name.val :=
    ha ▸ Decimal.labelled_ne_of_head (by decide) (by simp [Decimal.isDigit])
  rw [Disk.single_dir,Function.update_of_ne hne]

theorem single_allocated (f : File) (n : Inode) : (Disk.single f n).Allocated :=
  (sound_single f n).allocated

theorem fresh_numbers_written :
    (bkpfsWrite {} {} aTxt 0 [1] ⟨Disk.single aTxt {},[]⟩).2.disk.dir
        (newName {} {} aTxt (bkpfsWrite {} {} aTxt 0 [1] ⟨Disk.single aTxt {},[]⟩).2.disk) = none ∧
      ∀ pos buf, ∃ k : ℕ, (bkpfsWrite {} {} aTxt pos buf
        (bkpfsWrite {} {} aTxt 0 [1] ⟨Disk.single aTxt {},[]⟩).2).1 = .returned k := by
  have hin : aTxt.In (Disk.single aTxt {}) := rfl
  have hstep : KeepingStep ⟨Disk.single aTxt {},[]⟩ (.write {} {} aTxt 0 [1])
      (bkpfsWrite {} {} aTxt 0 [1] ⟨Disk.single aTxt {},[]⟩).2 :=
    ⟨.write {} 0 [1] grants_default hin,by decide,fun v => single_unclaimed _ v _⟩
  exact fresh_numbers (Disk.single_exact aTxt {}) (single_allocated aTxt {})
    (fun f _ v => single_unclaimed _ v _) (Run.single hstep) {} {} aTxt grants_default
    (by change _ = _; decide +kernel)

theorem recreated_file_collides : ¬ ∀ (s s' : Sys) (cs : List DirCall), s.disk.Exact →
    s.disk.Allocated → NoBackups s.disk → Run DirStep s cs s' →
      ∀ (L : Lower) (J : Junk) (f : File), L.Grants → f.In s'.disk →
        s'.disk.dir (newName L J f s'.disk) = none ∧
          ∀ pos buf, ∃ k : ℕ, (bkpfsWrite L J f pos buf s').1 = .returned k := by
  intro h
  have hin : aTxt.In (Disk.single aTxt {}) := rfl
  have h1 : Run DirStep ⟨Disk.single aTxt {},[]⟩ _ _ :=
    Run.single (@DirStep.write ⟨Disk.single aTxt {},[]⟩ {} {} aTxt 0 [1] grants_default hin)
  have h2 := h1.snoc (.unlink {} aTxt.name)
  have h3 := h2.snoc (.create {} aTxt.name)
  have hfree := (h _ _ _ (Disk.single_exact aTxt {}) (single_allocated aTxt {})
    (fun f _ v => single_unclaimed _ v _) h3 {} {} ⟨aTxt.name,2⟩ grants_default
    (by change _ = _; decide +kernel)).1
  revert hfree
  decide +kernel

end BackupFs
