import BackupFs.Failure.Write
import BackupFs.Chain.History
import BackupFs.Kernel.Namespace

namespace BackupFs

open Transition

inductive Manage where
  | create (L : Lower) (x : FileName)
  | write (f : File) (w : WriteCall)
  | delete (L : Lower) (J : Junk) (f : File) (q : Request)

structure Owned where
  sys : Sys
  made : Set Name

namespace Owned

def Foreign (s : Owned) (x : Name) : Prop := s.sys.disk.dir x ≠ none ∧ x ∉ s.made

def after (s : Owned) (backup : Prop) (t : Sys) : Owned where
  sys := t
  made := {x | x ∈ s.made ∧ s.sys.disk.dir x ≠ none ∨
    backup ∧ s.sys.disk.dir x = none ∧ t.disk.dir x ≠ none}

def Spares (s t : Owned) : Prop := ∀ x, s.Foreign x → t.sys.disk.dir x = s.sys.disk.dir x

end Owned

inductive ManageStep : Owned → Manage → Owned → Prop
  | create {s : Owned} (L : Lower) (x : FileName) :
      ManageStep s (.create L x) (s.after False (s.sys.on (bkpfsCreate L x s.sys.disk).2))
  | write {s : Owned} {w : WriteCall} (f : File) (hL : w.lower.Grants) :
      ManageStep s (.write f w)
        (s.after True (bkpfsWrite w.lower w.junk f w.pos w.buf s.sys).2)
  | delete {s : Owned} {L : Lower} (J : Junk) (f : File) (q : Request) (hL : L.Grants) :
      ManageStep s (.delete L J f q)
        (s.after False (bkpfsUnlockedIoctl L J f 1000 q s.sys).2.1)

def Manage.targets (d : Disk) : Manage → Set Name
  | .create _ _ => ∅
  | .write f w => {x | nextVersion (counter w.lower w.junk f d) > N ∧
      x = oldName w.lower w.junk f d}
  | .delete L J f q => {x | if q.version = 0 then
      ∃ v : Int, 1 ≤ v ∧ v ≤ counter L J f d ∧ x = backupName v q.file
    else x = backupName q.version q.file}

def Manage.enters (d : Disk) : Manage → Set Name
  | .create _ x => {x.val}
  | .write f w => {newName w.lower w.junk f d}
  | .delete _ _ _ _ => ∅

def Manage.creates : Manage → Set Name
  | .create _ x => {x.val}
  | _ => ∅

def Manage.operates : Manage → Set Name
  | .create _ _ => ∅
  | .write f _ => {f.name.val}
  | .delete _ _ _ q => {q.file}

structure Manages (T E : Set Name) (d d' : Disk) : Prop where
  exact : d'.Exact
  gone : ∀ x ∈ T, d.dir x ≠ none → d'.dir x = none
  kept : ∀ x ∉ T, d.dir x ≠ none → d'.dir x = d.dir x
  missing : ∀ x ∉ E, d.dir x = none → d'.dir x = none

section
variable {L : Lower} {J : Junk} {f : File} {q : Request} {d d' : Disk} {x : Name}

theorem interpose_exact (hd : d.Exact) (x : Name) : (bkpfsInterpose L x d).2.Exact ∧
    (bkpfsInterpose L x d).2.dir = d.dir := by
  obtain ⟨u,hu⟩ := bkpfsInterpose_tree (L := L) (d := d) x
  rw [hu]
  exact ⟨hd,rfl⟩

theorem disk_created_exact (hd : d.Exact) (x : Name) : (d.created x).Exact := by
  intro y
  rw [Disk.created_cached,Disk.created_dir]
  rcases eq_or_ne y x with rfl | hy
  · simp
  · simp [hy,hd y]

theorem create_manages (hd : d.Exact) (x : FileName) :
    Manages ∅ {x.val} d (bkpfsCreate L x d).2 := by
  unfold bkpfsCreate vfsCreate
  rw [Disk.lowerIno_of_slash d x.property.2.1]
  split_ifs with hs
  · exact ⟨hd,fun _ hy => hy.elim,fun _ _ _ => rfl,fun _ _ hy => hy⟩
  · cases L.create with
    | some e =>
      dsimp only
      rw [if_pos (errno_ne_zero e)]
      exact ⟨hd,fun _ hy => hy.elim,fun _ _ _ => rfl,fun _ _ hy => hy⟩
    | none =>
      dsimp only
      rw [if_neg (by simp)]
      obtain ⟨he,hdir⟩ := interpose_exact (L := L) (disk_created_exact hd x.val) x.val
      refine ⟨he,fun _ hy => hy.elim,fun y _ hy => ?_,fun y hy hd => ?_⟩
      · rw [hdir,Disk.created_dir,Function.update_of_ne]
        rintro rfl
        rw [Option.not_isSome_iff_eq_none] at hs
        exact hy hs
      · rwa [hdir,Disk.created_dir,Function.update_of_ne hy]

theorem lookedUp_exact (hd : d.Exact) (hs : slash ∉ x) (hx : d.dir x ≠ none) :
    (lookedUp x d).Exact := by
  intro y
  obtain ⟨i,hi⟩ := Option.ne_none_iff_exists'.mp hx
  rw [lookedUp_dir,lookedUp,Disk.pathIno_of_slash d hs,hi]
  dsimp only
  rw [if_neg hs,Disk.interpose_cached,Disk.hash_cached]
  rcases eq_or_ne y x with rfl | hy
  · simp [hi]
  · simp [hy,hd y]

theorem backupRun_keeps (hL : L.Grants) (hd : d.Exact) (hs : slash ∉ x) {i : Ino}
    {o : Option Outcome} (h : BackupRun L i x d o d') :
    d'.Exact ∧ ∀ y, d.dir y ≠ none ∨ y ≠ x → d'.dir y = d.dir y := by
  cases hx : d.dir x with
  | none =>
    obtain ⟨_,rfl⟩ := backupRun_granted hL hs hx h
    refine ⟨setInode_exact (created_exact hd x) _ _,fun y hy => ?_⟩
    rw [snapshot,copyFile,Disk.setInode_dir,begun,Disk.created_dir,lookedUp_dir,
      Function.update_of_ne]
    rintro rfl
    exact hy.elim (fun hy => hy hx) fun hy => hy rfl
  | some j =>
    have hlow : d.lowerIno x = some j := (Disk.lowerIno_of_slash d hs).trans hx
    have hbusy (hb : Begins L x d) : False := by
      have hf := hb.free
      rw [hlow] at hf
      cases hf
    cases h with
    | noDentry | noLookup => exact ⟨hd,fun _ _ => rfl⟩
    | collision =>
      refine ⟨lookedUp_exact hd hs (by simp [hx]),fun y _ => ?_⟩
      rw [lookedUp_dir]
    | noCreate _ _ hf =>
      rw [hlow] at hf
      cases hf
    | noSource hb | noDest hb | unbacked hb | backed hb => exact (hbusy hb).elim

theorem retained_manages (hL : L.Grants) (hd : d.Exact) {pos : ℕ} {buf : Bytes} :
    Manages ((Manage.write f ⟨L,J,pos,buf⟩).targets d) ∅ d (retained L J f d).2 := by
  obtain ⟨_,hdir,hex,_⟩ := retained_granted (J := J) (f := f) hL hd
  refine ⟨hex,?_,?_,fun x _ hx => ?_⟩
  · rintro x ⟨hv,rfl⟩ _
    rw [hdir,prunedDir,if_pos hv]
    exact Function.update_self ..
  · intro x hx _
    rw [hdir,prunedDir]
    split_ifs with hv
    · exact Function.update_of_ne (fun he => hx ⟨hv,he⟩) _ _
    · rfl
  · rw [hdir]
    by_contra hp
    obtain ⟨i,hi⟩ := Option.ne_none_iff_exists'.mp hp
    rw [prunedDir_le hi] at hx
    cases hx

theorem write_manages {s : Sys} (hL : L.Grants) (hd : s.disk.Exact) (pos : ℕ) (buf : Bytes) :
    Manages ((Manage.write f ⟨L,J,pos,buf⟩).targets s.disk) {newName L J f s.disk} s.disk
      (bkpfsWrite L J f pos buf s).2.disk := by
  have hm : Manages ((Manage.write f ⟨L,J,pos,buf⟩).targets s.disk) ∅ s.disk _ :=
    retained_manages hL hd
  have hr := bkpfsWrite_run L J f pos buf s
  have hback {o : Option Outcome} {d' : Disk}
      (h : BackupRun L f.ino (newName L J f s.disk) (retained L J f s.disk).2 o d') :
      Manages ((Manage.write f ⟨L,J,pos,buf⟩).targets s.disk) {newName L J f s.disk}
        s.disk d' := by
    obtain ⟨hex,hkeep⟩ := backupRun_keeps hL hm.exact slash_not_mem_newName h
    refine ⟨hex,fun x hx hne => ?_,fun x hx hne => ?_,fun x hx hnone => ?_⟩
    · rw [hkeep x (.inr fun he => newName_ne_oldName (he ▸ hx.2))]
      exact hm.gone x hx hne
    · have hk := hm.kept x hx hne
      rw [hkeep x (.inl (by rwa [hk]))]
      exact hk
    · rw [hkeep x (.inr hx)]
      exact hm.missing x id hnone
  generalize (bkpfsWrite L J f pos buf s).1 = o at hr
  generalize (bkpfsWrite L J f pos buf s).2.disk = d' at hr ⊢
  cases hr with
  | retention => exact ⟨hm.exact,hm.gone,hm.kept,fun x _ => hm.missing x id⟩
  | stopped _ h => exact hback h
  | wrote _ h =>
    obtain ⟨k,hk⟩ := vfsWrite_granted hL f.ino pos buf
    rw [hk]
    exact ⟨(hback h).exact,(hback h).gone,(hback h).kept,(hback h).missing⟩

theorem deletedOne_manages (hL : L.Grants) (hd : d.Exact) (hv : q.version ≠ 0) :
    Manages ((Manage.delete L J f q).targets d) ∅ d (deletedOne L J f q d).2 := by
  have hT : (Manage.delete L J f q).targets d = {backupName q.version q.file} := by
    ext x
    change (if q.version = 0 then _ else _) ↔ _
    rw [if_neg hv]
    rfl
  rw [hT]
  cases hx : d.dir (backupName q.version q.file) with
  | none =>
    rw [deletedOne_absent hd hx]
    refine ⟨hd,?_,fun _ _ _ => rfl,fun _ _ hy => hy⟩
    rintro x rfl hne
    exact absurd hx hne
  | some i =>
    have hlink : Manages {backupName q.version q.file} ∅ d
        (d.link (backupName q.version q.file) none false) := by
      refine ⟨link_none_exact hd _,?_,?_,fun y _ hy => ?_⟩
      · rintro x rfl _
        exact Function.update_self ..
      · exact fun y hy _ => Function.update_of_ne hy _ _
      · rw [Disk.link_dir,Function.update_apply,hy,ite_self]
    rw [deletedOne_present hL hd hx]
    dsimp only
    split_ifs
    · rw [stamp_sets hL.setxattr]
      exact ⟨hlink.exact,hlink.gone,hlink.kept,hlink.missing⟩
    · exact hlink

theorem deletedAll_manages (hL : L.Grants) (hd : d.Exact) (hv : q.version = 0) :
    Manages ((Manage.delete L J f q).targets d) ∅ d (deletedAll L J f q d).2 := by
  have hT (x : Name) : x ∈ (Manage.delete L J f q).targets d ↔
      ∃ v : Int, 1 ≤ v ∧ v ≤ counter L J f d ∧ x = backupName v q.file := by
    change (if q.version = 0 then _ else _) ↔ _
    rw [if_pos hv]
  obtain ⟨d₁,hsw,he⟩ := deletedAll_granted (J := J) (f := f) hL hd q
  rw [he]
  refine ⟨hsw.exact,fun x hx _ => ?_,fun x hx _ => ?_,fun x _ hx => ?_⟩
  · obtain ⟨v,h1,h2,rfl⟩ := (hT x).mp hx
    exact hsw.gone v h1 (by omega)
  · exact hsw.kept x fun v h1 h2 he => hx ((hT x).mpr ⟨v,h1,by omega,he⟩)
  · by_cases hv : ∃ v : Int, 1 ≤ v ∧ v ≤ (counter L J f d).toNat ∧ x = backupName v q.file
    · obtain ⟨v,h1,h2,rfl⟩ := hv
      exact hsw.gone v h1 h2
    · exact (hsw.kept x fun v h1 h2 he => hv ⟨v,h1,h2,he⟩).trans hx

end

theorem manageStep_manages {s t : Owned} {a : Manage} (hd : s.sys.disk.Exact)
    (h : ManageStep s a t) :
    Manages (a.targets s.sys.disk) (a.enters s.sys.disk) s.sys.disk t.sys.disk := by
  cases h with
  | create L x => exact create_manages hd x
  | write f hL => exact write_manages hL hd _ _
  | delete J f q hL =>
    change Manages _ _ _ (bkpfsUnlockedIoctl _ J f 1000 q s.sys).2.1.disk
    by_cases hv : q.version = 0
    · rw [ioctl_deletedAll hL hv s.sys]
      exact deletedAll_manages hL hd hv
    · rw [ioctl_deletedOne hL hv s.sys]
      exact deletedOne_manages hL hd hv

theorem spares_iff {s t : Owned} {a : Manage} (hd : s.sys.disk.Exact) (h : ManageStep s a t) :
    s.Spares t ↔ ∀ x ∈ a.targets s.sys.disk, ¬ s.Foreign x := by
  have hm := manageStep_manages hd h
  constructor
  · intro hs x hx hf
    have hkept := hs x hf
    rw [hm.gone x hx hf.1] at hkept
    exact hf.1 hkept.symm
  · intro hT x hf
    exact hm.kept x (fun hx => hT x hx hf) hf.1

def SparingStep (s : Owned) (a : Manage) (t : Owned) : Prop := ManageStep s a t ∧ s.Spares t

def CarefulStep (s : Owned) (a : Manage) (t : Owned) : Prop :=
  ManageStep s a t ∧ ∀ x ∈ a.targets s.sys.disk, ¬ s.Foreign x

def Unmistaken (s : Owned) (as : List Manage) : Prop :=
  ∀ x, (s.Foreign x ∨ ∃ a ∈ as, x ∈ a.creates) →
    ∀ a ∈ as, ∀ n ∈ a.operates, ∀ v, x ≠ backupName v n

theorem targets_backup {d : Disk} {a : Manage} {x : Name} (h : x ∈ a.targets d) :
    ∃ n ∈ a.operates, ∃ v, x = backupName v n := by
  cases a with
  | create L y => exact h.elim
  | write f w => exact ⟨_,rfl,_,h.2⟩
  | delete L J f q =>
    change (if q.version = 0 then _ else _) at h
    split_ifs at h with hv
    · obtain ⟨v,_,_,rfl⟩ := h
      exact ⟨_,rfl,v,rfl⟩
    · exact ⟨_,rfl,_,h⟩

theorem foreign_after {s t : Owned} {a : Manage} {x : Name} (hd : s.sys.disk.Exact)
    (h : ManageStep s a t) (hf : t.Foreign x) : s.Foreign x ∨ x ∈ a.creates := by
  have hm := manageStep_manages hd h
  by_cases hx : s.sys.disk.dir x = none
  · have henters : x ∈ a.enters s.sys.disk := by
      by_contra hne
      exact hf.1 (hm.missing x hne hx)
    cases h with
    | create L y => exact .inr henters
    | write f hL => exact absurd (.inr ⟨trivial,hx,hf.1⟩) hf.2
    | delete J f q hL => exact henters.elim
  · refine .inl ⟨hx,fun hmade => hf.2 ?_⟩
    cases h with
    | create | write | delete => exact .inl ⟨hmade,hx⟩

theorem foreign_run {s t : Owned} {as : List Manage} {x : Name} (hd : s.sys.disk.Exact)
    (h : Run ManageStep s as t) (hf : t.Foreign x) :
    s.Foreign x ∨ ∃ a ∈ as, x ∈ a.creates := by
  induction h with
  | nil => exact .inl hf
  | snoc h ha ih =>
    have he := h.invariant (fun s => s.sys.disk.Exact)
      (fun _ _ _ hd h => (manageStep_manages hd h).exact) hd
    rcases foreign_after he ha hf with hf | hx
    · rcases ih hf with hf | ⟨a,hmem,hx⟩
      · exact .inl hf
      · exact .inr ⟨a,List.mem_append_left _ hmem,hx⟩
    · exact .inr ⟨_,List.mem_append_right _ (List.mem_singleton_self _),hx⟩

theorem unmistaken_careful {s t : Owned} {as : List Manage} (hd : s.sys.disk.Exact)
    (hu : Unmistaken s as) (h : Run ManageStep s as t) : Run CarefulStep s as t := by
  induction h with
  | nil => exact .nil
  | snoc h ha ih =>
    have hleft : Unmistaken s _ := fun x hx a hmem => by
      refine hu x (hx.imp_right ?_) a (List.mem_append_left _ hmem)
      rintro ⟨b,hb,hbx⟩
      exact ⟨b,List.mem_append_left _ hb,hbx⟩
    refine (ih hleft).snoc ⟨ha,fun x hx hf => ?_⟩
    obtain ⟨n,hn,v,he⟩ := targets_backup hx
    refine hu x ((foreign_run hd h hf).imp_right ?_) _
      (List.mem_append_right _ (List.mem_singleton_self _)) n hn v he
    rintro ⟨b,hb,hbx⟩
    exact ⟨b,List.mem_append_left _ hb,hbx⟩

theorem management_spares_iff {s t : Owned} {as : List Manage} (hd : s.sys.disk.Exact) :
    (Run SparingStep s as t ↔ Run CarefulStep s as t) ∧
      (Unmistaken s as → Run ManageStep s as t → Run SparingStep s as t) := by
  have hiff : Run SparingStep s as t ↔ Run CarefulStep s as t :=
    Run.congr (fun s => s.sys.disk.Exact) (fun _ _ _ hd h => (manageStep_manages hd h.1).exact)
      (fun _ _ _ hd => and_congr_right fun h => spares_iff hd h) hd
  exact ⟨hiff,fun hu h => hiff.mpr (unmistaken_careful hd hu h)⟩

def oneATxt : FileName := ⟨bytesOf "1 a.txt",by decide⟩

def fresh : Owned := ⟨⟨Disk.single aTxt {},[]⟩,∅⟩

theorem management_spares_iff_deleted : ∃ as t, as.length = 3 ∧
    t.sys.disk.dir bTxt.val = some 1 ∧ Run SparingStep fresh as t := by
  have h1 : Run CarefulStep fresh _ _ := Run.nil.snoc ⟨.create {} bTxt,fun _ hx => hx.elim⟩
  have h2 := h1.snoc ⟨@ManageStep.write _ ⟨{},{},0,[1]⟩ aTxt grants_default,fun x hx =>
    absurd hx.1 (by decide +kernel)⟩
  have h3 := h2.snoc ⟨@ManageStep.delete _ {} {} aTxt (clientRequest aTxt.name 1) grants_default,
    fun x hx hf => by
      obtain rfl : x = backupName 1 (bytesOf "a.txt") := hx
      exact hf.2 (.inr ⟨trivial,by decide +kernel,by decide +kernel⟩)⟩
  exact ⟨_,_,rfl,by decide +kernel,
    (management_spares_iff (Disk.single_exact aTxt {})).1.mpr h3⟩

theorem delete_takes_users_file : ¬ ∀ (s t u : Owned) (as : List Manage) (a : Manage),
    s.sys.disk.Exact → Run ManageStep s as t → ManageStep t a u → t.Spares u := by
  intro h
  have h1 : Run ManageStep fresh _ _ := Run.nil.snoc (.create {} oneATxt)
  have hspares := h _ _ _ _ _ (Disk.single_exact aTxt {}) h1
    (@ManageStep.delete _ {} {} aTxt (clientRequest aTxt.name 1) grants_default)
  have hkept := hspares oneATxt.val ⟨by decide +kernel,by
    rintro (⟨hm,_⟩ | ⟨hm,_⟩)
    · exact hm
    · exact hm⟩
  revert hkept
  decide +kernel

end BackupFs
