import BackupFs.Kernel.Trace
import BackupFs.Locals.Requests

namespace BackupFs

open Transition

def KernelCall.Versions : KernelCall → Prop
  | .write _ _ => True
  | .ioctl cmd q => cmd = 1000 ∧ IsInt q.version

def KernelCall.computes (L : Lower) (J : Junk) (f : File) (d : Disk) : KernelCall → List Int
  | .write _ _ =>
    let val := counter L J f d
    (if val < 0 then [] else [val + 1]) ++
      if nextVersion val > N then [nextVersion val - N] else []
  | .ioctl cmd q =>
    let val := vfsGetxattr L f.ino .youngest J.val d
    if L.lowerFile = true ∧ cmd = 1000 ∧ q.version ≠ 0 ∧
        (discard L (backupName q.version q.file) d).1 = some 0 ∧ q.version = val then [val - 1]
    else []

def AsksUpTo (hi : Int) (s s' : Sys) : Prop :=
  ∃ es, s'.trace = s.trace ++ es ∧
    ∀ e ∈ es, ∀ v x, e.asks = some (.backup v,x) → 1 ≤ v ∧ v ≤ hi

def Role.UpTo (hi : Int) (r : Role) : Prop := ∀ v, r = .backup v → 1 ≤ v ∧ v ≤ hi

structure Assigns (f : File) (val : Int) (d : Disk) : Prop where
  positive : 1 ≤ val
  greater : ∀ r ≥ 0, (d.inodes f.ino).revision = some r → r < val

def KernelCall.InRange (L : Lower) (J : Junk) (f : File) (s : Sys) (c : KernelCall) : Prop :=
  (∀ x ∈ c.computes L J f s.disk, IsInt x) ∧ match c with
    | .write pos buf => Assigns f (nextVersion (counter L J f s.disk)) s.disk ∧
        AsksUpTo (nextVersion (counter L J f s.disk)) s (bkpfsWrite L J f pos buf s).2
    | .ioctl cmd q => q.version = 0 →
        AsksUpTo (counter L J f s.disk) s (bkpfsUnlockedIoctl L J f cmd q s).2.1

def KernelCall.Below (L : Lower) (J : Junk) (f : File) (d : Disk) : KernelCall → Prop
  | .write _ _ => counter L J f d < INT_MAX ∧ (L.getxattr .revision ≠ none →
      ∀ r, (d.inodes f.ino).revision = some r → r ≤ 0 ∨ r ≤ J.val)
  | .ioctl _ q => L.lowerFile = true → q.version = -INT_MAX - 1 →
      d.cached (backupName q.version q.file) = true →
        ¬ Blocked L (backupName q.version q.file) d →
          q.version ≠ vfsGetxattr L f.ino .youngest J.val d

def VersionsStep (f : File) (s : Sys) (a : Issued) (t : Sys) : Prop :=
  KernelStep f s a t ∧ a.call.Versions

def RangeStep (f : File) (s : Sys) (a : Issued) (t : Sys) : Prop :=
  VersionsStep f s a t ∧ a.call.InRange a.lower a.junk f s

def BelowStep (f : File) (s : Sys) (a : Issued) (t : Sys) : Prop :=
  VersionsStep f s a t ∧ a.call.Below a.lower a.junk f s.disk

section
variable {L : Lower} {J : Junk} {f : File} {q : Request} {s t : Sys} {d : Disk} {val hi : Int}

theorem traced_asksUpTo (h : Traced (fun r _ => r.UpTo hi) s t) : AsksUpTo hi s t := by
  obtain ⟨es,ht,he⟩ := h.asks
  exact ⟨es,ht,fun e hm v x hx => he e hm _ x hx v rfl⟩

theorem nextVersion_of_lt (h : val < INT_MAX) :
    nextVersion val = if val < 0 then 1 else val + 1 := by
  unfold nextVersion
  split_ifs with hn
  · rfl
  · exact wrapInt_eq (by omega) (by omega)

theorem write_computes (pos : ℕ) (buf : Bytes) :
    (∀ x ∈ (KernelCall.write pos buf).computes L J f d, IsInt x) ↔
      counter L J f d < INT_MAX := by
  unfold KernelCall.computes
  generalize counter L J f d = val
  dsimp only
  have hN : N = 10 := rfl
  have hM : INT_MAX = 2147483647 := rfl
  constructor
  · intro h
    by_contra hge
    have hx := (h (val + 1) (by rw [if_neg (by omega)]; simp)).2
    omega
  · intro h x hx
    rw [nextVersion_of_lt h] at hx
    rcases List.mem_append.mp hx with hx | hx
    · split_ifs at hx with hn
      · cases hx
      · rw [List.mem_singleton.mp hx]
        exact ⟨by omega,by omega⟩
    · by_cases hn : val < 0
      · rw [if_pos hn,if_neg (by omega)] at hx
        cases hx
      · rw [if_neg hn] at hx
        split_ifs at hx with hv
        · rw [List.mem_singleton.mp hx]
          exact ⟨by omega,by omega⟩
        · cases hx

theorem write_asksUpTo (h : 1 ≤ nextVersion (counter L J f s.disk)) (pos : ℕ) (buf : Bytes) :
    AsksUpTo (nextVersion (counter L J f s.disk)) s (bkpfsWrite L J f pos buf s).2 := by
  refine traced_asksUpTo (traced_write (fun p hm v hp => ?_) pos buf).after_parent
  unfold writeNames at hm
  rcases List.mem_cons.mp hm with rfl | hm
  · cases hp
    exact ⟨h,le_rfl⟩
  · have hN : N = 10 := rfl
    split_ifs at hm with hv
    · rw [List.mem_singleton.mp hm] at hp
      cases hp
      omega
    · cases hm

theorem write_assigns (h : counter L J f d < INT_MAX) :
    Assigns f (nextVersion (counter L J f d)) d ↔ (L.getxattr .revision ≠ none →
      ∀ r, (d.inodes f.ino).revision = some r → r ≤ 0 ∨ r ≤ J.val) := by
  rw [nextVersion_of_lt h]
  unfold counter vfsGetxattr at h ⊢
  cases hg : L.getxattr .revision with
  | some e =>
    dsimp only
    rw [forall_prop_of_true (by simp)]
    constructor
    · intro ha r hr
      have hlt := ha.greater r
      by_contra hno
      have hr' := hlt (by omega) hr
      split_ifs at hr' <;> omega
    · intro hj
      refine ⟨by split_ifs <;> omega,fun r hr hrev => ?_⟩
      have hle := hj r hrev
      split_ifs <;> omega
  | none =>
    dsimp only
    refine iff_of_true ⟨by split_ifs <;> omega,fun r hr hrev => ?_⟩ fun h => absurd rfl h
    change r < if ((d.inodes f.ino).revision).getD J.val < 0 then 1
      else ((d.inodes f.ino).revision).getD J.val + 1
    rw [hrev,Option.getD_some,if_neg (by omega)]
    omega

theorem write_inRange (pos : ℕ) (buf : Bytes) :
    (KernelCall.write pos buf).InRange L J f s ↔
      (KernelCall.write pos buf).Below L J f s.disk := by
  unfold KernelCall.InRange KernelCall.Below
  rw [write_computes]
  refine and_congr_right fun h => ?_
  rw [← write_assigns h]
  exact ⟨fun ha => ha.1,fun ha => ⟨ha,write_asksUpTo ha.positive pos buf⟩⟩

theorem deleteAll_asksUpTo : AsksUpTo (counter L J f s.disk) s (deleteAll L J f q s).2 := by
  refine traced_asksUpTo (traced_deleteAll fun p hm v hp => ?_).of_loop
  obtain ⟨w,h1,h2,rfl⟩ := mem_loopNames hm
  cases hp
  omega

theorem delete_inRange (hi : IsInt q.version) :
    (KernelCall.ioctl 1000 q).InRange L J f s ↔
      (KernelCall.ioctl 1000 q).Below L J f s.disk := by
  have hasks : q.version = 0 →
      AsksUpTo (counter L J f s.disk) s (bkpfsUnlockedIoctl L J f 1000 q s).2.1 := by
    intro hv
    cases hl : L.lowerFile with
    | false =>
      rw [ioctl_noFile J f s hl]
      exact ⟨[],by simp,by simp⟩
    | true =>
      rw [ioctl_deleteAll J f s hl hv]
      exact deleteAll_asksUpTo
  unfold KernelCall.InRange KernelCall.Below KernelCall.computes
  dsimp only
  rw [and_iff_left hasks]
  have hM : INT_MAX = 2147483647 := rfl
  constructor
  · intro h hl hv hc hb hy
    have hx := h (vfsGetxattr L f.ino .youngest J.val s.disk - 1) (by
      rw [if_pos ⟨hl,rfl,by rw [hv]; decide,discard_succeeds.mpr ⟨hc,hb⟩,hy⟩]
      exact List.mem_cons_self)
    have hlow := hx.1
    omega
  · intro h x hx
    split_ifs at hx with hcond
    · obtain ⟨hl,_,_,hd,hy⟩ := hcond
      obtain ⟨hc,hb⟩ := discard_succeeds.mp hd
      have hne : q.version ≠ -INT_MAX - 1 := fun hv => h hl hv hc hb hy
      obtain ⟨h1,h2⟩ := hi
      rw [List.mem_singleton.mp hx,← hy]
      exact ⟨by omega,by omega⟩
    · cases hx

end

theorem counter_in_range_iff (f : File) (s t : Sys) (calls : List Issued) :
    Run (RangeStep f) s calls t ↔ Run (BelowStep f) s calls t := by
  refine Run.congr (fun _ => True) (fun _ _ _ _ _ => trivial) (fun u a w _ => ?_) trivial
  refine and_congr_right fun hstep => ?_
  obtain ⟨L,J,c⟩ := a
  have hv : c.Versions := hstep.2
  cases c with
  | write pos buf => exact write_inRange pos buf
  | ioctl cmd q =>
    obtain ⟨rfl,hq⟩ := hv
    exact delete_inRange hq

theorem stored_maximum_wraps : ¬ ∀ (f : File) (s t : Sys) (calls : List Issued) (L : Lower)
    (J : Junk) (c : KernelCall), (∀ a, ∃ v, IsInt v ∧ (s.disk.inodes f.ino).attr a = some v) →
      Run (VersionsStep f) s calls t → c.Versions → c.InRange L J f t := by
  intro h
  have hmax : IsInt INT_MAX := ⟨by decide,le_rfl⟩
  have hr := h aTxt ⟨Disk.single aTxt { revision := some INT_MAX, youngest := some INT_MAX },[]⟩ _ _
    {} {} (.write 0 [1]) (fun a => ⟨INT_MAX,hmax,by cases a <;> rfl⟩) .nil trivial
  have hpos := hr.2.1.positive
  revert hpos
  decide +kernel

end BackupFs
