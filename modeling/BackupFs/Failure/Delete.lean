import BackupFs.Locals.Requests

namespace BackupFs

open Transition

inductive Reading where
  | attribute
  | directory
  deriving DecidableEq, Repr

def Reading.Youngest (f : File) (v : Int) (d : Disk) : Reading → Prop
  | .attribute => (d.inodes f.ino).youngest = some v
  | .directory => IsGreatest (numbers f d) v

def Reading.Resets (a : Attr) : Reading → Prop
  | .attribute => a = .revision
  | .directory => True

structure Untouched (f : File) (d d' : Disk) : Prop where
  backups : numbers f d ⊆ numbers f d'
  attrs : ∀ a, (d'.inodes f.ino).attr a = (d.inodes f.ino).attr a

structure OneGone (r : Reading) (f : File) (v : Int) (d d' : Disk) : Prop where
  gone : v ∉ numbers f d'
  youngest : r.Youngest f v d → ∀ a, (d'.inodes f.ino).attr a = some (v - 1)
  other : ¬ r.Youngest f v d → ∀ a, (d'.inodes f.ino).attr a = (d.inodes f.ino).attr a

structure AllGone (r : Reading) (f : File) (d' : Disk) : Prop where
  gone : numbers f d' = ∅
  reset : ∀ a, r.Resets a → (d'.inodes f.ino).attr a = some (-1)

structure AllOrNothing (r : Reading) (f : File) (v : Int) (d : Disk) (out : Outcome × Disk) :
    Prop where
  failed : ∀ e ≠ 0, out.1 = .returned e → Untouched f d out.2
  done : out.1 = .returned 0 → if v ≠ 0 then OneGone r f v d out.2 else AllGone r f out.2

def Stamped (L : Lower) (f : File) (v : Int) (d : Disk) : Prop :=
  ∀ a, L.setxattr a = none → (d.inodes f.ino).attr a = some v

structure TakesOne (r : Reading) (L : Lower) (J : Junk) (f : File) (v : Int) (d : Disk) :
    Prop where
  unlink : L.unlink (backupName v f.name) = none
  decrements : v = vfsGetxattr L f.ino .youngest J.val d → r.Youngest f v d →
    ∀ a, if L.setxattr a = none then -INT_MAX ≤ v else (d.inodes f.ino).attr a = some (v - 1)
  misjudges : v = vfsGetxattr L f.ino .youngest J.val d → ¬ r.Youngest f v d →
    Stamped L f (wrapInt (v - 1)) d
  overlooks : v ≠ vfsGetxattr L f.ino .youngest J.val d → r.Youngest f v d →
    ∀ a, (d.inodes f.ino).attr a = some (v - 1)

structure TakesAll (r : Reading) (L : Lower) (f : File) (k : ℕ) (d : Disk) : Prop where
  fails : ∀ e, Fails L f.name k d e → ∀ v, ¬ Takes L f.name k d v
  finds : (∀ e, ¬ Fails L f.name k d e) → Finds f.name k d →
    (∀ v ∈ numbers f d, Takes L f.name k d v) ∧ ∀ a, r.Resets a →
      a = .revision ∧ L.setxattr a = none ∨ (d.inodes f.ino).attr a = some (-1)
  misses : ¬ Finds f.name k d → KeepsRevision L f d

def KernelCall.Honest (r : Reading) (L : Lower) (J : Junk) (f : File) (s : Sys) :
    KernelCall → Prop
  | .write _ _ => True
  | .ioctl cmd q => cmd = 1000 → q.file = f.name → IsInt q.version →
      AllOrNothing r f q.version s.disk
        ((bkpfsUnlockedIoctl L J f cmd q s).1,(bkpfsUnlockedIoctl L J f cmd q s).2.1.disk)

def KernelCall.TakesWhole (r : Reading) (L : Lower) (J : Junk) (f : File) (d : Disk) :
    KernelCall → Prop
  | .write _ _ => True
  | .ioctl cmd q => cmd = 1000 → q.file = f.name → IsInt q.version → L.lowerFile = true →
      if q.version ≠ 0 then
        d.cached (backupName q.version f.name) = true →
          ¬ Blocked L (backupName q.version f.name) d → TakesOne r L J f q.version d
      else TakesAll r L f (counter L J f d).toNat d

section
variable {r : Reading} {L : Lower} {J : Junk} {f : File} {q : Request} {s : Sys} {d d' : Disk}
  {v : Int} {k : ℕ}

theorem untouched_refl : Untouched f d d := ⟨fun _ => id,fun _ => rfl⟩

theorem allOrNothing_failed {e : Int} (he : e ≠ 0) :
    AllOrNothing r f v d (.returned e,d') ↔ Untouched f d d' := by
  refine ⟨fun h => h.failed e he rfl,fun h => ⟨fun _ _ _ => h,fun h0 => ?_⟩⟩
  exact absurd (Outcome.returned.inj h0) he

theorem allOrNothing_done : AllOrNothing r f v d (.returned 0,d') ↔
    if v ≠ 0 then OneGone r f v d d' else AllGone r f d' := by
  refine ⟨fun h => h.done rfl,fun h => ⟨fun e he h0 => ?_,fun _ => h⟩⟩
  exact absurd (Outcome.returned.inj h0).symm he

theorem not_mem_numbers : v ∉ numbers f d ↔ d.dir (backupName v f.name) = none := by
  change ¬ (d.dir (backupName v f.name)).isSome = true ↔ _
  rw [Option.not_isSome_iff_eq_none]

theorem deletedOne_refused (h : (discard L (backupName q.version q.file) d).1 ≠ some 0) :
    ∃ e ≠ 0, deletedOne L J f q d = (e,d) := by
  by_cases hc : d.cached (backupName q.version q.file) = true
  · have hb : Blocked L (backupName q.version q.file) d := by
      by_contra hb
      exact h (discard_succeeds.mpr ⟨hc,hb⟩)
    have he := unlinkError_ne_zero hb
    refine ⟨_,he,?_⟩
    rw [deletedOne,discard_cached hc,removed_fst,removed_kept hb.kept]
    exact if_pos he
  · refine ⟨-ENOTTY,by decide,?_⟩
    rw [deletedOne,discard_uncached hc]

theorem wrapInt_pred (hv : IsInt v) : wrapInt (v - 1) = v - 1 ↔ -INT_MAX ≤ v := by
  have hb := wrapInt_bounds (v - 1)
  have hi := hv
  rw [IsInt] at hi
  refine ⟨fun h => by omega,fun h => wrapInt_low (by omega) (by omega)⟩

theorem stamp_numbers (w : Int) : numbers f (stamp L f w d) = numbers f d := by
  unfold numbers
  rw [stamp_dir]

theorem numbers_discard (hc : d.cached (backupName v f.name) = true)
    (hb : ¬ Blocked L (backupName v f.name) d) :
    v ∉ numbers f (discard L (backupName v f.name) d).2 ↔
      L.unlink (backupName v f.name) = none := by
  rw [not_mem_numbers]
  refine ⟨fun h => ?_,discard_gone hc⟩
  by_contra hu
  rw [discard_stays fun h => hu h.2] at h
  exact hb ⟨hc,.inl h⟩

theorem stamp_decrements (hv : IsInt v) :
    (∀ a, ((stamp L f (wrapInt (v - 1)) d).inodes f.ino).attr a = some (v - 1)) ↔
      ∀ a, if L.setxattr a = none then -INT_MAX ≤ v
        else (d.inodes f.ino).attr a = some (v - 1) := by
  refine forall_congr' fun a => ?_
  rw [stamp_attr]
  split_ifs
  · exact Option.some_inj.trans (wrapInt_pred hv)
  · rfl

theorem stamp_keeps (w : Int) :
    (∀ a, ((stamp L f w d).inodes f.ino).attr a = (d.inodes f.ino).attr a) ↔
      Stamped L f w d := by
  refine forall_congr' fun a => ?_
  rw [stamp_attr]
  split_ifs with ha
  · exact ⟨fun h _ => h.symm,fun h => (h ha).symm⟩
  · exact iff_of_true rfl fun h => absurd h ha

theorem oneGone_iff (hv : IsInt v) (hc : d.cached (backupName v f.name) = true)
    (hb : ¬ Blocked L (backupName v f.name) d) :
    OneGone r f v d (if v = vfsGetxattr L f.ino .youngest J.val d then
      stamp L f (wrapInt (v - 1)) (discard L (backupName v f.name) d).2
    else (discard L (backupName v f.name) d).2) ↔ TakesOne r L J f v d := by
  have hin : (discard L (backupName v f.name) d).2.inodes = d.inodes := discard_inodes
  have hgone := numbers_discard hc hb
  generalize (discard L (backupName v f.name) d).2 = d₁ at hin hgone ⊢
  have hdec := @stamp_decrements L f d₁ v hv
  have hkeep := @stamp_keeps L f d₁ (wrapInt (v - 1))
  rw [Stamped,hin] at hkeep
  rw [hin] at hdec
  split_ifs with hy
  · constructor
    · intro h
      refine ⟨hgone.mp ?_,fun _ hr => hdec.mp (h.youngest hr),
        fun _ hr => hkeep.mp (h.other hr),fun hn => absurd hy hn⟩
      rw [← stamp_numbers]
      exact h.gone
    · intro h
      refine ⟨?_,fun hr => hdec.mpr (h.decrements hy hr),
        fun hr => hkeep.mpr (h.misjudges hy hr)⟩
      rw [stamp_numbers]
      exact hgone.mpr h.unlink
  · constructor
    · intro h
      have hyoung := h.youngest
      rw [hin] at hyoung
      exact ⟨hgone.mp h.gone,fun he => absurd he hy,fun he => absurd he hy,fun _ => hyoung⟩
    · intro h
      have hyoung := h.overlooks hy
      rw [← hin] at hyoung
      exact ⟨hgone.mpr h.unlink,hyoung,fun _ a => by rw [hin]⟩

theorem deletedOne_allOrNothing (hv : q.version ≠ 0) (hi : IsInt q.version)
    (hq : q.file = f.name) :
    AllOrNothing r f q.version d (answered (deletedOne L J f q d)) ↔
      (d.cached (backupName q.version f.name) = true →
        ¬ Blocked L (backupName q.version f.name) d → TakesOne r L J f q.version d) := by
  rw [← hq]
  by_cases h : (discard L (backupName q.version q.file) d).1 = some 0
  · obtain ⟨hc,hb⟩ := discard_succeeds.mp h
    rw [deletedOne_unlinked h,answered,allOrNothing_done,if_pos hv,forall_prop_of_true hc,
      forall_prop_of_true hb]
    rw [hq] at hc hb ⊢
    exact oneGone_iff hi hc hb
  · obtain ⟨e,he,hd⟩ := deletedOne_refused (J := J) (f := f) h
    rw [hd,answered,allOrNothing_failed he]
    exact iff_of_true untouched_refl fun hc hb => absurd (discard_succeeds.mpr ⟨hc,hb⟩) h

theorem sweeps_numbers {err : Int} {w : Except Int Int} (h : Sweeps L f.name k d err w d') :
    v ∈ numbers f d' ↔ v ∈ numbers f d ∧ ¬ Takes L f.name k d v := by
  by_cases ht : Takes L f.name k d v
  · exact iff_of_false (not_mem_numbers.mpr (h.gone v ht)) fun hn => hn.2 ht
  · have hkept : d'.dir (backupName v f.name) = d.dir (backupName v f.name) :=
      h.kept _ fun w hw hw' => ht ((backupName_inj.mp hw).1 ▸ hw')
    rw [and_iff_left ht]
    change (d'.dir _).isSome = true ↔ (d.dir _).isSome = true
    rw [hkept]

theorem takes_numbers (h : Takes L f.name k d v) : v ∈ numbers f d := by
  by_contra hn
  exact h.present (not_mem_numbers.mp hn)

theorem sweeps_untouched {err : Int} {w : Except Int Int} (h : Sweeps L f.name k d err w d') :
    Untouched f d d' ↔ ∀ v, ¬ Takes L f.name k d v := by
  constructor
  · intro hu v hv
    exact ((sweeps_numbers h).mp (hu.backups (takes_numbers hv))).2 hv
  · exact fun ht => ⟨fun v hv => (sweeps_numbers h).mpr ⟨hv,ht v⟩,fun a => by rw [h.inodes]⟩

theorem setxattr_numbers (a : Attr) (w : Int) :
    numbers f (vfsSetxattr L f.ino a w d) = numbers f d := by
  unfold numbers
  rw [vfsSetxattr_dir]

theorem reset_untouched {err : Int} {w : Except Int Int} (h : Sweeps L f.name k d err w d')
    (ht : ∀ v, ¬ Takes L f.name k d v) :
    Untouched f d (vfsSetxattr L f.ino .revision (-1) d') ↔ KeepsRevision L f d := by
  have hdir := (vfsSetxattr_dir (L := L) (i := f.ino) (a := .revision) (v := -1)).trans
    (sweeps_stay h ht)
  constructor
  · intro hu
    have ha := hu.attrs .revision
    rw [vfsSetxattr_attr,h.inodes] at ha
    by_cases hx : L.setxattr .revision = none
    · rw [if_pos ⟨rfl,hx⟩] at ha
      exact .inr ha.symm
    · exact .inl hx
  · intro hk
    refine ⟨fun v hv => ?_,fun a => ?_⟩
    · change (Disk.dir _ _).isSome = true
      rw [hdir]
      exact hv
    · rw [setxattr_congr h.inodes,setxattr_keeps.mpr hk]

theorem allGone_iff {err : Int} {w : Except Int Int} (h : Sweeps L f.name k d err w d') :
    AllGone r f (vfsSetxattr L f.ino .revision (-1) d') ↔
      (∀ v ∈ numbers f d, Takes L f.name k d v) ∧ ∀ a, r.Resets a →
        a = .revision ∧ L.setxattr a = none ∨ (d.inodes f.ino).attr a = some (-1) := by
  have hgone : numbers f d' = ∅ ↔ ∀ v ∈ numbers f d, Takes L f.name k d v := by
    rw [Set.eq_empty_iff_forall_notMem]
    refine forall_congr' fun v => ?_
    rw [sweeps_numbers h,not_and,not_not]
  have hreset : ∀ a, ((vfsSetxattr L f.ino .revision (-1) d').inodes f.ino).attr a = some (-1) ↔
      a = .revision ∧ L.setxattr a = none ∨ (d.inodes f.ino).attr a = some (-1) := by
    intro a
    rw [vfsSetxattr_attr,h.inodes]
    cases a with
    | revision => split_ifs with hx <;> simp_all
    | youngest => simp
  rw [← hgone]
  simp only [← hreset]
  rw [← setxattr_numbers (L := L) (f := f) .revision (-1) (d := d')]
  exact ⟨fun h => ⟨h.gone,h.reset⟩,fun h => ⟨h.1,h.2⟩⟩

theorem deletedAll_allOrNothing (hv : q.version = 0) (hq : q.file = f.name) :
    AllOrNothing r f q.version d (answered (deletedAll L J f q d)) ↔
      TakesAll r L f (counter L J f d).toNat d := by
  have hs := discardLoop_sweeps (L := L) (n := f.name) (counter L J f d).toNat (-ENOTTY) d
  unfold deletedAll
  rw [hq]
  generalize discardLoop L f.name _ _ d = out at hs ⊢
  obtain ⟨w,d'⟩ := out
  dsimp only at hs
  rcases hs.result with ⟨e,he,rfl⟩ | ⟨hno,⟨hf,rfl⟩ | ⟨hf,rfl⟩⟩
  · dsimp only
    rw [answered,allOrNothing_failed (fails_ne_zero he),sweeps_untouched hs]
    exact ⟨fun h => ⟨fun _ _ => h,fun hno => absurd he (hno e),
      fun hf => absurd (fails_finds he) hf⟩,fun h => h.fails e he⟩
  · dsimp only
    rw [answered,allOrNothing_done,if_neg (not_not.mpr hv),allGone_iff hs]
    exact ⟨fun h => ⟨fun e he => absurd he (hno e),fun _ _ => h,fun hn => absurd hf hn⟩,
      fun h => h.finds hno hf⟩
  · have ht : ∀ v, ¬ Takes L f.name (counter L J f d).toNat d v := fun v hv =>
      hf ⟨v,hv.reached.pos,hv.reached.le,hv.cached⟩
    dsimp only
    rw [answered,allOrNothing_failed (e := -ENOTTY) (by decide),reset_untouched hs ht]
    exact ⟨fun h => ⟨fun e he => absurd he (hno e),fun _ hf' => absurd hf' hf,fun _ => h⟩,
      fun h => h.misses hf⟩

theorem execute_deleteOne {s : Sys} (hl : L.lowerFile = true) (hv : q.version ≠ 0) : ∃ o t,
    (KernelCall.ioctl 1000 q).execute L J f s = (o,t,none) ∧
      (o,t.disk) = answered (deletedOne L J f q s.disk) := by
  obtain ⟨h1,h2⟩ := deleteOne_spec L J f q s
  exact ⟨_,_,ioctl_deleteOne J f s hl hv,Prod.ext h1 h2⟩

theorem execute_deleteAll {s : Sys} (hl : L.lowerFile = true) (hv : q.version = 0) : ∃ o t,
    (KernelCall.ioctl 1000 q).execute L J f s = (o,t,none) ∧
      (o,t.disk) = answered (deletedAll L J f q s.disk) := by
  obtain ⟨h1,h2⟩ := deleteAll_spec L J f q s
  exact ⟨_,_,ioctl_deleteAll J f s hl hv,Prod.ext h1 h2⟩

theorem honest_iff (r : Reading) (L : Lower) (J : Junk) (f : File) (s : Sys) (c : KernelCall) :
    c.Honest r L J f s ↔ c.TakesWhole r L J f s.disk := by
  cases c with
  | write pos buf => rfl
  | ioctl cmd q =>
    refine forall_congr' fun hcmd => forall_congr' fun hq => forall_congr' fun hi => ?_
    subst hcmd
    cases hl : L.lowerFile with
    | false =>
      rw [ioctl_noFile J f s hl,allOrNothing_failed (e := -ENOTTY) (by decide)]
      exact iff_of_true untouched_refl fun h => by simp at h
    | true =>
      rw [forall_prop_of_true rfl]
      by_cases hv : q.version = 0
      · obtain ⟨o,t,he,ho⟩ := execute_deleteAll (J := J) (f := f) (s := s) hl hv
        change bkpfsUnlockedIoctl L J f 1000 q s = _ at he
        rw [he,if_neg (not_not.mpr hv),← deletedAll_allOrNothing hv hq,← ho]
      · obtain ⟨o,t,he,ho⟩ := execute_deleteOne (J := J) (f := f) (s := s) hl hv
        change bkpfsUnlockedIoctl L J f 1000 q s = _ at he
        rw [he,if_pos hv,← deletedOne_allOrNothing hv hi hq,← ho]

end

def HonestStep (r : Reading) (f : File) (s : Sys) (a : Issued) (t : Sys) : Prop :=
  KernelStep f s a t ∧ a.call.Honest r a.lower a.junk f s

def WholeDeleteStep (r : Reading) (f : File) (s : Sys) (a : Issued) (t : Sys) : Prop :=
  KernelStep f s a t ∧ a.call.TakesWhole r a.lower a.junk f s.disk

theorem deletes_honest_iff (r : Reading) (f : File) (s t : Sys) (calls : List Issued) :
    Run (HonestStep r f) s calls t ↔ Run (WholeDeleteStep r f) s calls t := by
  refine Run.congr (fun _ => True) (fun _ _ _ _ _ => trivial) (fun u a w _ => ?_) trivial
  exact and_congr_right fun _ => honest_iff r a.lower a.junk f u a.call

def Lower.refusing (x : Name) : Lower :=
  { unlink := fun y => if y = x then some ⟨-EACCES,by decide⟩ else none }

theorem refused_delete_all_takes_some : ¬ ∃ r : Reading, ∀ (f : File) (s t : Sys)
    (calls : List Issued) (L : Lower) (J : Junk) (q : Request), Sound f s.disk →
      (∀ v, s.disk.dir (backupName v f.name) = none) → Run (KernelStep f) s calls t →
        (∀ a, L.getxattr a = none) → (KernelCall.ioctl 1000 q).Honest r L J f t := by
  rintro ⟨r,h⟩
  have h1 : Run (KernelStep aTxt) ⟨Disk.single aTxt {},[]⟩
      [⟨{},{ val := -7 },.write 0 [1]⟩] _ := Run.single rfl
  have h2 := h1.snoc (a := ⟨{},{},.write 0 [2]⟩) rfl
  have hh := h aTxt _ _ _ (.refusing (backupName 1 aTxt.name)) {} (clientRequest aTxt.name 0)
    (sound_single aTxt {}) (Disk.single_backups aTxt {}) h2 (fun _ => rfl) rfl
    (clientRequest_file _ _) isInt_zero
  have hu := hh.failed (-EACCES) (by decide) (by decide +kernel)
  have h2 := @hu.backups 2 (by change _ = _; decide +kernel)
  change _ = _ at h2
  revert h2
  decide +kernel

end BackupFs
