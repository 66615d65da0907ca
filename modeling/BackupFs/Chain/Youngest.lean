import BackupFs.Chain.Window

namespace BackupFs

open Transition

def Chain.numbers (c : Chain) : Set Int := {v | (c.backups v).isSome = true}

structure Chain.Tops (c : Chain) (v : Int) : Prop where
  greatest : IsGreatest c.numbers v
  revision : c.revision = some v
  youngest : c.youngest = some v

def Chain.Topped (c : Chain) : Prop := c.numbers.Nonempty → ∃ v, c.Tops v

def Call.KeepsTop (c : Chain) : Call → Prop
  | .write _ _ _ _ => True
  | .delete _ _ q => IsGreatest c.numbers q.version →
      q.version - 1 ∈ c.numbers ∨ c.numbers = {q.version}

structure YoungestLast (f : File) (d : Disk) (v : Int) : Prop where
  greatest : IsGreatest (numbers f d) v
  revision : (d.inodes f.ino).revision = some v
  youngest : (d.inodes f.ino).youngest = some v
  next : ∀ L J, L.Grants → counter L J f d < INT_MAX → nextVersion (counter L J f d) = v + 1

def YoungestIsLast (f : File) (d : Disk) : Prop :=
  (numbers f d).Nonempty → ∃ v, YoungestLast f d v

section
variable {c : Chain} {L : Lower} {J : Junk} {q : Request}

theorem topped_write (h : Windowed c) {junk : Int} (hc : c.counter junk < INT_MAX)
    (current : Bytes) : (c.write (c.next junk) current).Topped := by
  intro _
  have hself : c.next junk ∈ (c.write (c.next junk) current).numbers := by
    change ((c.write (c.next junk) current).backups (c.next junk)).isSome = true
    rw [Chain.write]
    dsimp only
    rw [Function.update_self]
    rfl
  refine ⟨c.next junk,⟨hself,?_⟩,rfl,rfl⟩
  intro w hw
  obtain ⟨r,hr,_,_,hle,_⟩ := windowed_write h hc current w hw
  cases hr
  exact hle

theorem deleteOne_numbers {v junk : Int} :
    (c.deleteOne v junk).numbers = c.numbers \ {v} := by
  ext w
  constructor
  · intro hw
    obtain ⟨content,hw⟩ := Option.isSome_iff_exists.mp hw
    obtain ⟨hw,hne⟩ := deleteOne_backups hw
    exact ⟨Option.isSome_iff_exists.mpr ⟨content,hw⟩,hne⟩
  · rintro ⟨hw,hne⟩
    change ((c.deleteOne v junk).backups w).isSome = true
    have hu : Function.update c.backups v none w = c.backups w := Function.update_of_ne hne _ _
    rw [Chain.deleteOne]
    split_ifs
    · exact (congrArg Option.isSome hu).trans hw
    · exact (congrArg Option.isSome hu).trans hw
    · exact hw

theorem diff_greatest {S : Set Int} {v : Int} (h : IsGreatest S v) :
    ((S \ {v}).Nonempty → IsGreatest (S \ {v}) (v-1)) ↔ v - 1 ∈ S ∨ S = {v} := by
  constructor
  · intro hg
    rcases (S \ {v}).eq_empty_or_nonempty with he | hne
    · exact .inr (Set.Subset.antisymm (Set.sdiff_eq_empty.mp he) (Set.singleton_subset_iff.mpr h.1))
    · exact .inl (hg hne).1.1
  · rintro (hv | rfl) hne
    · refine ⟨⟨hv,fun he => by simp at he⟩,?_⟩
      rintro w ⟨hw,hwv⟩
      have hle := h.2 hw
      have hlt : w ≠ v := hwv
      omega
    · simp at hne

theorem topped_deleteOne (h : Windowed c) (ht : c.Topped) (v junk : Int) :
    (c.deleteOne v junk).Topped ↔
      (IsGreatest c.numbers v → v - 1 ∈ c.numbers ∨ c.numbers = {v}) := by
  have hnum : (c.deleteOne v junk).numbers = c.numbers \ {v} := deleteOne_numbers
  by_cases hv : v ∈ c.numbers
  · obtain ⟨r,hg,hr,hy⟩ := ht ⟨v,hv⟩
    obtain ⟨_,hr',_,_,_,h1,hm⟩ := h v hv
    rw [hr] at hr'
    cases hr'
    have heq := @deleteOne_eq c v junk r hv hy
    rcases eq_or_ne v r with rfl | hne
    · have hw := wrapInt_eq (x := v - 1) (by omega) (by omega)
      rw [if_pos rfl,hw] at heq
      have htop : (c.deleteOne v junk).Topped ↔
          ((c.numbers \ {v}).Nonempty → IsGreatest (c.numbers \ {v}) (v - 1)) := by
        rw [Chain.Topped,hnum]
        refine forall_congr' fun _ => ⟨?_,fun hg' => ⟨v-1,hnum ▸ hg',?_,?_⟩⟩
        · rintro ⟨w,hw',hrw,_⟩
          rw [heq] at hrw
          cases hrw
          exact hnum ▸ hw'
        · rw [heq]
        · rw [heq]
      rw [htop,diff_greatest hg]
      exact ⟨fun hor _ => hor,fun himp => himp hg⟩
    · rw [if_neg hne] at heq
      refine iff_of_true (fun _ => ⟨r,hnum ▸ ⟨⟨hg.1,hne.symm⟩,fun w hw => hg.2 hw.1⟩,?_,?_⟩) ?_
      · rw [heq]
        exact hr
      · rw [heq]
        exact hy
      · exact fun hg' => absurd (hg'.unique hg) hne
  · have hself : c.deleteOne v junk = c := if_neg hv
    rw [hself]
    exact iff_of_true ht fun hg => absurd hg.1 hv

theorem topped_call (h : Windowed c) (ht : c.Topped) {a : Call}
    (hc : ∀ L J pos buf, a = .write L J pos buf → c.counter J.val < INT_MAX) :
    (c.call a).Topped ↔ a.KeepsTop c := by
  cases a with
  | write L J pos buf => exact iff_of_true (topped_write h (hc L J pos buf rfl) _) trivial
  | delete L J q =>
    rw [Chain.call]
    split_ifs with hv
    · refine iff_of_true ?_ fun hg => ?_
      · rintro ⟨w,hw⟩
        change ((c.deleteAll (c.counter J.val)).backups w).isSome = true at hw
        rw [deleteAll_backups h] at hw
        cases hw
      · obtain ⟨_,_,_,_,_,h1,_⟩ := h _ hg.1
        omega
    · exact topped_deleteOne h ht _ _

end

theorem youngestIsLast_iff {f : File} {d : Disk} (h : Windowed (chain f d)) :
    YoungestIsLast f d ↔ (chain f d).Topped := by
  have hnum : numbers f d = (chain f d).numbers := numbers_eq f d
  unfold YoungestIsLast Chain.Topped
  rw [hnum]
  refine forall_congr' fun _ => exists_congr fun v => ⟨fun hv => ?_,fun hv => ?_⟩
  · exact ⟨hnum ▸ hv.greatest,hv.revision,hv.youngest⟩
  · refine ⟨hnum ▸ hv.greatest,hv.revision,hv.youngest,fun L J hL hc => ?_⟩
    have hcount : counter L J f d = v := counter_revision hL hv.revision J
    obtain ⟨_,_,_,_,_,h1,_⟩ := h v hv.greatest.1
    rw [nextVersion_eq hc,hcount,if_neg]
    omega

def KeepingTopStep (f : File) (s : Logged) (a : Call) (t : Logged) : Prop :=
  CallStep f s a t ∧ a.KeepsTop (chain f s.sys.disk)

def ToppedStep (f : File) (s : Logged) (a : Call) (t : Logged) : Prop :=
  CallStep f s a t ∧ YoungestIsLast f t.sys.disk

theorem youngest_is_last_iff {f : File} {s : Sys} {t : Logged} {calls : List Call}
    (hs : Sound f s.disk) (hn : ∀ v, s.disk.dir (backupName v f.name) = none) :
    Run (ToppedStep f) ⟨s,[]⟩ calls t ↔ Run (KeepingTopStep f) ⟨s,[]⟩ calls t := by
  have hstart : ¬ (numbers f s.disk).Nonempty := by
    rintro ⟨v,hv⟩
    change (s.disk.dir (backupName v f.name)).isSome = true at hv
    rw [hn v] at hv
    cases hv
  refine Run.congr (fun s => Tracked f s ∧ YoungestIsLast f s.sys.disk) ?_ ?_
    ⟨tracked_start hs hn,fun hv => absurd hv hstart⟩
  · rintro u a w ⟨ht,_⟩ ⟨hstep,hw⟩
    exact ⟨tracked_step ht hstep,hw⟩
  · rintro u a w ⟨ht,hu⟩
    refine and_congr_right fun hstep => ?_
    obtain ⟨_,hch,hc⟩ := callStep_chain ht.sound ht.windowed hstep
    rw [youngestIsLast_iff (tracked_step ht hstep).windowed,hch]
    exact topped_call ht.windowed ((youngestIsLast_iff ht.windowed).mp hu) hc

theorem youngest_is_last_iff_deleted : ∃ calls t, t.log = [(1,[]),(2,[1])] ∧
    Run (ToppedStep aTxt) ⟨⟨Disk.single aTxt {},[]⟩,[]⟩ calls t := by
  have h1 : Run (KeepingTopStep aTxt) ⟨⟨Disk.single aTxt {},[]⟩,[]⟩ _ _ := Run.nil.snoc
    ⟨@CallStep.write aTxt _ {} { val := -7 } 0 [1] grants_default (by decide +kernel),trivial⟩
  have h2 := h1.snoc
    ⟨@CallStep.write aTxt _ {} {} 0 [2] grants_default (by decide +kernel),trivial⟩
  have h3 := h2.snoc ⟨@CallStep.delete aTxt _ {} {} (clientRequest aTxt.name 2) grants_default
    (clientRequest_file _ _),fun _ => .inl (by change _ = _; decide +kernel)⟩
  exact ⟨_,_,by decide +kernel,(youngest_is_last_iff (sound_single aTxt {})
    (Disk.single_backups aTxt {})).mpr h3⟩

theorem deleted_below_misplaces_youngest : ¬ ∀ (f : File) (s : Sys) (calls : List Call)
    (t : Logged), Sound f s.disk → (∀ v, s.disk.dir (backupName v f.name) = none) →
      Run (CallStep f) ⟨s,[]⟩ calls t → YoungestIsLast f t.sys.disk := by
  intro h
  have h1 : Run (CallStep aTxt) ⟨⟨Disk.single aTxt {},[]⟩,[]⟩ _ _ :=
    Run.nil.snoc (@CallStep.write aTxt _ {} { val := -7 } 0 [1] grants_default (by decide +kernel))
  have h2 := h1.snoc (@CallStep.write aTxt _ {} {} 0 [2] grants_default (by decide +kernel))
  have h3 := h2.snoc (@CallStep.write aTxt _ {} {} 0 [3] grants_default (by decide +kernel))
  have h4 := h3.snoc (@CallStep.delete aTxt _ {} {} (clientRequest aTxt.name 2) grants_default
    (clientRequest_file _ _))
  have h5 := h4.snoc (@CallStep.delete aTxt _ {} {} (clientRequest aTxt.name 3) grants_default
    (clientRequest_file _ _))
  obtain ⟨v,hv⟩ := h aTxt _ _ _ (sound_single aTxt {}) (Disk.single_backups aTxt {}) h5
    ⟨1,by change _ = _; decide +kernel⟩
  have hr : some 2 = some v := hv.revision
  cases hr
  have hgone := hv.greatest.1
  change _ = _ at hgone
  revert hgone
  decide +kernel

end BackupFs
