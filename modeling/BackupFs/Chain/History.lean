import BackupFs.Chain.State
import BackupFs.Library.BoundedDeque
import BackupFs.Library.Transition

namespace BackupFs

open Numbered Transition

abbrev History := BoundedDeque Bytes N.toNat

instance : NeZero N.toNat := ⟨by decide⟩

structure VersionedFile where
  current : Bytes
  history : History

inductive Edit where
  | write (L : Lower) (J : Junk) (pos : ℕ) (buf : Bytes)
  | deleteOldest (L : Lower) (J : Junk) (q : Request)
  | deleteYoungest (L : Lower) (J : Junk) (q : Request)
  | deleteAll (L : Lower) (J : Junk) (q : Request)

def VersionedFile.apply (V : VersionedFile) : Edit → VersionedFile
  | .write L _ pos buf => ⟨pwrite V.current pos (taken L buf),V.history.push V.current⟩
  | .deleteOldest _ _ _ => ⟨V.current,V.history.popFront⟩
  | .deleteYoungest _ _ _ => ⟨V.current,V.history.popBack⟩
  | .deleteAll _ _ _ => ⟨V.current,.empty⟩

def numbers (f : File) (d : Disk) : Set Int := {v | (d.dir (backupName v f.name)).isSome = true}

inductive EditStep (f : File) : Sys → Edit → Sys → Prop
  | write {s : Sys} {L : Lower} {J : Junk} {pos : ℕ} {buf : Bytes} (hL : L.Grants)
      (hc : counter L J f s.disk < INT_MAX) :
      EditStep f s (.write L J pos buf) (bkpfsWrite L J f pos buf s).2
  | deleteOldest {s : Sys} {L : Lower} {J : Junk} {q : Request} (hL : L.Grants)
      (hq : q.file = f.name) (hv : IsLeast (numbers f s.disk) q.version) :
      EditStep f s (.deleteOldest L J q) (bkpfsUnlockedIoctl L J f 1000 q s).2.1
  | deleteYoungest {s : Sys} {L : Lower} {J : Junk} {q : Request} (hL : L.Grants)
      (hq : q.file = f.name) (hv : IsGreatest (numbers f s.disk) q.version) :
      EditStep f s (.deleteYoungest L J q) (bkpfsUnlockedIoctl L J f 1000 q s).2.1
  | deleteAll {s : Sys} {L : Lower} {J : Junk} {q : Request} (hL : L.Grants)
      (hq : q.file = f.name) (hv : q.version = 0) :
      EditStep f s (.deleteAll L J q) (bkpfsUnlockedIoctl L J f 1000 q s).2.1

structure Holds (c : Chain) (q : History) (lo : Int) : Prop where
  laid : Laid lo q.items c.backups
  low : 1 ≤ lo
  high : q.items ≠ [] → lo + q.items.length - 1 ≤ INT_MAX
  revision : q.items ≠ [] → c.revision = some (lo + q.items.length - 1)
  youngest : q.items ≠ [] → c.youngest = some (lo + q.items.length - 1)

theorem holds_empty {c : Chain} (h : ∀ v, c.backups v = none) : Holds c .empty 1 where
  laid := laid_nil h 1
  low := le_refl 1
  high h := absurd rfl h
  revision h := absurd rfl h
  youngest h := absurd rfl h

theorem nextVersion_eq {x : Int} (h : x < INT_MAX) :
    nextVersion x = if x < 0 then 1 else x + 1 := by
  unfold nextVersion
  split_ifs with hx
  · rfl
  · exact wrapInt_eq (by omega) (by omega)

theorem one_le_nextVersion {x : Int} (h : x < INT_MAX) :
    1 ≤ nextVersion x ∧ nextVersion x ≤ INT_MAX := by
  rw [nextVersion_eq h]
  split_ifs
  · exact ⟨le_refl 1,by decide⟩
  · omega

section
variable {c : Chain} {q : History} {lo : Int}

theorem holds_next (h : Holds c q lo) {junk : Int} (hc : c.counter junk < INT_MAX) :
    ∃ lo', 1 ≤ lo' ∧ Laid lo' q.items c.backups ∧
      c.next junk = lo' + q.items.length := by
  obtain ⟨h1,h2⟩ := one_le_nextVersion hc
  cases hq : q.items with
  | nil =>
    have hl := h.laid
    rw [hq] at hl
    exact ⟨c.next junk,h1,laid_nil (laid_nil_none hl) _,by simp⟩
  | cons x xs =>
    have hne : q.items ≠ [] := by simp [hq]
    have hr := h.revision hne
    have hlow := h.low
    refine ⟨lo,hlow,hq ▸ h.laid,?_⟩
    rw [Chain.next,nextVersion_eq hc,Chain.counter,hr,hq,Option.getD_some,List.length_cons]
    rw [if_neg (by push_cast; omega)]
    ring

theorem holds_free (h : Holds c q lo) {junk : Int} (hc : c.counter junk < INT_MAX) :
    c.backups (c.next junk) = none := by
  obtain ⟨lo',_,hl,hn⟩ := holds_next h hc
  exact laid_none hl (by omega)

theorem holds_write (h : Holds c q lo) {junk : Int} (hc : c.counter junk < INT_MAX)
    (current : Bytes) :
    ∃ lo', Holds (c.write (c.next junk) current) (q.push c.current) lo' := by
  obtain ⟨h1,h2⟩ := one_le_nextVersion hc
  obtain ⟨lo',hlo,hl,hn⟩ := holds_next h hc
  obtain ⟨lo'',hle,hend,hl''⟩ := laid_push hl c.current
  have hN : ((N.toNat : ℕ) : Int) = N := by decide
  have hprune : (if c.next junk > N then Function.update c.backups (c.next junk - N) none
      else c.backups) = Function.update c.backups (lo' + q.items.length - N.toNat) none := by
    rw [hN,← hn]
    split_ifs with hv
    · rfl
    · rw [← laid_none hl (v := c.next junk - N) (by omega),Function.update_eq_self]
  refine ⟨lo'',?_,by omega,fun _ => ?_,fun _ => ?_,fun _ => ?_⟩
  · rw [Chain.write,hprune,hn]
    exact hl''
  · change c.next junk ≤ INT_MAX at h2
    omega
  · rw [Chain.write,hend]
    exact congrArg some (by omega)
  · rw [Chain.write,hend]
    exact congrArg some (by omega)

theorem deleteOne_eq {v junk y : Int} (hv : (c.backups v).isSome = true)
    (hy : c.youngest = some y) : c.deleteOne v junk = if v = y then
      { c with
        revision := some (wrapInt (v - 1))
        youngest := some (wrapInt (v - 1))
        backups := Function.update c.backups v none }
      else { c with backups := Function.update c.backups v none } := by
  rw [Chain.deleteOne,if_pos hv,hy,Option.getD_some]

theorem holds_popFront (h : Holds c q lo) {v : Int}
    (hv : IsLeast {w | (c.backups w).isSome = true} v) (junk : Int) :
    Holds (c.deleteOne v junk) q.popFront (lo + 1) := by
  have hlo := laid_least h.laid hv
  subst hlo
  cases hq : q.items with
  | nil =>
    have hl := h.laid
    rw [hq] at hl
    exact absurd hv.1 (by simp [laid_nil_none hl v])
  | cons x xs =>
    have hne : q.items ≠ [] := by simp [hq]
    have hl := h.laid
    have hr := h.revision hne
    have hy := h.youngest hne
    have hh := h.high hne
    have hlow := h.low
    rw [hq] at hl hr hy hh
    have hitems : q.popFront.items = xs := by
      rw [BoundedDeque.popFront_items,hq,List.tail_cons]
    rw [List.length_cons] at hr hy hh
    rw [deleteOne_eq hv.1 hy]
    split_ifs with he
    · have hxs : xs = [] := List.length_eq_zero_iff.mp (by push_cast at he; omega)
      subst hxs
      exact ⟨hitems ▸ laid_tail hl,by omega,fun hn => absurd hitems hn,
        fun hn => absurd hitems hn,fun hn => absurd hitems hn⟩
    · refine ⟨hitems ▸ laid_tail hl,by omega,fun _ => ?_,fun _ => ?_,fun _ => ?_⟩
      · rw [hitems]
        push_cast at hh
        omega
      · rw [hitems]
        exact hr.trans (congrArg some (by push_cast; ring))
      · rw [hitems]
        exact hy.trans (congrArg some (by push_cast; ring))

theorem holds_popBack (h : Holds c q lo) {v : Int}
    (hv : IsGreatest {w | (c.backups w).isSome = true} v) (junk : Int) :
    Holds (c.deleteOne v junk) q.popBack lo := by
  have hlast := laid_greatest h.laid hv
  rcases List.eq_nil_or_concat q.items with hq | ⟨xs,x,hq⟩
  · have hl := h.laid
    rw [hq] at hl
    exact absurd hv.1 (by simp [laid_nil_none hl v])
  · have hne : q.items ≠ [] := by simp [hq]
    have hl := h.laid
    have hy := h.youngest hne
    have hh := h.high hne
    have hlow := h.low
    rw [← hlast] at hy hh
    rw [hq] at hl hlast
    have hitems : q.popBack.items = xs := by
      rw [BoundedDeque.popBack_items,hq,List.concat_eq_append,List.dropLast_concat]
    rw [List.concat_eq_append] at hl hlast
    rw [List.length_append,List.length_singleton] at hlast
    push_cast at hlast
    have hw : wrapInt (v - 1) = lo + xs.length - 1 := by
      rw [wrapInt_eq (by omega) (by omega)]
      omega
    rw [deleteOne_eq hv.1 hy,if_pos rfl,hw]
    have hend : v = lo + xs.length := by omega
    refine ⟨?_,hlow,fun _ => ?_,fun _ => ?_,fun _ => ?_⟩
    · rw [hitems,hend]
      exact laid_dropLast hl
    · rw [hitems]
      omega
    · rw [hitems]
    · rw [hitems]

theorem holds_clear (h : Holds c q lo) (junk : Int) :
    Holds (c.deleteAll (c.counter junk)) .empty 1 := by
  refine holds_empty fun v => ?_
  rw [Chain.deleteAll]
  dsimp only
  split_ifs with hv
  · rfl
  · have hlow := h.low
    refine laid_none h.laid ?_
    cases hq : q.items with
    | nil =>
      simp only [List.length_nil]
      omega
    | cons x xs =>
      have hr := h.revision (by simp [hq])
      rw [Chain.counter,hr,Option.getD_some,hq] at hv
      omega

end

structure Simulates (f : File) (s : Sys) (V : VersionedFile) : Prop where
  sound : Sound f s.disk
  current : (s.disk.inodes f.ino).content = V.current
  holds : ∃ lo, Holds (chain f s.disk) V.history lo

theorem numbers_eq (f : File) (d : Disk) :
    numbers f d = {v | ((chain f d).backups v).isSome = true} := by
  ext v
  change (d.dir (backupName v f.name)).isSome = true ↔ ((chain f d).backups v).isSome = true
  rw [chain_backups_isSome]

theorem ioctl_deletedOne {L : Lower} {J : Junk} {f : File} {q : Request} (hL : L.Grants)
    (hv : q.version ≠ 0) (s : Sys) : (bkpfsUnlockedIoctl L J f 1000 q s).2.1.disk =
      (deletedOne L J f q s.disk).2 := by
  rw [ioctl_deleteOne J f s hL.lowerFile hv]
  exact (deleteOne_spec L J f q s).2

theorem ioctl_deletedAll {L : Lower} {J : Junk} {f : File} {q : Request} (hL : L.Grants)
    (hv : q.version = 0) (s : Sys) : (bkpfsUnlockedIoctl L J f 1000 q s).2.1.disk =
      (deletedAll L J f q s.disk).2 := by
  rw [ioctl_deleteAll J f s hL.lowerFile hv]
  exact (deleteAll_spec L J f q s).2

theorem deletedOne_current {L : Lower} {J : Junk} {f : File} {q : Request} {d : Disk}
    (hL : L.Grants) (hd : Sound f d) (hq : q.file = f.name) :
    ((deletedOne L J f q d).2.inodes f.ino).content = (d.inodes f.ino).content := by
  have hc := congrArg Chain.current (deletedOne_chain (J := J) hL hd hq).2
  rw [Chain.deleteOne] at hc
  split_ifs at hc <;> exact hc

theorem simulates_deleteOne {L : Lower} {J : Junk} {f : File} {q : Request} {s : Sys}
    {V : VersionedFile} {H : History} {lo : Int} (h : Simulates f s V) (hL : L.Grants)
    (hq : q.file = f.name) (hv : q.version ≠ 0)
    (hH : Holds ((chain f s.disk).deleteOne q.version J.val) H lo) :
    Simulates f (bkpfsUnlockedIoctl L J f 1000 q s).2.1 ⟨V.current,H⟩ := by
  obtain ⟨hs,hc⟩ := deletedOne_chain (J := J) hL h.sound hq
  refine ⟨?_,?_,lo,?_⟩
  · rw [ioctl_deletedOne hL hv]
    exact hs
  · rw [ioctl_deletedOne hL hv]
    exact (deletedOne_current hL h.sound hq).trans h.current
  · rw [ioctl_deletedOne hL hv,hc]
    exact hH

theorem simulates_step {f : File} {s t : Sys} {e : Edit} {V : VersionedFile}
    (h : Simulates f s V) (hs : EditStep f s e t) : Simulates f t (V.apply e) := by
  obtain ⟨lo,hh⟩ := h.holds
  cases hs with
  | write hL hc =>
    rename_i L J pos buf
    have hc' : (chain f s.disk).counter J.val < INT_MAX := by rwa [← chain_counter hL]
    have hfree := holds_free hh hc'
    rw [← chain_next hL,chain_backups_eq_none] at hfree
    obtain ⟨_,hw⟩ := bkpfsWrite_granted hL h.sound.exact h.sound.base hfree pos buf
    refine ⟨sound_written h.sound hw,?_,?_⟩
    · rw [hw.base,h.current]
      rfl
    · rw [chain_written h.sound hw,chain_next hL]
      obtain ⟨lo',hh'⟩ := holds_write hh hc'
        (pwrite (s.disk.inodes f.ino).content pos (taken L buf))
      refine ⟨lo',?_⟩
      change Holds _ (V.history.push V.current) lo'
      rw [← h.current]
      exact hh'
  | deleteOldest hL hq hv =>
    rw [numbers_eq] at hv
    have hlo := laid_least hh.laid hv
    have hlow := hh.low
    exact simulates_deleteOne h hL hq (by omega) (holds_popFront hh hv _)
  | deleteYoungest hL hq hv =>
    rw [numbers_eq] at hv
    have hin := (laid_isSome hh.laid _).mp hv.1
    have hlow := hh.low
    exact simulates_deleteOne h hL hq (by omega) (holds_popBack hh hv _)
  | deleteAll hL hq hv =>
    rename_i L J q
    obtain ⟨hs,hc⟩ := deletedAll_chain (J := J) hL h.sound hq
    refine ⟨?_,?_,1,?_⟩
    · rw [ioctl_deletedAll hL hv]
      exact hs
    · rw [ioctl_deletedAll hL hv]
      exact (congrArg Chain.current hc).trans h.current
    · rw [ioctl_deletedAll hL hv,hc]
      exact holds_clear hh J.val

theorem simulates_start {f : File} {s : Sys} (hs : Sound f s.disk)
    (hn : ∀ v, s.disk.dir (backupName v f.name) = none) :
    Simulates f s ⟨(s.disk.inodes f.ino).content,.empty⟩ where
  sound := hs
  current := rfl
  holds := ⟨1,holds_empty fun v => chain_backups_eq_none.mpr (hn v)⟩

theorem simulates_run {f : File} {s t : Sys} {es : List Edit} (hs : Sound f s.disk)
    (hn : ∀ v, s.disk.dir (backupName v f.name) = none) (run : Run (EditStep f) s es t) :
    Simulates f t (es.foldl VersionedFile.apply ⟨(s.disk.inodes f.ino).content,.empty⟩) :=
  run.simulation (Simulates f) VersionedFile.apply (fun _ _ _ _ h hs => simulates_step h hs)
    (simulates_start hs hn)

structure Shows (f : File) (d : Disk) (V : VersionedFile) : Prop where
  current : (d.inodes f.ino).content = V.current
  history : Reads (chain f d).backups V.history.items

theorem edits_simulate_history {f : File} {s t : Sys} {es : List Edit} (hs : Sound f s.disk)
    (hn : ∀ v, s.disk.dir (backupName v f.name) = none) (run : Run (EditStep f) s es t) :
    Shows f t.disk
      (es.foldl VersionedFile.apply ⟨(s.disk.inodes f.ino).content,.empty⟩) := by
  have h := simulates_run hs hn run
  obtain ⟨lo,hh⟩ := h.holds
  exact ⟨h.current,laid_reads hh.laid⟩

def rewrites : List Edit :=
  [.write {} { val := -7 } 0 (bytesOf "one"),.write {} {} 0 (bytesOf "two"),
    .deleteAll {} {} (clientRequest aTxt.name 0),.write {} {} 3 (bytesOf "!")]

theorem edits_simulate_history_rewrites : ∃ t : Sys,
    Shows aTxt t.disk (rewrites.foldl VersionedFile.apply ⟨bytesOf "",.empty⟩) ∧
      (rewrites.foldl VersionedFile.apply ⟨bytesOf "",.empty⟩).history.items = [bytesOf "two"] := by
  have h1 : Run (EditStep aTxt) ⟨Disk.single aTxt {},[]⟩ _ _ :=
    Run.nil.snoc (@EditStep.write aTxt _ {} { val := -7 } 0 (bytesOf "one") grants_default
      (by decide +kernel))
  have h2 := h1.snoc (@EditStep.write aTxt _ {} {} 0 (bytesOf "two") grants_default
    (by decide +kernel))
  have h3 := h2.snoc (@EditStep.deleteAll aTxt _ {} {} (clientRequest aTxt.name 0) grants_default
    (clientRequest_file _ _) rfl)
  have h4 := h3.snoc (@EditStep.write aTxt _ {} {} 3 (bytesOf "!") grants_default
    (by decide +kernel))
  exact ⟨_,edits_simulate_history (sound_single aTxt {}) (Disk.single_backups aTxt {}) h4,
    by decide +kernel⟩

end BackupFs
