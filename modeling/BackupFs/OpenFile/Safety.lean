import BackupFs.OpenFile.Runs

namespace BackupFs
namespace OpenFile

open Transition (Run exec)

section
variable {s t : Vfs} {as : List Action} {a : Action} {f : ℕ}

theorem firstOps_snoc (f : ℕ) (as : List Action) (a : Action) :
    firstOps f (as ++ [a]) = (firstOps f as).or (offered f a) := by
  rw [firstOps,List.findSome?_append]
  cases ho : offered f a <;> simp [firstOps,ho]

theorem known_inherits (h : Known as s) (ht : Sound t) (hi : Inherits s t)
    (ho : ∀ f, offered f a = none) : Known (as ++ [a]) t where
  sound := ht
  ops := fun f p l ops hf hp => by
    obtain ⟨hf,hp⟩ := hi.infos f p _ hf hp
    rw [firstOps_snoc,ho,Option.or_none]
    exact h.ops f p l ops hf hp
  unseen := fun f hf => by
    rw [firstOps_snoc,ho,Option.or_none]
    exact h.unseen f (hi.next ▸ hf)

theorem inherits_trans {u : Vfs} (h : Inherits s t) (h' : Inherits t u) : Inherits s u where
  next := h'.next.trans h.next
  infos := fun f p i hf hi => by
    obtain ⟨hf,hi⟩ := h'.infos f p i hf hi
    exact h.infos f p i hf hi

theorem opened_known (h : Known as s) (w : OpenCall) :
    ∃ t, step s (.openFile w) = .ok t ∧ Known (as ++ [.openFile w]) t := by
  have ho : ∀ f, offered f (.openFile w) = none := fun f => rfl
  rcases open_cases w h.sound.fresh with ⟨err,pd,n,herr,hn,he⟩ | he
  · refine ⟨{ s with heap := { s.heap with next := n }, next := s.next + 1 },?_,
      skipped_sound h.sound hn (Nat.le_succ _),fun f p l ops hf hp => ?_,fun f hf => ?_⟩
    · simp [step,opened,he,bind,Except.bind,herr]
    · rw [firstOps_snoc,ho,Option.or_none]
      exact h.ops f p l ops hf hp
    · rw [firstOps_snoc,ho,Option.or_none]
      exact h.unseen f (Nat.le_of_succ_le hf)
  · refine ⟨s.added,?_,added_sound h.sound,fun f p l ops hf hp => ?_,fun f hf => ?_⟩
    · simp [step,opened,he,bind,Except.bind,Vfs.added]
    · rw [firstOps_snoc,ho,Option.or_none]
      rcases (added_owns h.sound).mp ⟨hf,ops,hp⟩ with hq | ⟨rfl,rfl,rfl⟩
      · have hne := (owns_next h.sound hq).1.ne
        obtain ⟨hf',-,-⟩ := hq
        rw [Vfs.added] at hp
        dsimp only at hp
        rw [Function.update_of_ne hne] at hp
        exact h.ops f p l ops hf' hp
      · rw [Vfs.added] at hp
        dsimp only at hp
        rw [Function.update_self] at hp
        cases hp
        exact (h.unseen _ le_rfl).symm
    · rw [firstOps_snoc,ho,Option.or_none]
      exact h.unseen f (Nat.le_of_succ_le hf)

theorem closed_known (h : Known as s) (hf : f ∈ s.fds) (op : Bool) :
    ∃ t, step s (.close f op) = .ok t ∧ Known (as ++ [.close f op]) t := by
  obtain ⟨p,l,ho⟩ := holder_owns h.sound (fd_holder hf)
  obtain ⟨ops,hi⟩ := ho.2
  obtain ⟨t,ht,hs,hin⟩ := fput_sound (fds_erase_sound h.sound hf)
  have hpre : Inherits s { s with fds := s.fds.erase f } := ⟨rfl,fun _ _ _ h1 h2 => ⟨h1,h2⟩⟩
  refine ⟨t,?_,known_inherits h hs (inherits_trans hpre hin) fun _ => rfl⟩
  rw [step,closed,owns_privateData ho]
  rcases flush_cases op hi with ⟨err,he⟩ | he
  · rw [he]
    exact ht
  · rw [he]
    have hl : leave false l s.heap = .ok s.heap := by
      rw [leave,if_neg (owns_refs h.sound ho)]
      rfl
    simp only [bind,Except.bind,hl]
    exact ht

theorem started_known (h : Known as s) (hf : f ∈ s.fds) (m : Method) :
    ∃ t, step s (.start f m) = .ok t ∧ Known (as ++ [.start f m]) t := by
  obtain ⟨p,l,ho⟩ := holder_owns h.sound (fd_holder hf)
  obtain ⟨ops,hi⟩ := ho.2
  rw [step,started,owns_privateData ho]
  rcases call_cases m hi (owns_refs h.sound ho) with ⟨err,he⟩ | he
  · rw [he]
    exact ⟨s,rfl,known_inherits h h.sound ⟨rfl,fun _ _ _ h1 h2 => ⟨h1,h2⟩⟩ fun _ => rfl⟩
  · rw [he]
    have hheld := sound_get h.sound ho
    have hsound := calls_sound m.pins hheld (show Vfs.Owns _ f p l from ho)
    refine ⟨_,rfl,known_inherits h hsound ⟨rfl,fun g q i h1 h2 => ⟨h1,?_⟩⟩ fun _ => rfl⟩
    have hin : (s.heap.pin m.pins l).infos = s.heap.infos := by
      unfold Heap.pin
      split_ifs <;> rfl
    exact hin ▸ h2

theorem finished_known {c : Call} (h : Known as s) (hc : c ∈ s.calls) :
    ∃ t, step s (.finish c) = .ok t ∧ Known (as ++ [.finish c]) t := by
  obtain ⟨h',he,hin,hs⟩ := leave_sound h.sound hc
  obtain ⟨t,ht,hs',hin'⟩ := fput_sound hs
  have hpre : Inherits s { s with heap := h', calls := s.calls.erase c } :=
    ⟨rfl,fun _ _ _ h1 h2 => ⟨h1,hin ▸ h2⟩⟩
  refine ⟨t,?_,known_inherits h hs' (inherits_trans hpre hin') fun _ => rfl⟩
  rw [step,finished,he]
  exact ht

theorem mmap_eq {h : Heap} {p l : ℕ} {ops : Option VmOps} (hi : h.infos p = some ⟨some l,ops⟩)
    (w : MmapCall) (vma : Vma) : bkpfsMmap w (some p) vma h =
      if willwrite vma.vmFlags && !w.writepage then .ok (-EINVAL,vma,h)
      else mapLower w p ⟨some l,ops⟩ vma h := by
  simp [bkpfsMmap,hi]

theorem mapped_sound {p l : ℕ} (h : Sound s) (ho : s.Owns f p l) (vmFlags : ℕ) :
    Sound { s with
      counts := Refcount.get s.counts f
      maps := ⟨vmFlags,.upper f,some .bkpfs⟩ :: s.maps } :=
  maps_sound (v := ⟨vmFlags,.upper f,some .bkpfs⟩) (sound_get h ho) rfl rfl

theorem mapped_known (h : Known as s) (hf : f ∈ s.fds) (vmFlags : ℕ) (w : MmapCall) :
    (∃ x, Crash as (.mmap f vmFlags w) x ∧ step s (.mmap f vmFlags w) = .error x) ∨
      ∃ t, step s (.mmap f vmFlags w) = .ok t ∧ Known (as ++ [.mmap f vmFlags w]) t := by
  obtain ⟨p,l,ho⟩ := holder_owns h.sound (fd_holder hf)
  obtain ⟨ops,hi⟩ := ho.2
  have hops := h.ops f p l ops ho.1 hi
  have hlt : f < s.next := by
    by_contra hn
    exact absurd (h.sound.files f (not_lt.mp hn)) (owns_pos h.sound ho).ne'
  have hother {g : ℕ} (hg : g ≠ f) : offered g (.mmap f vmFlags w) = none := by
    rw [offered,if_neg fun hc => hg hc.1.symm]
  have hunseen : ∀ g, s.next ≤ g → firstOps g (as ++ [.mmap f vmFlags w]) = none := by
    intro g hg
    rw [firstOps_snoc,hother (by omega),Option.or_none]
    exact h.unseen g hg
  rw [step,mapped,owns_privateData ho,mmap_eq hi]
  -- the saved vm_ops are kept unless this mmap gives the first ones
  have hsame (hs : (firstOps f as).or (offered f (.mmap f vmFlags w)) = firstOps f as) {u : Vfs}
      (hu : Sound u) (hinh : Inherits s u) : Known (as ++ [.mmap f vmFlags w]) u := by
    refine ⟨hu,fun g q m ops' hg hq => ?_,fun g hg => hunseen g (hinh.next ▸ hg)⟩
    obtain ⟨hg,hq⟩ := hinh.infos g q _ hg hq
    rw [h.ops g q m ops' hg hq,firstOps_snoc]
    rcases eq_or_ne g f with rfl | hne
    · exact hs.symm
    · rw [hother hne,Option.or_none]
  cases hw : willwrite vmFlags && !w.writepage with
  | true =>
    refine .inr ⟨s,rfl,hsame ?_ h.sound ⟨rfl,fun _ _ _ h1 h2 => ⟨h1,h2⟩⟩⟩
    rw [offered,if_neg fun hc => by simp [hw] at hc,Option.or_none]
  | false =>
    have hoff : offered f (.mmap f vmFlags w) = w.gives := if_pos ⟨rfl,hw⟩
    cases ops with
    | some o =>
      refine .inr ⟨_,rfl,hsame ?_ (mapped_sound h.sound ho vmFlags)
        ⟨rfl,fun _ _ _ h1 h2 => ⟨h1,h2⟩⟩⟩
      rw [← hops,Option.some_or]
    | none =>
      rw [MmapCall.gives] at hoff
      rw [if_neg Bool.false_ne_true,mapLower]
      cases hm : w.mmap with
      | none => exact .inl ⟨.nullPointer,.mmap hops.symm hw hm,rfl⟩
      | some r =>
        obtain ⟨err,ops'⟩ := r
        rw [hm] at hoff
        dsimp only at hoff ⊢
        by_cases herr : err = 0
        · subst herr
          rw [if_neg (not_not.mpr rfl)] at hoff
          refine .inr ⟨_,rfl,?_,fun g q m o hg hq => ?_,hunseen⟩
          · exact mapped_sound (setOps_sound h.sound hi) ((setOps_owns hi).mpr ho) vmFlags
          · rw [firstOps_snoc]
            dsimp only [Heap.setInfo] at hg hq
            rcases eq_or_ne g f with rfl | hne
            · rw [ho.1] at hg
              cases hg
              rw [Function.update_self] at hq
              cases hq
              rw [← hops,hoff]
              rfl
            · have hqp : q ≠ p := by
                rintro rfl
                have hq' : s.Owns g q l := ⟨hg,_,hi⟩
                exact hne (h.sound.info _ _ _ _ _ hq' ho)
              rw [Function.update_of_ne hqp] at hq
              rw [hother hne,Option.or_none]
              exact h.ops g q m o hg hq
        · rw [if_pos herr] at hoff
          refine .inr ⟨s,?_,hsame ?_ h.sound ⟨rfl,fun _ _ _ h1 h2 => ⟨h1,h2⟩⟩⟩
          · simp [bind,Except.bind,herr]
          · rw [hoff,Option.or_none]

theorem copied_known {v : Vma} (h : Known as s) (hv : v ∈ s.maps) :
    ∃ t, step s (.copyMap v) = .ok t ∧ Known (as ++ [.copyMap v]) t := by
  obtain ⟨p,l,ho⟩ := holder_owns h.sound (map_holder hv)
  obtain ⟨hf,ho'⟩ := h.sound.maps v hv
  exact ⟨_,rfl,known_inherits h (maps_sound (sound_get h.sound ho) hf ho')
    ⟨rfl,fun _ _ _ h1 h2 => ⟨h1,h2⟩⟩ fun _ => rfl⟩

theorem unmapped_known {v : Vma} (h : Known as s) (hv : v ∈ s.maps) :
    ∃ t, step s (.munmap v) = .ok t ∧ Known (as ++ [.munmap v]) t := by
  obtain ⟨t,ht,hs,hin⟩ := fput_sound (maps_erase_sound h.sound hv)
  have hpre : Inherits s { s with maps := s.maps.erase v } := ⟨rfl,fun _ _ _ h1 h2 => ⟨h1,h2⟩⟩
  exact ⟨t,ht,known_inherits h hs (inherits_trans hpre hin) fun _ => rfl⟩

theorem mapping_info {v : Vma} (h : Known as s) (hv : v ∈ s.maps) :
    ∃ p l, s.Owns v.upper p l ∧ s.privateData v.upper = some p ∧ s.heap.refs l ≠ 0 ∧
      s.heap.infos p = some ⟨some l,firstOps v.upper as⟩ := by
  obtain ⟨p,l,ho⟩ := holder_owns h.sound (map_holder hv)
  obtain ⟨ops,hi⟩ := ho.2
  refine ⟨p,l,ho,owns_privateData ho,owns_refs h.sound ho,?_⟩
  rw [hi,h.ops v.upper p l ops ho.1 hi]

theorem pageFault_known {v : Vma} (h : Known as s) (hv : v ∈ s.maps) :
    (∃ x, Crash as (.pageFault v) x ∧ step s (.pageFault v) = .error x) ∨
      step s (.pageFault v) = .ok s := by
  obtain ⟨p,l,-,hp,hr,hi⟩ := mapping_info h hv
  rw [step,bkpfsFault,hp]
  simp only [Heap.info,hi]
  cases ho : firstOps v.upper as with
  | none => exact .inl ⟨.bug,.unsaved ho,rfl⟩
  | some ops =>
    cases hf : ops.fault with
    | false => exact .inl ⟨.nullPointer,.unhandled ho hf,by simp [bind,Except.bind,hf]⟩
    | true => exact .inr (by simp [bind,Except.bind,hf,hr])

theorem mkwrite_known {v : Vma} (h : Known as s) (hv : v ∈ s.maps) :
    (∃ x, Crash as (.mkwrite v) x ∧ step s (.mkwrite v) = .error x) ∨
      step s (.mkwrite v) = .ok s := by
  obtain ⟨p,l,-,hp,hr,hi⟩ := mapping_info h hv
  rw [step,bkpfsPageMkwrite,hp]
  simp only [Heap.info,hi]
  cases ho : firstOps v.upper as with
  | none => exact .inl ⟨.bug,.mkwrite ho,rfl⟩
  | some ops =>
    refine .inr ?_
    cases hm : ops.pageMkwrite <;> simp [bind,Except.bind,hm,hr]

theorem step_known (h : Known as s) (ha : Enabled s a) :
    (∃ x, Crash as a x ∧ step s a = .error x) ∨
      ∃ t, step s a = .ok t ∧ Known (as ++ [a]) t := by
  cases a with
  | openFile w => exact .inr (opened_known h w)
  | dup f =>
    obtain ⟨p,l,ho⟩ := holder_owns h.sound (fd_holder ha)
    exact .inr ⟨_,rfl,known_inherits h (fds_sound (sound_get h.sound ho))
      ⟨rfl,fun _ _ _ h1 h2 => ⟨h1,h2⟩⟩ fun _ => rfl⟩
  | close f op => exact .inr (closed_known h ha op)
  | start f m => exact .inr (started_known h ha m)
  | finish c => exact .inr (finished_known h ha)
  | mmap f vmFlags w => exact mapped_known h ha vmFlags w
  | copyMap v => exact .inr (copied_known h ha)
  | munmap v => exact .inr (unmapped_known h ha)
  | pageFault v =>
    refine (pageFault_known h ha).imp_right fun he => ⟨s,he,?_⟩
    exact known_inherits h h.sound ⟨rfl,fun _ _ _ h1 h2 => ⟨h1,h2⟩⟩ fun _ => rfl
  | mkwrite v =>
    refine (mkwrite_known h ha).imp_right fun he => ⟨s,he,?_⟩
    exact known_inherits h h.sound ⟨rfl,fun _ _ _ h1 h2 => ⟨h1,h2⟩⟩ fun _ => rfl

theorem known_init : Known [] Vfs.init where
  sound := {
    counts := Refcount.held_zero
    live := fun f hf => absurd hf (lt_irrefl _)
    dead := fun _ _ => rfl
    info := fun _ _ _ _ _ h => by cases h.1
    lower := fun _ _ _ _ _ h => by cases h.1
    infos := fun _ h => absurd rfl h
    refs := fun _ _ _ h => by cases h.1
    unowned := fun _ h => absurd rfl h
    calls := fun _ h => by cases h
    maps := fun _ h => by cases h
    fresh := fun _ _ => ⟨rfl,rfl⟩
    files := fun _ _ => rfl }
  ops := fun _ _ _ _ h => by cases h
  unseen := fun _ _ => rfl

theorem run_known (h : Run Step Vfs.init as s) : Known as s := by
  induction h with
  | nil => exact known_init
  | snoc _ ha ih =>
    obtain ⟨hen,hstep⟩ := ha
    rcases step_known ih hen with ⟨x,-,hx⟩ | ⟨t,ht,hk⟩
    · rw [hx] at hstep
      cases hstep
    · rw [ht] at hstep
      cases hstep
      exact hk

theorem crash_faults {x : Fault} (h : Known as s) (ha : Enabled s a) (hc : Crash as a x) :
    step s a = .error x := by
  rcases step_known h ha with ⟨y,hy,he⟩ | ⟨t,ht,-⟩
  · have hxy : x = y := by
      cases hc <;> cases hy <;> simp_all
    rw [he,hxy]
  · exfalso
    cases hc with
    | mmap ho hw hm =>
      obtain ⟨p,l,how⟩ := holder_owns h.sound (fd_holder ha)
      obtain ⟨ops,hi⟩ := how.2
      have hops := (h.ops _ p l ops how.1 hi).trans ho
      subst hops
      rw [step,mapped,owns_privateData how,mmap_eq hi,if_neg (by simpa using hw),mapLower,hm] at ht
      cases ht
    | unsaved ho =>
      obtain ⟨p,l,-,hp,-,hi⟩ := mapping_info h ha
      rw [step,bkpfsFault,hp] at ht
      simp [Heap.info,hi,ho,bind,Except.bind] at ht
    | unhandled ho hf =>
      obtain ⟨p,l,-,hp,-,hi⟩ := mapping_info h ha
      rw [step,bkpfsFault,hp] at ht
      simp [Heap.info,hi,ho,hf,bind,Except.bind] at ht
    | mkwrite ho =>
      obtain ⟨p,l,-,hp,-,hi⟩ := mapping_info h ha
      rw [step,bkpfsPageMkwrite,hp] at ht
      simp [Heap.info,hi,ho,bind,Except.bind] at ht

structure Accounted (s : Vfs) : Prop where
  opened : ∀ f, s.files f ≠ none → ∃ p l, s.Owns f p l
  infos : ∀ p, s.heap.infos p ≠ none → ∃! f, ∃ l, s.Owns f p l
  lowers : ∀ l, s.heap.refs l ≠ 0 → ∃! f, ∃ p, s.Owns f p l
  refs : ∀ f p l, s.Owns f p l → s.heap.refs l = 1 + pinned s.calls l
  closed : ∀ f, f ∉ s.fds → f ∉ s.calls.map Call.file → f ∉ s.maps.map Vma.upper →
    s.files f = none

theorem sound_accounted (h : Sound s) : Accounted s where
  opened := fun f hf => h.live f (Nat.pos_of_ne_zero fun hz => hf (h.dead f hz))
  infos := fun p hp => by
    obtain ⟨f,l,ho⟩ := h.infos p hp
    exact ⟨f,⟨l,ho⟩,fun g ⟨m,hg⟩ => h.info _ _ _ _ _ hg ho⟩
  lowers := fun l hl => by
    obtain ⟨f,p,ho⟩ := h.unowned l hl
    exact ⟨f,⟨p,ho⟩,fun g ⟨q,hg⟩ => h.lower _ _ _ _ _ hg ho⟩
  refs := h.refs
  closed := fun f h1 h2 h3 => h.dead f (Nat.eq_zero_of_not_pos fun hpos => by
    have hm := (Refcount.held_pos h.counts).mp hpos
    simp only [Vfs.holders,zero_add,Multiset.mem_add,Multiset.mem_coe] at hm
    rcases hm with (hm | hm) | hm
    · exact h1 hm
    · exact h2 hm
    · exact h3 hm)

theorem accounted_idle (h : Accounted s) (h1 : s.fds = []) (h2 : s.calls = [])
    (h3 : s.maps = []) : (∀ p, s.heap.infos p = none) ∧ ∀ l, s.heap.refs l = 0 := by
  have hn : ∀ f, s.files f = none := fun f =>
    h.closed f (by simp [h1]) (by simp [h2]) (by simp [h3])
  refine ⟨fun p => by_contra fun hp => ?_,fun l => by_contra fun hl => ?_⟩
  · obtain ⟨f,⟨l,ho⟩,-⟩ := h.infos p hp
    exact absurd ((hn f).symm.trans ho.1) (Option.some_ne_none _).symm
  · obtain ⟨f,⟨p,ho⟩,-⟩ := h.lowers l hl
    exact absurd ((hn f).symm.trans ho.1) (Option.some_ne_none _).symm

def twoMappings : List Action :=
  [.openFile {},.mmap 0 0 ⟨true,some (0,some ⟨7,true,false⟩)⟩,.start 0 (.readIter true),
    .mmap 0 0 ⟨true,none⟩]

theorem run_twoMappings : Run Step Vfs.init twoMappings (exec step Vfs.init twoMappings) :=
  (((Run.nil.snoc ⟨trivial,rfl⟩).snoc ⟨by decide,rfl⟩).snoc ⟨by decide,rfl⟩).snoc
    ⟨by decide,rfl⟩

theorem every_file_accounted (h : Run Step Vfs.init as s) : Accounted s ∧
    (s.fds = [] → s.calls = [] → s.maps = [] →
      (∀ p, s.heap.infos p = none) ∧ ∀ l, s.heap.refs l = 0) :=
  ⟨sound_accounted (run_known h).sound,accounted_idle (sound_accounted (run_known h).sound)⟩

theorem every_file_accounted_reading :
    Accounted (exec step Vfs.init twoMappings) := (every_file_accounted run_twoMappings).1

def bareMapping : List Action := [.openFile {},.mmap 0 0 {}]

theorem run_bareMapping : Run Step Vfs.init bareMapping (exec step Vfs.init bareMapping) :=
  (Run.nil.snoc ⟨trivial,rfl⟩).snoc ⟨by decide,rfl⟩

theorem faults_are_crashes (h : Run Step Vfs.init as s) (ha : Enabled s a) (x : Fault) :
    step s a = .error x ↔ Crash as a x := by
  refine ⟨fun he => ?_,crash_faults (run_known h) ha⟩
  rcases step_known (run_known h) ha with ⟨y,hy,hy'⟩ | ⟨t,ht,-⟩
  · rw [hy'] at he
    cases he
    exact hy
  · rw [ht] at he
    cases he

theorem faults_are_crashes_bare :
    step (exec step Vfs.init bareMapping) (.pageFault ⟨0,.upper 0,some .bkpfs⟩) = .error .bug :=
  (faults_are_crashes run_bareMapping (by decide) .bug).mpr (.unsaved (by decide))

theorem mappings_served {v : Vma} {ops : VmOps} (h : Run Step Vfs.init as s) (hv : v ∈ s.maps)
    (ho : firstOps v.upper as = some ops) :
    ∃ p l, s.Owns v.upper p l ∧ s.heap.refs l ≠ 0 ∧
      (ops.fault = true → bkpfsFault (s.privateData v.upper) v s.heap =
        .ok ⟨ops,{ v with vmFile := .lower l }⟩) ∧
      bkpfsPageMkwrite (s.privateData v.upper) v s.heap =
        .ok (if ops.pageMkwrite then some ⟨ops,{ v with vmFile := .lower l }⟩ else none) := by
  obtain ⟨p,l,how,hp,hr,hi⟩ := mapping_info (run_known h) hv
  refine ⟨p,l,how,hr,fun hf => ?_,?_⟩
  · rw [bkpfsFault,hp]
    simp [Heap.info,hi,ho,hf,hr,bind,Except.bind]
  · rw [bkpfsPageMkwrite,hp]
    cases hm : ops.pageMkwrite <;> simp [Heap.info,hi,ho,hm,hr,bind,Except.bind]

theorem mappings_served_second :
    ∃ p l, (exec step Vfs.init twoMappings).Owns 0 p l ∧
      bkpfsFault (some p) ⟨0,.upper 0,some .bkpfs⟩ (exec step Vfs.init twoMappings).heap =
        .ok ⟨⟨7,true,false⟩,⟨0,.lower l,some .bkpfs⟩⟩ := by
  have hfirst : firstOps 0 twoMappings = some ⟨7,true,false⟩ := by decide
  obtain ⟨p,l,ho,-,hf,-⟩ := mappings_served (v := ⟨0,.upper 0,some .bkpfs⟩) run_twoMappings
    (by decide) hfirst
  exact ⟨p,l,ho,by rw [← owns_privateData ho]; exact hf rfl⟩

end

end OpenFile
end BackupFs
