import BackupFs.Buffers.Formats
import BackupFs.Client.Agreement

namespace BackupFs

open Transition

def refs (o : Obj) (es : List Event) : Int := (es.count (.get o) : Int) - es.count (.put o)

def KernelCall.Managing : KernelCall → Prop
  | .write _ _ => True
  | .ioctl cmd _ => cmd = 1000 ∨ cmd = 1001 ∨ cmd = 1002 ∨ cmd = 1003

def KernelCall.TakesNothing (L : Lower) (J : Junk) (f : File) (d : Disk) : KernelCall → Prop
  | .write _ _ => False
  | .ioctl cmd q => L.lowerFile = false ∨ cmd = 1003 ∨
      cmd = 1000 ∧ q.version = 0 ∧ counter L J f d ≤ 0

def ReturnStep (f : File) (s : Sys) (a : Issued) (t : Sys) : Prop :=
  KernelStep f s a t ∧ a.call.Managing ∧
    (a.call.execute a.lower a.junk f s).1 ≠ .oops

def TakesNothingStep (f : File) (s : Sys) (a : Issued) (t : Sys) : Prop :=
  KernelStep f s a t ∧ a.call.Managing ∧ a.call.TakesNothing a.lower a.junk f s.disk

section
variable {S : Role → Name → Prop} {s t : Sys} {L : Lower} {J : Junk} {f : File} {q : Request}
  {o : Obj} {c : KernelCall}

theorem refs_append (o : Obj) (es es' : List Event) :
    refs o (es ++ es') = refs o es + refs o es' := by
  rw [refs,refs,refs,List.count_append,List.count_append]
  omega

theorem get_injective : Function.Injective Event.get := fun _ _ h => Event.get.inj h

theorem put_injective : Function.Injective Event.put := fun _ _ h => Event.put.inj h

theorem refs_gets (o : Obj) (os : List Obj) : refs o (os.map .get) = os.count o := by
  have hp : (os.map Event.get).count (.put o) = 0 := List.count_eq_zero_of_not_mem (by simp)
  rw [refs,List.count_map_of_injective os _ get_injective,hp]
  omega

theorem refs_puts (o : Obj) (os : List Obj) : refs o (os.map .put) = -os.count o := by
  have hp : (os.map Event.put).count (.get o) = 0 := List.count_eq_zero_of_not_mem (by simp)
  rw [refs,List.count_map_of_injective os _ put_injective,hp]
  omega

theorem refs_bracket (o : Obj) (os : List Obj) {e : Event} (he : e.asks ≠ none) :
    refs o (os.map .get ++ e :: os.reverse.map .put) = 0 := by
  have hz : refs o [e] = 0 := by
    have hg : e ≠ .get o := by
      rintro rfl
      exact he rfl
    have hp : e ≠ .put o := by
      rintro rfl
      exact he rfl
    simp [refs,hg,hp]
  rw [← List.singleton_append,refs_append,refs_append,refs_gets,refs_puts,List.count_reverse,hz]
  omega

theorem refs_piece {p : List Event} (h : Piece S p) :
    0 ≤ refs o p ∧ refs .dirLock p = 0 := by
  cases h with
  | taken o' ho =>
    have hg : refs o [.get o'] = [o'].count o := refs_gets o [o']
    have hl : refs .dirLock [.get o'] = [o'].count .dirLock := refs_gets .dirLock [o']
    rw [List.count_eq_zero_of_not_mem (by simpa using ho.symm)] at hl
    exact ⟨by omega,hl⟩
  | bracket os he h =>
    have hn : ∀ o, refs o (os.map .get ++ _ :: os.reverse.map .put) = 0 := fun o =>
      refs_bracket o os (by rw [he]; simp)
    exact ⟨(hn o).ge,hn _⟩

theorem traced_refs (h : Traced S s t) :
    refs o s.trace ≤ refs o t.trace ∧ refs .dirLock t.trace = refs .dirLock s.trace := by
  obtain ⟨ps,hp,ht⟩ := h
  have hflat : ∀ ps : List (List Event), (∀ p ∈ ps, Piece S p) →
      0 ≤ refs o ps.flatten ∧ refs .dirLock ps.flatten = 0 := by
    intro ps
    induction ps with
    | nil => exact fun _ => ⟨le_rfl,rfl⟩
    | cons p ps ih =>
      intro h
      obtain ⟨h1,h2⟩ := List.forall_mem_cons.mp h
      obtain ⟨h3,h4⟩ := refs_piece (o := o) h1
      obtain ⟨h5,h6⟩ := ih h2
      rw [List.flatten_cons,refs_append,refs_append]
      omega
  obtain ⟨h1,h2⟩ := hflat ps hp
  rw [ht,refs_append,refs_append]
  omega

theorem refs_parent (h : Traced S (s.emit [.get .parent]) t) :
    refs .parent s.trace + 1 ≤ refs .parent t.trace := by
  have hp : refs .parent (s.emit [.get .parent]).trace = refs .parent s.trace + 1 :=
    refs_append .parent s.trace [.get .parent]
  have ht := (traced_refs (o := .parent) h).1
  omega

theorem managing_traced (hc : c.Managing) (h : ¬ c.TakesNothing L J f s.disk) :
    Traced (fun _ _ => True) (s.emit [.get .parent]) (c.execute L J f s).2.1 := by
  cases c with
  | write pos buf => exact traced_write (fun _ _ => trivial) pos buf
  | ioctl cmd q =>
    obtain ⟨hl,h3,h0⟩ : L.lowerFile ≠ false ∧ cmd ≠ 1003 ∧
        ¬ (cmd = 1000 ∧ q.version = 0 ∧ counter L J f s.disk ≤ 0) := by
      simpa [KernelCall.TakesNothing] using h
    rw [Bool.ne_false_iff] at hl
    change Traced _ _ (bkpfsUnlockedIoctl L J f cmd q s).2.1
    rcases hc with rfl | rfl | rfl | rfl
    · by_cases hv : q.version = 0
      · rw [ioctl_deleteAll J f s hl hv]
        have hk : (counter L J f s.disk).toNat ≠ 0 := fun hk => h0 ⟨rfl,hv,by omega⟩
        have ht : Traced (fun _ _ => True) (if (counter L J f s.disk).toNat = 0 then s
            else s.emit [.get .parent]) (deleteAll L J f q s).2 :=
          traced_deleteAll fun _ _ => trivial
        rw [if_neg hk] at ht
        exact ht
      · rw [ioctl_deleteOne J f s hl hv]
        exact traced_deleteOne trivial
    · rw [ioctl_restore J f s hl]
      exact traced_restore fun _ _ => trivial
    · rw [ioctl_view J f s hl]
      exact traced_view fun _ _ => trivial
    · exact absurd rfl h3

theorem takesNothing_trace (h : c.TakesNothing L J f s.disk) :
    (c.execute L J f s).2.1.trace = s.trace := by
  cases c with
  | write pos buf => cases h
  | ioctl cmd q =>
    change (bkpfsUnlockedIoctl L J f cmd q s).2.1.trace = _
    rcases h with h | rfl | h
    · exact ioctl_silent (.inl h)
    · rw [ioctl_unchanged (by decide) (by decide) (by decide)]
    · exact ioctl_silent (.inr h)

theorem takesNothing_returns (h : c.TakesNothing L J f s.disk) :
    (c.execute L J f s).1 ≠ .oops := by
  cases c with
  | write pos buf => cases h
  | ioctl cmd q =>
    change (bkpfsUnlockedIoctl L J f cmd q s).1 ≠ .oops
    rcases Bool.eq_false_or_eq_true L.lowerFile with hl | hl
    · rcases h with h | rfl | ⟨rfl,hv,h⟩
      · rw [hl] at h
        cases h
      · rw [ioctl_list J f s hl,list]
        dsimp only
        split_ifs <;> simp
      · rw [ioctl_deleteAll J f s hl hv,deleteAll,Int.toNat_of_nonpos h]
        simp [deleteLoop]
    · rw [ioctl_noFile J f s hl]
      simp

theorem return_refs {a : Issued} (h : ReturnStep f s a t) (o : Obj) :
    refs o s.trace ≤ refs o t.trace ∧ refs .dirLock t.trace = refs .dirLock s.trace := by
  rw [h.1]
  exact traced_refs (execute_traced a.call)

theorem returns_refs {calls : List Issued} (h : Run (ReturnStep f) s calls t) (o : Obj) :
    refs o s.trace ≤ refs o t.trace ∧ refs .dirLock t.trace = refs .dirLock s.trace :=
  h.invariant (fun u => refs o s.trace ≤ refs o u.trace ∧
      refs .dirLock u.trace = refs .dirLock s.trace)
    (fun _ _ _ hu hs => ⟨hu.1.trans (return_refs hs o).1,(return_refs hs o).2.trans hu.2⟩)
    ⟨le_rfl,rfl⟩

theorem return_step_iff {a : Issued} (h : ReturnStep f s a t) :
    (∀ o, refs o t.trace = refs o s.trace) ↔ a.call.TakesNothing a.lower a.junk f s.disk := by
  constructor
  · intro ht
    by_contra hn
    have hp := refs_parent (managing_traced h.2.1 hn)
    rw [← h.1,ht] at hp
    omega
  · intro hn o
    rw [h.1,takesNothing_trace hn]

end

theorem references_balanced_iff (f : File) (s t : Sys) (calls : List Issued) :
    (Run (ReturnStep f) s calls t ∧ ∀ o, refs o t.trace = refs o s.trace) ↔
      Run (TakesNothingStep f) s calls t := by
  constructor
  · rintro ⟨h,ht⟩
    induction h with
    | nil => exact .nil
    | @snoc calls a t u h ha ih =>
      -- no call gives back what another took
      have hmid : ∀ o, refs o t.trace = refs o s.trace := fun o =>
        le_antisymm ((return_refs ha o).1.trans (ht o).le) (returns_refs h o).1
      have hstep := (return_step_iff ha).mp fun o => (ht o).trans (hmid o).symm
      exact (ih hmid).snoc ⟨ha.1,ha.2.1,hstep⟩
  · intro h
    induction h with
    | nil => exact ⟨.nil,fun _ => rfl⟩
    | snoc h ha ih =>
      have hret : ReturnStep f _ _ _ := ⟨ha.1,ha.2.1,takesNothing_returns ha.2.2⟩
      exact ⟨ih.1.snoc hret,fun o => ((return_step_iff hret).mpr ha.2.2 o).trans (ih.2 o)⟩

theorem write_keeps_parent : ¬ ∀ (f : File) (s t : Sys) (calls : List Issued),
    Run (ReturnStep f) s calls t → ∀ o, refs o t.trace = refs o s.trace := by
  intro h
  have hs : ReturnStep aTxt ⟨Disk.single aTxt {},[]⟩ ⟨{},{},.write 0 [1]⟩ _ :=
    ⟨rfl,trivial,by decide +kernel⟩
  have hp := h _ _ _ _ (Run.single hs) .parent
  revert hp
  decide +kernel

end BackupFs
