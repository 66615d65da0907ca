import BackupFs.OpenFile.Ledger

namespace BackupFs
namespace OpenFile

open Refcount (held_get held_congr)

def MmapCall.gives (w : MmapCall) : Option VmOps :=
  match w.mmap with
  | some (err,ops) => if err ≠ 0 then none else ops
  | none => none

-- the vm_ops that a lower mmap gives for `f`; a writable shared mapping needs a writepage below
def offered (f : ℕ) : Action → Option VmOps
  | .mmap g vmFlags w =>
    if g = f ∧ (willwrite vmFlags && !w.writepage) = false then w.gives else none
  | _ => none

def firstOps (f : ℕ) (as : List Action) : Option VmOps := as.findSome? (offered f)

inductive Crash (as : List Action) : Action → Fault → Prop
  | mmap {f vmFlags : ℕ} {w : MmapCall} (ho : firstOps f as = none)
      (hw : (willwrite vmFlags && !w.writepage) = false) (hm : w.mmap = none) :
      Crash as (.mmap f vmFlags w) .nullPointer
  | unsaved {v : Vma} (ho : firstOps v.upper as = none) : Crash as (.pageFault v) .bug
  | unhandled {v : Vma} {ops : VmOps} (ho : firstOps v.upper as = some ops)
      (hf : ops.fault = false) : Crash as (.pageFault v) .nullPointer
  | mkwrite {v : Vma} (ho : firstOps v.upper as = none) : Crash as (.mkwrite v) .bug

structure Known (as : List Action) (s : Vfs) : Prop where
  sound : Sound s
  ops : ∀ f p l ops, s.files f = some (some p) → s.heap.infos p = some ⟨some l,ops⟩ →
    ops = firstOps f as
  unseen : ∀ f, s.next ≤ f → firstOps f as = none

section steps
variable {s t : Vfs} {e e' : Multiset ℕ} {f p l : ℕ}

theorem relist (h : SoundWith e s) (fds : List ℕ) (maps : List Vma)
    (hh : e + s.holders = e' + Vfs.holders { s with fds := fds, maps := maps })
    (hm : ∀ v ∈ maps, v.vmFile = .upper v.upper ∧ v.vmOps = some .bkpfs) :
    SoundWith e' { s with fds := fds, maps := maps } where
  counts := held_congr h.counts hh
  live := h.live
  dead := h.dead
  info := h.info
  lower := h.lower
  infos := h.infos
  refs := h.refs
  unowned := h.unowned
  calls := h.calls
  maps := hm
  fresh := h.fresh
  files := h.files

theorem fds_sound (h : SoundWith {f} s) : Sound { s with fds := f :: s.fds } := by
  refine relist h (f :: s.fds) s.maps ?_ h.maps
  simp only [Vfs.holders,← Multiset.cons_coe,Multiset.singleton_add,Multiset.cons_add,zero_add]

theorem fds_erase_sound (h : Sound s) (hf : f ∈ s.fds) :
    SoundWith {f} { s with fds := s.fds.erase f } := by
  have he : (s.fds : Multiset ℕ) = f ::ₘ (s.fds.erase f : List ℕ) :=
    Multiset.coe_eq_coe.mpr (List.perm_cons_erase hf)
  refine relist h (s.fds.erase f) s.maps ?_ h.maps
  simp only [Vfs.holders,he,Multiset.singleton_add,Multiset.cons_add,zero_add]

theorem maps_sound {v : Vma} (h : SoundWith {v.upper} s) (hv : v.vmFile = .upper v.upper)
    (ho : v.vmOps = some .bkpfs) : Sound { s with maps := v :: s.maps } := by
  refine relist h s.fds (v :: s.maps) ?_ fun w hw => ?_
  · simp only [Vfs.holders,List.map_cons,← Multiset.cons_coe,Multiset.singleton_add,
      Multiset.add_cons,zero_add]
  · rcases List.mem_cons.mp hw with rfl | hw
    · exact ⟨hv,ho⟩
    · exact h.maps w hw

theorem maps_erase_sound {v : Vma} (h : Sound s) (hv : v ∈ s.maps) :
    SoundWith {v.upper} { s with maps := s.maps.erase v } := by
  have he : (s.maps.map Vma.upper : Multiset ℕ) =
      v.upper ::ₘ ((s.maps.erase v).map Vma.upper : List ℕ) :=
    Multiset.coe_eq_coe.mpr ((List.perm_cons_erase hv).map Vma.upper)
  refine relist h s.fds (s.maps.erase v) ?_ fun w hw => h.maps w (List.mem_of_mem_erase hw)
  simp only [Vfs.holders,he,Multiset.singleton_add,Multiset.add_cons,zero_add]

structure Recounts (s : Vfs) (h : Heap) (cs : List Call) : Prop where
  infos : h.infos = s.heap.infos
  next : h.next = s.heap.next
  owned : ∀ g q m, s.Owns g q m → h.refs m = 1 + pinned cs m
  unowned : ∀ m, h.refs m ≠ 0 → ∃ g q, s.Owns g q m
  calls : ∀ c ∈ cs, ∃ q, s.Owns c.file q c.lower

theorem recount {h' : Heap} {cs : List Call} (h : SoundWith e s) (hr : Recounts s h' cs)
    (hh : e + s.holders = e' + Vfs.holders { s with heap := h', calls := cs }) :
    SoundWith e' { s with heap := h', calls := cs } := by
  have howns {g : ℕ} {q m : ℕ} :
      Vfs.Owns { s with heap := h', calls := cs } g q m ↔ s.Owns g q m := by
    unfold Vfs.Owns
    rw [hr.infos]
  refine {
    counts := held_congr h.counts hh
    live := fun g hg => ?_
    dead := h.dead
    info := fun g g' q m m' hq hq' => h.info _ _ _ _ _ (howns.mp hq) (howns.mp hq')
    lower := fun g g' q q' m hq hq' => h.lower _ _ _ _ _ (howns.mp hq) (howns.mp hq')
    infos := fun q hq => ?_
    refs := fun g q m hq => hr.owned g q m (howns.mp hq)
    unowned := fun m hm => ?_
    calls := fun c hc => ?_
    maps := h.maps
    fresh := fun q hq => ?_
    files := h.files }
  · obtain ⟨q,m,hq⟩ := h.live g hg
    exact ⟨q,m,howns.mpr hq⟩
  · obtain ⟨g,m,hg⟩ := h.infos q (hr.infos ▸ hq)
    exact ⟨g,m,howns.mpr hg⟩
  · obtain ⟨g,q,hg⟩ := hr.unowned m hm
    exact ⟨g,q,howns.mpr hg⟩
  · obtain ⟨q,hq⟩ := hr.calls c hc
    exact ⟨q,howns.mpr hq⟩
  · have hq' : s.heap.next ≤ q := hr.next ▸ hq
    refine ⟨(congrFun hr.infos q).trans (h.fresh q hq').1,by_contra fun hz => ?_⟩
    obtain ⟨g,r,hg⟩ := hr.unowned q hz
    exact absurd (owns_next h hg).2 (not_lt.mpr hq')

theorem calls_sound (pins : Bool) (h : SoundWith {f} s) (ho : s.Owns f p l) :
    Sound { s with heap := s.heap.pin pins l, calls := ⟨f,l,pins⟩ :: s.calls } := by
  have hrefs : ∀ m, (s.heap.pin pins l).refs m =
      s.heap.refs m + if pins && l == m then 1 else 0 := by
    intro m
    unfold Heap.pin
    cases pins with
    | false => rfl
    | true =>
      rcases eq_or_ne m l with rfl | hm
      · simp [Refcount.get_self]
      · simp [Refcount.get_of_ne hm,hm.symm]
  refine recount h {
    infos := ?_
    next := ?_
    owned := fun g q m hq => ?_
    unowned := fun m hm => ?_
    calls := fun d hd => ?_ } ?_
  · unfold Heap.pin
    split_ifs <;> rfl
  · unfold Heap.pin
    split_ifs <;> rfl
  · rw [hrefs,pinned_cons,h.refs g q m hq,add_assoc]
  · rw [hrefs] at hm
    rcases eq_or_ne (s.heap.refs m) 0 with hz | hz
    · have hl : l = m := by
        by_contra hl
        simp [hz,hl] at hm
      exact ⟨f,p,hl ▸ ho⟩
    · exact h.unowned m hz
  · rcases List.mem_cons.mp hd with rfl | hd
    · exact ⟨p,ho⟩
    · exact h.calls d hd
  · simp only [Vfs.holders,List.map_cons,← Multiset.cons_coe,Multiset.singleton_add,
      Multiset.add_cons,Multiset.cons_add,zero_add]

theorem leave_cases {h : Heap} (pins : Bool) (hr : h.refs l ≠ 0) :
    ∃ h', leave pins l h = .ok h' ∧ h'.infos = h.infos ∧ h'.next = h.next ∧
      ∀ m, h.refs m = h'.refs m + if pins && l == m then 1 else 0 := by
  unfold leave
  rw [if_neg hr]
  cases pins with
  | false => exact ⟨h,rfl,rfl,rfl,fun m => rfl⟩
  | true =>
    refine ⟨⟨h.infos,Function.update h.refs l (h.refs l - 1),h.next⟩,?_,rfl,rfl,fun m => ?_⟩
    · simp [Heap.fput,Refcount.put,hr]
    · rcases eq_or_ne m l with rfl | hm
      · simp only [Function.update_self,beq_self_eq_true,Bool.and_self,if_true]
        omega
      · simp [Function.update_of_ne hm,hm.symm]

theorem leave_sound {c : Call} (h : Sound s) (hc : c ∈ s.calls) :
    ∃ h', leave c.pins c.lower s.heap = .ok h' ∧ h'.infos = s.heap.infos ∧
      SoundWith {c.file} { s with heap := h', calls := s.calls.erase c } := by
  obtain ⟨p,ho⟩ := h.calls c hc
  obtain ⟨h',he,hin,hnext,hrefs⟩ := leave_cases c.pins (owns_refs h ho)
  have hcalls : (s.calls.map Call.file : Multiset ℕ) =
      c.file ::ₘ ((s.calls.erase c).map Call.file : List ℕ) :=
    Multiset.coe_eq_coe.mpr ((List.perm_cons_erase hc).map Call.file)
  refine ⟨h',he,hin,recount h {
    infos := hin
    next := hnext
    owned := fun g q m hq => ?_
    unowned := fun m hm => h.unowned m ?_
    calls := fun d hd => h.calls d (List.mem_of_mem_erase hd) } ?_⟩
  · have h1 := h.refs g q m hq
    have h2 := pinned_erase (l := m) hc
    have h3 := hrefs m
    omega
  · have h3 := hrefs m
    omega
  · simp only [Vfs.holders,hcalls,Multiset.singleton_add,Multiset.add_cons,Multiset.cons_add,
      zero_add]

def Vfs.added (s : Vfs) : Vfs :=
  { s with
    heap := { s.heap with
      infos := Function.update s.heap.infos s.heap.next (some ⟨some (s.heap.next + 1),none⟩)
      refs := Function.update s.heap.refs (s.heap.next + 1) 1
      next := s.heap.next + 2 }
    files := Function.update s.files s.next (some (some s.heap.next))
    counts := Refcount.get s.counts s.next
    fds := s.next :: s.fds
    next := s.next + 1 }

theorem added_owns (h : Sound s) {g : ℕ} {q m : ℕ} : s.added.Owns g q m ↔
    s.Owns g q m ∨ g = s.next ∧ q = s.heap.next ∧ m = s.heap.next + 1 := by
  unfold Vfs.added Vfs.Owns
  dsimp only
  have hnone : s.files s.next = none := h.dead _ (h.files _ le_rfl)
  have hinfo : s.heap.infos s.heap.next = none := (h.fresh _ le_rfl).1
  rcases eq_or_ne g s.next with rfl | hg
  · rw [Function.update_self,hnone]
    constructor
    · rintro ⟨hq,ops,hi⟩
      cases hq
      rw [Function.update_self] at hi
      cases hi
      exact .inr ⟨rfl,rfl,rfl⟩
    · rintro (⟨hq,_⟩ | ⟨-,rfl,rfl⟩)
      · cases hq
      · exact ⟨rfl,none,Function.update_self ..⟩
  · rw [Function.update_of_ne hg]
    constructor
    · rintro ⟨hq,ops,hi⟩
      have hne : q ≠ s.heap.next := by
        rintro rfl
        obtain ⟨q',m',ho⟩ := h.live g (Nat.pos_of_ne_zero fun hz => by
          rw [h.dead g hz] at hq
          cases hq)
        have ho' := owns_next h ho
        have hf := ho.1
        rw [hq] at hf
        cases hf
        omega
      rw [Function.update_of_ne hne] at hi
      exact .inl ⟨hq,ops,hi⟩
    · rintro (⟨hq,ops,hi⟩ | ⟨rfl,-,-⟩)
      · have hne : q ≠ s.heap.next := by
          rintro rfl
          rw [hinfo] at hi
          cases hi
        exact ⟨hq,ops,(Function.update_of_ne hne ..).trans hi⟩
      · exact absurd rfl hg

theorem added_sound (h : Sound s) : Sound s.added := by
  have hrefs {m : ℕ} (hm : m ≠ s.heap.next + 1) : s.added.heap.refs m = s.heap.refs m :=
    Function.update_of_ne hm ..
  have hold {g : ℕ} {q m : ℕ} (hq : s.Owns g q m) : s.added.Owns g q m :=
    (added_owns h).mpr (.inl hq)
  have hnew : s.added.Owns s.next s.heap.next (s.heap.next + 1) :=
    (added_owns h).mpr (.inr ⟨rfl,rfl,rfl⟩)
  have hcount {g : ℕ} (hg : g ≠ s.next) : s.added.counts g = s.counts g :=
    Refcount.get_of_ne hg
  refine {
    counts := ?_
    live := fun g hg => ?_
    dead := fun g hg => ?_
    info := fun g g' q m m' hq hq' => ?_
    lower := fun g g' q q' m hq hq' => ?_
    infos := fun q hq => ?_
    refs := fun g q m hq => ?_
    unowned := fun m hm => ?_
    calls := fun c hc => ?_
    maps := h.maps
    fresh := fun q hq => ?_
    files := fun g hg => ?_ }
  · refine held_congr (held_get h.counts s.next) ?_
    simp only [Vfs.added,Vfs.holders,← Multiset.cons_coe,Multiset.cons_add,zero_add]
  · rcases eq_or_ne g s.next with rfl | hne
    · exact ⟨_,_,hnew⟩
    · obtain ⟨q,m,hq⟩ := h.live g (hcount hne ▸ hg)
      exact ⟨q,m,hold hq⟩
  · have hne : g ≠ s.next := by
      rintro rfl
      exact absurd (Refcount.get_self.symm.trans hg) (Nat.succ_ne_zero _)
    exact (Function.update_of_ne hne ..).trans (h.dead g (hcount hne ▸ hg))
  · rcases (added_owns h).mp hq with hq | ⟨rfl,rfl,rfl⟩ <;>
      rcases (added_owns h).mp hq' with hq' | ⟨rfl,hp,rfl⟩
    · exact h.info _ _ _ _ _ hq hq'
    · exact absurd (owns_next h hq).1 (by omega)
    · exact absurd (owns_next h hq').1 (by omega)
    · rfl
  · rcases (added_owns h).mp hq with hq | ⟨rfl,rfl,rfl⟩ <;>
      rcases (added_owns h).mp hq' with hq' | ⟨rfl,rfl,hp⟩
    · exact h.lower _ _ _ _ _ hq hq'
    · exact absurd (owns_next h hq).2 (by omega)
    · exact absurd (owns_next h hq').2 (by omega)
    · rfl
  · rcases eq_or_ne q s.heap.next with rfl | hne
    · exact ⟨_,_,hnew⟩
    · obtain ⟨g,m,hg⟩ := h.infos q fun hn => hq ((Function.update_of_ne hne ..).trans hn)
      exact ⟨g,m,hold hg⟩
  · rcases (added_owns h).mp hq with hq | ⟨rfl,rfl,rfl⟩
    · rw [hrefs (by have := (owns_next h hq).2; omega)]
      exact h.refs g q m hq
    · refine (Function.update_self ..).trans ?_
      rw [pinned_zero]
      intro c hc he
      obtain ⟨q,hq⟩ := h.calls c hc
      exact absurd (owns_next h hq).2 (by omega)
  · rcases eq_or_ne m (s.heap.next + 1) with rfl | hne
    · exact ⟨_,_,hnew⟩
    · obtain ⟨g,q,hg⟩ := h.unowned m (hrefs hne ▸ hm)
      exact ⟨g,q,hold hg⟩
  · obtain ⟨q,hq⟩ := h.calls c hc
    exact ⟨q,hold hq⟩
  · have hle : s.heap.next + 2 ≤ q := hq
    obtain ⟨h1,h2⟩ := h.fresh q (by omega)
    exact ⟨(Function.update_of_ne (by omega) ..).trans h1,(hrefs (by omega)).trans h2⟩
  · have hle : s.next + 1 ≤ g := hg
    exact (hcount (by omega)).trans (h.files g (by omega))

theorem skipped_sound (h : SoundWith e s) {n k : ℕ} (hn : s.heap.next ≤ n) (hk : s.next ≤ k) :
    SoundWith e { s with heap := { s.heap with next := n }, next := k } where
  counts := h.counts
  live := h.live
  dead := h.dead
  info := h.info
  lower := h.lower
  infos := h.infos
  refs := h.refs
  unowned := h.unowned
  calls := h.calls
  maps := h.maps
  fresh := fun q hq => h.fresh q (hn.trans hq)
  files := fun g hg => h.files g (hk.trans hg)

theorem setOps_owns {ops ops' : Option VmOps} (hi : s.heap.infos p = some ⟨some l,ops⟩) {g : ℕ}
    {q m : ℕ} : Vfs.Owns { s with heap := s.heap.setInfo p ⟨some l,ops'⟩ } g q m ↔
      s.Owns g q m := by
  unfold Vfs.Owns Heap.setInfo
  dsimp only
  refine and_congr_right fun _ => ?_
  rcases eq_or_ne q p with rfl | hq
  · rw [Function.update_self,hi]
    constructor <;>
    · rintro ⟨_,he⟩
      cases he
      exact ⟨_,rfl⟩
  · rw [Function.update_of_ne hq]

theorem setOps_sound {ops ops' : Option VmOps} (h : SoundWith e s)
    (hi : s.heap.infos p = some ⟨some l,ops⟩) :
    SoundWith e { s with heap := s.heap.setInfo p ⟨some l,ops'⟩ } where
  counts := h.counts
  live := fun g hg => by
    obtain ⟨q,m,hq⟩ := h.live g hg
    exact ⟨q,m,(setOps_owns hi).mpr hq⟩
  dead := h.dead
  info := fun g g' q m m' hq hq' =>
    h.info _ _ _ _ _ ((setOps_owns hi).mp hq) ((setOps_owns hi).mp hq')
  lower := fun g g' q q' m hq hq' =>
    h.lower _ _ _ _ _ ((setOps_owns hi).mp hq) ((setOps_owns hi).mp hq')
  infos := fun q hq => by
    have hne : s.heap.infos q ≠ none := by
      rcases eq_or_ne q p with rfl | hqp
      · rw [hi]
        exact Option.some_ne_none _
      · exact fun hn => hq ((Function.update_of_ne hqp ..).trans hn)
    obtain ⟨g,m,hg⟩ := h.infos q hne
    exact ⟨g,m,(setOps_owns hi).mpr hg⟩
  refs := fun g q m hq => h.refs g q m ((setOps_owns hi).mp hq)
  unowned := fun m hm => by
    obtain ⟨g,q,hg⟩ := h.unowned m hm
    exact ⟨g,q,(setOps_owns hi).mpr hg⟩
  calls := fun c hc => by
    obtain ⟨q,hq⟩ := h.calls c hc
    exact ⟨q,(setOps_owns hi).mpr hq⟩
  maps := h.maps
  fresh := fun q hq => by
    have hne : q ≠ p := by
      rintro rfl
      exact absurd ((h.fresh q hq).1.symm.trans hi) (Option.some_ne_none _).symm
    exact ⟨(Function.update_of_ne hne ..).trans (h.fresh q hq).1,(h.fresh q hq).2⟩
  files := h.files

end steps

end OpenFile
end BackupFs
