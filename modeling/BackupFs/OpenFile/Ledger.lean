import BackupFs.OpenFile.Protocol

namespace BackupFs
namespace OpenFile

open Refcount (held_get held_put held_pos held_congr)

section heap
variable {h : Heap} {p l : ℕ} {ops : Option VmOps}

theorem lowerFile_eq (hi : h.infos p = some ⟨some l,ops⟩) :
    bkpfsLowerFile (some p) h = .ok (some l) := by
  simp only [bkpfsLowerFile,Heap.info,hi]

theorem release_eq (hi : h.infos p = some ⟨some l,ops⟩) (hr : h.refs l ≠ 0) :
    bkpfsFileRelease (some p) h = .ok { h with
      infos := Function.update h.infos p none
      refs := Function.update h.refs l (h.refs l - 1) } := by
  rw [bkpfsFileRelease,lowerFile_eq hi]
  simp [bind,Except.bind,bkpfsSetLowerFile,hi,Heap.setInfo,Heap.fput,Refcount.put,hr,Heap.kfree]

def Heap.pin (h : Heap) (pins : Bool) (l : ℕ) : Heap :=
  if pins then { h with refs := Refcount.get h.refs l } else h

theorem enter_cases (pins op : Bool) (missing : Int) (hi : h.infos p = some ⟨some l,ops⟩)
    (hr : h.refs l ≠ 0) :
    (∃ err, enter pins op missing (some p) h = .ok (.returned err,h)) ∨
      enter pins op missing (some p) h = .ok (.inside l,h.pin pins l) := by
  rw [enter,lowerFile_eq hi]
  cases op with
  | false => exact .inl ⟨missing,rfl⟩
  | true =>
    cases pins with
    | false => exact .inr rfl
    | true =>
      refine .inr ?_
      simp [bind,Except.bind,Heap.getFile,hr,Heap.pin]

theorem guarded_cases (op : Bool) (missing : Int) (hi : h.infos p = some ⟨some l,ops⟩) :
    (∃ err, guarded op missing (some p) h = .ok (.returned err,h)) ∨
      guarded op missing (some p) h = .ok (.inside l,h) := by
  rw [guarded,lowerFile_eq hi]
  cases op with
  | false => exact .inl ⟨missing,rfl⟩
  | true => exact .inr rfl

theorem upperFirst_cases (generic : Option Errno) (hi : h.infos p = some ⟨some l,ops⟩)
    (hr : h.refs l ≠ 0) :
    (∃ err, upperFirst generic (some p) h = .ok (.returned err,h)) ∨
      upperFirst generic (some p) h = .ok (.inside l,h) := by
  cases generic with
  | some e => exact .inl ⟨e,rfl⟩
  | none => exact enter_cases false true 0 hi hr

theorem call_cases (m : Method) (hi : h.infos p = some ⟨some l,ops⟩) (hr : h.refs l ≠ 0) :
    (∃ err, m.call (some p) h = .ok (.returned err,h)) ∨
      m.call (some p) h = .ok (.inside l,h.pin m.pins l) := by
  cases m with
  | flush op => exact guarded_cases op 0 hi
  | compatIoctl op => exact guarded_cases op (-ENOTTY) hi
  | fsync generic => exact upperFirst_cases generic hi hr
  | llseek generic => exact upperFirst_cases generic hi hr
  | _ => exact enter_cases _ _ _ hi hr

theorem flush_cases (op : Bool) (hi : h.infos p = some ⟨some l,ops⟩) :
    (∃ err, bkpfsFlush op (some p) h = .ok (.returned err,h)) ∨
      bkpfsFlush op (some p) h = .ok (.inside l,h) := guarded_cases op 0 hi

theorem open_cases (w : OpenCall) (hf : ∀ p, h.next ≤ p → h.infos p = none ∧ h.refs p = 0) :
    (∃ err pd n, err ≠ 0 ∧ h.next ≤ n ∧ bkpfsOpen w h = .ok (err,pd,{ h with next := n })) ∨
      bkpfsOpen w h = .ok (0,some h.next,{ h with
        infos := Function.update h.infos h.next (some ⟨some (h.next + 1),none⟩)
        refs := Function.update h.refs (h.next + 1) 1
        next := h.next + 2 }) := by
  unfold bkpfsOpen
  split_ifs with hu hk
  · exact .inl ⟨_,_,h.next,by decide,le_rfl,rfl⟩
  · exact .inl ⟨_,_,h.next,by decide,le_rfl,rfl⟩
  · cases hd : w.dentryOpen with
    | some e =>
      have hn : Function.update h.infos h.next none = h.infos := by
        rw [← (hf h.next le_rfl).1,Function.update_eq_self]
      refine .inl ⟨e,some h.next,h.next + 1,e.2.ne,Nat.le_succ _,?_⟩
      simp [Heap.kzalloc,bind,Except.bind,bkpfsLowerFile,Heap.info,Heap.kfree,hn]
    | none =>
      refine .inr ?_
      simp [Heap.kzalloc,Heap.openLower,bind,Except.bind,bkpfsSetLowerFile,Heap.setInfo]

end heap

section pinned
variable {cs : List Call} {c : Call} {l : ℕ}

theorem pinned_cons : pinned (c :: cs) l = pinned cs l + if c.pins && c.lower == l then 1 else 0 :=
  List.countP_cons

theorem pinned_erase (hc : c ∈ cs) :
    pinned cs l = pinned (cs.erase c) l + if c.pins && c.lower == l then 1 else 0 := by
  rw [← pinned_cons]
  exact (List.perm_cons_erase hc).countP_eq _

theorem pinned_zero (h : ∀ c ∈ cs, c.lower ≠ l) : pinned cs l = 0 := by
  refine List.countP_eq_zero.mpr fun c hc => ?_
  simp [h c hc]

end pinned

section sound
variable {s : Vfs} {extra : Multiset ℕ} {f g : ℕ} {p q l m : ℕ}

theorem owns_pos (h : SoundWith extra s) (ho : s.Owns f p l) : 0 < s.counts f := by
  refine Nat.pos_of_ne_zero fun hz => ?_
  have hn := h.dead f hz
  rw [ho.1] at hn
  cases hn

theorem owns_refs (h : SoundWith extra s) (ho : s.Owns f p l) : s.heap.refs l ≠ 0 := by
  rw [h.refs f p l ho]
  omega

theorem owns_next (h : SoundWith extra s) (ho : s.Owns f p l) :
    p < s.heap.next ∧ l < s.heap.next := by
  obtain ⟨ops,hp⟩ := ho.2
  refine ⟨not_le.mp fun hn => ?_,not_le.mp fun hn => ?_⟩
  · rw [(h.fresh p hn).1] at hp
    cases hp
  · exact owns_refs h ho (h.fresh l hn).2

theorem owns_det (ho : s.Owns f p l) (hq : s.Owns f q m) : q = p ∧ m = l := by
  obtain ⟨hf,ops,hp⟩ := ho
  obtain ⟨hf',ops',hp'⟩ := hq
  rw [hf] at hf'
  cases hf'
  rw [hp] at hp'
  cases hp'
  exact ⟨rfl,rfl⟩

theorem owns_privateData (ho : s.Owns f p l) : s.privateData f = some p := by
  rw [Vfs.privateData,ho.1]
  rfl

theorem holder_owns (h : SoundWith extra s) (hf : f ∈ s.holders) : ∃ p l, s.Owns f p l :=
  h.live f ((held_pos h.counts).mpr (Multiset.mem_add.mpr (.inr hf)))

theorem fd_holder (hf : f ∈ s.fds) : f ∈ s.holders := by
  simp only [Vfs.holders,Multiset.mem_add,Multiset.mem_coe]
  exact .inl (.inl hf)

theorem call_holder {c : Call} (hc : c ∈ s.calls) : c.file ∈ s.holders := by
  simp only [Vfs.holders,Multiset.mem_add,Multiset.mem_coe]
  exact .inl (.inr (List.mem_map_of_mem hc))

theorem map_holder {v : Vma} (hv : v ∈ s.maps) : v.upper ∈ s.holders := by
  simp only [Vfs.holders,Multiset.mem_add,Multiset.mem_coe]
  exact .inr (List.mem_map_of_mem hv)

theorem sound_get (h : SoundWith extra s) (ho : s.Owns f p l) :
    SoundWith (f ::ₘ extra) { s with counts := Refcount.get s.counts f } := by
  have hpos : ∀ g, 0 < Refcount.get s.counts f g ↔ 0 < s.counts g := by
    intro g
    rcases eq_or_ne g f with rfl | hg
    · rw [Refcount.get_self]
      exact iff_of_true (Nat.succ_pos _) (owns_pos h ho)
    · rw [Refcount.get_of_ne hg]
  have hz : ∀ g, Refcount.get s.counts f g = 0 ↔ s.counts g = 0 := by
    intro g
    have := hpos g
    omega
  exact {
    counts := held_congr (held_get h.counts f) (Multiset.cons_add _ _ _).symm
    live := fun g hg => h.live g ((hpos g).mp hg)
    dead := fun g hg => h.dead g ((hz g).mp hg)
    info := h.info
    lower := h.lower
    infos := h.infos
    refs := h.refs
    unowned := h.unowned
    calls := h.calls
    maps := h.maps
    fresh := h.fresh
    files := fun g hg => (hz g).mpr (h.files g hg) }

theorem unheld_refs (h : SoundWith extra s) (ho : s.Owns f p l) (hf : f ∉ s.holders) :
    s.heap.refs l = 1 := by
  rw [h.refs f p l ho,pinned_zero]
  rintro c hc rfl
  obtain ⟨q,hq⟩ := h.calls c hc
  have he := h.lower _ _ _ _ _ hq ho
  exact hf (he ▸ call_holder hc)

structure Inherits (s t : Vfs) : Prop where
  next : t.next = s.next
  infos : ∀ f p i, t.files f = some (some p) → t.heap.infos p = some i →
    s.files f = some (some p) ∧ s.heap.infos p = some i

section release
variable {c : Refcount.Counts ℕ}

def Vfs.released (s : Vfs) (c : Refcount.Counts ℕ) (f : ℕ) (p l : ℕ) : Vfs :=
  { s with
    heap := { s.heap with
      infos := Function.update s.heap.infos p none
      refs := Function.update s.heap.refs l (s.heap.refs l - 1) }
    counts := c
    files := Function.update s.files f none }

theorem released_owns (h : SoundWith extra s) (ho : s.Owns f p l) :
    (s.released c f p l).Owns g q m ↔ g ≠ f ∧ s.Owns g q m := by
  unfold Vfs.released Vfs.Owns
  dsimp only
  constructor
  · rintro ⟨hg,ops,hi⟩
    have hne : g ≠ f := by
      rintro rfl
      rw [Function.update_self] at hg
      cases hg
    rw [Function.update_of_ne hne] at hg
    have hq : q ≠ p := by
      rintro rfl
      rw [Function.update_self] at hi
      cases hi
    rw [Function.update_of_ne hq] at hi
    exact ⟨hne,hg,ops,hi⟩
  · rintro ⟨hne,hg⟩
    have hq : q ≠ p := by
      rintro rfl
      exact hne (h.info _ _ _ _ _ hg ho)
    rw [Function.update_of_ne hne,Function.update_of_ne hq]
    exact hg

theorem released_sound (h : SoundWith extra s) (ho : s.Owns f p l)
    (hc : Refcount.Held c s.holders) (hf : c f = 0) (hcount : ∀ g, g ≠ f → c g = s.counts g) :
    Sound (s.released c f p l) := by
  have hnot : f ∉ s.holders := fun hm => absurd ((held_pos hc).mpr hm) (by omega)
  have hone := unheld_refs h ho hnot
  have hkeep {g : ℕ} {q m : ℕ} (hg : g ≠ f) (hq : s.Owns g q m) :
      (s.released c f p l).Owns g q m := (released_owns h ho).mpr ⟨hg,hq⟩
  have hback {g : ℕ} {q m : ℕ} (hq : (s.released c f p l).Owns g q m) :
      g ≠ f ∧ s.Owns g q m := (released_owns h ho).mp hq
  have hrefs {g : ℕ} {q m : ℕ} (hg : g ≠ f) (hq : s.Owns g q m) :
      Function.update s.heap.refs l (s.heap.refs l - 1) m = s.heap.refs m := by
    refine Function.update_of_ne ?_ ..
    rintro rfl
    exact hg (h.lower _ _ _ _ _ hq ho)
  refine {
    counts := held_congr hc (zero_add _).symm
    live := fun g hg => ?_
    dead := fun g hg => ?_
    info := fun g g' q m m' hq hq' => h.info _ _ _ _ _ (hback hq).2 (hback hq').2
    lower := fun g g' q q' m hq hq' => h.lower _ _ _ _ _ (hback hq).2 (hback hq').2
    infos := fun q hq => ?_
    refs := fun g q m hq => ?_
    unowned := fun m hm => ?_
    calls := fun d hd => ?_
    maps := h.maps
    fresh := fun q hq => ?_
    files := fun g hg => ?_ }
  · have hne : g ≠ f := by
      rintro rfl
      exact absurd hg (by simp [Vfs.released,hf])
    obtain ⟨q,m,hq⟩ := h.live g (hcount g hne ▸ hg)
    exact ⟨q,m,hkeep hne hq⟩
  · rcases eq_or_ne g f with rfl | hne
    · exact Function.update_self ..
    · exact (Function.update_of_ne hne ..).trans (h.dead g (hcount g hne ▸ hg))
  · have hne : q ≠ p := by
      rintro rfl
      exact hq (Function.update_self ..)
    obtain ⟨g,m,hg⟩ := h.infos q fun hn => hq ((Function.update_of_ne hne ..).trans hn)
    refine ⟨g,m,hkeep ?_ hg⟩
    rintro rfl
    exact hne (owns_det ho hg).1
  · obtain ⟨hne,hq⟩ := hback hq
    exact (hrefs hne hq).trans (h.refs g q m hq)
  · have hne : m ≠ l := by
      rintro rfl
      exact hm ((Function.update_self ..).trans (by rw [hone]))
    obtain ⟨g,q,hg⟩ := h.unowned m fun hz => hm ((Function.update_of_ne hne ..).trans hz)
    refine ⟨g,q,hkeep ?_ hg⟩
    rintro rfl
    exact hne (owns_det ho hg).2
  · obtain ⟨q,hq⟩ := h.calls d hd
    exact ⟨q,hkeep (fun he => hnot (he ▸ call_holder hd)) hq⟩
  · obtain ⟨hp,hl⟩ := owns_next h ho
    have hqp : q ≠ p := fun he => absurd hq (not_le.mpr (he ▸ hp))
    have hql : q ≠ l := fun he => absurd hq (not_le.mpr (he ▸ hl))
    exact ⟨(Function.update_of_ne hqp ..).trans (h.fresh q hq).1,
      (Function.update_of_ne hql ..).trans (h.fresh q hq).2⟩
  · rcases eq_or_ne g f with rfl | hne
    · exact hf
    · exact (hcount g hne).trans (h.files g hg)

theorem released_inherits (c : Refcount.Counts ℕ) (f : ℕ) (p l : ℕ) :
    Inherits s (s.released c f p l) where
  next := rfl
  infos := by
    unfold Vfs.released
    dsimp only
    intro g q i hg hi
    have hne : g ≠ f := by
      rintro rfl
      rw [Function.update_self] at hg
      cases hg
    have hq : q ≠ p := by
      rintro rfl
      rw [Function.update_self] at hi
      cases hi
    rw [Function.update_of_ne hne] at hg
    rw [Function.update_of_ne hq] at hi
    exact ⟨hg,hi⟩

theorem fput_sound (h : SoundWith {f} s) :
    ∃ t, s.fput f = .ok t ∧ Sound t ∧ Inherits s t := by
  have hheld : Refcount.Held s.counts (f ::ₘ s.holders) := h.counts
  obtain ⟨c,hc,hheld'⟩ := held_put hheld
  have hpos : 0 < s.counts f := (held_pos hheld).mpr (Multiset.mem_cons_self _ _)
  obtain ⟨p,l,ho⟩ := h.live f hpos
  have hcount : ∀ g, g ≠ f → c g = s.counts g := by
    intro g hg
    rw [Refcount.put,if_neg (by omega)] at hc
    cases hc
    exact Function.update_of_ne hg ..
  obtain ⟨ops,hi⟩ := ho.2
  rw [Vfs.fput,hc]
  dsimp only
  split_ifs with hz
  · rw [owns_privateData ho,release_eq hi (owns_refs h ho)]
    exact ⟨_,rfl,released_sound h ho hheld' hz hcount,released_inherits c f p l⟩
  · refine ⟨_,rfl,?_,rfl,fun g q i hg hi => ⟨hg,hi⟩⟩
    have hlive : ∀ g, 0 < c g ↔ 0 < s.counts g := by
      intro g
      rcases eq_or_ne g f with rfl | hg
      · exact iff_of_true (Nat.pos_of_ne_zero hz) hpos
      · rw [hcount g hg]
    exact {
      counts := held_congr hheld' (zero_add _).symm
      live := fun g hg => h.live g ((hlive g).mp hg)
      dead := fun g hg => h.dead g (Nat.eq_zero_of_not_pos fun hp =>
        absurd ((hlive g).mpr hp) (hg ▸ lt_irrefl _))
      info := h.info
      lower := h.lower
      infos := h.infos
      refs := h.refs
      unowned := h.unowned
      calls := h.calls
      maps := h.maps
      fresh := h.fresh
      files := fun g hg => Nat.eq_zero_of_not_pos fun hp =>
        absurd ((hlive g).mp hp) (h.files g hg ▸ lt_irrefl _) }

end release

end sound

end OpenFile
end BackupFs
