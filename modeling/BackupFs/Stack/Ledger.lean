import BackupFs.Stack.Mount

namespace BackupFs
namespace Stack

open Refcount (Held held_get held_put held_pos held_congr)

-- every count is the number of its holders: the dentries `ds`, the inode cache, and what a
-- running function holds besides (P paths, U inodes of the mount, L inodes below, k infos)
structure Ledger (ds : List Dentry) (P : Multiset LowerPath) (U L : Multiset ℕ) (k : ℕ)
    (s : State) : Prop where
  lower : Held s.lowerInodes (s.icache.map UpperInode.lower + L)
  counts : Held s.iCounts (ds.filterMap Dentry.inode + U)
  paths : Held s.lowerPaths (ds.filterMap Dentry.path + P)
  infos : s.infos = (ds.countP fun d => d.fsdata.isSome) + k
  lowers : (s.icache.map UpperInode.lower).Nodup
  ids : (s.icache.map UpperInode.id).Nodup
  cached : ∀ u, 0 < s.iCounts u ↔ u ∈ s.icache.map UpperInode.id
  fresh : ∀ v ∈ s.icache, v.id < s.next

structure Frame (s t : State) : Prop where
  root : t.root = s.root
  dentries : t.dentries = s.dentries
  sFsInfo : t.sFsInfo = s.sFsInfo
  sActive : t.sActive = s.sActive
  devs : t.devs = s.devs

theorem Frame.refl (s : State) : Frame s s := ⟨rfl,rfl,rfl,rfl,rfl⟩

theorem Frame.trans {s t u : State} (h : Frame s t) (h' : Frame t u) : Frame s u where
  root := h'.root.trans h.root
  dentries := h'.dentries.trans h.dentries
  sFsInfo := h'.sFsInfo.trans h.sFsInfo
  sActive := h'.sActive.trans h.sActive
  devs := h'.devs.trans h.devs

theorem Frame.all {s t : State} (h : Frame s t) : t.all = s.all := by
  rw [State.all,h.root,h.dentries,State.all]

section
variable {s : State} {ds : List Dentry} {d : Dentry} {P : Multiset LowerPath} {U L : Multiset ℕ}
  {p : LowerPath} {i u k : ℕ}

theorem ledger_pathGet (h : Ledger ds P U L k s) (p : LowerPath) :
    Ledger ds (p ::ₘ P) U L k (s.pathGet p) where
  lower := h.lower
  counts := h.counts
  paths := held_congr (held_get h.paths p) (Multiset.add_cons ..).symm
  infos := h.infos
  lowers := h.lowers
  ids := h.ids
  cached := h.cached
  fresh := h.fresh

theorem ledger_pathPut (h : Ledger ds (p ::ₘ P) U L k s) :
    ∃ t, s.pathPut p = .ok t ∧ Ledger ds P U L k t ∧ Frame s t := by
  obtain ⟨c,hc,hheld⟩ := held_put (held_congr h.paths (Multiset.add_cons ..))
  rw [State.pathPut,hc]
  exact ⟨_,rfl,⟨h.lower,h.counts,hheld,h.infos,h.lowers,h.ids,h.cached,h.fresh⟩,
    rfl,rfl,rfl,rfl,rfl⟩

theorem ledger_lowerGet (h : Ledger ds P U L k s) (i : ℕ) :
    Ledger ds P U (i ::ₘ L) k (s.lowerGet i) where
  lower := held_congr (held_get h.lower i) (Multiset.add_cons ..).symm
  counts := h.counts
  paths := h.paths
  infos := h.infos
  lowers := h.lowers
  ids := h.ids
  cached := h.cached
  fresh := h.fresh

theorem ledger_lowerIput (h : Ledger ds P U (i ::ₘ L) k s) :
    ∃ t, s.lowerIput i = .ok t ∧ Ledger ds P U L k t ∧ Frame s t := by
  obtain ⟨c,hc,hheld⟩ := held_put (held_congr h.lower (Multiset.add_cons ..))
  rw [State.lowerIput,hc]
  exact ⟨_,rfl,⟨hheld,h.counts,h.paths,h.infos,h.lowers,h.ids,h.cached,h.fresh⟩,
    rfl,rfl,rfl,rfl,rfl⟩

theorem find_id {us : List UpperInode} (hn : (us.map UpperInode.id).Nodup) {v : UpperInode}
    (hv : v ∈ us) : (us.find? fun w => w.id == v.id) = some v := by
  induction us with
  | nil => cases hv
  | cons w us ih =>
    rw [List.map_cons,List.nodup_cons] at hn
    rcases List.mem_cons.mp hv with rfl | hv
    · exact List.find?_cons_of_pos (by simp)
    · have hne : w.id ≠ v.id := fun he => hn.1 (he ▸ List.mem_map_of_mem hv)
      rw [List.find?_cons_of_neg (by simpa using hne)]
      exact ih hn.2 hv

theorem erase_map {us : List UpperInode} {v : UpperInode} (hv : v ∈ us) (f : UpperInode → ℕ) :
    (us.map f : Multiset ℕ) = f v ::ₘ ((us.erase v).map f : List ℕ) :=
  Multiset.coe_eq_coe.mpr ((List.perm_cons_erase hv).map f)

theorem erase_nodup {us : List UpperInode} {v : UpperInode} (hv : v ∈ us) {f : UpperInode → ℕ}
    (hn : (us.map f).Nodup) : ((us.erase v).map f).Nodup ∧ f v ∉ (us.erase v).map f := by
  have hp : (us.map f).Perm (f v :: (us.erase v).map f) := (List.perm_cons_erase hv).map f
  have hc := hp.nodup_iff.mp hn
  rw [List.nodup_cons] at hc
  exact ⟨hc.2,hc.1⟩

-- the last reference evicts the inode, and with it goes its reference below
theorem ledger_iput (h : Ledger ds P (u ::ₘ U) L k s) :
    ∃ t, iput u s = .ok t ∧ Ledger ds P U L k t ∧ Frame s t := by
  have hheld := held_congr h.counts (Multiset.add_cons ..)
  have hpos : 0 < s.iCounts u := (held_pos hheld).mpr (Multiset.mem_cons_self _ _)
  obtain ⟨c,hc,hheld'⟩ := held_put hheld
  have hother : ∀ w, w ≠ u → c w = s.iCounts w := by
    intro w hw
    rw [Refcount.put,if_neg (by omega)] at hc
    cases hc
    exact Function.update_of_ne hw ..
  obtain ⟨v,hv,hid⟩ := List.mem_map.mp ((h.cached u).mp hpos)
  rw [iput,hc]
  dsimp only
  split_ifs with hz
  · have hf : (s.icache.find? fun w => w.id == u) = some v := hid ▸ find_id h.ids hv
    obtain ⟨hn,hnot⟩ := erase_nodup hv h.ids
    have hlower : Held s.lowerInodes
        (v.lower ::ₘ (((s.icache.erase v).map UpperInode.lower : List ℕ) + L)) :=
      held_congr h.lower (by rw [erase_map hv,Multiset.cons_add])
    obtain ⟨c',hc',hheld''⟩ := held_put hlower
    rw [hf]
    dsimp only
    rw [bkpfsEvictInode,State.lowerIput,hc']
    refine ⟨_,rfl,⟨hheld'',hheld',h.paths,h.infos,(erase_nodup hv h.lowers).1,hn,fun w => ?_,
      fun w hw => h.fresh w (List.mem_of_mem_erase hw)⟩,rfl,rfl,rfl,rfl,rfl⟩
    rcases eq_or_ne w u with rfl | hw
    · refine iff_of_false (by simp [hz]) ?_
      exact hid ▸ hnot
    · dsimp only
      rw [hother w hw,h.cached w,← Multiset.mem_coe,erase_map hv,Multiset.mem_cons,hid]
      exact or_iff_right hw
  · refine ⟨_,rfl,⟨h.lower,hheld',h.paths,h.infos,h.lowers,h.ids,fun w => ?_,h.fresh⟩,
      rfl,rfl,rfl,rfl,rfl⟩
    rcases eq_or_ne w u with rfl | hw
    · exact iff_of_true (Nat.pos_of_ne_zero hz) ((h.cached _).mp hpos)
    · dsimp only
      rw [hother w hw,h.cached w]

theorem ledger_cached {v : UpperInode} (h : Ledger ds P U L k s) (hv : v ∈ s.icache) :
    Ledger ds P (v.id ::ₘ U) L k { s with iCounts := Refcount.get s.iCounts v.id } where
  lower := h.lower
  counts := held_congr (held_get h.counts v.id) (Multiset.add_cons ..).symm
  paths := h.paths
  infos := h.infos
  lowers := h.lowers
  ids := h.ids
  cached := fun w => by
    refine Refcount.get_pos.trans ?_
    rw [h.cached w]
    refine or_iff_right_of_imp ?_
    rintro rfl
    exact List.mem_map_of_mem hv
  fresh := h.fresh

theorem ledger_unseen (h : Ledger ds P U L k s) : s.iCounts s.next = 0 := by
  refine Nat.eq_zero_of_not_pos fun hpos => ?_
  obtain ⟨v,hv,he⟩ := List.mem_map.mp ((h.cached _).mp hpos)
  exact absurd (h.fresh v hv) (he ▸ lt_irrefl _)

theorem ledger_new (h : Ledger ds P U (i ::ₘ L) k s)
    (hi : i ∉ s.icache.map UpperInode.lower) :
    Ledger ds P (s.next ::ₘ U) L k { s with
      icache := ⟨s.next,i⟩ :: s.icache
      iCounts := Refcount.get s.iCounts s.next
      next := s.next + 1 } where
  lower := held_congr h.lower (by
    rw [List.map_cons,← Multiset.cons_coe,Multiset.add_cons,Multiset.cons_add])
  counts := held_congr (held_get h.counts s.next) (Multiset.add_cons ..).symm
  paths := h.paths
  infos := h.infos
  lowers := List.nodup_cons.mpr ⟨hi,h.lowers⟩
  ids := by
    refine List.nodup_cons.mpr ⟨fun hm => ?_,h.ids⟩
    have hpos := (h.cached s.next).mpr hm
    exact absurd (ledger_unseen h) hpos.ne'
  cached := fun w => by
    refine Refcount.get_pos.trans ?_
    rw [h.cached w,List.map_cons,List.mem_cons]
  fresh := fun v hv => by
    rcases List.mem_cons.mp hv with rfl | hv
    · exact Nat.lt_succ_self _
    · exact (h.fresh v hv).trans (Nat.lt_succ_self _)

theorem ledger_iget (h : Ledger ds P U L k s) (w : IgetCall) (i : ℕ) :
    (∃ e t, bkpfsIget w (some i) s = .ok (.error e,t) ∧ Ledger ds P U L k t ∧ Frame s t ∧
        e ≠ 0 ∧ (w.igrab = false ∨ w.alloc = false)) ∨
      ∃ u t, bkpfsIget w (some i) s = .ok (.ok u,t) ∧ Ledger ds P (u ::ₘ U) L k t ∧ Frame s t ∧
        w.igrab = true ∧ (u = s.next ∧ w.alloc = true ∨ i ∈ s.icache.map UpperInode.lower) := by
  unfold bkpfsIget
  dsimp only
  split_ifs with hw
  · exact .inl ⟨_,s,rfl,h,.refl s,by decide,.inl hw⟩
  · have hget := ledger_lowerGet h i
    rw [iget5Locked]
    cases hf : (s.lowerGet i).icache.find? fun v => v.lower == i with
    | some v =>
      have hv : v ∈ s.icache := List.mem_of_find?_eq_some hf
      have hi : v.lower = i := by simpa using List.find?_some hf
      obtain ⟨t,ht,hl,hfr⟩ := ledger_lowerIput (ledger_cached hget hv)
      refine .inr ⟨v.id,t,?_,hl,⟨hfr.1,hfr.2,hfr.3,hfr.4,hfr.5⟩,by simpa using hw,
        .inr (hi ▸ List.mem_map_of_mem hv)⟩
      simp [bind,Except.bind,ht]
    | none =>
      have hi : i ∉ s.icache.map UpperInode.lower := by
        intro hm
        obtain ⟨v,hv,he⟩ := List.mem_map.mp hm
        exact absurd (List.find?_eq_none.mp hf v hv) (by simp [he])
      dsimp only
      split_ifs with ha
      · obtain ⟨t,ht,hl,hfr⟩ := ledger_lowerIput hget
        refine .inl ⟨-ENOMEM,t,?_,hl,⟨hfr.1,hfr.2,hfr.3,hfr.4,hfr.5⟩,by decide,
          .inr ha⟩
        simp [bind,Except.bind,ht]
      · exact .inr ⟨s.next,_,rfl,ledger_new hget hi,⟨rfl,rfl,rfl,rfl,rfl⟩,by simpa using hw,
          .inl ⟨rfl,by simpa using ha⟩⟩

theorem ledger_cons : Ledger (d :: ds) P U L k s ↔
    Ledger ds (d.path.toList + P) (d.inode.toList + U) L (k + d.fsdata.toList.length) s := by
  have hp : ((d :: ds).filterMap Dentry.path : Multiset LowerPath) + P =
      ds.filterMap Dentry.path + (d.path.toList + P) := by
    cases hd : d.path with
    | none => simp [hd]
    | some p => simp [hd,← Multiset.cons_coe,Multiset.cons_add,Multiset.add_cons]
  have hu : ((d :: ds).filterMap Dentry.inode : Multiset ℕ) + U =
      ds.filterMap Dentry.inode + (d.inode.toList + U) := by
    cases hd : d.inode with
    | none => simp [hd]
    | some u => simp [hd,← Multiset.cons_coe,Multiset.cons_add,Multiset.add_cons]
  have hk : ((d :: ds).countP fun d => d.fsdata.isSome) + k =
      (ds.countP fun d => d.fsdata.isSome) + (k + d.fsdata.toList.length) := by
    rw [List.countP_cons]
    cases hd : d.fsdata with
    | none => simp
    | some p =>
      simp only [Option.isSome_some,if_true,Option.toList_some,List.length_singleton]
      omega
  constructor
  · intro h
    exact ⟨h.lower,held_congr h.counts hu,held_congr h.paths hp,h.infos.trans hk,h.lowers,h.ids,
      h.cached,h.fresh⟩
  · intro h
    exact ⟨h.lower,held_congr h.counts hu.symm,held_congr h.paths hp.symm,h.infos.trans hk.symm,
      h.lowers,h.ids,h.cached,h.fresh⟩

theorem ledger_perm {ds' : List Dentry} (hp : ds.Perm ds') (h : Ledger ds P U L k s) :
    Ledger ds' P U L k s where
  lower := h.lower
  counts := held_congr h.counts (by rw [Multiset.coe_eq_coe.mpr (hp.filterMap Dentry.inode)])
  paths := held_congr h.paths (by rw [Multiset.coe_eq_coe.mpr (hp.filterMap Dentry.path)])
  infos := by rw [h.infos,hp.countP_eq]
  lowers := h.lowers
  ids := h.ids
  cached := h.cached
  fresh := h.fresh

def Dentry.Put (d : Dentry) : Prop := d.dOp = d.fsdata.isSome

theorem ledger_release {po : Option LowerPath} (hd : d.fsdata = some po)
    (h : Ledger ds (po.toList + P) U L (k + 1) s) :
    ∃ t, bkpfsDRelease d s = .ok t ∧ Ledger ds P U L k t ∧ Frame s t := by
  have hfree {t : State} (ht : Ledger ds P U L (k + 1) t) :
      Ledger ds P U L k { t with infos := t.infos - 1 } :=
    ⟨ht.lower,ht.counts,ht.paths,by rw [ht.infos]; rfl,ht.lowers,ht.ids,ht.cached,ht.fresh⟩
  rw [bkpfsDRelease,bkpfsPutResetLowerPath,hd]
  cases po with
  | none =>
    have h' : Ledger ds P U L (k + 1) s := by simpa using h
    exact ⟨_,rfl,hfree h',rfl,rfl,rfl,rfl,rfl⟩
  | some p =>
    have h' : Ledger ds (p ::ₘ P) U L (k + 1) s := by simpa using h
    obtain ⟨t,ht,hl,hf⟩ := ledger_pathPut h'
    refine ⟨_,?_,hfree hl,hf.1,hf.2,hf.3,hf.4,hf.5⟩
    simp [bind,Except.bind,bkpfsPutLowerPath,ht,freeDentryPrivateData]

theorem ledger_kill (hd : d.Put) (h : Ledger (d :: ds) P U L k s) :
    ∃ t, dentryKill d s = .ok t ∧ Ledger ds P U L k t ∧ Frame s t := by
  have hc := ledger_cons.mp h
  have hput : ∃ t, dentryIput d.inode s = .ok t ∧
      Ledger ds (d.path.toList + P) U L (k + d.fsdata.toList.length) t ∧ Frame s t := by
    cases hi : d.inode with
    | none =>
      rw [hi] at hc
      exact ⟨s,rfl,by simpa using hc,.refl s⟩
    | some u =>
      rw [hi] at hc
      exact ledger_iput (by simpa using hc)
  obtain ⟨t,ht,hl,hf⟩ := hput
  rw [dentryKill,ht]
  simp only [bind,Except.bind]
  unfold Dentry.Put at hd
  rw [Dentry.path] at hl
  cases hfs : d.fsdata with
  | none =>
    rw [hfs] at hd hl
    rw [hd]
    exact ⟨t,rfl,by simpa using hl,hf⟩
  | some po =>
    rw [hfs] at hd hl
    rw [hd]
    obtain ⟨t',ht',hl',hf'⟩ := ledger_release hfs (by simpa using hl)
    exact ⟨t',ht',hl',hf.trans hf'⟩

theorem ledger_shrink (hd : ∀ d ∈ ds, d.Put) (h : Ledger ds P U L k s) :
    ∃ t, shrinkDcache ds s = .ok t ∧ Ledger [] P U L k t ∧ Frame s t := by
  induction ds generalizing s with
  | nil => exact ⟨s,rfl,h,.refl s⟩
  | cons d ds ih =>
    obtain ⟨t,ht,hl,hf⟩ := ledger_kill (hd d List.mem_cons_self) h
    obtain ⟨t',ht',hl',hf'⟩ := ih (fun e he => hd e (List.mem_cons_of_mem d he)) hl
    refine ⟨t',?_,hl',hf.trans hf'⟩
    rw [shrinkDcache,ht]
    exact ht'

theorem ledger_empty (h : Ledger [] 0 0 L 0 s) : s.icache = [] ∧ (∀ p, s.lowerPaths p = 0) ∧
    s.infos = 0 ∧ ∀ i, s.lowerInodes i = L.count i := by
  have hz : ∀ u, s.iCounts u = 0 := fun u => by simpa using h.counts u
  have hc : s.icache = [] := by
    refine List.eq_nil_iff_forall_not_mem.mpr fun v hv => ?_
    have hpos := (h.cached v.id).mpr (List.mem_map_of_mem hv)
    exact absurd (hz v.id) hpos.ne'
  refine ⟨hc,fun p => by simpa using h.paths p,by simpa using h.infos,fun i => ?_⟩
  have hl := h.lower i
  rw [hc] at hl
  simpa using hl

end

end Stack
end BackupFs
