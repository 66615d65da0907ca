import BackupFs.Stack.Runs

namespace BackupFs
namespace Stack

open Refcount (held_congr)

def isMount : Action → Bool
  | .mount _ => true
  | _ => false

def byHandle : Action → Bool
  | .fhToDentry _ _ _ => true
  | _ => false

def leaked : Action → Option ℕ
  | .fhToDentry i _ _ => i
  | _ => none

structure Reaches (w : MountCall) : Prop where
  devName : w.devName = true
  kernPath : ∃ p lower, w.kernPath = .ok (p,lower)
  sbInfo : w.sbInfo = true
  igrab : w.iget.igrab = true
  alloc : w.iget.alloc = true

inductive Crash (minors : ℕ) (as : List Action) : Action → Fault → Prop
  | makeRoot {w : MountCall} (hd : as.countP isMount < minors) (hr : Reaches w)
      (hm : w.dMakeRoot = false) : Crash minors as (.mount w) .freed
  | rootData {w : MountCall} (hd : as.countP isMount < minors) (hr : Reaches w)
      (hm : w.dMakeRoot = true) (hz : w.zalloc = false) : Crash minors as (.mount w) .nullPointer
  | lookup {d : Dentry} {w : LookupCall} (hd : d.fsdata = none) :
      Crash minors as (.lookup d w) .nullPointer
  | use {d : Dentry} (hd : d.fsdata = none) : Crash minors as (.use d) .nullPointer
  | fhToDentry {w : IgetCall} {alloc : Bool} :
      Crash minors as (.fhToDentry none w alloc) .nullPointer

structure Sound (minors : ℕ) (as : List Action) (s : State) : Prop where
  ledger : Ledger s.all 0 0 (as.filterMap leaked) 0 s
  shape : ∀ d ∈ s.all, d.Shape
  bare : s.root = none → s.dentries = []
  sFsInfo : s.sFsInfo = s.root.isSome
  sActive : s.sActive = if s.root.isSome then 1 else 0
  devs : s.devs = min minors (as.countP isMount)
  looked : (∀ a ∈ as, byHandle a = false) → ∀ d ∈ s.all, d.path ≠ none

section mount
variable {s : State} {L : Multiset ℕ}

structure Unmounted (L : Multiset ℕ) (s : State) : Prop where
  ledger : Ledger [] 0 0 L 0 s
  root : s.root = none
  dentries : s.dentries = []
  sFsInfo : s.sFsInfo = false
  sActive : s.sActive = 0

structure Mounted (L : Multiset ℕ) (s : State) : Prop where
  ledger : Ledger s.all 0 0 L 0 s
  root : ∃ d, s.root = some d ∧ d.dOp = true ∧ d.path ≠ none
  dentries : s.dentries = []
  sFsInfo : s.sFsInfo = true
  sActive : s.sActive = 1

structure Mounting (L : Multiset ℕ) (U : Multiset ℕ) (p : LowerPath) (s : State) : Prop where
  ledger : Ledger [] (p ::ₘ 0) U L 0 s
  root : s.root = none
  dentries : s.dentries = []
  sFsInfo : s.sFsInfo = true
  sActive : s.sActive = 1

theorem outSput_unmounted {p : LowerPath} (h : Mounting L 0 p s) :
    ∃ t, outSput p s = .ok t ∧ Unmounted L t ∧ t.devs = s.devs := by
  have hl : Ledger [] (p ::ₘ 0) 0 L 0 { s with sActive := s.sActive - 1, sFsInfo := false } :=
    ⟨h.ledger.lower,h.ledger.counts,h.ledger.paths,h.ledger.infos,h.ledger.lowers,h.ledger.ids,
      h.ledger.cached,h.ledger.fresh⟩
  obtain ⟨t,ht,hl,hf⟩ := ledger_pathPut hl
  refine ⟨t,ht,⟨hl,hf.root.trans h.root,hf.dentries.trans h.dentries,hf.sFsInfo,?_⟩,hf.devs⟩
  refine hf.sActive.trans ?_
  dsimp only
  rw [h.sActive]

theorem makeRoot_cases {p : LowerPath} {u : ℕ} (h : Mounting L (u ::ₘ 0) p s) (w : MountCall) :
    (w.dMakeRoot = false ∧ makeRoot w p u s = .error .freed) ∨
      (w.dMakeRoot = true ∧ w.zalloc = false ∧ makeRoot w p u s = .error .nullPointer) ∨
      w.dMakeRoot = true ∧ w.zalloc = true ∧
        ∃ t, makeRoot w p u s = .ok (0,t) ∧ Mounted L t ∧ t.devs = s.devs := by
  unfold makeRoot
  cases hm : w.dMakeRoot with
  | false =>
    -- the first iput evicts the inode, the second one finds no reference
    obtain ⟨t,ht,hl,-⟩ := ledger_iput h.ledger
    have hput : Refcount.put t.iCounts u = none :=
      (Refcount.put_none_iff hl.counts).mpr (by simp)
    have hagain : iput u t = .error .freed := by rw [iput,hput]
    refine .inl ⟨rfl,?_⟩
    simp [bind,Except.bind,ht,hagain]
  | true =>
    refine .inr ?_
    rw [if_neg (by decide)]
    cases hz : w.zalloc with
    | false =>
      have hnone : Ledger [] (p ::ₘ 0) (u ::ₘ 0) L 0 { s with root := none } :=
        ⟨h.ledger.lower,h.ledger.counts,h.ledger.paths,h.ledger.infos,h.ledger.lowers,
          h.ledger.ids,h.ledger.cached,h.ledger.fresh⟩
      obtain ⟨t,ht,-,-⟩ := ledger_iput hnone
      refine .inl ⟨rfl,rfl,?_⟩
      simp [newDentryPrivateData,ENOMEM,dputRoot,dentryKill,dentryIput,ht,bind,Except.bind,
        bkpfsDRelease,bkpfsPutResetLowerPath]
    | true =>
      refine .inr ⟨rfl,rfl,{ s with
        infos := s.infos + 1
        root := some ⟨true,some (some p),some u⟩ },rfl,?_,rfl⟩
      refine ⟨?_,⟨_,rfl,rfl,by simp [Dentry.path]⟩,h.dentries,h.sFsInfo,h.sActive⟩
      have hall : State.all { s with
          infos := s.infos + 1
          root := some ⟨true,some (some p),some u⟩ } = [⟨true,some (some p),some u⟩] := by
        simp [State.all,h.dentries]
      rw [hall,ledger_cons]
      refine ⟨h.ledger.lower,held_congr h.ledger.counts (by simp),
        held_congr h.ledger.paths (by simp [Dentry.path]),?_,h.ledger.lowers,h.ledger.ids,
        h.ledger.cached,h.ledger.fresh⟩
      have hinfos := h.ledger.infos
      simpa using hinfos

theorem readSuper_cases (hs : Unmounted L s) (w : MountCall) :
    (Reaches w ∧ w.dMakeRoot = false ∧ bkpfsReadSuper w s = .error .freed) ∨
      (Reaches w ∧ w.dMakeRoot = true ∧ w.zalloc = false ∧
        bkpfsReadSuper w s = .error .nullPointer) ∨
      ∃ err t, bkpfsReadSuper w s = .ok (err,t) ∧ t.devs = s.devs ∧
        (err = 0 ∧ Mounted L t ∨ err ≠ 0 ∧ Unmounted L t) ∧
        ¬ (Reaches w ∧ (w.dMakeRoot = false ∨ w.zalloc = false)) := by
  unfold bkpfsReadSuper
  cases hn : w.devName with
  | false =>
    exact .inr (.inr ⟨_,s,rfl,rfl,.inr ⟨by decide,hs⟩,fun h => by simp [h.1.devName] at hn⟩)
  | true =>
    cases hk : w.kernPath with
    | error e =>
      refine .inr (.inr ⟨e,s,rfl,rfl,.inr ⟨e.2.ne,hs⟩,fun h => ?_⟩)
      obtain ⟨p,lower,he⟩ := h.1.kernPath
      rw [hk] at he
      cases he
    | ok r =>
      obtain ⟨p,lower⟩ := r
      have hget := ledger_pathGet hs.ledger p
      cases hi : w.sbInfo with
      | false =>
        obtain ⟨t,ht,hl,hf⟩ := ledger_pathPut hget
        refine .inr (.inr ⟨-ENOMEM,t,?_,hf.devs,.inr ⟨by decide,⟨hl,hf.root.trans hs.root,
          hf.dentries.trans hs.dentries,hf.sFsInfo.trans hs.sFsInfo,hf.sActive.trans hs.sActive⟩⟩,
          fun h => by simp [h.1.sbInfo] at hi⟩)
        simp [bind,Except.bind,ht]
      | true =>
        have hsup : Ledger [] (p ::ₘ 0) 0 L 0 (s.pathGet p).superGet :=
          ⟨hget.lower,hget.counts,hget.paths,hget.infos,hget.lowers,hget.ids,hget.cached,
            hget.fresh⟩
        have hmounting {t : State} {U : Multiset ℕ} (hl : Ledger [] (p ::ₘ 0) U L 0 t)
            (hf : Frame (s.pathGet p).superGet t) : Mounting L U p t ∧ t.devs = s.devs :=
          ⟨⟨hl,hf.root.trans hs.root,hf.dentries.trans hs.dentries,hf.sFsInfo,
            hf.sActive.trans (congrArg (· + 1) hs.sActive)⟩,hf.devs⟩
        rcases ledger_iget hsup w.iget lower with ⟨e,t,he,hl,hf,hne,hw⟩ | ⟨u,t,he,hl,hf,hg,hu⟩
        · obtain ⟨hm,hdev⟩ := hmounting hl hf
          obtain ⟨t',ht',hun,hdev'⟩ := outSput_unmounted hm
          refine .inr (.inr ⟨e,t',?_,hdev'.trans hdev,.inr ⟨hne,hun⟩,fun h => ?_⟩)
          · simp [he,bind,Except.bind,ht']
          · rcases hw with hw | hw
            · simp [h.1.igrab] at hw
            · simp [h.1.alloc] at hw
        · obtain ⟨hm,hdev⟩ := hmounting hl hf
          have hc := (ledger_empty hs.ledger).1
          have ha : w.iget.alloc = true := by
            rcases hu with ⟨-,ha⟩ | hu
            · exact ha
            · have hu' : lower ∈ s.icache.map UpperInode.lower := hu
              rw [hc] at hu'
              cases hu'
          have hr : Reaches w := ⟨hn,⟨p,lower,hk⟩,hi,hg,ha⟩
          simp only [he,bind,Except.bind,Bool.true_eq_false,if_false]
          rcases makeRoot_cases hm w with ⟨h1,h2⟩ | ⟨h1,h2,h3⟩ | ⟨h1,h2,t',ht',hmt,hdev'⟩
          · exact .inl ⟨hr,h1,h2⟩
          · exact .inr (.inl ⟨hr,h1,h2,h3⟩)
          · exact .inr (.inr ⟨0,t',ht',hdev'.trans hdev,.inl ⟨rfl,hmt⟩,fun h => by
              simp [h1,h2] at h⟩)

end mount

section steps
variable {minors : ℕ} {as : List Action} {a : Action} {s t : State} {d : Dentry}

theorem leaks_snoc (as : List Action) (a : Action) :
    ((as ++ [a]).filterMap leaked : Multiset ℕ) =
      as.filterMap leaked + ((leaked a).toList : Multiset ℕ) := by
  rw [List.filterMap_append,← Multiset.coe_add]
  cases h : leaked a <;> simp [h]

theorem ledger_relist {ds : List Dentry} {P : Multiset LowerPath} {U L : Multiset ℕ} {k : ℕ}
    (h : Ledger ds P U L k s) (l : List Dentry) : Ledger ds P U L k { s with dentries := l } :=
  ⟨h.lower,h.counts,h.paths,h.infos,h.lowers,h.ids,h.cached,h.fresh⟩

theorem sound_step (h : Sound minors as s) (hm : isMount a = false) (hr : s.root ≠ none)
    (hroot : t.root = s.root) (hi : t.sFsInfo = s.sFsInfo) (ha : t.sActive = s.sActive)
    (hd : t.devs = s.devs)
    (hl : Ledger t.all 0 0 (as.filterMap leaked + ((leaked a).toList : Multiset ℕ)) 0 t)
    (hs : ∀ d ∈ t.all, d ∈ s.all ∨ d.Shape ∧ (byHandle a = false → d.path ≠ none)) :
    Sound minors (as ++ [a]) t where
  ledger := leaks_snoc as a ▸ hl
  shape := fun d hd => (hs d hd).elim (h.shape d) And.left
  bare := fun hn => absurd (hroot ▸ hn) hr
  sFsInfo := by rw [hi,hroot,h.sFsInfo]
  sActive := by rw [ha,hroot,h.sActive]
  devs := by
    rw [hd,h.devs,List.countP_append,List.countP_singleton,hm]
    rfl
  looked := fun hb d hd => (hs d hd).elim
    (h.looked (fun b hb' => hb b (List.mem_append_left _ hb')) d)
    (fun hp => hp.2 (hb a (by simp)))

theorem all_mounted (h : s.root = some d) : s.all = d :: s.dentries := by
  rw [State.all,h]
  rfl

theorem all_cons (s : State) (d : Dentry) :
    (State.all { s with dentries := d :: s.dentries }).Perm (d :: s.all) :=
  List.perm_middle

theorem all_erase (hd : d ∈ s.dentries) :
    s.all.Perm (d :: State.all { s with dentries := s.dentries.erase d }) :=
  ((List.perm_cons_erase hd).append_left _).trans List.perm_middle

theorem path_of_shape (h : d.Shape) : d.fsdata = none ∨ ∃ p, d.path = some p := by
  rcases h with ⟨-,hp⟩ | ⟨-,hf,-⟩
  · exact .inr (Option.ne_none_iff_exists'.mp hp)
  · exact .inl hf

theorem fsdata_of_path {p : LowerPath} (h : d.path = some p) : d.fsdata = some (some p) := by
  rw [Dentry.path] at h
  cases hf : d.fsdata with
  | none => simp [hf] at h
  | some po => simpa [hf] using h

theorem lookup_sound (h : Sound minors as s) (hr : s.root ≠ none) (hd : d ∈ s.all)
    (w : LookupCall) :
    (d.fsdata = none ∧ step minors s (.lookup d w) = .error .nullPointer) ∨
      ∃ t, step minors s (.lookup d w) = .ok t ∧ Sound minors (as ++ [.lookup d w]) t ∧
        d.fsdata ≠ none := by
  rw [step,looked]
  rcases path_of_shape (h.shape d hd) with hf | ⟨p,hp⟩
  · exact .inl ⟨hf,by simp [bkpfsLookup,bkpfsGetLowerPath,hf,bind,Except.bind]⟩
  · refine .inr ?_
    have hne : d.fsdata ≠ none := by
      rw [fsdata_of_path hp]
      exact Option.some_ne_none _
    obtain ⟨ret,d',t,he,hl,hf,hput,hret⟩ := ledger_lookup h.ledger w hp
    rw [he]
    simp only [bind,Except.bind]
    have hkill : ∃ u, dentryKill d' t = .ok u ∧ Sound minors (as ++ [.lookup d w]) u := by
      obtain ⟨u,hu,hl',hf'⟩ := ledger_kill hput hl
      have hfr := hf.trans hf'
      refine ⟨u,hu,sound_step h rfl hr hfr.root hfr.sFsInfo hfr.sActive hfr.devs ?_ ?_⟩
      · rw [hfr.all]
        simpa [leaked] using hl'
      · exact fun e he => .inl (hfr.all ▸ he)
    cases ret with
    | error e => exact hkill.imp fun u hu => ⟨hu.1,hu.2,hne⟩
    | ok r =>
      cases r with
      | some b => exact hkill.imp fun u hu => ⟨hu.1,hu.2,hne⟩
      | none =>
        obtain ⟨hop,hpath⟩ := hret rfl
        refine ⟨_,rfl,sound_step h rfl hr hf.root hf.sFsInfo hf.sActive hf.devs ?_ ?_,hne⟩
        · refine ledger_relist (ledger_perm (all_cons t d').symm ?_) _
          rw [hf.all]
          simpa [leaked] using hl
        · intro e he
          rcases List.mem_cons.mp ((all_cons t d').mem_iff.mp he) with rfl | he
          · exact .inr ⟨.inl ⟨hop,hpath⟩,fun _ => hpath⟩
          · exact .inl (hf.all ▸ he)

theorem use_sound (h : Sound minors as s) (hr : s.root ≠ none) (hd : d ∈ s.all) :
    (d.fsdata = none ∧ step minors s (.use d) = .error .nullPointer) ∨
      ∃ t, step minors s (.use d) = .ok t ∧ Sound minors (as ++ [.use d]) t ∧
        d.fsdata ≠ none := by
  rw [step,used,bkpfsGetLowerPath]
  rcases path_of_shape (h.shape d hd) with hf | ⟨p,hp⟩
  · exact .inl ⟨hf,by simp [hf,bind,Except.bind]⟩
  · refine .inr ?_
    have hf := fsdata_of_path hp
    obtain ⟨t,ht,hl,hfr⟩ := ledger_pathPut (ledger_pathGet h.ledger p)
    rw [hf]
    refine ⟨t,ht,sound_step h rfl hr hfr.root hfr.sFsInfo hfr.sActive hfr.devs ?_ ?_,
      Option.some_ne_none _⟩
    · have hall : t.all = s.all := by
        rw [State.all,hfr.root,hfr.dentries]
        rfl
      rw [hall]
      simpa [leaked] using hl
    · intro e he
      refine .inl ?_
      rw [State.all,hfr.root,hfr.dentries] at he
      exact he

theorem drop_sound (h : Sound minors as s) (hr : s.root ≠ none) (hd : d ∈ s.dentries) :
    ∃ t, step minors s (.drop d) = .ok t ∧ Sound minors (as ++ [.drop d]) t := by
  have hshape := h.shape d (List.mem_append_right _ hd)
  have hl := ledger_relist (ledger_perm (all_erase hd) h.ledger) (s.dentries.erase d)
  obtain ⟨t,ht,hl',hf⟩ := ledger_kill (shape_put hshape) hl
  refine ⟨t,ht,sound_step h rfl hr hf.root hf.sFsInfo hf.sActive hf.devs ?_ fun e he => .inl ?_⟩
  · rw [hf.all]
    simpa [leaked] using hl'
  · rw [hf.all] at he
    exact (all_erase hd).mem_iff.mpr (List.mem_cons_of_mem _ he)

theorem interpose_sound (h : Sound minors as s) (hr : s.root ≠ none) (hd : d ∈ s.dentries)
    (hi : d.inode = none) (w : SpliceCall) (f : Found) :
    ∃ t, step minors s (.interpose d w f) = .ok t ∧
      Sound minors (as ++ [.interpose d w f]) t := by
  have hshape := h.shape d (List.mem_append_right _ hd)
  obtain ⟨hop,hpath⟩ : d.dOp = true ∧ d.path ≠ none := by
    rcases hshape with hs | ⟨-,-,hn⟩
    · exact hs
    · exact absurd hi hn
  have hl := ledger_cons.mp
    (ledger_relist (ledger_perm (all_erase hd) h.ledger) (s.dentries.erase d))
  rw [hi] at hl
  have hkeep (d' : Dentry) {u : State} (hl : Ledger (State.all { s with
        dentries := s.dentries.erase d }) (d.path.toList + 0) (d'.inode.toList + 0)
        (as.filterMap leaked) (0 + d.fsdata.toList.length) u)
      (hf : Frame { s with dentries := s.dentries.erase d } u) (h1 : d'.dOp = true)
      (h2 : d'.fsdata = d.fsdata) :
      Sound minors (as ++ [.interpose d w f]) { u with dentries := d' :: u.dentries } := by
    have hp : d'.path = d.path := by rw [Dentry.path,Dentry.path,h2]
    refine sound_step h rfl hr hf.root hf.sFsInfo hf.sActive hf.devs ?_ fun e he => ?_
    · refine ledger_relist (ledger_perm (all_cons u d').symm (ledger_cons.mpr ?_)) _
      rw [hf.all,hp,h2]
      simpa [leaked] using hl
    · rcases List.mem_cons.mp ((all_cons u d').mem_iff.mp he) with rfl | he
      · exact .inr ⟨.inl ⟨h1,hp ▸ hpath⟩,fun _ => hp ▸ hpath⟩
      · rw [hf.all] at he
        exact .inl ((all_erase hd).mem_iff.mpr (List.mem_cons_of_mem _ he))
  rw [step,interposed]
  rcases ledger_splice (d := d) hl w f with ⟨ret,u,he,hl',hf,-⟩ | ⟨v,u,he,hl',hf⟩
  · rw [he]
    exact ⟨_,rfl,hkeep d (by simpa [hi] using hl') hf hop rfl⟩
  · rw [he]
    exact ⟨_,rfl,hkeep { d with inode := some v } (by simpa using hl') hf hop rfl⟩

theorem fhToDentry_sound (h : Sound minors as s) (hr : s.root ≠ none) (i : ℕ) (w : IgetCall)
    (alloc : Bool) :
    ∃ t, step minors s (.fhToDentry (some i) w alloc) = .ok t ∧
      Sound minors (as ++ [.fhToDentry (some i) w alloc]) t := by
  have hleak : (as.filterMap leaked : Multiset ℕ) +
      ((leaked (.fhToDentry (some i) w alloc)).toList : Multiset ℕ) =
        i ::ₘ (as.filterMap leaked : Multiset ℕ) := by
    rw [add_comm]
    exact Multiset.singleton_add i _
  have hsame {u : State} (hl : Ledger s.all 0 0 (i ::ₘ as.filterMap leaked) 0 u)
      (hf : Frame s u) : Sound minors (as ++ [.fhToDentry (some i) w alloc]) u := by
    refine sound_step h rfl hr hf.root hf.sFsInfo hf.sActive hf.devs ?_ fun e he => .inl ?_
    · rw [hf.all,hleak]
      exact hl
    · exact hf.all ▸ he
  have hget {u : State} (hf : Frame (s.lowerGet i) u) : Frame s u := ⟨hf.1,hf.2,hf.3,hf.4,hf.5⟩
  rw [step,bkpfsFhToDentry,bkpfsNfsGetInode]
  rcases ledger_iget (ledger_lowerGet h.ledger i) w i with
    ⟨e,t,he,hl,hf,-⟩ | ⟨u,t,he,hl,hf,-⟩
  · simp only [he,bind,Except.bind]
    exact ⟨t,rfl,hsame hl (hget hf)⟩
  · have hput : ∃ u', iput u t = .ok u' ∧
        Sound minors (as ++ [.fhToDentry (some i) w alloc]) u' := by
      obtain ⟨u',hu',hl',hf'⟩ := ledger_iput hl
      exact ⟨u',hu',hsame hl' ((hget hf).trans hf')⟩
    simp only [he,bind,Except.bind,dObtainAlias]
    cases t.aliasOf u with
    | some b => exact hput
    | none =>
      dsimp only
      split_ifs with ha
      · exact hput
      · have hfr := hget hf
        refine ⟨_,rfl,sound_step h rfl hr hfr.root hfr.sFsInfo hfr.sActive hfr.devs ?_ ?_⟩
        · refine ledger_relist (ledger_perm (all_cons t _).symm (ledger_cons.mpr ?_)) _
          rw [hfr.all,hleak]
          exact hl
        · intro e he
          rcases List.mem_cons.mp ((all_cons t _).mem_iff.mp he) with rfl | he
          · exact .inr ⟨.inr ⟨rfl,rfl,Option.some_ne_none _⟩,fun hb => by cases hb⟩
          · exact .inl (hfr.all ▸ he)

end steps

end Stack
end BackupFs
