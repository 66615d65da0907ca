import BackupFs.Stack.Safety

namespace BackupFs
namespace Stack

open Transition (Run exec)

section
variable {minors : ℕ} {as : List Action} {a : Action} {s t : State} {d : Dentry}

theorem sound_unmounted (h : Sound minors as s) (hr : s.root = none) :
    Unmounted (as.filterMap leaked) s where
  ledger := by
    have hl := h.ledger
    rw [State.all,hr,h.bare hr] at hl
    exact hl
  root := hr
  dentries := h.bare hr
  sFsInfo := by rw [h.sFsInfo,hr]; rfl
  sActive := by rw [h.sActive,hr]; rfl

theorem unmounted_sound (h : Unmounted ((as ++ [a]).filterMap leaked : List ℕ) s)
    (hd : s.devs = min minors ((as ++ [a]).countP isMount)) : Sound minors (as ++ [a]) s := by
  have hall : s.all = [] := by rw [State.all,h.root,h.dentries]; rfl
  exact {
    ledger := hall ▸ h.ledger
    shape := fun d hd => by simp [hall] at hd
    bare := fun _ => h.dentries
    sFsInfo := by rw [h.sFsInfo,h.root]; rfl
    sActive := by rw [h.sActive,h.root]; rfl
    devs := hd
    looked := fun _ d hd => by simp [hall] at hd }

theorem mounted_sound (h : Mounted ((as ++ [a]).filterMap leaked : List ℕ) s)
    (hd : s.devs = min minors ((as ++ [a]).countP isMount)) : Sound minors (as ++ [a]) s := by
  obtain ⟨r,hr,hop,hp⟩ := h.root
  have hall : s.all = [r] := by rw [all_mounted hr,h.dentries]
  exact {
    ledger := h.ledger
    shape := fun d hd => by
      rw [hall,List.mem_singleton] at hd
      exact hd ▸ .inl ⟨hop,hp⟩
    bare := fun _ => h.dentries
    sFsInfo := by rw [h.sFsInfo,hr]; rfl
    sActive := by rw [h.sActive,hr]; rfl
    devs := hd
    looked := fun _ d hd => by
      rw [hall,List.mem_singleton] at hd
      exact hd ▸ hp }

theorem mount_sound (h : Sound minors as s) (hr : s.root = none) (w : MountCall) :
    (∃ x, Crash minors as (.mount w) x ∧ step minors s (.mount w) = .error x) ∨
      ∃ t, step minors s (.mount w) = .ok t ∧ Sound minors (as ++ [.mount w]) t ∧
        ∀ x, ¬ Crash minors as (.mount w) x := by
  have hleak : ((as ++ [Action.mount w]).filterMap leaked : List ℕ) = as.filterMap leaked := by
    rw [List.filterMap_append]
    exact List.append_nil _
  have hcount : (as ++ [Action.mount w]).countP isMount = as.countP isMount + 1 := by
    rw [List.countP_append]
    rfl
  have hun := sound_unmounted h hr
  have hdevs := h.devs
  rw [step,bkpfsMount]
  split_ifs with hm
  · refine .inr ⟨s,rfl,unmounted_sound (hleak ▸ hun) (by omega),fun x hc => ?_⟩
    cases hc <;> omega
  · have hlt : as.countP isMount < minors := by omega
    have hun' : Unmounted (as.filterMap leaked) { s with devs := s.devs + 1 } :=
      ⟨⟨hun.ledger.lower,hun.ledger.counts,hun.ledger.paths,hun.ledger.infos,hun.ledger.lowers,
        hun.ledger.ids,hun.ledger.cached,hun.ledger.fresh⟩,hun.root,hun.dentries,hun.sFsInfo,
        hun.sActive⟩
    rcases readSuper_cases hun' w with ⟨h1,h2,h3⟩ | ⟨h1,h2,h3,h4⟩ | ⟨err,t,he,hd,hcase,hn⟩
    · exact .inl ⟨_,.makeRoot hlt h1 h2,by rw [h3]; rfl⟩
    · exact .inl ⟨_,.rootData hlt h1 h2 h3,by rw [h4]; rfl⟩
    · have hdev : t.devs = min minors ((as ++ [Action.mount w]).countP isMount) := by
        rw [hd,hcount]
        dsimp only
        omega
      refine .inr ⟨t,by rw [he]; rfl,?_,fun x hc => ?_⟩
      · rcases hcase with ⟨-,hmt⟩ | ⟨-,hut⟩
        · exact mounted_sound (hleak ▸ hmt) hdev
        · exact unmounted_sound (hleak ▸ hut) hdev
      · cases hc with
        | makeRoot _ hr hm => exact hn ⟨hr,.inl hm⟩
        | rootData _ hr _ hz => exact hn ⟨hr,.inr hz⟩

theorem umount_sound (h : Sound minors as s) (hr : s.root ≠ none) :
    ∃ t, step minors s .umount = .ok t ∧ Sound minors (as ++ [.umount]) t := by
  have hl : Ledger s.all 0 0 (as.filterMap leaked) 0 { s with root := none, dentries := [] } :=
    ⟨h.ledger.lower,h.ledger.counts,h.ledger.paths,h.ledger.infos,h.ledger.lowers,h.ledger.ids,
      h.ledger.cached,h.ledger.fresh⟩
  obtain ⟨t,ht,hl',hf⟩ := ledger_shrink (fun d hd => shape_put (h.shape d hd)) hl
  obtain ⟨r,hr'⟩ := Option.ne_none_iff_exists'.mp hr
  have hi : t.sFsInfo = true := by
    rw [hf.sFsInfo]
    exact h.sFsInfo.trans (by rw [hr']; rfl)
  have ha : t.sActive = 1 := by
    rw [hf.sActive]
    exact h.sActive.trans (by rw [hr']; rfl)
  have hleak : ((as ++ [Action.umount]).filterMap leaked : List ℕ) = as.filterMap leaked := by
    rw [List.filterMap_append]
    exact List.append_nil _
  refine ⟨bkpfsPutSuper t,?_,unmounted_sound ?_ ?_⟩
  · rw [step,genericShutdownSuper,ht]
    rfl
  · rw [bkpfsPutSuper,hi,if_neg (by decide),hleak]
    exact ⟨⟨hl'.lower,hl'.counts,hl'.paths,hl'.infos,hl'.lowers,hl'.ids,hl'.cached,hl'.fresh⟩,
      hf.root,hf.dentries,rfl,by rw [ha]⟩
  · rw [bkpfsPutSuper,hi,if_neg (by decide),List.countP_append]
    exact hf.devs.trans h.devs

theorem step_sound (h : Sound minors as s) (ha : Enabled s a) :
    (∃ x, Crash minors as a x ∧ step minors s a = .error x) ∨
      ∃ t, step minors s a = .ok t ∧ Sound minors (as ++ [a]) t ∧ ∀ x, ¬ Crash minors as a x := by
  cases a with
  | mount w => exact mount_sound h ha w
  | umount =>
    obtain ⟨t,ht,hs⟩ := umount_sound h ha
    exact .inr ⟨t,ht,hs,fun x hc => by cases hc⟩
  | lookup d w =>
    rcases lookup_sound h ha.1 ha.2 w with ⟨hf,he⟩ | ⟨t,ht,hs,hn⟩
    · exact .inl ⟨_,.lookup hf,he⟩
    · refine .inr ⟨t,ht,hs,fun x hc => ?_⟩
      cases hc with
      | lookup hf => exact hn hf
  | interpose d w f =>
    obtain ⟨t,ht,hs⟩ := interpose_sound h ha.1 ha.2.1 ha.2.2.1 w f
    exact .inr ⟨t,ht,hs,fun x hc => by cases hc⟩
  | use d =>
    rcases use_sound h ha.1 ha.2 with ⟨hf,he⟩ | ⟨t,ht,hs,hn⟩
    · exact .inl ⟨_,.use hf,he⟩
    · refine .inr ⟨t,ht,hs,fun x hc => ?_⟩
      cases hc with
      | use hf => exact hn hf
  | drop d =>
    obtain ⟨t,ht,hs⟩ := drop_sound h ha.1 ha.2
    exact .inr ⟨t,ht,hs,fun x hc => by cases hc⟩
  | fhToDentry i w alloc =>
    cases i with
    | none => exact .inl ⟨_,.fhToDentry,rfl⟩
    | some i =>
      obtain ⟨t,ht,hs⟩ := fhToDentry_sound h ha i w alloc
      exact .inr ⟨t,ht,hs,fun x hc => by cases hc⟩

theorem init_sound (minors : ℕ) : Sound minors [] State.init where
  ledger := {
    lower := Refcount.held_zero
    counts := Refcount.held_zero
    paths := Refcount.held_zero
    infos := rfl
    lowers := List.nodup_nil
    ids := List.nodup_nil
    cached := fun _ => by simp [State.init]
    fresh := fun _ hv => by cases hv }
  shape := fun _ hd => by cases hd
  bare := fun _ => rfl
  sFsInfo := rfl
  sActive := rfl
  devs := (Nat.min_zero _).symm
  looked := fun _ _ hd => by cases hd

theorem run_sound (h : Run (Step minors) State.init as s) : Sound minors as s := by
  induction h with
  | nil => exact init_sound minors
  | snoc _ ha ih =>
    obtain ⟨hen,hstep⟩ := ha
    rcases step_sound ih hen with ⟨x,-,hx⟩ | ⟨t,ht,hs,-⟩
    · rw [hx] at hstep
      cases hstep
    · rw [ht] at hstep
      cases hstep
      exact hs

structure Balanced (minors : ℕ) (as : List Action) (s : State) : Prop where
  lowerInodes : ∀ i, s.lowerInodes i =
    (s.icache.map UpperInode.lower).count i + (as.filterMap leaked).count i
  oneInode : (s.icache.map UpperInode.lower).Nodup
  lowerPaths : ∀ p, s.lowerPaths p = (s.all.filterMap Dentry.path).count p
  infos : s.infos = s.all.countP fun d => d.fsdata.isSome
  devs : s.devs = min minors (as.countP isMount)
  unmounted : s.root = none → s.icache = [] ∧ (∀ p, s.lowerPaths p = 0) ∧ s.infos = 0 ∧
    s.sFsInfo = false ∧ s.sActive = 0

def lowerRoot : MountCall := { kernPath := .ok (⟨1,1⟩,1) }

def handleCycle : List Action := [.mount lowerRoot,.fhToDentry (some 7) {} true,.umount]

theorem run_handleCycle : Run (Step 2) State.init handleCycle
    (exec (step 2) State.init handleCycle) :=
  ((Run.nil.snoc ⟨rfl,rfl⟩).snoc ⟨by decide,rfl⟩).snoc ⟨by decide,rfl⟩

theorem mount_cycles_balanced (h : Run (Step minors) State.init as s) : Balanced minors as s := by
  have hs := run_sound h
  refine ⟨fun i => ?_,hs.ledger.lowers,fun p => ?_,hs.ledger.infos,hs.devs,fun hr => ?_⟩
  · simpa using hs.ledger.lower i
  · simpa using hs.ledger.paths p
  · have hun := sound_unmounted hs hr
    obtain ⟨h1,h2,h3,-⟩ := ledger_empty hun.ledger
    exact ⟨h1,h2,h3,hun.sFsInfo,hun.sActive⟩

theorem mount_cycles_balanced_handle : Balanced 2 handleCycle
    (exec (step 2) State.init handleCycle) := mount_cycles_balanced run_handleCycle

theorem run_lowerRoot : Run (Step 2) State.init [.mount lowerRoot]
    (exec (step 2) State.init [.mount lowerRoot]) := .single ⟨rfl,rfl⟩

theorem error_crash (h : Run (Step minors) State.init as s) (ha : Enabled s a) {x : Fault}
    (he : step minors s a = .error x) : Crash minors as a x := by
  rcases step_sound (run_sound h) ha with ⟨y,hc,hy⟩ | ⟨t,ht,-,-⟩
  · rw [hy] at he
    cases he
    exact hc
  · rw [ht] at he
    cases he

theorem mount_crashes (h : Run (Step minors) State.init as s) (ha : Enabled s a) (x : Fault) :
    step minors s a = .error x ↔ Crash minors as a x := by
  rcases step_sound (run_sound h) ha with ⟨y,hc,hy⟩ | ⟨t,ht,-,hn⟩
  · rw [hy]
    constructor
    · intro he
      cases he
      exact hc
    · intro hx
      cases hx <;> cases hc <;> simp_all
  · rw [ht]
    exact iff_of_false (fun he => by cases he) (hn x)

theorem mount_crashes_handle :
    step 2 (exec (step 2) State.init [.mount lowerRoot]) (.fhToDentry none {} true) =
      .error .nullPointer :=
  (mount_crashes run_lowerRoot (by decide) .nullPointer).mpr .fhToDentry

-- a directory that was just made below has no inode here, so d_splice_alias finds no alias
-- and bkpfs_interpose returns an error number or 0
theorem interpose_never_aliases {w : SpliceCall} {f : Found}
    (h : Run (Step minors) State.init as s) (ha : Enabled s (.interpose d w f)) :
    (∃ e t, e ≠ 0 ∧ innerBkpfsInterpose w f d { s with dentries := s.dentries.erase d } =
        .ok (.error e,d,t)) ∨
      ∃ u t, innerBkpfsInterpose w f d { s with dentries := s.dentries.erase d } =
        .ok (.ok none,{ d with inode := some u },t) := by
  obtain ⟨-,hd,hi,hnew⟩ := ha
  have hs := run_sound h
  have hl := ledger_cons.mp
    (ledger_relist (ledger_perm (all_erase hd) hs.ledger) (s.dentries.erase d))
  rcases ledger_splice (d := d) hl w f with ⟨ret,u,he,-,-,hnone,herr,halias⟩ | ⟨v,u,he,-⟩
  · cases ret with
    | error e => exact .inl ⟨e,u,herr e rfl,he⟩
    | ok r =>
      cases r with
      | none => exact absurd rfl hnone
      | some b =>
        exfalso
        obtain ⟨hdir,hcase⟩ := halias b rfl
        rcases hcase with hm | ⟨hb,hu⟩
        · have hpos := (Refcount.held_pos hs.ledger.lower).mpr
            (Multiset.mem_add.mpr (.inl (Multiset.mem_coe.mpr hm)))
          exact hpos.ne' (hnew hdir)
        · have hmem : s.next ∈ s.all.filterMap Dentry.inode :=
            List.mem_filterMap.mpr ⟨b,(all_erase hd).mem_iff.mpr (List.mem_cons_of_mem _ hb),hu⟩
          have hpos := (Refcount.held_pos hs.ledger.counts).mpr
            (Multiset.mem_add.mpr (.inl (Multiset.mem_coe.mpr hmem)))
          exact hpos.ne' (ledger_unseen hs.ledger)
  · exact .inr ⟨v,u,he⟩

def newDirectory : List Action :=
  [.mount lowerRoot,.lookup ⟨true,some (some ⟨1,1⟩),some 0⟩
    { pathLookup := .error ⟨-ENOENT,by decide⟩, dAlloc := some 5 }]

theorem run_newDirectory : Run (Step 2) State.init newDirectory
    (exec (step 2) State.init newDirectory) := (Run.nil.snoc ⟨rfl,rfl⟩).snoc ⟨by decide,rfl⟩

theorem interpose_never_aliases_directory : ∃ err t,
    innerBkpfsInterpose {} ⟨⟨5,1⟩,9,true,true⟩ ⟨true,some (some ⟨5,1⟩),none⟩
      { exec (step 2) State.init newDirectory with
        dentries := (exec (step 2) State.init newDirectory).dentries.erase
          ⟨true,some (some ⟨5,1⟩),none⟩ } = .ok (err,t) ∧ err ≠ .ok (some ⟨true,none,none⟩) := by
  rcases interpose_never_aliases (d := ⟨true,some (some ⟨5,1⟩),none⟩) (w := {})
    (f := ⟨⟨5,1⟩,9,true,true⟩) run_newDirectory (by decide) with ⟨e,t,-,he⟩ | ⟨u,t,he⟩
  · exact ⟨_,_,he,by simp⟩
  · exact ⟨_,_,he,by simp⟩

theorem mount_crashes_by_handle (h : Run (Step minors) State.init as s) (ha : Enabled s a)
    (hb : ∀ b ∈ as, byHandle b = false) {x : Fault} (he : step minors s a = .error x) :
    isMount a = true ∨ byHandle a = true := by
  have hpath {d : Dentry} (hd : d ∈ s.all) : d.fsdata ≠ none := by
    intro hf
    exact (run_sound h).looked hb d hd (by rw [Dentry.path,hf]; rfl)
  cases error_crash h ha he with
  | makeRoot => exact .inl rfl
  | rootData => exact .inl rfl
  | lookup hf => exact absurd hf (hpath ha.2)
  | use hf => exact absurd hf (hpath ha.2)
  | fhToDentry => exact .inr rfl

theorem mount_crashes_by_handle_mount : isMount (.mount { lowerRoot with zalloc := false }) = true ∨
    byHandle (.mount { lowerRoot with zalloc := false }) = true :=
  mount_crashes_by_handle (Run.nil : Run (Step 2) _ _ _) rfl (fun _ hb => by cases hb)
    (x := .nullPointer) rfl

end

end Stack
end BackupFs
