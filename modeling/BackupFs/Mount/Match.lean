import BackupFs.Cache.Creating
import BackupFs.Mount.Lookup

namespace BackupFs

inductive MountCall where
  | lookup (L : Lower) (x : Name)
  | write (L : Lower) (J : Junk) (f : File) (pos : ℕ) (buf : Bytes)
  | delete (L : Lower) (J : Junk) (f : File) (q : Request)
  | restore (L : Lower) (J : Junk) (f : File) (q : Request)

def MountCall.run : MountCall → Sys → Sys
  | .lookup L x, s => s.on (mountLookup L x s.disk).2
  | .write L J f pos buf, s => (bkpfsWrite L J f pos buf s).2
  | .delete L J f q, s => (bkpfsUnlockedIoctl L J f 1000 q s).2.1
  | .restore L J f q, s => (bkpfsUnlockedIoctl L J f 1001 q s).2.1

structure Unlinkable (L : Lower) (x : Name) (d : Disk) : Prop where
  cached : d.cached x = true
  present : d.dir x ≠ none
  unlink : L.unlink x = none

structure CleansUpOf (L : Lower) (q : Request) (d : Disk) : Prop where
  current : ¬ Blocked L q.file d
  begins : Begins L (restoredName q.file) d
  refills : Refills L q d

def MountCall.Unlinks : MountCall → Disk → Name → Prop
  | .lookup _ _, _, _ => False
  | .write L J f _ _, d, x =>
    nextVersion (counter L J f d) > N ∧ x = oldName L J f d ∧ Unlinkable L x d
  | .delete L J f q, d, x => L.lowerFile = true ∧
    (q.version ≠ 0 ∧ x = backupName q.version q.file ∧ Unlinkable L x d ∨
      q.version = 0 ∧ ∃ v, x = backupName v q.file ∧ Takes L q.file (counter L J f d).toNat d v)
  | .restore L J f q, d, x => L.lowerFile = true ∧
    (x = q.file ∧ Unlinkable L x d ∨ CleansUpOf L q d ∧
      ∃ v, x = backupName v q.file ∧ Takes L q.file (counter L J f d).toNat (asked q d) v)

def MountCall.Meets (c : MountCall) (d : Disk) : Prop :=
  ∀ x, slash ∉ x → c.Unlinks d x → d.upper x = none

def runCalls (cs : List MountCall) (s : Sys) : Sys := cs.foldl (fun s c => c.run s) s

def AllMeet : List MountCall → Sys → Prop
  | [], _ => True
  | c :: cs, s => c.Meets s.disk ∧ AllMeet cs (c.run s)

structure Touches (U : Name → Prop) (n : Name) (d d' : Disk) : Prop where
  present : ∀ x, U x → x ≠ n ∧ d.dir x ≠ none
  gone : ∀ x, U x → d'.dir x = none
  kept : ∀ x, x ≠ n → ¬ U x → d'.dir x = d.dir x
  upper : ∀ x, x ≠ n → d'.upper x = d.upper x
  entry : slash ∉ n → d'.dir n = d.dir n ∧ (d'.upper n = d.upper n ∨ d'.upper n = d.dir n ∨
    d'.upper n = none) ∨ d.dir n = none ∧ d'.upper n = d.upper n

structure Unlinked (U : Name → Prop) (d d' : Disk) : Prop where
  gone : ∀ x, U x → d'.dir x = none
  kept : ∀ x, ¬ U x → d'.dir x = d.dir x
  upper : d'.upper = d.upper

structure Enters (n : Name) (d d' : Disk) : Prop where
  kept : ∀ x, x ≠ n → d'.dir x = d.dir x
  upper : ∀ x, x ≠ n → d'.upper x = d.upper x
  entry : slash ∉ n → d'.dir n = d.dir n ∧ (d'.upper n = d.upper n ∨ d'.upper n = d.dir n ∨
    d'.upper n = none) ∨ d.dir n = none ∧ d'.upper n = d.upper n

section
variable {U V W : Name → Prop} {n x : Name} {d d' d'' : Disk} {L : Lower}

theorem touches_pinned (h : Touches U n d d') (hp : Pinned d) :
    Pinned d' ↔ ∀ x, slash ∉ x → U x → d.upper x = none := by
  constructor
  · intro hp' x hx hu
    have hup := h.upper x (h.present x hu).1
    cases hi : d.upper x with
    | none => rfl
    | some i =>
      have hd := hp' x i hx (hup.trans hi)
      rw [h.gone x hu] at hd
      cases hd
  · intro hu x i hx hi
    rcases eq_or_ne x n with rfl | hn
    · rcases h.entry hx with ⟨hd,ho | ho | ho⟩ | ⟨hd,ho⟩
      · rw [hd,hp x i hx (ho.symm.trans hi)]
      · rw [hd,← ho,hi]
      · rw [ho] at hi
        cases hi
      · have hnone := hp x i hx (ho.symm.trans hi)
        rw [hd] at hnone
        cases hnone
    · have hup := (h.upper x hn).symm.trans hi
      have hno : ¬ U x := fun hux => by
        rw [hu x hx hux] at hup
        cases hup
      rw [h.kept x hn hno,hp x i hx hup]

theorem unlinked_false (h : d'.dir = d.dir) (hu : d'.upper = d.upper) (hU : ∀ x, ¬ U x) :
    Unlinked U d d' := ⟨fun x hx => absurd hx (hU x),fun x _ => by rw [h],hu⟩

theorem enters_refl (h : d'.dir = d.dir) (hu : d'.upper = d.upper) : Enters n d d' where
  kept x _ := by rw [h]
  upper x _ := by rw [hu]
  entry _ := .inl ⟨by rw [h],.inl (by rw [hu])⟩

theorem enters_of_eq (h : Enters n d d') (hd : d''.dir = d'.dir) (hu : d''.upper = d'.upper) :
    Enters n d d'' where
  kept x hx := by rw [hd,h.kept x hx]
  upper x hx := by rw [hu,h.upper x hx]
  entry hn := by
    rw [hd,hu]
    exact h.entry hn

theorem touches_of {d₁ d₂ : Disk} (h₁ : Unlinked U d d₁) (h : Enters n d₁ d₂)
    (h₂ : Unlinked V d₂ d') (hW : ∀ x, W x ↔ U x ∨ V x) (hn : ∀ x, W x → x ≠ n ∧ d.dir x ≠ none) :
    Touches W n d d' where
  present := hn
  gone x := by
    intro hx
    by_cases hv : V x
    · exact h₂.gone x hv
    · rw [h₂.kept x hv,h.kept x (hn x hx).1,h₁.gone x (((hW x).mp hx).resolve_right hv)]
  kept x hn hx := by
    rw [h₂.kept x fun hv => hx ((hW x).mpr (.inr hv)),h.kept x hn,
      h₁.kept x fun hu => hx ((hW x).mpr (.inl hu))]
  upper x hn := by rw [h₂.upper,h.upper x hn,h₁.upper]
  entry hs := by
    have he := h.entry hs
    have hd := h₁.kept n fun hu => (hn n ((hW n).mpr (.inl hu))).1 rfl
    rw [h₂.kept n fun hv => (hn n ((hW n).mpr (.inr hv))).1 rfl,h₂.upper]
    rwa [hd,h₁.upper] at he

theorem unlinked_discard :
    Unlinked (fun y => y = x ∧ Unlinkable L y d) d (discard L x d).2 := by
  refine ⟨?_,?_,discard_upper⟩
  · rintro _ ⟨rfl,hu⟩
    exact discard_gone hu.cached hu.unlink
  · intro y hy
    rcases eq_or_ne y x with rfl | hne
    · by_cases hd : d.dir y = none
      · cases hc : d.cached y with
        | false => rw [discard_uncached (by simp [hc])]
        | true => rw [discard_cached hc,removed_missing hd]
      · rw [discard_stays]
        exact fun ⟨hc,hu⟩ => hy ⟨rfl,hc,hd,hu⟩
    · exact (discard_other hne).1

theorem lookedUp_upper (hn : slash ∉ x) :
    (lookedUp x d).upper x = d.upper x ∧ d.dir x = none ∨ (lookedUp x d).upper x = d.dir x := by
  unfold lookedUp
  rw [Disk.pathIno_of_slash d hn]
  cases hd : d.dir x with
  | none => exact .inl ⟨rfl,rfl⟩
  | some i => exact .inr (by simp)

theorem lookedUp_upper_other (hn : n ≠ x) : (lookedUp x d).upper n = d.upper n := by
  unfold lookedUp
  cases d.pathIno x with
  | none => rfl
  | some i =>
    dsimp only
    split_ifs <;> simp [hn]

theorem enters_lookedUp : Enters x d (lookedUp x d) where
  kept y _ := by rw [lookedUp_dir]
  upper y hy := lookedUp_upper_other hy
  entry hn := by
    rw [lookedUp_dir]
    refine .inl ⟨rfl,?_⟩
    rcases lookedUp_upper hn with ⟨h,_⟩ | h
    · exact .inl h
    · exact .inr (.inl h)

theorem enters_begun (h : Begins L x d) : Enters x d (begun x d) where
  kept y hy := (begun_other hy).1
  upper y hy := by rw [begun,Disk.created_upper,lookedUp_upper_other hy]
  entry hn := by
    refine .inr ⟨begins_free h,?_⟩
    rw [begun,Disk.created_upper,lookedUp,Disk.pathIno_of_slash d hn,begins_free h]
    rfl

theorem backupRun_enters {i : Ino} {o : Option Outcome} (h : BackupRun L i x d o d') :
    Enters x d d' := by
  cases h with
  | noDentry _ => exact enters_refl rfl rfl
  | noLookup _ _ => exact enters_refl rfl rfl
  | collision _ _ _ => exact enters_lookedUp
  | noCreate _ _ _ _ => exact enters_lookedUp
  | noSource hb _ => exact enters_begun hb
  | noDest hb _ _ => exact enters_begun hb
  | unbacked hb _ => exact enters_begun hb
  | backed hb _ _ => exact enters_of_eq (enters_begun hb) rfl rfl

theorem drop_self : (d.drop x).upper x = none := by simp [Disk.drop]

theorem drop_other {y : Name} (h : y ≠ x) : (d.drop x).upper y = d.upper y := by
  simp [Disk.drop,h]

theorem enters_drop : Enters x d (lookedUp x (d.drop x)) where
  kept y _ := by rw [lookedUp_dir]; rfl
  upper y hy := by
    rw [lookedUp_upper_other hy,drop_other hy]
  entry hn := by
    rw [lookedUp_dir]
    refine .inl ⟨rfl,?_⟩
    rcases lookedUp_upper (d := d.drop x) hn with ⟨h,_⟩ | h
    · exact .inr (.inr (h.trans drop_self))
    · exact .inr (.inl h)

theorem enters_lookup : Enters x d (mountLookup L x d).2 := by
  have hfail {e : Errno} {d : Disk} (hl : L.lookup = some e) : (lookupSlow L x d).2 = d := by
    rw [lookupSlow,hl]
  cases hu : d.upper x with
  | none =>
    rw [mountLookup,hu]
    cases hl : L.lookup with
    | some e => exact enters_refl (by rw [hfail hl]) (by rw [hfail hl])
    | none => exact lookupSlow_disk hl ▸ enters_lookedUp
  | some i =>
    rw [mountLookup_cached hu]
    split_ifs
    · exact enters_refl rfl rfl
    · cases hl : L.lookup with
      | some e =>
        rw [hfail hl]
        exact ⟨fun _ _ => rfl,fun y hy => drop_other hy,fun _ => .inl ⟨rfl,.inr (.inr drop_self)⟩⟩
      | none => exact lookupSlow_disk hl ▸ enters_drop
    · exact enters_refl rfl rfl

theorem touches_lookup : Touches ((MountCall.lookup L x).Unlinks d) x d (mountLookup L x d).2 :=
  touches_of (unlinked_false (U := fun _ => False) rfl rfl fun _ hf => hf) enters_lookup
    (unlinked_false (U := fun _ => False) rfl rfl fun _ hf => hf)
    (fun _ => by simp [MountCall.Unlinks]) fun _ hf => hf.elim

section write
variable {J : Junk} {f : File} {pos : ℕ} {buf : Bytes}

theorem unlinked_retained :
    Unlinked ((MountCall.write L J f pos buf).Unlinks d) d (retained L J f d).2 := by
  obtain ⟨m,hm,_⟩ := stamp_setInode L f (nextVersion (counter L J f d)) d
  unfold retained MountCall.Unlinks
  dsimp only
  rw [hm]
  split_ifs with hv
  · have hd := unlinked_discard (L := L) (x := oldName L J f d) (d := d.setInode f.ino m)
    refine ⟨?_,?_,hd.upper⟩
    · rintro x ⟨_,rfl,hu⟩
      exact hd.gone _ ⟨rfl,hu.cached,hu.present,hu.unlink⟩
    · intro x hx
      exact hd.kept x fun ⟨he,hu⟩ => hx ⟨hv,he,hu.cached,hu.present,hu.unlink⟩
  · exact unlinked_false rfl rfl fun x hx => hv hx.1

theorem vfsWrite_upper {i : Ino} : (vfsWrite L i pos buf d).2.upper = d.upper := by
  unfold vfsWrite
  dsimp only
  split_ifs <;> rfl

theorem touches_write {o : Outcome} (h : WriteRun L J f pos buf d o d') :
    Touches ((MountCall.write L J f pos buf).Unlinks d) (newName L J f d) d d' := by
  have hnew : ∀ x, (MountCall.write L J f pos buf).Unlinks d x →
      x ≠ newName L J f d ∧ d.dir x ≠ none := by
    rintro x ⟨_,rfl,hu⟩
    exact ⟨newName_ne_oldName.symm,hu.present⟩
  have hno {d : Disk} : Unlinked (fun _ => False) d d := unlinked_false rfl rfl fun _ hf => hf
  have hor (x : Name) : (MountCall.write L J f pos buf).Unlinks d x ↔
      (MountCall.write L J f pos buf).Unlinks d x ∨ False := by rw [or_false]
  cases h with
  | retention _ =>
    exact touches_of unlinked_retained (enters_refl rfl rfl) hno hor hnew
  | stopped _ hb =>
    exact touches_of unlinked_retained (backupRun_enters hb) hno hor hnew
  | wrote _ hb =>
    refine touches_of unlinked_retained ?_ hno hor hnew
    exact enters_of_eq (backupRun_enters hb) (vfsWrite_dir _ _ _ _ _).1 vfsWrite_upper

end write

section delete
variable {J : Junk} {f : File} {q : Request} {k : ℕ} {err : Int}

theorem discardLoop_upper : (discardLoop L n k err d).2.upper = d.upper :=
  discardLoop_rule (R := fun d d' => d'.upper = d.upper) (fun _ => rfl) (fun h h' => h'.trans h)
    (fun _ _ => discard_upper) k err d

theorem unlinked_loop (k : ℕ) (err : Int) (d : Disk) :
    Unlinked (fun x => ∃ v, x = backupName v n ∧ Takes L n k d v) d
      (discardLoop L n k err d).2 := by
  have hs := discardLoop_sweeps (L := L) (n := n) k err d
  refine ⟨?_,?_,discardLoop_upper⟩
  · rintro _ ⟨v,rfl,hv⟩
    exact hs.gone v hv
  · intro x hx
    exact hs.kept x fun v hv ht => hx ⟨v,hv,ht⟩

theorem unlinked_of_eq (h : Unlinked U d d') (hd : d''.dir = d'.dir) (hu : d''.upper = d'.upper) :
    Unlinked U d d'' := ⟨fun x hx => by rw [hd,h.gone x hx],fun x hx => by rw [hd,h.kept x hx],
  hu.trans h.upper⟩

theorem unlinked_iff (h : Unlinked U d d') (hV : ∀ x, V x ↔ U x) : Unlinked V d d' :=
  ⟨fun x hx => h.gone x ((hV x).mp hx),fun x hx => h.kept x fun hu => hx ((hV x).mpr hu),h.upper⟩

theorem unlinked_deletedOne : Unlinked (fun x => x = backupName q.version q.file ∧ Unlinkable L x d)
    d (deletedOne L J f q d).2 := by
  have hd := unlinked_discard (L := L) (x := backupName q.version q.file) (d := d)
  unfold deletedOne
  generalize discard L _ d = out at hd ⊢
  obtain ⟨e,d'⟩ := out
  cases e with
  | none => exact hd
  | some e =>
    obtain ⟨m,hm,_⟩ := stamp_setInode L f (wrapInt (vfsGetxattr L f.ino .youngest J.val d' - 1)) d'
    dsimp only
    rw [hm]
    split_ifs
    · exact hd
    · exact unlinked_of_eq hd rfl rfl
    · exact hd

theorem unlinked_deletedAll : Unlinked (fun x => ∃ v, x = backupName v q.file ∧
    Takes L q.file (counter L J f d).toNat d v) d (deletedAll L J f q d).2 := by
  have hd := unlinked_loop (L := L) (n := q.file) (counter L J f d).toNat (-ENOTTY) d
  unfold deletedAll
  generalize discardLoop L _ _ _ d = out at hd ⊢
  obtain ⟨r,d'⟩ := out
  cases r with
  | error e => exact hd
  | ok e =>
    obtain ⟨m,hm,_⟩ := vfsSetxattr_setInode L f.ino .revision (-1) d'
    dsimp only
    rw [hm]
    exact unlinked_of_eq hd rfl rfl

theorem unlinked_delete (s : Sys) : Unlinked ((MountCall.delete L J f q).Unlinks s.disk) s.disk
    ((MountCall.delete L J f q).run s).disk := by
  rw [MountCall.run]
  cases hl : L.lowerFile with
  | false =>
    rw [ioctl_noFile J f s hl]
    exact unlinked_false rfl rfl fun x hx => by simp [MountCall.Unlinks,hl] at hx
  | true =>
    rcases eq_or_ne q.version 0 with hv | hv
    · rw [ioctl_deleteAll J f s hl hv]
      dsimp only
      rw [(deleteAll_spec L J f q s).2]
      exact unlinked_iff unlinked_deletedAll fun x => by simp [MountCall.Unlinks,hl,hv]
    · rw [ioctl_deleteOne J f s hl hv]
      dsimp only
      rw [(deleteOne_spec L J f q s).2]
      exact unlinked_iff unlinked_deletedOne fun x => by simp [MountCall.Unlinks,hl,hv]

theorem touches_delete (s : Sys) : Touches ((MountCall.delete L J f q).Unlinks s.disk) q.file
    s.disk ((MountCall.delete L J f q).run s).disk := by
  refine touches_of (unlinked_delete s) (enters_refl rfl rfl)
    (unlinked_false (U := fun _ => False) rfl rfl fun _ hf => hf) (fun x => by rw [or_false]) ?_
  rintro x ⟨_,⟨_,rfl,hu⟩ | ⟨_,v,rfl,ht⟩⟩
  · exact ⟨backupName_ne_self _ _,hu.present⟩
  · exact ⟨backupName_ne_self _ _,ht.present⟩

end delete

section restore
variable {J : Junk} {f : File} {q : Request} {rest : Disk → Outcome × Disk}

theorem createThen_enters (h : ¬ Begins L x d) : Enters x d (createThen L x rest d).2 := by
  unfold createThen
  cases ha : L.dAlloc with
  | false => exact enters_refl rfl rfl
  | true =>
    rw [if_neg (by simp)]
    cases hl : L.lookup with
    | some e => exact enters_refl rfl rfl
    | none =>
      dsimp only
      cases hx : d.lowerIno x with
      | some i => exact enters_lookedUp
      | none =>
        cases hc : L.create with
        | none => exact absurd ⟨ha,hl,hx,hc⟩ h
        | some e => exact enters_lookedUp

theorem asked_fields : (asked q d).dir = d.dir ∧ (asked q d).upper = d.upper := by
  unfold asked
  split_ifs <;> exact ⟨rfl,rfl⟩

theorem loopResult_disk {out : Except Int Int × Disk} : (loopResult out).2 = out.2 := by
  obtain ⟨r,d⟩ := out
  cases r <;> rfl

theorem unlinked_restoreTail : Unlinked (fun x => Refills L q d ∧ ∃ v, x = backupName v q.file ∧
    Takes L q.file (counter L J f d).toNat (asked q d) v) d (restoreTail L J f q d).2 := by
  obtain ⟨had,hau⟩ := asked_fields (q := q) (d := d)
  unfold restoreTail Refills
  cases hp : L.pathLookup with
  | some e => exact unlinked_false rfl rfl fun x hx => by simp at hx
  | none =>
    rw [vfsPathLookup_asked]
    cases hi : d.pathIno (backupName q.version q.file) with
    | none => exact unlinked_false had hau fun x hx => by simp at hx
    | some i =>
      unfold restoreFrom
      cases hs : L.openSrc with
      | err e => exact unlinked_false had hau fun x hx => by simp at hx
      | null => exact unlinked_false had hau fun x hx => by simp at hx
      | file =>
        cases hd : L.openDest with
        | err e => exact unlinked_false had hau fun x hx => by simp at hx
        | null => exact unlinked_false had hau fun x hx => by simp at hx
        | file =>
          dsimp only
          rw [loopResult_disk,cleanup,copied_fields.2.2,asked_counter]
          generalize (counter L J f d).toNat = k
          have hl := unlinked_loop (L := L) (n := q.file) k 0
            (copied L i (restoredName q.file) (asked q d))
          have hcd := (copied_fields (L := L) (J := J) (f := f) (d := asked q d) (i := i)
            (x := restoredName q.file)).1
          refine ⟨fun x hx => ?_,fun x hx => ?_,hl.upper.trans ((copied_frame L i _ _).2.trans hau)⟩
          · obtain ⟨_,v,hv,ht⟩ := hx
            exact hl.gone x ⟨v,hv,(takes_congr (asked_congr k)).mpr ht⟩
          · rw [hl.kept x,hcd,had]
            rintro ⟨v,hv,ht⟩
            exact hx ⟨by simp,v,hv,(takes_congr (asked_congr k)).mp ht⟩

theorem touches_restoreEffect (hf : f.ino < d.nextIno) :
    Touches (fun x => x = q.file ∧ Unlinkable L x d ∨ CleansUpOf L q d ∧
        ∃ v, x = backupName v q.file ∧ Takes L q.file (counter L J f d).toNat (asked q d) v)
      (restoredName q.file) d (restoreEffect L J f q d).2 := by
  have hd := unlinked_discard (L := L) (x := q.file) (d := d)
  have hno {d : Disk} : Unlinked (fun _ => False) d d := unlinked_false rfl rfl fun _ hf => hf
  have hdir : ∀ k v, Takes L q.file k (asked q d) v → d.dir (backupName v q.file) ≠ none := by
    intro k v ht
    rw [← (asked_fields (q := q)).1]
    exact ht.present
  have hname : ∀ x, (x = q.file ∧ Unlinkable L x d ∨ CleansUpOf L q d ∧
      ∃ v, x = backupName v q.file ∧ Takes L q.file (counter L J f d).toNat (asked q d) v) →
        x ≠ restoredName q.file ∧ d.dir x ≠ none := by
    rintro x (⟨rfl,hu⟩ | ⟨_,v,rfl,ht⟩)
    · exact ⟨(restoredName_ne_self _).symm,hu.present⟩
    · exact ⟨(restoredName_ne_backupName _ _ _).symm,hdir _ v ht⟩
  unfold restoreEffect discardThen
  by_cases hb : Blocked L q.file d
  · rw [if_pos (discard_blocked.mpr hb)]
    refine touches_of hd (enters_refl rfl rfl) hno (fun x => or_congr_right ?_) hname
    exact iff_of_false (fun hc => hc.1.current hb) id
  · rw [if_neg (not_not.mpr (discard_free.mpr hb))]
    have hiff := discard_begins (L := L) (d := d) (restoredName_ne_self q.file).symm
    by_cases hbeg : Begins L (restoredName q.file) d
    · rw [createThen_begins (hiff.mpr hbeg)]
      have hrest := unlinked_restoreTail (L := L) (J := J) (f := f) (q := q)
        (d := begun (restoredName q.file) (cleared L q d))
      rw [begun_refills,begun_counter hf] at hrest
      refine touches_of hd (enters_begun (hiff.mpr hbeg)) hrest (fun x => or_congr_right ?_) hname
      constructor
      · rintro ⟨hc,v,hv,ht⟩
        exact ⟨hc.refills,v,hv,(takes_congr (begun_asked _)).mpr ht⟩
      · rintro ⟨hr,v,hv,ht⟩
        exact ⟨⟨hb,hbeg,hr⟩,v,hv,(takes_congr (begun_asked _)).mp ht⟩
    · have he : Enters (restoredName q.file) (cleared L q d)
          (createThen L (restoredName q.file) (restoreTail L J f q) (cleared L q d)).2 :=
        createThen_enters (hiff.not.mpr hbeg)
      refine touches_of hd he hno (fun x => or_congr_right ?_) hname
      exact iff_of_false (fun hc => hbeg hc.1.begins) id

theorem restoreEffect_cleansUp (hf : f.ino < d.nextIno) (h : CleansUpOf L q d) :
    ∃ i, (found L q d).1 = .ok i ∧ ∀ J, restoreEffect L J f q d =
      loopResult (discardLoop L q.file (counter L J f d).toNat 0 (refilled L q i d)) := by
  obtain ⟨hp,hv,hs,hd⟩ := h.refills
  rcases found_result (L := L) (q := q) (d := d) with ⟨_,hno⟩ | ⟨⟨i,hi,_⟩,_⟩
  · exact absurd ⟨hp,hv⟩ hno
  · refine ⟨i,hi,fun J => ?_⟩
    rw [restoreEffect_found (discard_free.mpr h.current) (cleared_begins.mpr h.begins) hi,
      restoreFrom,hs,hd]
    dsimp only
    rw [refilled_copied,cleanup,refilled_counter hf]

theorem touches_restore {s : Sys} (hf : f.ino < s.disk.nextIno) :
    Touches ((MountCall.restore L J f q).Unlinks s.disk) (restoredName q.file) s.disk
      ((MountCall.restore L J f q).run s).disk := by
  rw [MountCall.run]
  cases hl : L.lowerFile with
  | false =>
    have hno {d : Disk} : Unlinked (fun _ => False) d d := unlinked_false rfl rfl fun _ hf => hf
    rw [ioctl_noFile J f s hl]
    exact touches_of hno (enters_refl rfl rfl) hno (fun x => by simp [MountCall.Unlinks,hl])
      fun x hx => by simp [MountCall.Unlinks,hl] at hx
  | true =>
    have he := congrArg Prod.snd (restoreRun_effect (restore_run L J f q s))
    have ht := touches_restoreEffect (L := L) (J := J) (q := q) hf
    rw [he] at ht
    have hU : (MountCall.restore L J f q).Unlinks s.disk = fun x =>
        x = q.file ∧ Unlinkable L x s.disk ∨ CleansUpOf L q s.disk ∧ ∃ v, x = backupName v q.file ∧
          Takes L q.file (counter L J f s.disk).toNat (asked q s.disk) v := by
      funext x
      simp [MountCall.Unlinks,hl]
    rw [ioctl_restore J f s hl,hU]
    exact ht

end restore

end

def MountCall.Opened : MountCall → Disk → Prop
  | .lookup _ _, _ => True
  | .write _ _ f _ _, d => f.ino < d.nextIno
  | .delete _ _ f _, d => f.ino < d.nextIno
  | .restore _ _ f _, d => f.ino < d.nextIno

theorem touches_call {c : MountCall} {s : Sys} (h : c.Opened s.disk) :
    ∃ n, Touches (c.Unlinks s.disk) n s.disk (c.run s).disk := by
  cases c with
  | lookup L x => exact ⟨x,touches_lookup⟩
  | write L J f pos buf => exact ⟨_,touches_write (bkpfsWrite_run L J f pos buf s)⟩
  | delete L J f q => exact ⟨_,touches_delete s⟩
  | restore L J f q => exact ⟨_,touches_restore h⟩

def AllOpened : List MountCall → Sys → Prop
  | [], _ => True
  | c :: cs, s => c.Opened s.disk ∧ AllOpened cs (c.run s)

theorem reached_pinned {cs : List MountCall} {s : Sys} (hp : Pinned s.disk)
    (ho : AllOpened cs s) (hm : AllMeet cs s) {cs' : List MountCall} (h : cs' <+: cs) :
    Pinned (runCalls cs' s).disk := by
  induction cs' generalizing cs s with
  | nil => exact hp
  | cons c cs' ih =>
    obtain ⟨t,rfl⟩ := h
    obtain ⟨n,ht⟩ := touches_call ho.1
    exact ih ((touches_pinned ht hp).mpr hm.1) ho.2 hm.2 ⟨t,rfl⟩

theorem unmet_mismatch {L : Lower} (hh : L.dRevalidate = none) {U : Name → Prop} {n x : Name}
    {d d' : Disk} (h : Touches U n d d') (hx : U x) (hm : MountMatches L d' x) :
    d.upper x = none := by
  cases hu : d.upper x with
  | none => rfl
  | some i =>
    have hup := (h.upper x (h.present x hx).1).trans hu
    exact absurd (h.gone x hx) (hm.found.mp ⟨_,pinned_found hh hup⟩)

theorem matches_meet {L : Lower} (hh : L.dRevalidate = none) {cs : List MountCall} {s : Sys}
    (hp : Pinned s.disk) (ho : AllOpened cs s)
    (h : ∀ cs', cs' <+: cs → ∀ x, slash ∉ x → MountMatches L (runCalls cs' s).disk x) :
    AllMeet cs s := by
  induction cs generalizing s with
  | nil => trivial
  | cons c cs ih =>
    obtain ⟨n,ht⟩ := touches_call ho.1
    have hm : c.Meets s.disk := fun x hx hu =>
      unmet_mismatch hh ht hu (h [c] ⟨cs,rfl⟩ x hx)
    refine ⟨hm,ih ((touches_pinned ht hp).mpr hm) ho.2 fun cs' hcs => ?_⟩
    obtain ⟨t,rfl⟩ := hcs
    exact h (c :: cs') ⟨t,rfl⟩

theorem mount_shows_directory (L : Lower) (hL : LooksUp L) (cs : List MountCall) (s : Sys)
    (hp : Pinned s.disk) (ho : AllOpened cs s) :
    (AllMeet cs s →
        ∀ cs', cs' <+: cs → ∀ x, slash ∉ x → MountMatches L (runCalls cs' s).disk x) ∧
      (L.dRevalidate = none →
        (∀ cs', cs' <+: cs → ∀ x, slash ∉ x → MountMatches L (runCalls cs' s).disk x) →
          AllMeet cs s) :=
  ⟨fun hm _ h _ hx => pinned_matches hL (reached_pinned hp ho hm h) hx,
    fun hh h => matches_meet hh hp ho h⟩

theorem pinned_single (f : File) (n : Inode) : Pinned (Disk.single f n) := by
  intro x i _ h
  cases h

theorem looksUp_default : LooksUp {} := ⟨rfl,fun _ h => by cases h⟩

def openedThenDeleted : List MountCall :=
  [.write {} {} aTxt 0 [1],.lookup {} (backupName 1 aTxt.name),
    .delete {} {} aTxt (clientRequest aTxt.name 1)]

theorem openedThenDeleted_opened : AllOpened openedThenDeleted ⟨Disk.single aTxt {},[]⟩ := by
  refine ⟨?_,trivial,?_,trivial⟩
  · change 0 < (Disk.single aTxt {}).nextIno
    decide
  · change 0 < (runCalls (openedThenDeleted.take 2) ⟨Disk.single aTxt {},[]⟩).disk.nextIno
    decide +kernel

theorem mount_shows_directory_deleted :
    (AllMeet openedThenDeleted ⟨Disk.single aTxt {},[]⟩ →
        ∀ cs', cs' <+: openedThenDeleted → ∀ x, slash ∉ x →
          MountMatches {} (runCalls cs' ⟨Disk.single aTxt {},[]⟩).disk x) ∧
      (({} : Lower).dRevalidate = none →
        (∀ cs', cs' <+: openedThenDeleted → ∀ x, slash ∉ x →
          MountMatches {} (runCalls cs' ⟨Disk.single aTxt {},[]⟩).disk x) →
            AllMeet openedThenDeleted ⟨Disk.single aTxt {},[]⟩) :=
  mount_shows_directory {} looksUp_default openedThenDeleted ⟨Disk.single aTxt {},[]⟩
    (pinned_single aTxt {}) openedThenDeleted_opened

theorem deleted_backup_still_opens : ¬ ∀ (L : Lower) (cs : List MountCall) (s : Sys), LooksUp L →
    Pinned s.disk → AllOpened cs s → ∀ x, slash ∉ x → MountMatches L (runCalls cs s).disk x := by
  intro h
  have hm := h {} openedThenDeleted ⟨Disk.single aTxt {},[]⟩ looksUp_default (pinned_single aTxt {})
    openedThenDeleted_opened (backupName 1 aTxt.name) (by decide)
  have hgone := hm.found.mp ⟨[],by rfl⟩
  revert hgone
  decide +kernel

end BackupFs
