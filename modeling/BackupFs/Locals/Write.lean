import BackupFs.Locals.Stored

namespace BackupFs

open Words

def Junk.holding (v : Int) (name : ℕ) : Junk where
  val := v
  q2 := { name := name, buff := List.replicate 1024 0 }
  buffer := List.replicate 1024 0

theorem Junk.holding_fits {v : Int} (h : IsInt v) (name : ℕ) : (Junk.holding v name).Fits where
  val := h
  val1 := isInt_zero
  version := isInt_zero
  youngest := isInt_zero
  oldest := isInt_zero
  buff := List.length_replicate
  buffer := List.length_replicate

def Frame.holding (v : Int) (name : ℕ) : Frame where
  junk := Junk.holding v name
  behind := List.replicate 16 0
  slack := List.replicate 12 0

theorem Frame.holding_fits {v : Int} (h : IsInt v) (name : ℕ) : (Frame.holding v name).Fits where
  junk := Junk.holding_fits h name
  behind := List.length_replicate
  slack := List.length_replicate

structure Frame.Alike (F F' : Frame) : Prop where
  behind : F.behind = F'.behind
  slack : F.slack = F'.slack

theorem Frame.holding_alike (v w : Int) (name name' : ℕ) :
    (Frame.holding v name).Alike (Frame.holding w name') := ⟨rfl,rfl⟩

def Readable (L : Lower) (a : Attr) (x : Xattrs) : Prop := 4 ≤ (got L a x).length

def CanHold (L : Lower) (a : Attr) (x : Xattrs) (v : Int) : Prop :=
  ∃ u, IsInt u ∧ readInt32 (vfsGetxattrBytes L a (int32 u) x) = v

section
variable {L : Lower} {F F' : Frame} {a : Attr} {x : Xattrs} {v : Int}

theorem val_overlay :
    F.val L a x = readInt32 (vfsGetxattrBytes L a (int32 F.junk.val) x) := readInt32_overlay _

theorem canHold_val (hF : F.Fits) : CanHold L a x (F.val L a x) :=
  ⟨F.junk.val,hF.junk.val,val_overlay.symm⟩

theorem canHold_frame (h : CanHold L a x v) :
    ∃ u, IsInt u ∧ ∀ name, (Frame.holding u name).val L a x = v := by
  obtain ⟨u,hu,hv⟩ := h
  exact ⟨u,hu,fun name => val_overlay.trans hv⟩

theorem canHold_isInt (h : CanHold L a x v) : IsInt v := by
  obtain ⟨u,_,rfl⟩ := h
  exact isInt_readInt32 _

theorem canHold_neg (h : ¬ Readable L a x) : ∃ v, CanHold L a x v ∧ v < 0 :=
  ⟨_,⟨-1,⟨by decide,by decide⟩,rfl⟩,readInt32_overlay_neg (Nat.lt_of_not_le h)⟩

theorem canHold_pos (h : ¬ Readable L a x) : ∃ v, CanHold L a x v ∧ 0 < v :=
  ⟨_,⟨16777216,⟨by decide,by decide⟩,rfl⟩,readInt32_overlay_pos (Nat.lt_of_not_le h)⟩

theorem readable_read (h : Readable L a x) :
    F.read L a x = got L a x ++ F.behind.drop ((got L a x).length - 4) := by
  have hle : (int32 F.junk.val).length ≤ (got L a x).length := (int32_length _).le.trans h
  rw [Frame.read,vfsGetxattrBytes,overlay_whole hle,int32_length]

theorem readable_val (h : Readable L a x) : F.val L a x = F'.val L a x := by
  rw [Frame.val,Frame.val,readable_read h,readable_read h,readInt32_append h,readInt32_append h]

theorem stampBytes_apply (p : Bytes) : stampBytes L p x a =
    if L.setxattr a = none then some p else x a := by
  unfold stampBytes vfsSetxattrBytes
  cases h : L.setxattr .revision <;> cases h' : L.setxattr .youngest <;> cases a <;>
    simp [h,h']

theorem stampBytes_refused (h : ∀ a, L.setxattr a ≠ none) (p : Bytes) : stampBytes L p x = x :=
  funext fun a => (stampBytes_apply p).trans (if_neg (h a))

theorem stampBytes_eq {p p' : Bytes} (h : stampBytes L p x = stampBytes L p' x) :
    p = p' ∨ ∀ a, L.setxattr a ≠ none := by
  by_contra hno
  obtain ⟨hp,hset⟩ := not_or.mp hno
  obtain ⟨a,ha⟩ := not_forall.mp hset
  have he := congrFun h a
  rw [stampBytes_apply,stampBytes_apply,if_pos (not_not.mp ha),if_pos (not_not.mp ha)] at he
  exact hp (Option.some.inj he)

end

def writeNumbered (L : Lower) (f : File) (pos : ℕ) (buf : Bytes) (d : Disk) (val : Int) :
    Outcome × Disk :=
  let new := backupName val f.name
  let rest := createThen L new (writeTail L f.ino new pos buf)
  if val > N then discardThen L (backupName (val - N) f.name) rest d else rest d

inductive GivesUp (L : Lower) (x : Name) (d : Disk) : Outcome → Prop
  | noDentry (ha : L.dAlloc = false) : GivesUp L x d (.returned (-ENOMEM))
  | noLookup (ha : L.dAlloc = true) (hl : L.lookup ≠ none) : GivesUp L x d .oops
  | collision (ha : L.dAlloc = true) (hl : L.lookup = none)
      (hx : (d.lowerIno x).isSome = true) : GivesUp L x d (.returned (-EEXIST))
  | noCreate (ha : L.dAlloc = true) (hl : L.lookup = none) (hx : d.lowerIno x = none) {e : Errno}
      (hc : L.create = some e) : GivesUp L x d (.returned e)

inductive WriteStops (L : Lower) (f : File) (d : Disk) (val : Int) : Outcome → Prop
  | retention (hv : val > N) (hb : Blocked L (backupName (val - N) f.name) d) :
      WriteStops L f d val (.returned (L.unlinkError (backupName (val - N) f.name) d))
  | create (hp : val > N → ¬ Blocked L (backupName (val - N) f.name) d ∧
        (d.cached (backupName (val - N) f.name) = true →
          L.unlink (backupName (val - N) f.name) ≠ none)) {out : Outcome}
      (hg : GivesUp L (backupName val f.name) d out) : WriteStops L f d val out

def WriteSettled (L : Lower) (f : File) (x : Xattrs) (d : Disk) : Prop :=
  Readable L .revision x ∨ (∀ a, L.setxattr a ≠ none) ∧
    ∃ out, ∀ v, CanHold L .revision x v → WriteStops L f d (nextVersion v) out

section
variable {L : Lower} {J : Junk} {f : File} {d : Disk} {x : Name} {val : Int} {pos : ℕ}
  {buf : Bytes} {out : Outcome} {rest : Disk → Outcome × Disk}

theorem writeEffect_numbered : writeEffect L.bare J f pos buf d =
    writeNumbered L f pos buf d (nextVersion J.val) := by
  unfold writeEffect writeNumbered newName oldName
  rw [bare_counter]
  rfl

theorem begins_or_givesUp (L : Lower) (x : Name) (d : Disk) :
    Begins L x d ∨ ∃ out, GivesUp L x d out := by
  cases ha : L.dAlloc with
  | false => exact .inr ⟨_,.noDentry ha⟩
  | true =>
    cases hl : L.lookup with
    | some e => exact .inr ⟨_,.noLookup ha (by simp [hl])⟩
    | none =>
      cases hx : d.lowerIno x with
      | some i => exact .inr ⟨_,.collision ha hl (by simp [hx])⟩
      | none =>
        cases hc : L.create with
        | some e => exact .inr ⟨_,.noCreate ha hl hx hc⟩
        | none => exact .inl ⟨ha,hl,hx,hc⟩

theorem createThen_givesUp (h : GivesUp L x d out) : (createThen L x rest d).1 = out ∧
    (createThen L x rest d).2.dir = d.dir ∧ (createThen L x rest d).2.inodes = d.inodes := by
  unfold createThen
  cases h with
  | noDentry ha =>
    rw [if_pos ha]
    exact ⟨rfl,rfl,rfl⟩
  | noLookup ha hl =>
    obtain ⟨e,he⟩ := Option.ne_none_iff_exists'.mp hl
    rw [if_neg (by simp [ha]),he]
    exact ⟨rfl,rfl,rfl⟩
  | collision ha hl hx =>
    rw [if_neg (by simp [ha]),hl]
    dsimp only
    rw [if_pos hx]
    exact ⟨rfl,lookedUp_dir x d,lookedUp_inodes x d⟩
  | noCreate ha hl hx hc =>
    rw [if_neg (by simp [ha]),hl]
    dsimp only
    rw [if_neg (by simp [hx]),hc]
    exact ⟨rfl,lookedUp_dir x d,lookedUp_inodes x d⟩

theorem createThen_dir (hk : ∀ d, (rest d).2.dir = d.dir) {y : Name}
    (h : d.dir y ≠ none ∨ y ≠ x) : (createThen L x rest d).2.dir y = d.dir y := by
  rcases begins_or_givesUp L x d with hb | ⟨out,hg⟩
  · rw [createThen_begins hb,hk]
    refine (begun_other ?_).1
    rintro rfl
    exact h.elim (fun hy => hy (begins_free hb)) fun hy => hy rfl
  · rw [(createThen_givesUp hg).2.1]

theorem discardThen_dir {y : Name} (hk : ∀ d, (rest d).2.dir y = d.dir y)
    (h : y ≠ x ∨ d.dir y = none) : (discardThen L x rest d).2.dir y = d.dir y := by
  have ho : (discard L x d).2.dir y = d.dir y := by
    by_cases hyx : y = x
    · have hfree := h.resolve_left (not_not.mpr hyx)
      subst hyx
      by_cases hc : d.cached y = true
      · rw [discard_cached hc,removed_missing hfree]
      · rw [discard_uncached hc]
    · exact (discard_other hyx).1
  unfold discardThen
  split_ifs
  · exact ho
  · rw [hk,ho]

theorem writeNumbered_kept (hold : val > N → x ≠ backupName (val - N) f.name ∨ d.dir x = none)
    (hnew : x ≠ backupName val f.name) : (writeNumbered L f pos buf d val).2.dir x = d.dir x := by
  have hcreate (d : Disk) : (createThen L (backupName val f.name)
      (writeTail L f.ino (backupName val f.name) pos buf) d).2.dir x = d.dir x :=
    createThen_dir (fun d => writeTail_dir f.ino _) (.inr hnew)
  unfold writeNumbered
  dsimp only
  split_ifs with hv
  · exact discardThen_dir hcreate (hold hv)
  · exact hcreate d

theorem writeNumbered_first (hx : d.dir x ≠ none) :
    (writeNumbered L f pos buf d 1).2.dir x = d.dir x := by
  unfold writeNumbered
  dsimp only
  rw [if_neg (by decide)]
  exact createThen_dir (fun d => writeTail_dir f.ino _) (.inl hx)

theorem discard_refused (hb : ¬ Blocked L x d)
    (hu : d.cached x = true → L.unlink x ≠ none) :
    (discard L x d).1.getD 0 = 0 ∧ (discard L x d).2 = d := by
  refine ⟨discard_free.mpr hb,?_⟩
  by_cases hc : d.cached x = true
  · rw [discard_cached hc,removed_kept (.inr (hu hc))]
  · rw [discard_uncached hc]

theorem writeStops_result (h : WriteStops L f d val out) :
    (writeNumbered L f pos buf d val).1 = out ∧
      (writeNumbered L f pos buf d val).2.dir = d.dir ∧
        (writeNumbered L f pos buf d val).2.inodes = d.inodes := by
  unfold writeNumbered
  dsimp only
  cases h with
  | retention hv hb =>
    rw [if_pos hv,discardThen,if_pos (discard_blocked.mpr hb),discard_cached hb.1,removed_fst,
      removed_kept hb.kept]
    exact ⟨rfl,rfl,rfl⟩
  | create hp hg =>
    split_ifs with hv
    · obtain ⟨hb,hu⟩ := hp hv
      obtain ⟨h0,hstay⟩ := discard_refused hb hu
      rw [discardThen,if_neg (not_not.mpr h0),hstay]
      exact createThen_givesUp hg
    · exact createThen_givesUp hg

theorem createThen_new (hk : ∀ d, (rest d).2.dir = d.dir) (h : Begins L x d) :
    d.dir x = none ∧ (createThen L x rest d).2.dir x ≠ none := by
  refine ⟨begins_free h,?_⟩
  rw [createThen_begins h,hk,begun,Disk.created_dir,Function.update_self]
  exact Option.some_ne_none _

theorem writeStops_or_changes : (∃ out, WriteStops L f d val out) ∨
      (val > N ∧ d.dir (backupName (val - N) f.name) ≠ none ∧
        (writeNumbered L f pos buf d val).2.dir (backupName (val - N) f.name) = none) ∨
      d.dir (backupName val f.name) = none ∧
        (writeNumbered L f pos buf d val).2.dir (backupName val f.name) ≠ none := by
  have hne : backupName (val - N) f.name ≠ backupName val f.name := by
    intro he
    have hv := (backupName_inj.mp he).1
    rw [N] at hv
    omega
  have hkeep (d : Disk) :
      (writeTail L f.ino (backupName val f.name) pos buf d).2.dir = d.dir := writeTail_dir f.ino _
  have hcreate := createThen_new (L := L) (x := backupName val f.name) (d := d) hkeep
  unfold writeNumbered
  dsimp only
  by_cases hv : val > N
  · rw [if_pos hv]
    by_cases hb : Blocked L (backupName (val - N) f.name) d
    · exact .inl ⟨_,.retention hv hb⟩
    · by_cases hu : d.cached (backupName (val - N) f.name) = true →
        L.unlink (backupName (val - N) f.name) ≠ none
      · obtain ⟨h0,hstay⟩ := discard_refused hb hu
        rw [discardThen,if_neg (not_not.mpr h0),hstay]
        rcases begins_or_givesUp L (backupName val f.name) d with hbeg | ⟨out,hg⟩
        · exact .inr (.inr (hcreate hbeg))
        · exact .inl ⟨out,.create (fun _ => ⟨hb,hu⟩) hg⟩
      · obtain ⟨hc,hun⟩ := Classical.not_imp.mp hu
        have hpresent : d.dir (backupName (val - N) f.name) ≠ none := fun hn =>
          hb ⟨hc,.inl hn⟩
        refine .inr (.inl ⟨hv,hpresent,?_⟩)
        rw [discardThen,if_neg (not_not.mpr (discard_free.mpr hb)),createThen_dir hkeep (.inr hne)]
        exact discard_gone hc (not_not.mp hun)
  · rw [if_neg hv]
    rcases begins_or_givesUp L (backupName val f.name) d with hbeg | ⟨out,hg⟩
    · exact .inr (.inr (hcreate hbeg))
    · exact .inl ⟨out,.create (fun hv' => absurd hv' hv) hg⟩

theorem nextVersion_neg {v : Int} (h : v < 0) : nextVersion v = 1 := if_pos h

theorem nextVersion_ne_one {v : Int} (h : 0 < v) (hv : IsInt v) : nextVersion v ≠ 1 := by
  have hm := hv.2
  unfold nextVersion
  rw [if_neg (not_lt.mpr h.le)]
  rw [INT_MAX] at hm
  rcases eq_or_ne v 2147483647 with rfl | hne
  · decide
  · rw [wrapInt_eq (by omega) (by rw [INT_MAX]; omega)]
    omega

-- a number below 0 and one above it are enough: neither may change an entry
theorem numbers_stop {C : Int → Prop} {n p : Int} (hn : C n) (hneg : n < 0) (hp : C p)
    (hpos : 0 < p) (hint : IsInt p) (h : ∀ v w, C v → C w →
      SameResult (writeNumbered L f pos buf d (nextVersion v))
        (writeNumbered L f pos buf d (nextVersion w))) {v : Int} (hv : C v) :
    WriteStops L f d (nextVersion v) (writeNumbered L f pos buf d 1).1 := by
  have h1 := nextVersion_neg hneg
  rcases @writeStops_or_changes L f d (nextVersion v) pos buf with
    ⟨out,hs⟩ | ⟨_,hpresent,hgone⟩ | ⟨hfree,hnew⟩
  · have ho := (h v n hv hn).outcome
    rw [(writeStops_result hs).1,h1] at ho
    rwa [← ho]
  · have hd := congrFun (h v n hv hn).dir (backupName (nextVersion v - N) f.name)
    rw [hgone,h1,writeNumbered_first hpresent] at hd
    exact absurd hd.symm hpresent
  · obtain ⟨w,hw,hne⟩ : ∃ w, C w ∧ nextVersion v ≠ nextVersion w := by
      by_cases hv1 : nextVersion v = 1
      · exact ⟨p,hp,by rw [hv1]; exact (nextVersion_ne_one hpos hint).symm⟩
      · exact ⟨n,hn,by rwa [h1]⟩
    have hd := congrFun (h v w hv hw).dir (backupName (nextVersion v) f.name)
    rw [writeNumbered_kept (fun _ => .inr hfree) fun he => hne (backupName_inj.mp he).1,hfree] at hd
    exact absurd hd hnew

section
variable {F F' : Frame} {x : Xattrs}

structure SameWrite (L : Lower) (f : File) (pos : ℕ) (buf : Bytes) (x : Xattrs) (d : Disk)
    (F F' : Frame) : Prop where
  result : SameResult (writeEffect L.bare (F.reading L x) f pos buf d)
    (writeEffect L.bare (F'.reading L x) f pos buf d)
  stored : stampBytes L (F.stamped L x) x = stampBytes L (F'.stamped L x) x

theorem stamped_val (h : F.stamped L x = F'.stamped L x) :
    nextVersion (F.val L .revision x) = nextVersion (F'.val L .revision x) :=
  int32_inj (isInt_nextVersion _) (isInt_nextVersion _) h

theorem numbered_reading : writeEffect L.bare (F.reading L x) f pos buf d =
    writeNumbered L f pos buf d (nextVersion (F.val L .revision x)) := writeEffect_numbered

theorem writeSettled_of (h : ∀ F F' : Frame, F.Fits → F'.Fits → F.Alike F' →
    SameWrite L f pos buf x d F F') : WriteSettled L f x d := by
  by_cases hr : Readable L .revision x
  · exact .inl hr
  · obtain ⟨n,hn,hneg⟩ := canHold_neg hr
    obtain ⟨p,hp,hpos⟩ := canHold_pos hr
    have hsame : ∀ v w, CanHold L .revision x v → CanHold L .revision x w →
        SameResult (writeNumbered L f pos buf d (nextVersion v))
          (writeNumbered L f pos buf d (nextVersion w)) ∧
            (nextVersion v = nextVersion w ∨ ∀ a, L.setxattr a ≠ none) := by
      intro v w hv hw
      obtain ⟨u,hu,huv⟩ := canHold_frame hv
      obtain ⟨t,ht,htw⟩ := canHold_frame hw
      obtain ⟨hres,hst⟩ := h _ _ (Frame.holding_fits hu 0) (Frame.holding_fits ht 0)
        (Frame.holding_alike u t 0 0)
      rw [numbered_reading,numbered_reading,huv,htw] at hres
      refine ⟨hres,(stampBytes_eq hst).imp_left fun he => ?_⟩
      have hval := stamped_val he
      rwa [huv,htw] at hval
    have hx : ∀ a, L.setxattr a ≠ none := by
      refine (hsame n p hn hp).2.resolve_left fun he => ?_
      rw [nextVersion_neg hneg] at he
      exact nextVersion_ne_one hpos (canHold_isInt hp) he.symm
    exact .inr ⟨hx,_,fun v hv => numbers_stop hn hneg hp hpos (canHold_isInt hp)
      (fun v w hv hw => (hsame v w hv hw).1) hv⟩

theorem read_eq (hr : Readable L .revision x) (hF : F.Fits) (hF' : F'.Fits)
    (hb : F.behind = F'.behind ∨ 20 ≤ (got L .revision x).length) :
    F.read L .revision x = F'.read L .revision x := by
  rw [readable_read hr,readable_read hr]
  rcases hb with hb | hb
  · rw [hb]
  · have hlen := hF.behind
    have hlen' := hF'.behind
    rw [List.drop_of_length_le (by omega),List.drop_of_length_le (by omega)]

theorem writeReadable_same (hr : Readable L .revision x) (hF : F.Fits) (hF' : F'.Fits)
    (hb : F.behind = F'.behind ∨ 20 ≤ (got L .revision x).length) :
    SameWrite L f pos buf x d F F' := by
  have hread := read_eq hr hF hF' hb
  refine ⟨?_,?_⟩
  · rw [numbered_reading,numbered_reading,Frame.val,Frame.val,hread]
    exact ⟨rfl,rfl,rfl⟩
  · rw [Frame.stamped,Frame.stamped,Frame.val,Frame.val,hread]

theorem writeStopped_same (hF : F.Fits) (hF' : F'.Fits) (hx : ∀ a, L.setxattr a ≠ none)
    (hs : ∀ v, CanHold L .revision x v → WriteStops L f d (nextVersion v) out) :
    SameWrite L f pos buf x d F F' := by
  have hres {F : Frame} (hF : F.Fits) :
      SameResult (writeEffect L.bare (F.reading L x) f pos buf d) (out,d) := by
    rw [numbered_reading]
    obtain ⟨ho,hd,hi⟩ := @writeStops_result _ _ _ _ pos buf _ (hs _ (canHold_val hF))
    exact ⟨ho,hd,hi⟩
  refine ⟨(hres hF).trans (hres hF').symm,?_⟩
  rw [stampBytes_refused hx,stampBytes_refused hx]

end

end

end BackupFs
