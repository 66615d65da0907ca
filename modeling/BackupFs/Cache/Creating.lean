import BackupFs.Cache.Sweep

namespace BackupFs

def copied (L : Lower) (src : Ino) (x : Name) (d : Disk) : Disk :=
  match d.dir x with
  | some j => copyFile L src j d
  | none => d

theorem copied_frame (L : Lower) (i : Ino) (x : Name) (d : Disk) :
    (copied L i x d).nextIno = d.nextIno ∧ (copied L i x d).upper = d.upper := by
  unfold copied
  cases d.dir x <;> exact ⟨rfl,rfl⟩

theorem copied_attr {L : Lower} {d : Disk} (i j : Ino) (x : Name) (a : Attr) :
    ((copied L i x d).inodes j).attr a = (d.inodes j).attr a := by
  unfold copied copyFile
  cases d.dir x with
  | none => rfl
  | some k =>
    dsimp only
    rw [Disk.setInode_inodes]
    rcases eq_or_ne j k with rfl | hj
    · rw [Function.update_self]
      cases a <;> rfl
    · rw [Function.update_of_ne hj]

def put (L : Lower) (i : Ino) (pos : ℕ) (buf : Bytes) (d : Disk) : Outcome × Disk :=
  (.returned (vfsWrite L i pos buf d).1,(vfsWrite L i pos buf d).2)

def resume (L : Lower) (i : Ino) (pos : ℕ) (buf : Bytes) (d : Disk) :
    Option Outcome → Outcome × Disk
  | some out => (out,d)
  | none => put L i pos buf d

def writeTail (L : Lower) (i : Ino) (x : Name) (pos : ℕ) (buf : Bytes) (d : Disk) :
    Outcome × Disk :=
  match L.openSrc,L.openDest with
  | .err e,_ => (.returned e,d)
  | .null,_ => put L i pos buf d
  | .file,.err e => (.returned e,d)
  | .file,.null => put L i pos buf d
  | .file,.file => put L i pos buf (copied L i x d)

def writeEffect (L : Lower) (J : Junk) (f : File) (pos : ℕ) (buf : Bytes) (d : Disk) :
    Outcome × Disk :=
  let val := nextVersion (counter L J f d)
  let rest := createThen L (newName L J f d) (writeTail L f.ino (newName L J f d) pos buf)
  if val > N then discardThen L (oldName L J f d) rest (stamp L f val d)
  else rest (stamp L f val d)

def restoreFrom (L : Lower) (J : Junk) (f : File) (q : Request) (d : Disk) :
    Except Int Ino → Outcome × Disk
  | .error err => (.returned err,d)
  | .ok i =>
    match L.openSrc,L.openDest with
    | .err e,_ => (.returned e,d)
    | .null,_ => (.returned 0,d)
    | .file,.err e => (.returned e,d)
    | .file,.null => (.returned 0,d)
    | .file,.file => loopResult (cleanup L J f q (copied L i (restoredName q.file) d))

def restoreTail (L : Lower) (J : Junk) (f : File) (q : Request) (d : Disk) : Outcome × Disk :=
  restoreFrom L J f q (vfsPathLookup L.pathLookup (backupName q.version q.file) d).2
    (vfsPathLookup L.pathLookup (backupName q.version q.file) d).1

def restoreEffect (L : Lower) (J : Junk) (f : File) (q : Request) (d : Disk) : Outcome × Disk :=
  discardThen L q.file (createThen L (restoredName q.file) (restoreTail L J f q)) d

section
variable {L : Lower} {J : Junk} {f : File} {q : Request} {d d' : Disk} {pos : ℕ} {buf : Bytes}

theorem snapshot_copied {i : Ino} {x : Name} : copied L i x (begun x d) = snapshot L i x d := by
  rw [copied,begun,Disk.created_dir,Function.update_self,lookedUp_nextIno]
  rfl

theorem backupRun_effect {i : Ino} {x : Name} {o : Option Outcome} (h : BackupRun L i x d o d') :
    createThen L x (writeTail L i x pos buf) d = resume L i pos buf d' o := by
  have hbegin (hb : Begins L x d) : createThen L x (writeTail L i x pos buf) d =
      writeTail L i x pos buf (begun x d) := createThen_begins hb
  cases h with
  | noDentry ha => simp [createThen,resume,ha]
  | noLookup ha h => simp [createThen,resume,ha,h]
  | collision ha hl h => simp [createThen,resume,ha,hl,h]
  | noCreate ha hl hf h => simp [createThen,resume,ha,hl,hf,h]
  | noSource hb h => simp [hbegin hb,resume,writeTail,h]
  | noDest hb hs h => simp [hbegin hb,resume,writeTail,hs,h]
  | unbacked hb h =>
    rw [hbegin hb,writeTail]
    rcases h with h | ⟨h,h'⟩
    · rw [h]
      rfl
    · rw [h,h']
      rfl
  | backed hb hs hd =>
    rw [hbegin hb,writeTail,hs,hd,snapshot_copied]
    rfl

theorem writeEffect_retained : writeEffect L J f pos buf d =
    if (retained L J f d).1 ≠ 0 then (.returned (retained L J f d).1,(retained L J f d).2)
    else createThen L (newName L J f d) (writeTail L f.ino (newName L J f d) pos buf)
      (retained L J f d).2 := by
  unfold writeEffect retained discardThen
  dsimp only
  split_ifs <;> first | rfl | simp_all [oldName]

theorem writeRun_effect {o : Outcome} (h : WriteRun L J f pos buf d o d') :
    writeEffect L J f pos buf d = (o,d') := by
  rw [writeEffect_retained]
  cases h with
  | retention h => rw [if_pos h]
  | stopped hr h => rw [if_neg (not_not.mpr hr),backupRun_effect h,resume]
  | wrote hr h => rw [if_neg (not_not.mpr hr),backupRun_effect h,resume,put]

theorem refilled_copied {i : Ino} :
    copied L i (restoredName q.file) (found L q d).2 = refilled L q i d := by
  rw [copied,found_dir]
  rfl

theorem restoreEffect_found (hc : (discard L q.file d).1.getD 0 = 0)
    (hb : Begins L (restoredName q.file) (cleared L q d)) {r : Except Int Ino}
    (hr : (found L q d).1 = r) :
    restoreEffect L J f q d = restoreFrom L J f q (found L q d).2 r := by
  rw [restoreEffect,discardThen,if_neg (not_not.mpr hc),← hr]
  exact createThen_begins hb

theorem restoreRun_effect {o : Outcome} (h : RestoreRun L J f q d o d') :
    restoreEffect L J f q d = (o,d') := by
  cases h with
  | current h he => simp [restoreEffect,discardThen,h,he,cleared]
  | noDentry hc h => simp [restoreEffect,discardThen,hc,createThen,h,cleared]
  | noLookup hc ha h => simp [restoreEffect,discardThen,hc,createThen,ha,h,cleared]
  | collision hc ha hl h =>
    rw [cleared] at h ⊢
    simp [restoreEffect,discardThen,hc,createThen,ha,hl,h]
  | noCreate hc ha hl hf h =>
    rw [cleared] at hf ⊢
    simp [restoreEffect,discardThen,hc,createThen,ha,hl,hf,h]
  | noVersion hc hb h => rw [restoreEffect_found hc hb h,restoreFrom]
  | unopened hc hb h ho =>
    rw [restoreEffect_found hc hb h,restoreFrom]
    rcases ho with ho | ⟨ho,ho'⟩ <;> simp [*]
  | uncopied hc hb h ho =>
    rw [restoreEffect_found hc hb h,restoreFrom]
    rcases ho with ho | ⟨ho,ho'⟩ <;> simp [*]
  | stopped hc hb h hs hd he =>
    rw [restoreEffect_found hc hb h,restoreFrom]
    simp only [hs,hd,refilled_copied]
    exact loopResult_error he
  | done hc hb h hs hd he =>
    rw [restoreEffect_found hc hb h,restoreFrom]
    simp only [hs,hd,refilled_copied]
    exact loopResult_ok he

end

def Refills (L : Lower) (q : Request) (d : Disk) : Prop :=
  L.pathLookup = none ∧ (d.pathIno (backupName q.version q.file)).isSome = true ∧
    L.openSrc = .file ∧ L.openDest = .file

def asked (q : Request) (d : Disk) : Disk :=
  if slash ∈ q.file then d else d.hash (backupName q.version q.file)

section
variable {L : Lower} {J : Junk} {f : File} {q : Request} {d d₁ d₂ : Disk} {pos : ℕ} {buf : Bytes}

theorem copied_fields {i : Ino} {x : Name} : (copied L i x d).dir = d.dir ∧
    (copied L i x d).cached = d.cached ∧ counter L J f (copied L i x d) = counter L J f d := by
  refine ⟨?_,?_,?_⟩
  · unfold copied
    cases d.dir x <;> rfl
  · unfold copied
    cases d.dir x <;> rfl
  · rw [counter,counter,vfsGetxattr,vfsGetxattr,copied_attr]

theorem SameTree.copied (h : SameTree d₁ d₂) (i : Ino) (x : Name) :
    SameTree (copied L i x d₁) (copied L i x d₂) := by
  unfold BackupFs.copied
  rw [h.dir]
  cases d₂.dir x with
  | none => exact h
  | some j => exact h.copyFile i j

theorem SameTree.put (h : SameTree d₁ d₂) (i : Ino) :
    SameResult (put L i pos buf d₁) (put L i pos buf d₂) := by
  obtain ⟨h1,h2⟩ := h.vfsWrite L i pos buf
  exact ⟨congrArg Outcome.returned h1,h2.dir,h2.inodes⟩

theorem put_dir (i : Ino) : (put L i pos buf d).2.dir = d.dir :=
  (vfsWrite_dir L i pos buf d).1

theorem writeTail_dir (i : Ino) (x : Name) : (writeTail L i x pos buf d).2.dir = d.dir := by
  unfold writeTail
  cases L.openSrc with
  | err e => rfl
  | null => exact put_dir i
  | file =>
    cases L.openDest with
    | err e => rfl
    | null => exact put_dir i
    | file => exact (put_dir i).trans (copied_fields (J := {}) (f := aTxt)).1

theorem writeTail_agrees (h : SameTree d₁ d₂) (i : Ino) (x : Name) :
    SameResult (writeTail L i x pos buf d₁) (writeTail L i x pos buf d₂) := by
  unfold writeTail
  cases L.openSrc with
  | err e => exact ⟨rfl,h.dir,h.inodes⟩
  | null => exact h.put i
  | file =>
    cases L.openDest with
    | err e => exact ⟨rfl,h.dir,h.inodes⟩
    | null => exact h.put i
    | file => exact (h.copied i x).put i

theorem write_agrees (h : SameTree d₁ d₂) :
    SameResult (writeEffect L J f pos buf d₁) (writeEffect L J f pos buf d₂) ↔
      (nextVersion (counter L J f d₁) > N → d₁.cached (oldName L J f d₁) ≠
        d₂.cached (oldName L J f d₁) → Harmless L (oldName L J f d₁) (newName L J f d₁) d₁) := by
  have hs := h.stamp L f (nextVersion (counter L J f d₁))
  obtain ⟨n₁,hn₁,_⟩ := stamp_setInode L f (nextVersion (counter L J f d₁)) d₁
  obtain ⟨n₂,hn₂,_⟩ := stamp_setInode L f (nextVersion (counter L J f d₁)) d₂
  have hcount := h.counter L J f
  have hnew : newName L J f d₂ = newName L J f d₁ := by rw [newName,newName,hcount]
  have hold : oldName L J f d₂ = oldName L J f d₁ := by rw [oldName,oldName,hcount]
  unfold writeEffect
  dsimp only
  rw [hnew,hold,← hcount]
  split_ifs with hv
  · rw [discardThen_agrees hs newName_ne_oldName.symm (fun d => by rw [writeTail_dir])
      fun d => by rw [writeTail_dir]]
    rw [hn₁,hn₂] at hs ⊢
    have hd := Disk.setInode_dir d₁ f.ino n₁
    have hw := Disk.setInode_walk d₁ f.ino n₁
    constructor
    · rintro ⟨hh,_⟩ _ hc
      exact harmless_congr hd hw (hh hc)
    · intro hh
      have hh' := fun hc => harmless_congr hd.symm hw.symm (hh hv hc)
      exact ⟨hh',fun _ _ _ => writeTail_agrees ((discard_sameTree hs hh').begun _) _ _⟩
  · rw [createThen_agrees hs]
    exact iff_of_true (fun _ => writeTail_agrees (hs.begun _) _ _) fun hn => absurd hn hv

theorem restoreTail_keeps {y : Name} (hy : ∀ v, y ≠ backupName v q.file) :
    (restoreTail L J f q d).2.dir y = d.dir y := by
  have hp := (vfsPathLookup_fields L.pathLookup (backupName q.version q.file) d).1
  rw [restoreTail,← hp]
  generalize vfsPathLookup L.pathLookup (backupName q.version q.file) d = out
  obtain ⟨r,d'⟩ := out
  dsimp only
  cases r with
  | error err => rfl
  | ok i =>
    unfold restoreFrom
    cases L.openSrc with
    | err e => rfl
    | null => rfl
    | file =>
      cases L.openDest with
      | err e => rfl
      | null => rfl
      | file =>
        dsimp only
        have hl := (discardLoop_other (L := L) (d := copied L i (restoredName q.file) d')
          (counter L J f (copied L i (restoredName q.file) d')).toNat 0 hy).1
        rw [(copied_fields (J := J) (f := f)).1] at hl
        rw [← hl,cleanup]
        generalize discardLoop L q.file _ 0 _ = out
        obtain ⟨r,t⟩ := out
        cases r <;> rfl

theorem asked_congr {i : Ino} (k : ℕ) (v : Int) (_ : 1 ≤ v) (_ : v ≤ k) :
    (copied L i (restoredName q.file) (asked q d)).dir (backupName v q.file) =
        (asked q d).dir (backupName v q.file) ∧
      ((copied L i (restoredName q.file) (asked q d)).cached (backupName v q.file) = true ↔
        (asked q d).cached (backupName v q.file) = true) := by
  obtain ⟨hd,hc,_⟩ := copied_fields (L := L) (J := {}) (f := aTxt) (d := asked q d) (i := i)
    (x := restoredName q.file)
  rw [hd,hc]
  exact ⟨rfl,Iff.rfl⟩

theorem SameTree.asked (h : SameTree d₁ d₂) (q : Request) :
    SameTree (asked q d₁) (asked q d₂) := by
  unfold BackupFs.asked
  split_ifs
  · exact h
  · exact h.of_eq (.hash d₁ _) (.hash d₂ _)

theorem asked_counter : counter L J f (asked q d) = counter L J f d := by
  unfold asked
  split_ifs <;> rfl

theorem vfsPathLookup_asked : vfsPathLookup none (backupName q.version q.file) d =
    (match d.pathIno (backupName q.version q.file) with
      | some i => .ok i
      | none => .error (-ENOENT),asked q d) := by
  have hs : (if slash ∈ backupName q.version q.file then d
      else d.hash (backupName q.version q.file)) = asked q d :=
    if_congr slash_mem_backupName rfl rfl
  exact Prod.ext rfl hs

theorem cleanup_agrees (h : SameTree (asked q d₁) (asked q d₂)) (i : Ino) :
    SameResult (loopResult (cleanup L J f q (copied L i (restoredName q.file) (asked q d₁))))
        (loopResult (cleanup L J f q (copied L i (restoredName q.file) (asked q d₂)))) ↔
      LoopAgrees L q.file (counter L J f (asked q d₁)).toNat (asked q d₁) (asked q d₂) := by
  have hc := h.copied i (restoredName q.file) (L := L)
  have hk := h.counter L J f
  unfold cleanup
  rw [copied_fields.2.2,copied_fields.2.2,← hk]
  generalize (counter L J f (asked q d₁)).toNat = k
  refine (loop_agrees hc.dir hc.inodes (discardLoop_sweeps k 0 _) (discardLoop_sweeps k 0 _)).trans
    (loopAgrees_congr (asked_congr k) (asked_congr k))

theorem restoreTail_agrees (h : SameTree d₁ d₂) :
    SameResult (restoreTail L J f q d₁) (restoreTail L J f q d₂) ↔ (Refills L q d₁ →
      LoopAgrees L q.file (counter L J f d₁).toNat (asked q d₁) (asked q d₂)) := by
  have ha := h.asked q
  have hname := (h.names (backupName q.version q.file)).2
  unfold restoreTail Refills
  cases hp : L.pathLookup with
  | some e => exact iff_of_true ⟨rfl,h.dir,h.inodes⟩ fun hr => by simp at hr
  | none =>
    rw [vfsPathLookup_asked,vfsPathLookup_asked,← hname]
    cases hi : d₁.pathIno (backupName q.version q.file) with
    | none => exact iff_of_true ⟨rfl,ha.dir,ha.inodes⟩ fun hr => by simp at hr
    | some i =>
      unfold restoreFrom
      cases hs : L.openSrc with
      | err e => exact iff_of_true ⟨rfl,ha.dir,ha.inodes⟩ fun hr => by simp at hr
      | null => exact iff_of_true ⟨rfl,ha.dir,ha.inodes⟩ fun hr => by simp at hr
      | file =>
        cases hd : L.openDest with
        | err e => exact iff_of_true ⟨rfl,ha.dir,ha.inodes⟩ fun hr => by simp at hr
        | null => exact iff_of_true ⟨rfl,ha.dir,ha.inodes⟩ fun hr => by simp at hr
        | file =>
          refine (cleanup_agrees ha i).trans ?_
          simp [asked_counter]

end

structure RestoreAgrees (L : Lower) (J : Junk) (f : File) (q : Request) (d₁ d₂ : Disk) : Prop where
  current : d₁.cached q.file ≠ d₂.cached q.file → Harmless L q.file (restoredName q.file) d₁
  cleanup : ¬ Blocked L q.file d₁ → ¬ Blocked L q.file d₂ → Begins L (restoredName q.file) d₁ →
    Refills L q d₁ → LoopAgrees L q.file (counter L J f d₁).toNat (asked q d₁) (asked q d₂)

section
variable {L : Lower} {J : Junk} {f : File} {q : Request} {d d₁ d₂ : Disk}

theorem begun_asked (k : ℕ) (v : Int) (_ : 1 ≤ v) (_ : v ≤ k) :
    (asked q (begun (restoredName q.file) (cleared L q d))).dir (backupName v q.file) =
        (asked q d).dir (backupName v q.file) ∧
      ((asked q (begun (restoredName q.file) (cleared L q d))).cached (backupName v q.file) = true ↔
        (asked q d).cached (backupName v q.file) = true) := by
  obtain ⟨hbd,hbc,_⟩ := begun_other (d := cleared L q d)
    (restoredName_ne_backupName q.file v q.file).symm
  obtain ⟨hd,hc⟩ := cleared_other (L := L) (q := q) (d := d) (backupName_ne_self v q.file)
  unfold asked
  split_ifs
  · rw [hbd,hd,hbc,hc]
    exact ⟨rfl,Iff.rfl⟩
  · rw [Disk.hash_dir,Disk.hash_dir,Disk.hash_cached,Disk.hash_cached,hbd,hd]
    refine ⟨rfl,?_⟩
    rcases eq_or_ne (backupName v q.file) (backupName q.version q.file) with he | he
    · simp [he]
    · rw [Function.update_of_ne he,Function.update_of_ne he,hbc,hc]

theorem begun_counter (hf : f.ino < d.nextIno) :
    counter L J f (begun (restoredName q.file) (cleared L q d)) = counter L J f d := by
  have hnx : (cleared L q d).nextIno = d.nextIno := discard_nextIno
  have hin : (begun (restoredName q.file) (cleared L q d)).inodes f.ino = d.inodes f.ino := by
    rw [begun,Disk.created_inodes,lookedUp_nextIno,lookedUp_inodes,hnx,
      Function.update_of_ne (Nat.ne_of_lt hf),cleared,discard_inodes]
  rw [counter,counter,vfsGetxattr,vfsGetxattr,hin]

theorem begun_refills :
    Refills L q (begun (restoredName q.file) (cleared L q d)) ↔ Refills L q d := by
  rw [Refills,Refills,version_pathIno]

theorem restore_agrees (hf : f.ino < d₁.nextIno) (h : SameTree d₁ d₂) :
    SameResult (restoreEffect L J f q d₁) (restoreEffect L J f q d₂) ↔
      RestoreAgrees L J f q d₁ d₂ := by
  have hne := (restoredName_ne_self q.file).symm
  have htail (hh : d₁.cached q.file ≠ d₂.cached q.file →
      Harmless L q.file (restoredName q.file) d₁) :
      SameResult (restoreTail L J f q (begun (restoredName q.file) (cleared L q d₁)))
          (restoreTail L J f q (begun (restoredName q.file) (cleared L q d₂))) ↔
        (Refills L q d₁ →
          LoopAgrees L q.file (counter L J f d₁).toNat (asked q d₁) (asked q d₂)) := by
    have hs : SameTree (cleared L q d₁) (cleared L q d₂) := discard_sameTree h hh
    rw [restoreTail_agrees (hs.begun (restoredName q.file)),begun_refills,begun_counter hf]
    exact imp_congr_right fun _ => loopAgrees_congr (begun_asked _) (begun_asked _)
  unfold restoreEffect
  rw [discardThen_agrees h hne
    (fun d => restoreTail_keeps fun v => (backupName_ne_self v q.file).symm)
    fun d => restoreTail_keeps fun v => restoredName_ne_backupName q.file v q.file]
  constructor
  · rintro ⟨hh,hr⟩
    exact ⟨hh,fun h1 h2 h3 => (htail hh).mp (hr h1 h2 h3)⟩
  · rintro ⟨hh,hr⟩
    exact ⟨hh,fun h1 h2 h3 => (htail hh).mpr (hr h1 h2 h3)⟩

end

end BackupFs
