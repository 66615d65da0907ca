import BackupFs.Locals.Write
import BackupFs.Mount.Match

namespace BackupFs

open Words

structure SameExecution (out out' : (Outcome × Sys × Option Query) × Xattrs) : Prop where
  outcome : out.1.1 = out'.1.1
  dir : out.1.2.1.disk.dir = out'.1.2.1.disk.dir
  inodes : out.1.2.1.disk.inodes = out'.1.2.1.disk.inodes
  reply : out.1.2.2 = out'.1.2.2
  xattrs : out.2 = out'.2

def JunkFree (L : Lower) (f : File) (c : KernelCall) (s : Sys) (x : Xattrs) : Prop :=
  ∀ F F' : Frame, F.Fits → F'.Fits → F.Alike F' →
    SameExecution (c.executeBytes L F f s x) (c.executeBytes L F' f s x)

def StackFree (L : Lower) (f : File) (c : KernelCall) (s : Sys) (x : Xattrs) : Prop :=
  ∀ F F' : Frame, F.Fits → F'.Fits →
    SameExecution (c.executeBytes L F f s x) (c.executeBytes L F' f s x)

def Whole (x : Xattrs) : Prop := ∀ a b, x a = some b → b.length = 20

def DeleteOneSettled (L : Lower) (q : Request) (x : Xattrs) (d : Disk) : Prop :=
  (discard L (backupName q.version q.file) d).1 = some 0 → CanHold L .youngest x q.version →
    ∀ a, L.setxattr a ≠ none

structure DeleteAllSettled (L : Lower) (n : Name) (x : Xattrs) (d : Disk) : Prop where
  stored : L.setxattr .revision = none → ∀ v, CanHold L .revision x v →
    ∃ e, Fails L n v.toNat d e
  result : Readable L .revision x ∨ ∀ v, CanHold L .revision x v → Finds n v.toNat d →
    Fails L n v.toNat d (-ENOTTY) ∧ ∀ w, ¬ Takes L n v.toNat d w

def RestoreSettled (L : Lower) (q : Request) (x : Xattrs) (d : Disk) : Prop :=
  CleansUpOf L q d → Readable L .revision x ∨ ∀ v, CanHold L .revision x v →
    ∀ w : Int, 1 ≤ w → w ≤ v →
      d.cached (backupName w q.file) = true ∨ w = q.version ∧ slash ∉ q.file →
        d.dir (backupName w q.file) ≠ none ∧ L.refusal (backupName w q.file) = 0 ∧
          L.unlink (backupName w q.file) ≠ none

def KernelCall.Settled (L : Lower) (f : File) (x : Xattrs) : KernelCall → Disk → Prop
  | .write _ _, d => WriteSettled L f x d
  | .ioctl cmd q, d => L.lowerFile = true → match cmd with
    | 1000 => if q.version ≠ 0 then DeleteOneSettled L q x d else DeleteAllSettled L q.file x d
    | 1001 => RestoreSettled L q x d
    | 1002 => ¬ Delivers L q d
    | 1003 => L.copyToUser = false
    | _ => True

section
variable {L : Lower} {J : Junk} {F F' : Frame} {f : File} {q : Request} {s : Sys} {x : Xattrs}
  {d : Disk} {c : KernelCall} {n : Name} {k : ℕ}

theorem whole_got (h : Whole x) {a : Attr} (hr : Readable L a x) : 20 ≤ (got L a x).length := by
  unfold Readable got at hr
  unfold got
  split at hr
  · rename_i b _ hb
    have hlen := h a b hb
    rw [if_pos hlen.le]
    exact hlen.ge
  · simp at hr

theorem sameExecution_iff {o o' : Outcome} {t t' : Sys} {y y' : Xattrs}
    {out out' : Outcome × Disk} (h : (o,t.disk) = out) (h' : (o',t'.disk) = out') :
    SameExecution ((o,t,none),y) ((o',t',none),y') ↔ SameResult out out' ∧ y = y' := by
  subst h h'
  exact ⟨fun h => ⟨⟨h.outcome,h.dir,h.inodes⟩,h.xattrs⟩,
    fun h => ⟨h.1.outcome,h.1.dir,h.1.inodes,rfl,h.2⟩⟩

theorem write_same {pos : ℕ} {buf : Bytes} :
    SameExecution ((KernelCall.write pos buf).executeBytes L F f s x)
      ((KernelCall.write pos buf).executeBytes L F' f s x) ↔
        SameWrite L f pos buf x s.disk F F' := by
  obtain ⟨o,t,he,hr⟩ := executeBytes_write (L := L) (F := F) (f := f) (s := s) (x := x) pos buf
  obtain ⟨o',t',he',hr'⟩ := executeBytes_write (L := L) (F := F') (f := f) (s := s) (x := x) pos buf
  rw [he,he',sameExecution_iff hr hr']
  exact ⟨fun h => ⟨h.1,h.2⟩,fun h => ⟨h.result,h.stored⟩⟩

section deleteOne

theorem deleteOne_same (hl : L.lowerFile = true) (hv : q.version ≠ 0) :
    SameExecution ((KernelCall.ioctl 1000 q).executeBytes L F f s x)
      ((KernelCall.ioctl 1000 q).executeBytes L F' f s x) ↔
        ((discard L (backupName q.version q.file) s.disk).1 = some 0 →
          (if q.version = F.val L .youngest x then
              stampBytes L (F.saved (wrapInt (q.version - 1))) x else x) =
            if q.version = F'.val L .youngest x then
              stampBytes L (F'.saved (wrapInt (q.version - 1))) x else x) := by
  obtain ⟨t,he,hd⟩ := executeBytes_deleteOne (F := F) (f := f) (s := s) (x := x) hl hv
  obtain ⟨t',he',hd'⟩ := executeBytes_deleteOne (F := F') (f := f) (s := s) (x := x) hl hv
  rw [he,he',sameExecution_iff (by rw [hd]) (by rw [hd']),and_iff_right ⟨rfl,rfl,rfl⟩]
  by_cases hz : (discard L (backupName q.version q.file) s.disk).1 = some 0
  · rw [forall_prop_of_true hz]
    simp only [hz,true_and]
  · simp only [hz,false_and,if_false,false_imp_iff]

theorem saved_ne (w u v : Int) :
    (Frame.holding u 0).saved w ≠ (Frame.holding v 1).saved w := by
  intro h
  have htail : word 4 0 = word 4 1 := List.append_cancel_left h
  revert htail
  decide

theorem deleteOneSettled_of (hl : L.lowerFile = true) (hv : q.version ≠ 0)
    (h : JunkFree L f (.ioctl 1000 q) s x) : DeleteOneSettled L q x s.disk := by
  intro hz hc
  obtain ⟨u,hu,huv⟩ := canHold_frame hc
  have hs := (deleteOne_same hl hv).mp (h _ _ (Frame.holding_fits hu 0) (Frame.holding_fits hu 1)
    (Frame.holding_alike u u 0 1)) hz
  rw [huv,huv,if_pos rfl,if_pos rfl] at hs
  exact (stampBytes_eq hs).resolve_left (saved_ne _ u u)

theorem deleteOneSettled_same (hl : L.lowerFile = true) (hv : q.version ≠ 0) (hF : F.Fits)
    (hF' : F'.Fits) (h : DeleteOneSettled L q x s.disk) :
    SameExecution ((KernelCall.ioctl 1000 q).executeBytes L F f s x)
      ((KernelCall.ioctl 1000 q).executeBytes L F' f s x) := by
  refine (deleteOne_same hl hv).mpr fun hz => ?_
  have hkept {F : Frame} (hF : F.Fits) : (if q.version = F.val L .youngest x then
      stampBytes L (F.saved (wrapInt (q.version - 1))) x else x) = x := by
    split_ifs with hval
    · exact stampBytes_refused (h hz (hval ▸ canHold_val hF)) _
    · rfl
  rw [hkept hF,hkept hF']

end deleteOne

section deleteAll

theorem sweeps_stay {err : Int} {r : Except Int Int} {d' : Disk} (h : Sweeps L n k d err r d')
    (ht : ∀ v, ¬ Takes L n k d v) : d'.dir = d.dir :=
  funext fun x => h.kept x fun v _ => ht v

def loopStored (L : Lower) (F : Frame) (n : Name) (x : Xattrs) (d : Disk) : Xattrs :=
  match (discardLoop L n (F.val L .revision x).toNat (-ENOTTY) d).1 with
  | .error _ => x
  | .ok _ => vfsSetxattrBytes L .revision (F.saved (-1)) x

theorem deleteAll_same (hl : L.lowerFile = true) (hv : q.version = 0) :
    SameExecution ((KernelCall.ioctl 1000 q).executeBytes L F f s x)
      ((KernelCall.ioctl 1000 q).executeBytes L F' f s x) ↔
        SameResult
            (loopResult (discardLoop L q.file (F.val L .revision x).toNat (-ENOTTY) s.disk))
            (loopResult (discardLoop L q.file (F'.val L .revision x).toNat (-ENOTTY) s.disk)) ∧
          loopStored L F q.file x s.disk = loopStored L F' q.file x s.disk := by
  obtain ⟨o,t,he,hr⟩ := executeBytes_deleteAll (F := F) (f := f) (s := s) (x := x) hl hv
  obtain ⟨o',t',he',hr'⟩ := executeBytes_deleteAll (F := F') (f := f) (s := s) (x := x) hl hv
  rw [he,he',sameExecution_iff hr hr']
  rfl

theorem loop_missed (h : Finds n k d → Fails L n k d (-ENOTTY) ∧ ∀ v, ¬ Takes L n k d v) :
    SameResult (loopResult (discardLoop L n k (-ENOTTY) d)) (.returned (-ENOTTY),d) := by
  have hs := discardLoop_sweeps (L := L) (n := n) k (-ENOTTY) d
  generalize discardLoop L n k _ d = out at hs ⊢
  obtain ⟨r,d'⟩ := out
  dsimp only at hs
  by_cases hf : Finds n k d
  · obtain ⟨hfail,ht⟩ := h hf
    rcases hs.result with ⟨e,he,rfl⟩ | ⟨hno,_⟩
    · cases fails_unique he hfail
      exact ⟨rfl,sweeps_stay hs ht,hs.inodes⟩
    · exact absurd hfail (hno _)
  · have ht : ∀ v, ¬ Takes L n k d v := fun v hv =>
      hf ⟨v,hv.reached.pos,hv.reached.le,hv.cached⟩
    rcases hs.result with ⟨e,he,_⟩ | ⟨_,hr⟩
    · exact absurd (fails_finds he) hf
    · rcases hr with ⟨hf',_⟩ | ⟨_,rfl⟩
      · exact absurd hf' hf
      · exact ⟨rfl,sweeps_stay hs ht,hs.inodes⟩

theorem missed_loop
    (h : SameResult (loopResult (discardLoop L n k (-ENOTTY) d)) (.returned (-ENOTTY),d))
    (hf : Finds n k d) : Fails L n k d (-ENOTTY) ∧ ∀ v, ¬ Takes L n k d v := by
  have hs := discardLoop_sweeps (L := L) (n := n) k (-ENOTTY) d
  generalize discardLoop L n k _ d = out at hs h
  obtain ⟨r,d'⟩ := out
  dsimp only at hs
  rcases hs.result with ⟨e,he,rfl⟩ | ⟨_,hr⟩
  · cases Outcome.returned.inj h.outcome
    refine ⟨he,fun v hv => ?_⟩
    have hd := congrFun h.dir (backupName v n)
    change d'.dir _ = _ at hd
    rw [hs.gone v hv] at hd
    exact hv.present hd.symm
  · rcases hr with ⟨_,rfl⟩ | ⟨hno,_⟩
    · have he : (0 : Int) = -ENOTTY := Outcome.returned.inj h.outcome
      exact absurd he (by decide)
    · exact absurd hf hno

theorem loopStored_ok (h : ∀ e, ¬ Fails L n (F.val L .revision x).toNat d e) :
    loopStored L F n x d = vfsSetxattrBytes L .revision (F.saved (-1)) x := by
  have hs := discardLoop_sweeps (L := L) (n := n) (F.val L .revision x).toNat (-ENOTTY) d
  unfold loopStored
  rcases hs.result with ⟨e,he,_⟩ | ⟨_,⟨_,hr⟩ | ⟨_,hr⟩⟩
  · exact absurd he (h e)
  · rw [hr]
  · rw [hr]

theorem loopStored_error {e : Int} (h : Fails L n (F.val L .revision x).toNat d e) :
    loopStored L F n x d = x := by
  have hs := discardLoop_sweeps (L := L) (n := n) (F.val L .revision x).toNat (-ENOTTY) d
  unfold loopStored
  rcases hs.result with ⟨_,_,hr⟩ | ⟨hno,_⟩
  · rw [hr]
  · exact absurd h (hno e)

theorem loopStored_refused (h : L.setxattr .revision ≠ none) : loopStored L F n x d = x := by
  have hset : vfsSetxattrBytes L .revision (F.saved (-1)) x = x := by
    obtain ⟨e,he⟩ := Option.ne_none_iff_exists'.mp h
    rw [vfsSetxattrBytes,he]
  unfold loopStored
  split
  · rfl
  · exact hset

theorem deleteAllSettled_of (hl : L.lowerFile = true) (hv : q.version = 0)
    (h : JunkFree L f (.ioctl 1000 q) s x) : DeleteAllSettled L q.file x s.disk where
  stored hset v hc := by
    by_contra hno
    have hok : ∀ e, ¬ Fails L q.file v.toNat s.disk e := fun e he => hno ⟨e,he⟩
    obtain ⟨u,hu,huv⟩ := canHold_frame hc
    have hs := ((deleteAll_same hl hv).mp (h _ _ (Frame.holding_fits hu 0)
      (Frame.holding_fits hu 1) (Frame.holding_alike u u 0 1))).2
    rw [loopStored_ok (by rwa [huv]),loopStored_ok (by rwa [huv]),vfsSetxattrBytes,
      vfsSetxattrBytes,hset] at hs
    have he := congrFun hs .revision
    dsimp only at he
    rw [Function.update_self,Function.update_self] at he
    exact saved_ne _ u u (Option.some.inj he)
  result := by
    by_cases hr : Readable L .revision x
    · exact .inl hr
    · obtain ⟨w,hw,hneg⟩ := canHold_neg hr
      refine .inr fun v hc => missed_loop ?_
      obtain ⟨u,hu,huv⟩ := canHold_frame hc
      obtain ⟨t,ht,htw⟩ := canHold_frame hw
      have hs := ((deleteAll_same hl hv).mp (h _ _ (Frame.holding_fits hu 0)
        (Frame.holding_fits ht 0) (Frame.holding_alike u t 0 0))).1
      rw [huv,htw,Int.toNat_of_nonpos hneg.le] at hs
      exact hs

theorem deleteAllSettled_same (hl : L.lowerFile = true) (hv : q.version = 0) (hF : F.Fits)
    (hF' : F'.Fits) (h : DeleteAllSettled L q.file x s.disk) :
    SameExecution ((KernelCall.ioctl 1000 q).executeBytes L F f s x)
      ((KernelCall.ioctl 1000 q).executeBytes L F' f s x) := by
  refine (deleteAll_same hl hv).mpr ⟨?_,?_⟩
  · rcases h.result with hr | hmiss
    · have hval : F.val L .revision x = F'.val L .revision x := readable_val hr
      rw [hval]
      exact ⟨rfl,rfl,rfl⟩
    · have hres {F : Frame} (hF : F.Fits) := loop_missed (hmiss _ (canHold_val hF))
      exact (hres hF).trans (hres hF').symm
  · have hkept {F : Frame} (hF : F.Fits) : loopStored L F q.file x s.disk = x := by
      by_cases hset : L.setxattr .revision = none
      · obtain ⟨e,he⟩ := h.stored hset _ (canHold_val hF)
        exact loopStored_error he
      · exact loopStored_refused hset
    rw [hkept hF,hkept hF']

end deleteAll

section restore

theorem cleansUpOf_bare : CleansUpOf L.bare q d ↔ CleansUpOf L q d :=
  ⟨fun h => ⟨h.current,⟨h.begins.dAlloc,h.begins.lookup,h.begins.free,h.begins.create⟩,h.refills⟩,
    fun h => ⟨h.current,⟨h.begins.dAlloc,h.begins.lookup,h.begins.free,h.begins.create⟩,h.refills⟩⟩

theorem restore_unreached (h : ¬ CleansUpOf L q d) (J' : Junk) :
    restoreEffect L J f q d = restoreEffect L J' f q d := by
  unfold restoreEffect discardThen
  split_ifs with hb
  · rfl
  · have hcur : ¬ Blocked L q.file d := discard_free.mp (not_not.mp hb)
    by_cases hbeg : Begins L (restoredName q.file) (cleared L q d)
    · change createThen L _ _ (cleared L q d) = createThen L _ _ (cleared L q d)
      rw [createThen_begins hbeg,createThen_begins hbeg]
      change restoreFrom L J f q (found L q d).2 (found L q d).1 =
        restoreFrom L J' f q (found L q d).2 (found L q d).1
      cases hfd : (found L q d).1 with
      | error err => rfl
      | ok i =>
        obtain ⟨hp,hv⟩ := found_ok hfd
        unfold restoreFrom
        cases hs : L.openSrc with
        | err e => rfl
        | null => rfl
        | file =>
          cases hd : L.openDest with
          | err e => rfl
          | null => rfl
          | file => exact absurd ⟨hcur,cleared_begins.mp hbeg,hp,hv,hs,hd⟩ h
    · exact (@createThen_stops L _ (restoreTail L J' f q) _ 0 hbeg).1 _

theorem loopResult_kept {n : Name} {k : ℕ} (hfail : ∀ e, ¬ Fails L n k d e)
    (ht : ∀ v, ¬ Takes L n k d v) :
    SameResult (loopResult (discardLoop L n k 0 d)) (.returned 0,d) := by
  have hs := discardLoop_sweeps (L := L) (n := n) k 0 d
  generalize discardLoop L n k 0 d = out at hs ⊢
  obtain ⟨r,d'⟩ := out
  dsimp only at hs
  rcases hs.result with ⟨e,he,_⟩ | ⟨_,hr⟩
  · exact absurd he (hfail e)
  · rcases hr with ⟨_,rfl⟩ | ⟨_,rfl⟩
    · exact ⟨rfl,sweeps_stay hs ht,hs.inodes⟩
    · exact ⟨rfl,sweeps_stay hs ht,hs.inodes⟩

theorem kept_loopResult {n : Name} {k : ℕ}
    (h : SameResult (loopResult (discardLoop L n k 0 d)) (.returned 0,d)) :
    (∀ e, ¬ Fails L n k d e) ∧ ∀ v, ¬ Takes L n k d v := by
  have hs := discardLoop_sweeps (L := L) (n := n) k 0 d
  generalize discardLoop L n k 0 d = out at hs h
  obtain ⟨r,d'⟩ := out
  dsimp only at hs
  have hdir : d'.dir = d.dir := by
    have hd := h.dir
    cases r <;> exact hd
  refine ⟨fun e he => ?_,fun v hv => ?_⟩
  · rcases hs.result with ⟨e',he',rfl⟩ | ⟨hno,_⟩
    · exact fails_ne_zero he' (Outcome.returned.inj h.outcome)
    · exact hno e he
  · have hd := congrFun hdir (backupName v n)
    rw [hs.gone v hv] at hd
    exact hv.present hd.symm

theorem restore_same (hl : L.lowerFile = true) :
    SameExecution ((KernelCall.ioctl 1001 q).executeBytes L F f s x)
      ((KernelCall.ioctl 1001 q).executeBytes L F' f s x) ↔
        SameResult (restoreEffect L.bare (F.reading L x) f q s.disk)
          (restoreEffect L.bare (F'.reading L x) f q s.disk) := by
  obtain ⟨o,t,he,hr⟩ := executeBytes_restore (F := F) (f := f) (q := q) (s := s) (x := x) hl
  obtain ⟨o',t',he',hr'⟩ := executeBytes_restore (F := F') (f := f) (q := q) (s := s) (x := x) hl
  rw [he,he',sameExecution_iff hr hr']
  exact and_iff_left rfl

theorem restoreSettled_of (hl : L.lowerFile = true) (hf : f.ino < s.disk.nextIno)
    (h : JunkFree L f (.ioctl 1001 q) s x) : RestoreSettled L q x s.disk := by
  intro hreach
  obtain ⟨i,hi,heff⟩ := restoreEffect_cleansUp hf (cleansUpOf_bare.mpr hreach)
  by_cases hr : Readable L .revision x
  · exact .inl hr
  · obtain ⟨n,hn,hneg⟩ := canHold_neg hr
    refine .inr fun v hc w h1 hw hcached => ?_
    obtain ⟨u,hu,huv⟩ := canHold_frame hc
    obtain ⟨t,ht,htn⟩ := canHold_frame hn
    have hs := (restore_same hl).mp (h _ _ (Frame.holding_fits hu 0) (Frame.holding_fits ht 0)
      (Frame.holding_alike u t 0 0))
    rw [heff,heff,bare_counter,bare_counter,reading_val,reading_val,huv,htn,
      Int.toNat_of_nonpos hneg.le] at hs
    obtain ⟨hfail,htakes⟩ := kept_loopResult hs
    have hle : w ≤ (v.toNat : ℕ) := by omega
    have hfree {w : Int} (h1 : 1 ≤ w) (hw : w ≤ (v.toNat : ℕ)) :
        ¬ Blocked L.bare (backupName w q.file) (refilled L.bare q i s.disk) := by
      intro hb
      obtain ⟨e,he⟩ := exists_fails h1 hw hb
      exact hfail e he
    have hback := refilled_backup hi
    obtain ⟨hp,hz⟩ := not_not.mp ((cleanup_blocked hi w).not.mp (hfree h1 hle)) hcached
    refine ⟨hp,hz,fun hu => htakes w ⟨⟨h1,hle,fun y hy hyv => hfree (by omega) hyv⟩,
      (hback w).2.mpr hcached,?_,hu⟩⟩
    rwa [(hback w).1]

theorem restoreSettled_same (hl : L.lowerFile = true) (hf : f.ino < s.disk.nextIno) (hF : F.Fits)
    (hF' : F'.Fits) (h : RestoreSettled L q x s.disk) :
    SameExecution ((KernelCall.ioctl 1001 q).executeBytes L F f s x)
      ((KernelCall.ioctl 1001 q).executeBytes L F' f s x) := by
  refine (restore_same hl).mpr ?_
  by_cases hreach : CleansUpOf L q s.disk
  · obtain ⟨i,hi,heff⟩ := restoreEffect_cleansUp hf (cleansUpOf_bare.mpr hreach)
    rw [heff,heff,bare_counter,bare_counter,reading_val,reading_val]
    rcases h hreach with hr | hcond
    · have hval : F.val L .revision x = F'.val L .revision x := readable_val hr
      rw [hval]
      exact ⟨rfl,rfl,rfl⟩
    · have hback := refilled_backup hi
      have hkept {F : Frame} (hF : F.Fits) : SameResult (loopResult (discardLoop L.bare q.file
          (F.val L .revision x).toNat 0 (refilled L.bare q i s.disk)))
            (.returned 0,refilled L.bare q i s.disk) := by
        have hc := hcond _ (canHold_val (L := L) (a := .revision) (x := x) hF)
        generalize F.val L .revision x = v at hc ⊢
        refine loopResult_kept ?_ fun w hw => ?_
        · rintro e ⟨w,hw,hb,_⟩
          have hle := hw.le
          have hpos := hw.pos
          refine (cleanup_blocked hi w).mp hb fun hcached => ?_
          obtain ⟨hp,hz,_⟩ := hc w hpos (by omega) hcached
          exact ⟨hp,hz⟩
        · have hle := hw.reached.le
          have hpos := hw.reached.pos
          exact (hc w hpos (by omega) ((hback w).2.mp hw.cached)).2.2 hw.unlink
      exact (hkept hF).trans (hkept hF').symm
  · rw [restore_unreached (fun h => hreach (cleansUpOf_bare.mp h)) (F'.reading L x)]
    exact ⟨rfl,rfl,rfl⟩

end restore

section reply

theorem viewSettled_of (hl : L.lowerFile = true) (h : JunkFree L f (.ioctl 1002 q) s x) :
    ¬ Delivers L q s.disk := by
  intro hd
  rcases view_cases L q s with ⟨err,t,hf,_⟩ | ⟨_,i,t,_,hv⟩
  · exact viewFails_not_delivers hf hd
  · have hr := (h _ _ (Frame.holding_fits isInt_zero 0) (Frame.holding_fits isInt_zero 1)
      (Frame.holding_alike 0 0 0 1)).reply
    rw [executeBytes_view hl,executeBytes_view hl,hv,hv] at hr
    have hname : some 0 = some 1 := congrArg (Option.map Query.name) hr
    exact absurd (Option.some.inj hname) (by decide)

theorem viewSettled_same (hl : L.lowerFile = true) (h : ¬ Delivers L q s.disk) :
    SameExecution ((KernelCall.ioctl 1002 q).executeBytes L F f s x)
      ((KernelCall.ioctl 1002 q).executeBytes L F' f s x) := by
  rcases view_cases L q s with ⟨err,t,_,hv⟩ | ⟨hd,_⟩
  · rw [executeBytes_view hl,executeBytes_view hl,hv,hv]
    exact ⟨rfl,rfl,rfl,rfl,rfl⟩
  · exact absurd hd h

theorem listSettled_of (hl : L.lowerFile = true) (h : JunkFree L f (.ioctl 1003 q) s x) :
    L.copyToUser = false := by
  by_contra hc
  have hcopy : L.bare.copyToUser = true := Bool.eq_true_of_not_eq_false hc
  have hr := (h _ _ (Frame.holding_fits isInt_zero 0) (Frame.holding_fits isInt_zero 1)
    (Frame.holding_alike 0 0 0 1)).reply
  rw [executeBytes_list hl,executeBytes_list hl,list_delivers _ f s hcopy,
    list_delivers _ f s hcopy] at hr
  have hname : some 0 = some 1 := congrArg (Option.map Query.name) hr
  exact absurd (Option.some.inj hname) (by decide)

theorem listSettled_same (hl : L.lowerFile = true) (h : L.copyToUser = false) :
    SameExecution ((KernelCall.ioctl 1003 q).executeBytes L F f s x)
      ((KernelCall.ioctl 1003 q).executeBytes L F' f s x) := by
  have hcopy : ¬ L.bare.copyToUser = true := by simp [Lower.bare,h]
  have hno (J : Junk) : list L.bare J f s = (.returned (-EACCES),s,none) := if_neg hcopy
  rw [executeBytes_list hl,executeBytes_list hl,hno,hno]
  exact ⟨rfl,rfl,rfl,rfl,rfl⟩

end reply

theorem settled_of (hf : f.ino < s.disk.nextIno) (h : JunkFree L f c s x) :
    c.Settled L f x s.disk := by
  cases c with
  | write pos buf =>
    exact writeSettled_of fun F F' hF hF' ha => write_same.mp (h F F' hF hF' ha)
  | ioctl cmd q =>
    intro hl
    split
    · by_cases hv : q.version = 0
      · rw [if_neg (not_not.mpr hv)]
        exact deleteAllSettled_of hl hv h
      · rw [if_pos hv]
        exact deleteOneSettled_of hl hv h
    · exact restoreSettled_of hl hf h
    · exact viewSettled_of hl h
    · exact listSettled_of hl h
    · trivial

theorem settled_same (hf : f.ino < s.disk.nextIno) (h : c.Settled L f x s.disk) (hF : F.Fits)
    (hF' : F'.Fits) (hb : F.behind = F'.behind ∨ Whole x) :
    SameExecution (c.executeBytes L F f s x) (c.executeBytes L F' f s x) := by
  cases c with
  | write pos buf =>
    have hs : WriteSettled L f x s.disk := h
    refine write_same.mpr ?_
    rcases hs with hr | ⟨hx,out,hs⟩
    · exact writeReadable_same hr hF hF' (hb.imp_right fun hw => whole_got hw hr)
    · exact writeStopped_same hF hF' hx hs
  | ioctl cmd q =>
    cases hl : L.lowerFile with
    | false =>
      rw [executeBytes_noFile hl,executeBytes_noFile hl]
      exact ⟨rfl,rfl,rfl,rfl,rfl⟩
    | true =>
      have hs := h hl
      split at hs
      · by_cases hv : q.version = 0
        · rw [if_neg (not_not.mpr hv)] at hs
          exact deleteAllSettled_same hl hv hF hF' hs
        · rw [if_pos hv] at hs
          exact deleteOneSettled_same hl hv hF hF' hs
      · exact restoreSettled_same hl hf hF hF' hs
      · exact viewSettled_same hl hs
      · exact listSettled_same hl hs
      · rename_i h0 h1 h2 h3
        rw [executeBytes_other hl h0 h1 h2 h3,executeBytes_other hl h0 h1 h2 h3]
        exact ⟨rfl,rfl,rfl,rfl,rfl⟩

end

theorem junk_free_iff (L : Lower) (f : File) (c : KernelCall) (s : Sys) (x : Xattrs)
    (hf : f.ino < s.disk.nextIno) : (JunkFree L f c s x ↔ c.Settled L f x s.disk) ∧
      (Whole x → (StackFree L f c s x ↔ c.Settled L f x s.disk)) := by
  refine ⟨⟨settled_of hf,fun h F F' hF hF' ha => settled_same hf h hF hF' (.inl ha.behind)⟩,
    fun hx => ⟨fun h => settled_of hf fun F F' hF hF' _ => h F F' hF hF',
      fun h F F' hF hF' => settled_same hf h hF hF' (.inr hx)⟩⟩

def revisedXattrs : Xattrs := fun _ => some ((Frame.holding 0 0).saved 3)

theorem junk_free_iff_revised :
    (JunkFree {} aTxt (.write 0 [1]) ⟨Disk.single aTxt {},[]⟩ revisedXattrs ↔
        (KernelCall.write 0 [1]).Settled {} aTxt revisedXattrs (Disk.single aTxt {})) ∧
      (StackFree {} aTxt (.write 0 [1]) ⟨Disk.single aTxt {},[]⟩ revisedXattrs ↔
        (KernelCall.write 0 [1]).Settled {} aTxt revisedXattrs (Disk.single aTxt {})) := by
  have h := junk_free_iff {} aTxt (.write 0 [1]) ⟨Disk.single aTxt {},[]⟩ revisedXattrs (by decide)
  have hwhole : Whole revisedXattrs := fun a b hb => by
    cases hb
    rfl
  exact ⟨h.1,h.2 hwhole⟩

theorem first_write_takes_junk : ¬ ∀ (L : Lower) (f : File) (c : KernelCall) (s : Sys)
    (x : Xattrs), f.ino < s.disk.nextIno → JunkFree L f c s x := by
  intro h
  have hs := h {} aTxt (.write 0 [1]) ⟨Disk.single aTxt {},[]⟩ (fun _ => none) (by decide)
    (Frame.holding 0 0) (Frame.holding 5 0) (Frame.holding_fits isInt_zero 0)
    (Frame.holding_fits ⟨by decide,by decide⟩ 0) (Frame.holding_alike 0 5 0 0)
  have hd := congrFun hs.dir (backupName 1 aTxt.name)
  revert hd
  decide +kernel

end BackupFs
