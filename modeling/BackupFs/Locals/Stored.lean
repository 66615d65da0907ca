import BackupFs.Cache.Independence
import BackupFs.Library.Words

namespace BackupFs

open Words

inductive KernelCall where
  | write (pos : ℕ) (buf : Bytes)
  | ioctl (cmd : ℕ) (q : Request)

def KernelCall.execute (L : Lower) (J : Junk) (f : File) :
    KernelCall → Sys → Outcome × Sys × Option Query
  | .write pos buf, s => ((bkpfsWrite L J f pos buf s).1,(bkpfsWrite L J f pos buf s).2,none)
  | .ioctl cmd q, s => bkpfsUnlockedIoctl L J f cmd q s

structure Issued where
  lower : Lower
  junk : Junk
  call : KernelCall

def KernelStep (f : File) (s : Sys) (a : Issued) (t : Sys) : Prop :=
  t = (a.call.execute a.lower a.junk f s).2.1

def IsInt (x : Int) : Prop := -INT_MAX - 1 ≤ x ∧ x ≤ INT_MAX

theorem isInt_zero : IsInt 0 := ⟨by decide,by decide⟩

theorem isInt_wrapInt (v : Int) : IsInt (wrapInt v) := wrapInt_bounds v

theorem isInt_nextVersion (v : Int) : IsInt (nextVersion v) := by
  unfold nextVersion
  split_ifs
  · exact ⟨by decide,by decide⟩
  · exact isInt_wrapInt _

theorem isInt_readInt32 (b : Bytes) : IsInt (readInt32 b) := readInt32_bounds b

structure Junk.Fits (J : Junk) : Prop where
  val : IsInt J.val
  val1 : IsInt J.val1
  version : IsInt J.q2.version
  youngest : IsInt J.q2.youngest
  oldest : IsInt J.q2.oldest
  buff : J.q2.buff.length = 1024
  buffer : J.buffer.length = 1024

abbrev Xattrs := Attr → Option Bytes

-- the stack: 16 bytes lie behind val, 12 between val1 and q2
structure Frame where
  junk : Junk
  behind : Bytes
  slack : Bytes

structure Frame.Fits (F : Frame) : Prop where
  junk : F.junk.Fits
  behind : F.behind.length = 16
  slack : F.slack.length = 12

-- what vfs_getxattr stores at p with a size of 20; a longer attribute is -ERANGE
def got (L : Lower) (a : Attr) (x : Xattrs) : Bytes :=
  match L.getxattr a,x a with
  | none,some b => if b.length ≤ 20 then b else []
  | _,_ => []

def vfsGetxattrBytes (L : Lower) (a : Attr) (p : Bytes) (x : Xattrs) : Bytes :=
  overlay (got L a x) p

def vfsSetxattrBytes (L : Lower) (a : Attr) (p : Bytes) (x : Xattrs) : Xattrs :=
  match L.setxattr a with
  | some _ => x
  | none => Function.update x a (some p)

def stampBytes (L : Lower) (p : Bytes) (x : Xattrs) : Xattrs :=
  vfsSetxattrBytes L .youngest p (vfsSetxattrBytes L .revision p x)

-- the 20 bytes at &val after vfs_getxattr
def Frame.read (F : Frame) (L : Lower) (a : Attr) (x : Xattrs) : Bytes :=
  vfsGetxattrBytes L a (int32 F.junk.val ++ F.behind) x

def Frame.val (F : Frame) (L : Lower) (a : Attr) (x : Xattrs) : Int := readInt32 (F.read L a x)

-- the 20 bytes that bkpfs_write stores: the number, and what was read behind it
def Frame.stamped (F : Frame) (L : Lower) (x : Xattrs) : Bytes :=
  int32 (nextVersion (F.val L .revision x)) ++ (F.read L .revision x).drop 4

-- the 20 bytes at &val1: the last four are the low half of q2.name
def Frame.saved (F : Frame) (val1 : Int) : Bytes :=
  int32 val1 ++ F.slack ++ word 4 F.junk.q2.name

def bkpfsWriteBytes (L : Lower) (F : Frame) (f : File) (pos : ℕ) (buf : Bytes) (s : Sys)
    (x : Xattrs) : Outcome × Sys × Xattrs :=
  let p := F.read L .revision x
  let val := nextVersion (readInt32 p)
  let x := stampBytes L (int32 val ++ p.drop 4) x
  let (err,s) := retain L f val (s.emit [.get .parent])
  if err ≠ 0 then (.returned err,s,x)
  else
    match writeBackup L f val s with
    | (some out,s) => (out,s,x)
    | (none,s) =>
      let (err,d) := vfsWrite L f.ino pos buf s.disk
      (.returned err,s.on d,x)

def deleteOneBytes (L : Lower) (F : Frame) (q : Request) (s : Sys) (x : Xattrs) :
    Outcome × Sys × Xattrs :=
  let name := backupName q.version q.file
  match lookupDelete L (.backup q.version) name (s.emit [.get .parent]) with
  | (none,s) => (.returned (-ENOTTY),s,x)
  | (some err,s) =>
    if err ≠ 0 then (.returned err,s,x)
    else
      let val := F.val L .youngest x
      (.returned err,s,if q.version = val then stampBytes L (F.saved (wrapInt (val - 1))) x else x)

def deleteAllBytes (L : Lower) (F : Frame) (q : Request) (s : Sys) (x : Xattrs) :
    Outcome × Sys × Xattrs :=
  match deleteLoop L q.file (F.val L .revision x).toNat (-ENOTTY) s with
  | (.error err,s) => (.returned err,s,x)
  | (.ok err,s) => (.returned err,s,vfsSetxattrBytes L .revision (F.saved (-1)) x)

def Lower.bare (L : Lower) : Lower :=
  { L with
    getxattr := fun _ => some ⟨-1,by decide⟩
    setxattr := fun _ => some ⟨-1,by decide⟩ }

def Frame.reading (F : Frame) (L : Lower) (x : Xattrs) : Junk :=
  { F.junk with val := F.val L .revision x }

def bkpfsUnlockedIoctlBytes (L : Lower) (F : Frame) (f : File) (cmd : ℕ) (q : Request) (s : Sys)
    (x : Xattrs) : (Outcome × Sys × Option Query) × Xattrs :=
  if L.lowerFile = false then ((.returned (-ENOTTY),s,none),x)
  else
    match cmd with
    | 1000 =>
      let (out,s,x) := if q.version ≠ 0 then deleteOneBytes L F q s x else deleteAllBytes L F q s x
      ((out,s,none),x)
    | 1001 =>
      let (out,s) := restore L.bare (F.reading L x) f q s
      ((out,s,none),x)
    | 1002 => (view L F.junk q s,x)
    | 1003 => (list L.bare (F.reading L x) f s,x)
    | _ => ((.returned (L.unlockedIoctl.getD (-ENOTTY)),s,none),x)

def KernelCall.executeBytes (L : Lower) (F : Frame) (f : File) :
    KernelCall → Sys → Xattrs → (Outcome × Sys × Option Query) × Xattrs
  | .write pos buf, s, x =>
    let (out,s,x) := bkpfsWriteBytes L F f pos buf s x
    ((out,s,none),x)
  | .ioctl cmd q, s, x => bkpfsUnlockedIoctlBytes L F f cmd q s x

section
variable {L : Lower} {F : Frame} {f : File} {q : Request} {s : Sys} {x : Xattrs}

theorem bare_retain (val : Int) (s : Sys) : retain L.bare f val s = retain L f val s := rfl

theorem bare_writeBackup (val : Int) (s : Sys) :
    writeBackup L.bare f val s = writeBackup L f val s := rfl

theorem bare_stamp (val : Int) : s.on (stamp L.bare f val s.disk) = s := rfl

theorem bare_counter (J : Junk) (d : Disk) : counter L.bare J f d = J.val := rfl

theorem reading_val : (F.reading L x).val = F.val L .revision x := rfl

theorem bkpfsWriteBytes_bare (pos : ℕ) (buf : Bytes) : bkpfsWriteBytes L F f pos buf s x =
    ((bkpfsWrite L.bare (F.reading L x) f pos buf s).1,
      (bkpfsWrite L.bare (F.reading L x) f pos buf s).2,stampBytes L (F.stamped L x) x) := by
  unfold bkpfsWrite bkpfsWriteBytes Frame.stamped
  rw [bare_counter,reading_val,Frame.val]
  dsimp only
  generalize nextVersion (readInt32 (F.read L .revision x)) = val
  rw [bare_stamp,bare_retain]
  generalize retain L f val _ = out
  obtain ⟨err,t⟩ := out
  dsimp only
  split_ifs with he
  · rfl
  · rw [bare_writeBackup]
    generalize writeBackup L f val t = out
    obtain ⟨_ | o,u⟩ := out <;> rfl

theorem executeBytes_write (pos : ℕ) (buf : Bytes) : ∃ o t,
    (KernelCall.write pos buf).executeBytes L F f s x =
      ((o,t,none),stampBytes L (F.stamped L x) x) ∧
        (o,t.disk) = writeEffect L.bare (F.reading L x) f pos buf s.disk := by
  refine ⟨_,_,?_,(writeRun_effect (bkpfsWrite_run L.bare (F.reading L x) f pos buf s)).symm⟩
  unfold KernelCall.executeBytes
  dsimp only
  rw [bkpfsWriteBytes_bare]

theorem executeBytes_noFile (hl : L.lowerFile = false) (cmd : ℕ) :
    (KernelCall.ioctl cmd q).executeBytes L F f s x = ((.returned (-ENOTTY),s,none),x) :=
  if_pos hl

theorem executeBytes_delete (hl : L.lowerFile = true) :
    (KernelCall.ioctl 1000 q).executeBytes L F f s x =
      let out := if q.version ≠ 0 then deleteOneBytes L F q s x else deleteAllBytes L F q s x
      ((out.1,out.2.1,none),out.2.2) := if_neg (by simp [hl])

theorem executeBytes_deleteOne (hl : L.lowerFile = true) (hv : q.version ≠ 0) : ∃ t,
    (KernelCall.ioctl 1000 q).executeBytes L F f s x = ((.returned
        ((discard L (backupName q.version q.file) s.disk).1.getD (-ENOTTY)),t,none),
      if (discard L (backupName q.version q.file) s.disk).1 = some 0 ∧
        q.version = F.val L .youngest x then stampBytes L (F.saved (wrapInt (q.version - 1))) x
      else x) ∧ t.disk = (discard L (backupName q.version q.file) s.disk).2 := by
  obtain ⟨h1,h2⟩ := lookupDelete_spec L (.backup q.version) (backupName q.version q.file)
    (s.emit [.get .parent])
  rw [Sys.emit_disk] at h1 h2
  rw [executeBytes_delete hl,if_pos hv]
  unfold deleteOneBytes
  dsimp only
  generalize F.val L .youngest x = val
  generalize lookupDelete L _ _ _ = out at h1 h2 ⊢
  generalize discard L _ _ = out' at h1 h2 ⊢
  obtain ⟨e,t⟩ := out
  obtain ⟨e',d⟩ := out'
  dsimp only at h1 h2
  subst h1 h2
  refine ⟨t,?_,rfl⟩
  cases e with
  | none => simp
  | some err =>
    dsimp only
    by_cases he : err = 0
    · subst he
      rw [if_neg (not_not.mpr rfl),Option.getD_some]
      dsimp only
      by_cases hval : q.version = val
      · rw [if_pos hval,if_pos ⟨rfl,hval⟩,← hval]
      · rw [if_neg hval,if_neg fun h => hval h.2]
    · rw [if_pos he,if_neg fun h => he (Option.some.inj h.1),Option.getD_some]

theorem executeBytes_deleteAll (hl : L.lowerFile = true) (hv : q.version = 0) : ∃ o t,
    (KernelCall.ioctl 1000 q).executeBytes L F f s x = ((o,t,none),
      match (discardLoop L q.file (F.val L .revision x).toNat (-ENOTTY) s.disk).1 with
      | .error _ => x
      | .ok _ => vfsSetxattrBytes L .revision (F.saved (-1)) x) ∧ (o,t.disk) =
        loopResult (discardLoop L q.file (F.val L .revision x).toNat (-ENOTTY) s.disk) := by
  rw [executeBytes_delete hl,if_neg (not_not.mpr hv)]
  unfold deleteAllBytes
  generalize (F.val L .revision x).toNat = k
  obtain ⟨h1,h2⟩ := deleteLoop_spec L q.file k (-ENOTTY) s
  generalize deleteLoop L _ _ _ _ = out at h1 h2 ⊢
  generalize discardLoop L _ _ _ _ = out' at h1 h2 ⊢
  obtain ⟨r,t⟩ := out
  obtain ⟨r',d⟩ := out'
  dsimp only at h1 h2
  subst h1 h2
  cases r <;> exact ⟨_,_,rfl,rfl⟩

theorem executeBytes_restore (hl : L.lowerFile = true) : ∃ o t,
    (KernelCall.ioctl 1001 q).executeBytes L F f s x = ((o,t,none),x) ∧
      (o,t.disk) = restoreEffect L.bare (F.reading L x) f q s.disk :=
  ⟨_,_,if_neg (by simp [hl]),
    (restoreRun_effect (restore_run L.bare (F.reading L x) f q s)).symm⟩

theorem executeBytes_view (hl : L.lowerFile = true) :
    (KernelCall.ioctl 1002 q).executeBytes L F f s x = (view L F.junk q s,x) :=
  if_neg (by simp [hl])

theorem executeBytes_list (hl : L.lowerFile = true) :
    (KernelCall.ioctl 1003 q).executeBytes L F f s x =
      (list L.bare (F.reading L x) f s,x) := if_neg (by simp [hl])

theorem execute_other (hl : L.lowerFile = true) {cmd : ℕ} (h0 : cmd ≠ 1000) (h1 : cmd ≠ 1001)
    (h2 : cmd ≠ 1002) (h3 : cmd ≠ 1003) (J : Junk) :
    (KernelCall.ioctl cmd q).execute L J f s =
      (.returned (L.unlockedIoctl.getD (-ENOTTY)),s,none) := by
  change bkpfsUnlockedIoctl L J f cmd q s = _
  unfold bkpfsUnlockedIoctl
  rw [if_neg (by simp [hl])]
  split
  · exact absurd rfl h0
  · exact absurd rfl h1
  · exact absurd rfl h2
  · exact absurd rfl h3
  · rfl

theorem executeBytes_other (hl : L.lowerFile = true) {cmd : ℕ} (h0 : cmd ≠ 1000)
    (h1 : cmd ≠ 1001) (h2 : cmd ≠ 1002) (h3 : cmd ≠ 1003) :
    (KernelCall.ioctl cmd q).executeBytes L F f s x =
      ((.returned (L.unlockedIoctl.getD (-ENOTTY)),s,none),x) := by
  change bkpfsUnlockedIoctlBytes L F f cmd q s x = _
  unfold bkpfsUnlockedIoctlBytes
  rw [if_neg (by simp [hl])]
  split
  · exact absurd rfl h0
  · exact absurd rfl h1
  · exact absurd rfl h2
  · exact absurd rfl h3
  · rfl

end

end BackupFs
