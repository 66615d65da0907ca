import BackupFs.Cache.Creating

namespace BackupFs

inductive WriteStage where
  | readRevision
  | setRevision (val : Int)
  | setYoungest (val : Int)
  | retention (val : Int)
  | create (val : Int)
  | copy (val : Int)
  | write
  | done (out : Outcome)
  deriving DecidableEq

def advance (f : File) (w : WriteCall) : WriteStage → Disk → WriteStage × Disk
  | .readRevision, d => (.setRevision (nextVersion (counter w.lower w.junk f d)),d)
  | .setRevision val, d => (.setYoungest val,vfsSetxattr w.lower f.ino .revision val d)
  | .setYoungest val, d => (.retention val,vfsSetxattr w.lower f.ino .youngest val d)
  | .retention val, d =>
    if val > N then
      let (err,d) := discard w.lower (backupName (val - N) f.name) d
      if err.getD 0 ≠ 0 then (.done (.returned (err.getD 0)),d) else (.create val,d)
    else (.create val,d)
  | .create val, d =>
    if w.lower.dAlloc = false then (.done (.returned (-ENOMEM)),d)
    else
      match w.lower.lookup with
      | some _ => (.done .oops,d)
      | none =>
        let (err,d) := vfsCreate w.lower (backupName val f.name)
          (lookedUp (backupName val f.name) d)
        if err ≠ 0 then (.done (.returned err),d) else (.copy val,d)
  | .copy val, d =>
    match w.lower.openSrc,w.lower.openDest with
    | .err e,_ => (.done (.returned e),d)
    | .null,_ => (.write,d)
    | .file,.err e => (.done (.returned e),d)
    | .file,.null => (.write,d)
    | .file,.file => (.write,copied w.lower f.ino (backupName val f.name) d)
  | .write, d =>
    let (err,d) := vfsWrite w.lower f.ino w.pos w.buf d
    (.done (.returned err),d)
  | .done out, d => (.done out,d)

def advances (f : File) (w : WriteCall) (k : ℕ) (st : WriteStage) (d : Disk) :
    WriteStage × Disk :=
  (fun p => advance f w p.1 p.2)^[k] (st,d)

section
variable {f : File} {w : WriteCall} {d : Disk} {val : Int} {out : Outcome}

theorem advances_succ (k : ℕ) (st : WriteStage) :
    advances f w (k+1) st d = advances f w k (advance f w st d).1 (advance f w st d).2 := rfl

theorem advances_done (k : ℕ) : advances f w k (.done out) d = (.done out,d) := by
  induction k with
  | zero => rfl
  | succ k ih => rw [advances_succ]; exact ih

theorem advances_copy : advances f w 2 (.copy val) d =
    (.done (writeTail w.lower f.ino (backupName val f.name) w.pos w.buf d).1,
      (writeTail w.lower f.ino (backupName val f.name) w.pos w.buf d).2) := by
  rw [advances_succ,advance,writeTail]
  cases w.lower.openSrc with
  | err e => rfl
  | null => rfl
  | file => cases w.lower.openDest <;> rfl

theorem advances_create : advances f w 3 (.create val) d =
    (.done (createThen w.lower (backupName val f.name)
        (writeTail w.lower f.ino (backupName val f.name) w.pos w.buf) d).1,
      (createThen w.lower (backupName val f.name)
        (writeTail w.lower f.ino (backupName val f.name) w.pos w.buf) d).2) := by
  rw [advances_succ,advance,createThen]
  cases ha : w.lower.dAlloc with
  | false =>
    rw [if_pos rfl,if_pos rfl]
    exact advances_done 2
  | true =>
    have ht : ¬ true = false := by simp
    rw [if_neg ht,if_neg ht]
    cases hl : w.lower.lookup with
    | some e => exact advances_done 2
    | none =>
      have hlow := lookedUp_lowerIno (backupName val f.name) d (backupName val f.name)
      dsimp only
      cases hx : d.lowerIno (backupName val f.name) with
      | some i =>
        rw [vfsCreate_exists (by rw [hlow,hx]; rfl)]
        exact advances_done 2
      | none =>
        rw [hx] at hlow
        cases hc : w.lower.create with
        | some e =>
          rw [vfsCreate_refused hlow hc]
          dsimp only
          rw [if_pos (errno_ne_zero e)]
          exact advances_done 2
        | none =>
          rw [vfsCreate_done hlow hc]
          exact advances_copy

theorem advances_alone (s : Sys) : advances f w 7 .readRevision s.disk =
    (.done (bkpfsWrite w.lower w.junk f w.pos w.buf s).1,
      (bkpfsWrite w.lower w.junk f w.pos w.buf s).2.disk) := by
  have he := writeRun_effect (bkpfsWrite_run w.lower w.junk f w.pos w.buf s)
  unfold writeEffect oldName newName at he
  change advances f w 4 (.retention (nextVersion (counter w.lower w.junk f s.disk)))
    (stamp w.lower f (nextVersion (counter w.lower w.junk f s.disk)) s.disk) = _
  rw [advances_succ,advance]
  obtain ⟨ho,hdisk⟩ := Prod.ext_iff.mp he
  dsimp only at ho hdisk ⊢
  rw [← ho,← hdisk]
  split_ifs with hv hd
  · rw [discardThen,if_pos hd]
    exact advances_done 3
  · rw [discardThen,if_neg hd]
    exact advances_create
  · exact advances_create

end

def WriteStage.Numbered (n : Int) : WriteStage → Prop
  | .setRevision val => val = n
  | .setYoungest val => val = n
  | .retention val => val = n
  | .create val => val = n
  | .copy val => val = n
  | _ => True

def WriteStage.stored : WriteStage → Option Int → Option Int
  | .setRevision val, _ => some val
  | _, r => r

theorem discard_missing {L : Lower} {x y : Name} {d : Disk} (h : d.dir x = none) :
    (discard L y d).2.dir x = none := by
  rcases eq_or_ne x y with rfl | hne
  · by_cases hc : d.cached x = true
    · rw [discard_cached hc,removed_missing h]
      exact h
    · rw [discard_uncached hc]
      exact h
  · rw [(discard_other hne).1]
    exact h

section
variable {f : File} {w : WriteCall} {d : Disk} {n : Int} {st : WriteStage} {x : Name}

inductive Advanced (f : File) (w : WriteCall) (n : Int) (d : Disk) : Disk → Prop
  | same : Advanced f w n d d
  | setxattr (a : Attr) : Advanced f w n d (vfsSetxattr w.lower f.ino a n d)
  | discard : Advanced f w n d (discard w.lower (backupName (n - N) f.name) d).2
  | lookup : Advanced f w n d (lookedUp (backupName n f.name) d)
  | create (h : d.dir (backupName n f.name) = none) :
      Advanced f w n d (begun (backupName n f.name) d)
  | copy : Advanced f w n d (copied w.lower f.ino (backupName n f.name) d)
  | write : Advanced f w n d (vfsWrite w.lower f.ino w.pos w.buf d).2

theorem advance_cases (h : st.Numbered n) : Advanced f w n d (advance f w st d).2 := by
  cases st with
  | readRevision => exact .same
  | setRevision val => exact h ▸ .setxattr .revision
  | setYoungest val => exact h ▸ .setxattr .youngest
  | retention val =>
    cases h
    rw [advance]
    dsimp only
    split_ifs
    · exact .discard
    · exact .discard
    · exact .same
  | create val =>
    cases h
    rw [advance]
    split_ifs
    · exact .same
    · cases w.lower.lookup with
      | some e => exact .same
      | none =>
        have hc := create_lookedUp (L := w.lower) (r := .current)
          (u := ⟨lookedUp (backupName n f.name) d,[]⟩) (d := d) (x := backupName n f.name) rfl
        rw [create_fst,create_disk] at hc
        dsimp only at hc ⊢
        rcases hc with ⟨_,h1,h2⟩ | ⟨_,⟨e,_,h1⟩,h2⟩ | ⟨⟨hx,_⟩,h1,h2⟩
        · rw [h1,if_pos (by decide),h2]
          exact .lookup
        · rw [h1,if_pos (errno_ne_zero e),h2]
          exact .lookup
        · rw [h1,if_neg (by decide),h2]
          exact .create (d.dir_of_lowerIno hx)
  | copy val =>
    cases h
    rw [advance]
    cases w.lower.openSrc with
    | err e => exact .same
    | null => exact .same
    | file =>
      cases w.lower.openDest with
      | err e => exact .same
      | null => exact .same
      | file => exact .copy
  | write => exact .write
  | done out => exact .same

theorem advanced_other {d' : Disk} (h : Advanced f w n d d') (hx : x ≠ backupName n f.name)
    (hx' : x ≠ backupName (n - N) f.name) : d'.dir x = d.dir x ∧ d'.cached x = d.cached x := by
  cases h with
  | same => exact ⟨rfl,rfl⟩
  | setxattr a =>
    obtain ⟨m,hm,_⟩ := vfsSetxattr_setInode w.lower f.ino a n d
    rw [hm]
    exact ⟨rfl,rfl⟩
  | discard => exact discard_other hx'
  | lookup => exact ⟨by rw [lookedUp_dir],lookedUp_other hx⟩
  | create => exact ⟨(begun_other hx).1,(begun_other hx).2.1⟩
  | copy =>
    obtain ⟨hd,hc,_⟩ := copied_fields (L := w.lower) (J := w.junk) (f := f) (i := f.ino)
      (x := backupName n f.name) (d := d)
    exact ⟨congrFun hd x,congrFun hc x⟩
  | write =>
    unfold vfsWrite
    dsimp only
    split_ifs <;> exact ⟨rfl,rfl⟩

theorem advanced_missing {d' : Disk} (h : Advanced f w n d d') (hx : x ≠ backupName n f.name)
    (hd : d.dir x = none) : d'.dir x = none := by
  rcases eq_or_ne x (backupName (n - N) f.name) with rfl | hx'
  · cases h with
    | same => exact hd
    | setxattr a =>
      obtain ⟨m,hm,_⟩ := vfsSetxattr_setInode w.lower f.ino a n d
      rw [hm]
      exact hd
    | discard => exact discard_missing hd
    | lookup => rwa [lookedUp_dir]
    | create => rwa [(begun_other hx).1]
    | copy =>
      rwa [(copied_fields (L := w.lower) (J := w.junk) (f := f) (i := f.ino)
        (x := backupName n f.name) (d := d)).1]
    | write => rwa [(vfsWrite_dir w.lower f.ino w.pos w.buf d).1]
  · rwa [(advanced_other h hx hx').1]

theorem advanced_nextIno {d' : Disk} (h : Advanced f w n d d') : d.nextIno ≤ d'.nextIno := by
  cases h with
  | same => exact le_refl _
  | setxattr a =>
    obtain ⟨m,hm,_⟩ := vfsSetxattr_setInode w.lower f.ino a n d
    rw [hm]
    exact le_refl _
  | discard => rw [discard_nextIno]
  | lookup => rw [lookedUp_nextIno]
  | create =>
    rw [begun,Disk.created_nextIno,lookedUp_nextIno]
    exact Nat.le_succ _
  | copy => rw [(copied_frame w.lower f.ino (backupName n f.name) d).1]
  | write => rw [(vfsWrite_dir w.lower f.ino w.pos w.buf d).2]

theorem advance_numbered (h : st.Numbered n) (hr : st ≠ .readRevision) :
    (advance f w st d).1.Numbered n := by
  cases st with
  | readRevision => exact absurd rfl hr
  | setRevision val | setYoungest val => exact h
  | retention val =>
    rw [advance]
    dsimp only
    split_ifs
    · trivial
    · exact h
    · exact h
  | create val =>
    rw [advance]
    split_ifs
    · trivial
    · cases w.lower.lookup with
      | some e => trivial
      | none =>
        dsimp only
        split_ifs
        · trivial
        · exact h
  | copy val =>
    rw [advance]
    cases w.lower.openSrc with
    | err e => trivial
    | null => trivial
    | file => cases w.lower.openDest <;> trivial
  | write | done => trivial

theorem advance_revision (hL : w.lower.Grants) (hf : f.ino < d.nextIno) :
    ((advance f w st d).2.inodes f.ino).revision = st.stored (d.inodes f.ino).revision := by
  cases st with
  | setRevision val =>
    have h := vfsSetxattr_attr w.lower f.ino .revision .revision val d
    rw [if_pos ⟨rfl,hL.setxattr _⟩] at h
    exact h
  | setYoungest val =>
    have h := vfsSetxattr_attr w.lower f.ino .youngest .revision val d
    rw [if_neg (by simp)] at h
    exact h
  | readRevision => rfl
  | retention val =>
    rw [advance]
    dsimp only
    split_ifs
    · rw [discard_inodes]
      rfl
    · rw [discard_inodes]
      rfl
    · rfl
  | create val =>
    rw [advance]
    split_ifs
    · rfl
    · cases w.lower.lookup with
      | some e => rfl
      | none =>
        have hc := create_lookedUp (L := w.lower) (r := .current)
          (u := ⟨lookedUp (backupName val f.name) d,[]⟩) (d := d) (x := backupName val f.name) rfl
        rw [create_fst,create_disk] at hc
        dsimp only at hc ⊢
        have hlook : ((lookedUp (backupName val f.name) d).inodes f.ino).revision =
            (d.inodes f.ino).revision := by rw [lookedUp_inodes]
        have hbegun : ((begun (backupName val f.name) d).inodes f.ino).revision =
            (d.inodes f.ino).revision := by
          rw [begun,Disk.created_inodes,lookedUp_nextIno,
            Function.update_of_ne (Nat.ne_of_lt hf),lookedUp_inodes]
        rcases hc with ⟨_,h1,h2⟩ | ⟨_,⟨e,_,h1⟩,h2⟩ | ⟨_,h1,h2⟩
        · rw [h1,if_pos (by decide),h2]
          exact hlook
        · rw [h1,if_pos (errno_ne_zero e),h2]
          exact hlook
        · rw [h1,if_neg (by decide),h2]
          exact hbegun
  | copy val =>
    rw [advance,hL.openSrc,hL.openDest]
    exact copied_attr f.ino f.ino (backupName val f.name) .revision
  | write => exact vfsWrite_attrs w.lower f.ino w.pos w.buf d
  | done => rfl

end

end BackupFs
