import BackupFs.Kernel.Sweep

namespace BackupFs

def Event.asks : Event → Option (Role × Name)
  | .dLookup r x => some (r,x)
  | .pathLookup r x => some (r,x)
  | .create r x _ => some (r,x)
  | .unlink r x _ => some (r,x)
  | .get _ => none
  | .put _ => none

inductive Piece (S : Role → Name → Prop) : List Event → Prop
  | taken (o : Obj) (ho : o ≠ .dirLock) : Piece S [.get o]
  | bracket (os : List Obj) {e : Event} {r : Role} {x : Name} (he : e.asks = some (r,x))
      (h : S r x) : Piece S (os.map .get ++ e :: os.reverse.map .put)

def Traced (S : Role → Name → Prop) (s s' : Sys) : Prop :=
  ∃ ps : List (List Event), (∀ p ∈ ps, Piece S p) ∧ s'.trace = s.trace ++ ps.flatten

def loopNames (L : Lower) (n : Name) : ℕ → Sys → List (Role × Name)
  | 0, _ => []
  | i + 1, s =>
    let v : Int := (i + 1 : ℕ)
    (.backup v,backupName v n) ::
      match lookupDelete L (.backup v) (backupName v n) (s.emit [.get .parent]) with
      | (none,s) => loopNames L n i s
      | (some e,s) => if e ≠ 0 then [] else loopNames L n i s

def writeNames (L : Lower) (J : Junk) (f : File) (s : Sys) : List (Role × Name) :=
  let val := nextVersion (counter L J f s.disk)
  (.backup val,backupName val f.name) ::
    if val > N then [(.backup (val - N),backupName (val - N) f.name)] else []

def deleteNames (L : Lower) (J : Junk) (f : File) (q : Request) (s : Sys) : List (Role × Name) :=
  if q.version ≠ 0 then [(.backup q.version,backupName q.version q.file)]
  else loopNames L q.file (counter L J f s.disk).toNat s

def restoreNames (L : Lower) (J : Junk) (f : File) (q : Request) (s : Sys) : List (Role × Name) :=
  let name1 := q.file
  let (err,s) := lookupDelete L .current name1 (s.emit [.get .parent])
  (.current,name1) ::
    if err.getD 0 ≠ 0 then []
    else
      let name2 := restoredName name1
      (.restored,name2) ::
        if L.dAlloc = false then []
        else
          match bkpfsLookup L .restored name2 (s.emit [.get (.newDentry name2)]) with
          | none => []
          | some s =>
            let (err,s) := create L .restored name2 s
            if err ≠ 0 then []
            else
              (.backup q.version,backupName q.version name1) ::
                match restoreCopy L name1 q.version name2 s with
                | (some _,_) => []
                | (none,s) => loopNames L q.file (counter L J f s.disk).toNat s

def viewNames (q : Request) : List (Role × Name) :=
  [(.backup q.version,backupName q.version q.file)]

section
variable {S S' : Role → Name → Prop} {s t u : Sys} {L : Lower} {r : Role} {x : Name}

theorem traced_same (h : t.trace = s.trace) : Traced S s t := ⟨[],by simp,by simpa using h⟩

theorem Traced.refl : Traced S s s := traced_same rfl

theorem traced_on (d : Disk) : Traced S s (s.on d) := traced_same rfl

theorem Traced.trans (h : Traced S s t) (h' : Traced S t u) : Traced S s u := by
  obtain ⟨ps,hp,ht⟩ := h
  obtain ⟨qs,hq,hu⟩ := h'
  refine ⟨ps ++ qs,fun p hm => (List.mem_append.mp hm).elim (hp p) (hq p),?_⟩
  rw [hu,ht,List.flatten_append,List.append_assoc]

theorem piece_asks {p : List Event} (h : Piece S p) {e : Event} (he : e ∈ p)
    (hx : e.asks = some (r,x)) : S r x := by
  cases h with
  | taken o ho =>
    rw [List.mem_singleton.mp he] at hx
    cases hx
  | bracket os ha hS =>
    rcases List.mem_append.mp he with he | he
    · obtain ⟨o,_,rfl⟩ := List.mem_map.mp he
      cases hx
    · rcases List.mem_cons.mp he with rfl | he
      · cases ha.symm.trans hx
        exact hS
      · obtain ⟨o,_,rfl⟩ := List.mem_map.mp he
        cases hx

theorem Traced.asks (h : Traced S s t) : ∃ es, t.trace = s.trace ++ es ∧
    ∀ e ∈ es, ∀ r x, e.asks = some (r,x) → S r x := by
  obtain ⟨ps,hp,ht⟩ := h
  refine ⟨_,ht,fun e he r x hx => ?_⟩
  obtain ⟨p,hm,he⟩ := List.mem_flatten.mp he
  exact piece_asks (hp p hm) he hx

theorem traced_piece {p : List Event} (h : Piece S p) : Traced S s (s.emit p) :=
  ⟨[p],by simpa using h,by simp⟩

theorem traced_get (o : Obj) (ho : o ≠ .dirLock) : Traced S s (s.emit [.get o]) :=
  traced_piece (.taken o ho)

theorem Traced.after_parent (h : Traced S (s.emit [.get .parent]) t) : Traced S s t :=
  (traced_get .parent (by decide)).trans h

theorem Traced.of_loop {k : ℕ} (h : Traced S (if k = 0 then s else s.emit [.get .parent]) t) :
    Traced S s t := by
  split_ifs at h
  · exact h
  · exact h.after_parent

theorem emit_cons (e : Event) (es : List Event) : s.emit (e :: es) = (s.emit [e]).emit es := by
  simp [Sys.emit]

theorem traced_gets (os : List Obj) (h : ∀ o ∈ os, o ≠ .dirLock) :
    Traced S s (s.emit (os.map .get)) := by
  induction os generalizing s with
  | nil => exact traced_same (by simp)
  | cons o os ih =>
    obtain ⟨ho,hos⟩ := List.forall_mem_cons.mp h
    rw [List.map_cons,emit_cons]
    exact (traced_get o ho).trans (ih hos)

theorem traced_asks {e : Event} (he : e.asks = some (r,x)) (h : S r x) :
    Traced S s (s.emit [e]) := traced_piece (.bracket [] he h)

theorem traced_create (h : S r x) : Traced S s (create L r x s).2 := by
  unfold create
  generalize vfsCreate L x s.disk = out
  exact (traced_on _).trans (traced_piece (.bracket [.lowerPath x,.lowerDir,.dirLock] rfl h))

theorem traced_delete (h : S r x) : Traced S s (delete L r x s).2 := by
  unfold delete
  generalize vfsUnlink L x s.disk = out
  exact (traced_on _).trans (traced_piece (.bracket [.lowerEntry x,.lowerDir,.dirLock] rfl h))

theorem traced_lookupDelete (h : S r x) : Traced S s (lookupDelete L r x s).2 := by
  have hl : Traced S s (s.emit [.get .lowerDirPath,.dLookup r x]) := by
    rw [emit_cons]
    exact (traced_get _ (by decide)).trans (traced_asks rfl h)
  unfold lookupDelete
  dsimp only
  split_ifs
  · have hg : Traced S _ ((s.emit [.get .lowerDirPath,.dLookup r x]).emit
        [.get (.lowerEntry x),.get .parent]) := traced_gets [.lowerEntry x,.parent] (by simp)
    exact (hl.trans hg).trans (traced_delete h)
  · exact hl

theorem traced_lookup (h : S r x) (hl : bkpfsLookup L r x s = some t) : Traced S s t := by
  have hb (d : Disk) : Traced S s ((s.on d).emit [.get .parent,.get .lowerDirPath,
      .pathLookup r x,.put .lowerDirPath,.put .parent]) :=
    (traced_on _).trans (traced_piece (.bracket [.parent,.lowerDirPath] rfl h))
  unfold bkpfsLookup at hl
  cases hn : L.lookup with
  | some e => simp [hn] at hl
  | none =>
    simp only [hn] at hl
    generalize vfsPathLookup none x s.disk = out at hl
    obtain ⟨res,d⟩ := out
    cases res <;> cases hl <;> exact hb _

theorem traced_openAndCopy {i : Ino} {y : Name} : Traced S s (openAndCopy L x i y s).2 := by
  have hs : Traced S s (s.emit [.get (.file x),.get (.lowerPath y)]) :=
    traced_gets [.file x,.lowerPath y] (by simp)
  unfold openAndCopy
  cases L.openSrc with
  | err e => exact .refl
  | null => exact .refl
  | file =>
    dsimp only
    cases L.openDest with
    | err e => exact hs
    | null => exact hs
    | file =>
      have ht := hs.trans (traced_get (.file y) (by simp))
      dsimp only
      cases s.disk.dir y with
      | none => exact ht
      | some j => exact ht.trans (traced_on _)

theorem traced_retain {f : File} {val : Int}
    (h : val > N → S (.backup (val - N)) (backupName (val - N) f.name)) :
    Traced S s (retain L f val s).2 := by
  unfold retain
  split_ifs with hv
  · exact traced_lookupDelete (h hv)
  · exact .refl

theorem traced_writeBackup {f : File} {v : Int} (h : S (.backup v) (backupName v f.name)) :
    Traced S s (writeBackup L f v s).2 := by
  unfold writeBackup
  dsimp only
  split_ifs
  · exact .refl
  · have he : Traced S s (s.emit [.get (.newDentry (backupName v f.name))]) :=
      traced_get _ (by simp)
    cases hl : bkpfsLookup L (.backup v) (backupName v f.name)
        (s.emit [.get (.newDentry (backupName v f.name))]) with
    | none => exact .refl
    | some t =>
      have hc := (he.trans (traced_lookup h hl)).trans (traced_create (L := L) h)
      dsimp only
      generalize create L (.backup v) (backupName v f.name) t = out at hc ⊢
      obtain ⟨e,u⟩ := out
      dsimp only at hc ⊢
      split_ifs
      · exact hc
      · have hp := hc.trans (traced_get (.lowerPath f.name) (by simp))
        have ho := hp.trans (@traced_openAndCopy S _ L f.name f.ino (backupName v f.name))
        generalize openAndCopy L f.name f.ino (backupName v f.name) _ = res at ho ⊢
        obtain ⟨o,w⟩ := res
        cases o with
        | none => exact ho
        | some e =>
          dsimp only
          split_ifs <;> exact ho

theorem mem_loopNames {n : Name} {k : ℕ} {p : Role × Name} (h : p ∈ loopNames L n k s) :
    ∃ v : Int, 1 ≤ v ∧ v ≤ k ∧ p = (.backup v,backupName v n) := by
  induction k generalizing s with
  | zero => cases h
  | succ k ih =>
    have hrest {t : Sys} (h : p ∈ loopNames L n k t) :
        ∃ v : Int, 1 ≤ v ∧ v ≤ (k + 1 : ℕ) ∧ p = (.backup v,backupName v n) := by
      obtain ⟨v,h1,h2,hp⟩ := ih h
      exact ⟨v,h1,by omega,hp⟩
    rw [loopNames] at h
    rcases List.mem_cons.mp h with rfl | h
    · exact ⟨(k + 1 : ℕ),by omega,le_rfl,rfl⟩
    · generalize lookupDelete L _ _ _ = out at h
      obtain ⟨o,t⟩ := out
      cases o with
      | none => exact hrest h
      | some e =>
        dsimp only at h
        split_ifs at h
        · cases h
        · exact hrest h

section
variable {J : Junk} {f : File} {q : Request}

theorem traced_write (h : ∀ p ∈ writeNames L J f s, S p.1 p.2) (pos : ℕ) (buf : Bytes) :
    Traced S (s.emit [.get .parent]) (bkpfsWrite L J f pos buf s).2 := by
  unfold writeNames at h
  unfold bkpfsWrite
  generalize nextVersion (counter L J f s.disk) = val at h ⊢
  obtain ⟨hnew,hold⟩ := List.forall_mem_cons.mp h
  have hret : val > N → S (.backup (val - N)) (backupName (val - N) f.name) := fun hv => by
    rw [if_pos hv] at hold
    exact hold _ List.mem_cons_self
  dsimp only at hnew ⊢
  have hp : Traced S (s.emit [.get .parent])
      ((s.on (stamp L f val s.disk)).emit [.get .parent]) := traced_same rfl
  have hr := hp.trans (traced_retain (L := L) hret)
  generalize retain L f val _ = out at hr ⊢
  obtain ⟨e,t⟩ := out
  dsimp only at hr ⊢
  split_ifs
  · exact hr
  · have hb := hr.trans (traced_writeBackup (L := L) hnew)
    generalize writeBackup L f val t = res at hb ⊢
    obtain ⟨o,u⟩ := res
    cases o with
    | none => exact hb.trans (traced_on _)
    | some o => exact hb

theorem traced_deleteLoop {n : Name} (k : ℕ) (err : Int) (s : Sys)
    (h : ∀ p ∈ loopNames L n k s, S p.1 p.2) :
    Traced S (if k = 0 then s else s.emit [.get .parent]) (deleteLoop L n k err s).2 := by
  induction k generalizing err s with
  | zero => exact .refl
  | succ k ih =>
    have hnext (err : Int) (t : Sys) (h : ∀ p ∈ loopNames L n k t, S p.1 p.2) :
        Traced S t (deleteLoop L n k err t).2 := (ih err t h).of_loop
    rw [loopNames] at h
    obtain ⟨hv,hrest⟩ := List.forall_mem_cons.mp h
    have hl : Traced S (s.emit [.get .parent]) (lookupDelete L (.backup (k + 1 : ℕ))
        (backupName (k + 1 : ℕ) n) (s.emit [.get .parent])).2 := traced_lookupDelete hv
    rw [deleteLoop,if_neg (Nat.succ_ne_zero k)]
    generalize lookupDelete L _ _ _ = out at hl hrest ⊢
    obtain ⟨o,t⟩ := out
    cases o with
    | none => exact hl.trans (hnext err t hrest)
    | some e =>
      dsimp only at hrest ⊢
      split_ifs at hrest ⊢
      · exact hl
      · exact hl.trans (hnext e t hrest)

theorem traced_deletedOne : Traced S (lookupDelete L (.backup q.version)
    (backupName q.version q.file) (s.emit [.get .parent])).2 (deleteOne L J f q s).2 := by
  unfold deleteOne
  dsimp only
  generalize lookupDelete L _ _ _ = out
  obtain ⟨o,t⟩ := out
  cases o with
  | none => exact .refl
  | some e =>
    dsimp only
    split_ifs
    · exact .refl
    · exact traced_on _
    · exact .refl

theorem traced_deleteOne (h : S (.backup q.version) (backupName q.version q.file)) :
    Traced S (s.emit [.get .parent]) (deleteOne L J f q s).2 :=
  (traced_lookupDelete h).trans traced_deletedOne

theorem traced_deleteAll
    (h : ∀ p ∈ loopNames L q.file (counter L J f s.disk).toNat s, S p.1 p.2) :
    Traced S (if (counter L J f s.disk).toNat = 0 then s else s.emit [.get .parent])
      (deleteAll L J f q s).2 := by
  have hl := traced_deleteLoop _ (-ENOTTY) s h
  rw [deleteAll]
  generalize deleteLoop L _ _ _ _ = out at hl ⊢
  obtain ⟨o,t⟩ := out
  cases o with
  | error e => exact hl
  | ok e => exact hl.trans (traced_on _)

theorem traced_restoreCopy {n : Name} {v : Int} {y : Name}
    (h : S (.backup v) (backupName v n)) : Traced S s (restoreCopy L n v y s).2 := by
  unfold restoreCopy
  dsimp only
  have hp : Traced S s (s.emit [.get .parent,.pathLookup (.backup v) (backupName v n)]) := by
    rw [emit_cons]
    exact (traced_get _ (by decide)).trans (traced_asks rfl h)
  generalize vfsPathLookup L.pathLookup (backupName v n) s.disk = out
  obtain ⟨o,d⟩ := out
  cases o with
  | error e => exact hp.trans (traced_on d)
  | ok i =>
    have hg : Traced S _ (((s.emit [.get .parent,.pathLookup (.backup v) (backupName v n)]).on
        d).emit [.get (.lowerPath (backupName v n))]) := traced_get _ (by simp)
    exact ((hp.trans (traced_on d)).trans hg).trans traced_openAndCopy

theorem traced_restored (h : ∀ p ∈ restoreNames L J f q s, S p.1 p.2) :
    Traced S (lookupDelete L .current q.file (s.emit [.get .parent])).2 (restore L J f q s).2 := by
  unfold restoreNames at h
  unfold restore
  dsimp only at h ⊢
  obtain ⟨_,h⟩ := List.forall_mem_cons.mp h
  generalize lookupDelete L _ _ _ = out at h ⊢
  obtain ⟨e,t⟩ := out
  dsimp only at h ⊢
  split_ifs at h ⊢ with he ha
  · exact .refl
  · exact .refl
  · obtain ⟨hres,h⟩ := List.forall_mem_cons.mp h
    dsimp only at hres
    have hd : Traced S t (t.emit [.get (.newDentry (restoredName q.file))]) :=
      traced_get _ (by simp)
    cases hb : bkpfsLookup L .restored (restoredName q.file)
        (t.emit [.get (.newDentry (restoredName q.file))]) with
    | none => exact .refl
    | some u =>
      have hc := (hd.trans (traced_lookup hres hb)).trans
        (traced_create (L := L) (s := u) hres)
      rw [hb] at h
      dsimp only at h ⊢
      generalize create L .restored (restoredName q.file) u = out at hc h ⊢
      obtain ⟨e,v⟩ := out
      dsimp only at hc h ⊢
      split_ifs at h ⊢
      · exact hc
      · obtain ⟨hver,h⟩ := List.forall_mem_cons.mp h
        dsimp only at hver
        have hr := hc.trans (traced_restoreCopy (L := L) (y := restoredName q.file) hver)
        generalize restoreCopy L _ _ _ _ = out at hr h ⊢
        obtain ⟨o,w⟩ := out
        cases o with
        | some e => exact hr
        | none =>
          have hd := hr.trans (traced_deleteLoop _ 0 w h).of_loop
          dsimp only at hd ⊢
          generalize deleteLoop L _ _ _ _ = out at hd ⊢
          obtain ⟨o,x⟩ := out
          cases o with
          | error e => exact hd
          | ok e => exact hd

theorem traced_restore (h : ∀ p ∈ restoreNames L J f q s, S p.1 p.2) :
    Traced S (s.emit [.get .parent]) (restore L J f q s).2 := by
  have hcur : S .current q.file := h (.current,q.file) List.mem_cons_self
  exact (traced_lookupDelete hcur).trans (traced_restored h)

theorem traced_viewed : Traced S (s.emit [.get .parent,.get .parent,.get .lowerDirPath,
    .pathLookup (.backup q.version) (backupName q.version q.file)]) (view L J q s).2.1 := by
  unfold view
  dsimp only
  generalize vfsPathLookup L.pathLookup (backupName q.version q.file) s.disk = out
  generalize s.emit _ = t
  obtain ⟨o,d⟩ := out
  cases o with
  | error e => exact traced_on d
  | ok i =>
    have hq : Traced S t ((t.on d).emit [.get (.lowerPath (backupName q.version q.file))]) :=
      (traced_on d).trans (traced_get _ (by simp))
    cases L.openSrc with
    | err e => exact hq
    | null => exact hq
    | file =>
      have hr := hq.trans (traced_get (.file (backupName q.version q.file)) (by simp))
      cases L.kernelRead with
      | some e => exact hr
      | none =>
        dsimp only
        split_ifs
        · exact hr
        · exact hr

theorem traced_view (h : ∀ p ∈ viewNames q, S p.1 p.2) :
    Traced S (s.emit [.get .parent]) (view L J q s).2.1 := by
  have hv : S (.backup q.version) (backupName q.version q.file) := h _ List.mem_cons_self
  have hg : Traced S (s.emit [.get .parent])
      ((s.emit [.get .parent]).emit [.get .parent,.get .lowerDirPath]) :=
    traced_gets [.parent,.lowerDirPath] (by simp)
  have hp := hg.trans (traced_asks (e := .pathLookup (.backup q.version)
    (backupName q.version q.file)) rfl hv)
  simp only [Sys.emit,List.append_assoc,List.cons_append,List.nil_append] at hp
  exact hp.trans traced_viewed

end

end

end BackupFs
