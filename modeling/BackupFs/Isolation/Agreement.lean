import BackupFs.Isolation.Growth
import BackupFs.Cache.Creating

namespace BackupFs

inductive Slot where
  | file
  | entry (x : Name)

def Slot.Of (n : Name) : Slot → Prop
  | .file => True
  | .entry x => x ∈ family n

def Slot.ino (g : File) (d : Disk) : Slot → Option Ino
  | .file => some g.ino
  | .entry x => d.dir x

structure Agrees (g : File) (d e : Disk) : Prop where
  cached : ∀ x ∈ family g.name, d.cached x = e.cached x
  record : ∀ s : Slot, s.Of g.name → (s.ino g d).map d.inodes = (s.ino g e).map e.inodes
  linked : ∀ s t : Slot, s.Of g.name → t.Of g.name →
    (s.ino g d = t.ino g d ↔ s.ino g e = t.ino g e)

structure Rooted (g : File) (d : Disk) : Prop where
  base : g.ino < d.nextIno
  allocated : ∀ x ∈ family g.name, ∀ i, d.dir x = some i → i < d.nextIno

structure AgreeOn (g : File) (out out' : Outcome × Disk) : Prop where
  outcome : out.1 = out'.1
  disk : Agrees g out.2 out'.2

section
variable {g : File} {d e : Disk} {L : Lower} {J : Junk} {x : Name}

theorem Rooted.slot (h : Rooted g d) {s : Slot} (hs : s.Of g.name) {i : Ino}
    (hi : s.ino g d = some i) : i < d.nextIno := by
  cases s with
  | file =>
    cases hi
    exact h.base
  | entry x => exact h.allocated x hs i hi

theorem rooted_within (h : Rooted g d) (hw : Within g d e) : Rooted g e where
  base := h.base.trans_le hw.nextIno
  allocated x hx i hi := by
    rcases hw.entered x i hi with hi | ⟨_,hlt⟩
    · exact (h.allocated x hx i hi).trans_le hw.nextIno
    · exact hlt

namespace Agrees

theorem refl (g : File) (d : Disk) : Agrees g d d :=
  ⟨fun _ _ => rfl,fun _ _ => rfl,fun _ _ _ _ => Iff.rfl⟩

theorem trans {d' : Disk} (h : Agrees g d d') (h' : Agrees g d' e) : Agrees g d e :=
  ⟨fun x hx => (h.cached x hx).trans (h'.cached x hx),
    fun s hs => (h.record s hs).trans (h'.record s hs),
    fun s t hs ht => (h.linked s t hs ht).trans (h'.linked s t hs ht)⟩

theorem file (h : Agrees g d e) : d.inodes g.ino = e.inodes g.ino :=
  Option.some.inj (h.record .file trivial)

theorem missing (h : Agrees g d e) (hx : x ∈ family g.name) : d.dir x = none ↔ e.dir x = none := by
  have hr := congrArg Option.isNone (h.record (.entry x) hx)
  rw [Option.isNone_map,Option.isNone_map] at hr
  change (d.dir x).isNone = (e.dir x).isNone at hr
  rw [← Option.isNone_iff_eq_none,← Option.isNone_iff_eq_none,hr]

theorem isSome (h : Agrees g d e) (hx : x ∈ family g.name) :
    (d.dir x).isSome = (e.dir x).isSome := by
  have hm := h.missing hx
  cases hd : d.dir x with
  | none => rw [hm.mp hd]
  | some i =>
    cases he : e.dir x with
    | none => simp [hm.mpr he] at hd
    | some j => rfl

theorem slots (h : Agrees g d e) {s : Slot} (hs : s.Of g.name) {i : Ino}
    (hi : s.ino g d = some i) : ∃ j, s.ino g e = some j ∧ d.inodes i = e.inodes j := by
  have hr := h.record s hs
  rw [hi,Option.map_some] at hr
  obtain ⟨j,hj,he⟩ := Option.map_eq_some_iff.mp hr.symm
  exact ⟨j,hj,he.symm⟩

theorem setInode (h : Agrees g d e) {s : Slot} (hs : s.Of g.name) {i j : Ino}
    (hi : s.ino g d = some i) (hj : s.ino g e = some j) (n : Inode) :
    Agrees g (d.setInode i n) (e.setInode j n) := by
  have hino (d : Disk) (t : Slot) (k : Ino) : t.ino g (d.setInode k n) = t.ino g d := by
    cases t <;> rfl
  refine ⟨h.cached,fun t ht => ?_,fun t u ht hu => ?_⟩
  · have ha := h.linked t s ht hs
    rw [hi,hj] at ha
    rw [hino,hino]
    cases htd : t.ino g d with
    | none =>
      have hr := h.record t ht
      rw [htd] at hr
      rw [Option.map_eq_none_iff.mp hr.symm]
      rfl
    | some k =>
      obtain ⟨l,hl,hkl⟩ := h.slots ht htd
      rw [htd,hl] at ha
      rw [hl,Option.map_some,Option.map_some,Disk.setInode_inodes,Disk.setInode_inodes]
      by_cases hk : k = i
      · have hlj : l = j := Option.some.inj (ha.mp (congrArg some hk))
        rw [hk,hlj,Function.update_self,Function.update_self]
      · have hlj : l ≠ j := fun hlj => hk (Option.some.inj (ha.mpr (congrArg some hlj)))
        rw [Function.update_of_ne hk,Function.update_of_ne hlj,hkl]
  · rw [hino,hino,hino,hino]
    exact h.linked t u ht hu

theorem setFile (h : Agrees g d e) (n : Inode) :
    Agrees g (d.setInode g.ino n) (e.setInode g.ino n) := by
  have hs : Slot.Of g.name .file := trivial
  exact h.setInode hs rfl rfl n

theorem getxattr (h : Agrees g d e) (L : Lower) (a : Attr) (v : Int) :
    vfsGetxattr L g.ino a v d = vfsGetxattr L g.ino a v e := by
  unfold vfsGetxattr
  rw [h.file]

theorem counter (h : Agrees g d e) (L : Lower) (J : Junk) :
    counter L J g d = BackupFs.counter L J g e := h.getxattr L .revision J.val

theorem setxattr (h : Agrees g d e) (L : Lower) (a : Attr) (v : Int) :
    Agrees g (vfsSetxattr L g.ino a v d) (vfsSetxattr L g.ino a v e) := by
  unfold vfsSetxattr
  rw [h.file]
  cases L.setxattr a with
  | some _ => exact h
  | none => exact h.setFile _

theorem stamp (h : Agrees g d e) (L : Lower) (v : Int) :
    Agrees g (stamp L g v d) (stamp L g v e) := (h.setxattr L .revision v).setxattr L .youngest v

theorem write (h : Agrees g d e) (L : Lower) (pos : ℕ) (buf : Bytes) :
    (vfsWrite L g.ino pos buf d).1 = (vfsWrite L g.ino pos buf e).1 ∧
      Agrees g (vfsWrite L g.ino pos buf d).2 (vfsWrite L g.ino pos buf e).2 := by
  unfold vfsWrite
  dsimp only
  rw [h.file]
  split_ifs
  · exact ⟨rfl,h⟩
  · exact ⟨rfl,h.setFile _⟩

theorem recache (h : Agrees g d e) {d' e' : Disk} (hd : d'.dir = d.dir)
    (hdi : d'.inodes = d.inodes) (he : e'.dir = e.dir) (hei : e'.inodes = e.inodes)
    (hc : ∀ x ∈ family g.name, d'.cached x = e'.cached x) : Agrees g d' e' := by
  have hino {d d' : Disk} (hd : d'.dir = d.dir) (s : Slot) : s.ino g d' = s.ino g d := by
    cases s with
    | file => rfl
    | entry x => exact congrFun hd x
  refine ⟨hc,fun s hs => ?_,fun s t hs ht => ?_⟩
  · rw [hino hd,hino he,hdi,hei]
    exact h.record s hs
  · rw [hino hd,hino hd,hino he,hino he]
    exact h.linked s t hs ht

theorem relink (h : Agrees g d e) {d' e' : Disk} {a b : Option Ino}
    (hd : d'.dir = Function.update d.dir x a) (he : e'.dir = Function.update e.dir x b)
    (hc : ∀ y ∈ family g.name, d'.cached y = e'.cached y)
    (hx : a.map d'.inodes = b.map e'.inodes)
    (hother : ∀ s : Slot, s.Of g.name → s ≠ .entry x →
      (s.ino g d).map d'.inodes = (s.ino g d).map d.inodes ∧
        (s.ino g e).map e'.inodes = (s.ino g e).map e.inodes ∧
          (a = s.ino g d ↔ b = s.ino g e)) : Agrees g d' e' := by
  have hself {d d' : Disk} {a : Option Ino} (hd : d'.dir = Function.update d.dir x a) :
      (Slot.entry x).ino g d' = a := by
    change d'.dir x = a
    rw [hd,Function.update_self]
  have hino {d d' : Disk} {a : Option Ino} (hd : d'.dir = Function.update d.dir x a) {s : Slot}
      (hs : s ≠ .entry x) : s.ino g d' = s.ino g d := by
    cases s with
    | file => rfl
    | entry y =>
      change d'.dir y = d.dir y
      rw [hd,Function.update_of_ne]
      rintro rfl
      exact hs rfl
  refine ⟨hc,fun s hs => ?_,fun s t hs ht => ?_⟩
  · by_cases hsx : s = .entry x
    · rw [hsx,hself hd,hself he]
      exact hx
    · obtain ⟨h1,h2,_⟩ := hother s hs hsx
      rw [hino hd hsx,hino he hsx,h1,h2]
      exact h.record s hs
  · by_cases hsx : s = .entry x <;> by_cases htx : t = .entry x
    · rw [hsx,htx]
      exact iff_of_true rfl rfl
    · rw [hsx,hself hd,hself he,hino hd htx,hino he htx]
      exact (hother t ht htx).2.2
    · rw [htx,hself hd,hself he,hino hd hsx,hino he hsx,eq_comm,(hother s hs hsx).2.2,eq_comm]
    · rw [hino hd hsx,hino he hsx,hino hd htx,hino he htx]
      exact h.linked s t hs ht

theorem slot_missing (h : Agrees g d e) {s : Slot} (hs : s.Of g.name) :
    s.ino g d = none ↔ s.ino g e = none := by
  cases s with
  | file => exact iff_of_false (fun he => nomatch he) fun he => nomatch he
  | entry x => exact h.missing hs

theorem link_none (h : Agrees g d e) (x : Name) :
    Agrees g (d.link x none false) (e.link x none false) := by
  refine h.relink rfl rfl (fun y hy => ?_) rfl fun s hs _ => ⟨rfl,rfl,?_⟩
  · rw [Disk.link_cached,Disk.link_cached,Function.update_apply,Function.update_apply,
      h.cached y hy]
  · rw [eq_comm,h.slot_missing hs,eq_comm]

theorem discard (h : Agrees g d e) (L : Lower) (hx : x ∈ family g.name) :
    (discard L x d).1 = (discard L x e).1 ∧
      Agrees g (BackupFs.discard L x d).2 (BackupFs.discard L x e).2 := by
  have hc := h.cached x hx
  by_cases hcd : d.cached x = true
  · rw [discard_cached hcd,discard_cached (hc ▸ hcd)]
    cases hd : d.dir x with
    | none =>
      rw [removed_missing hd,removed_missing ((h.missing hx).mp hd)]
      exact ⟨rfl,h⟩
    | some i =>
      obtain ⟨j,hj,_⟩ := h.slots (s := .entry x) hx hd
      rw [removed_present hd,removed_present hj]
      dsimp only
      split_ifs
      · exact ⟨rfl,h.link_none x⟩
      · exact ⟨rfl,h⟩
  · rw [discard_uncached hcd,discard_uncached (hc ▸ hcd)]
    exact ⟨rfl,h⟩

theorem discardLoop (h : Agrees g d e) (L : Lower) (k : ℕ) (err : Int) :
    (discardLoop L g.name k err d).1 = (discardLoop L g.name k err e).1 ∧
      Agrees g (BackupFs.discardLoop L g.name k err d).2
        (BackupFs.discardLoop L g.name k err e).2 := by
  induction k generalizing err d e with
  | zero => exact ⟨rfl,h⟩
  | succ k ih =>
    obtain ⟨h1,h2⟩ := h.discard L (backup_family (k + 1 : ℕ) g.name)
    rw [BackupFs.discardLoop,BackupFs.discardLoop]
    generalize BackupFs.discard L _ d = out at h1 h2 ⊢
    generalize BackupFs.discard L _ e = out' at h1 h2 ⊢
    obtain ⟨r,d'⟩ := out
    obtain ⟨r',e'⟩ := out'
    dsimp only at h1 h2
    subst h1
    cases r with
    | none => exact ih h2 err
    | some r =>
      dsimp only
      split_ifs
      · exact ⟨rfl,h2⟩
      · exact ih h2 r

theorem hash (h : Agrees g d e) (x : Name) : Agrees g (d.hash x) (e.hash x) :=
  h.recache rfl rfl rfl rfl fun y hy => by
    rw [Disk.hash_cached,Disk.hash_cached,Function.update_apply,Function.update_apply,
      h.cached y hy]

theorem lookedUp (h : Agrees g d e) (hx : x ∈ family g.name) :
    Agrees g (lookedUp x d) (BackupFs.lookedUp x e) := by
  have hs : slash ∉ x := slash_family hx
  refine h.recache (lookedUp_dir x d) (lookedUp_inodes x d) (lookedUp_dir x e)
    (lookedUp_inodes x e) fun y hy => ?_
  have hcache (d : Disk) : (BackupFs.lookedUp x d).cached = Function.update d.cached x true := by
    unfold BackupFs.lookedUp
    rw [if_neg hs]
    cases d.pathIno x <;> rfl
  rw [hcache,hcache,Function.update_apply,Function.update_apply,h.cached y hy]

theorem begun (h : Agrees g d e) (hd : Rooted g d) (he : Rooted g e) (hx : x ∈ family g.name) :
    Agrees g (begun x d) (BackupFs.begun x e) := by
  have hl := h.lookedUp hx
  have hfresh {d : Disk} (hd : Rooted g d) {s : Slot} (hs : s.Of g.name) :
      (s.ino g d).map (Function.update d.inodes d.nextIno {}) = (s.ino g d).map d.inodes ∧
        some d.nextIno ≠ s.ino g d := by
    cases hi : s.ino g d with
    | none => exact ⟨rfl,by simp⟩
    | some i =>
      have hlt := hd.slot hs hi
      rw [Option.map_some,Option.map_some,Function.update_of_ne hlt.ne]
      exact ⟨rfl,fun hi => absurd (Option.some.inj hi) hlt.ne'⟩
  have hdir (d : Disk) : (BackupFs.begun x d).dir = Function.update d.dir x (some d.nextIno) := by
    rw [BackupFs.begun,Disk.created_dir,lookedUp_dir,lookedUp_nextIno]
  have hin (d : Disk) : (BackupFs.begun x d).inodes =
      Function.update d.inodes d.nextIno {} := by
    rw [BackupFs.begun,Disk.created_inodes,lookedUp_inodes,lookedUp_nextIno]
  refine h.relink (hdir d) (hdir e) (fun y hy => ?_) ?_ fun s hs _ => ?_
  · rw [BackupFs.begun,BackupFs.begun,Disk.created_cached,Disk.created_cached,
      Function.update_apply,Function.update_apply,hl.cached y hy]
  · rw [hin,hin,Option.map_some,Option.map_some,Function.update_self,Function.update_self]
  · rw [hin,hin]
    exact ⟨(hfresh hd hs).1,(hfresh he hs).1,iff_of_false (hfresh hd hs).2 (hfresh he hs).2⟩

theorem copied (h : Agrees g d e) (hx : x ∈ family g.name) (L : Lower) {i j : Ino}
    (hij : d.inodes i = e.inodes j) : Agrees g (copied L i x d) (BackupFs.copied L j x e) := by
  unfold BackupFs.copied
  cases hd : d.dir x with
  | none =>
    rw [(h.missing hx).mp hd]
    exact h
  | some k =>
    obtain ⟨l,hl,hkl⟩ := h.slots (s := .entry x) hx hd
    change e.dir x = some l at hl
    rw [hl]
    dsimp only
    unfold copyFile
    rw [hij,hkl]
    exact h.setInode (s := .entry x) hx hd hl _

theorem lowerIno (h : Agrees g d e) (hx : x ∈ family g.name) :
    (d.lowerIno x).isSome = (e.lowerIno x).isSome := by
  rw [Disk.lowerIno_of_slash d (slash_family hx),Disk.lowerIno_of_slash e (slash_family hx)]
  exact h.isSome hx

theorem discardThen (h : Agrees g d e) (hx : x ∈ family g.name) {rest : Disk → Outcome × Disk}
    (hrest : Agrees g (BackupFs.discard L x d).2 (BackupFs.discard L x e).2 →
      AgreeOn g (rest (BackupFs.discard L x d).2) (rest (BackupFs.discard L x e).2)) :
    AgreeOn g (discardThen L x rest d) (BackupFs.discardThen L x rest e) := by
  obtain ⟨h1,h2⟩ := h.discard L hx
  unfold BackupFs.discardThen
  rw [h1]
  split_ifs
  · exact ⟨rfl,h2⟩
  · exact hrest h2

theorem createThen (h : Agrees g d e) (hd : Rooted g d) (he : Rooted g e)
    (hx : x ∈ family g.name) {rest : Disk → Outcome × Disk}
    (hrest : Agrees g (BackupFs.begun x d) (BackupFs.begun x e) →
      AgreeOn g (rest (BackupFs.begun x d)) (rest (BackupFs.begun x e))) :
    AgreeOn g (createThen L x rest d) (BackupFs.createThen L x rest e) := by
  have hl := h.lookedUp hx
  unfold BackupFs.createThen
  rw [h.lowerIno hx]
  split_ifs
  · exact ⟨rfl,h⟩
  all_goals
    cases L.lookup with
    | some err => exact ⟨rfl,h⟩
    | none => ?_
  · exact ⟨rfl,hl⟩
  · cases L.create with
    | some err => exact ⟨rfl,hl⟩
    | none => exact hrest (h.begun hd he hx)

theorem put (h : Agrees g d e) (L : Lower) (pos : ℕ) (buf : Bytes) :
    AgreeOn g (put L g.ino pos buf d) (BackupFs.put L g.ino pos buf e) :=
  ⟨congrArg Outcome.returned (h.write L pos buf).1,(h.write L pos buf).2⟩

theorem writeTail (h : Agrees g d e) (hx : x ∈ family g.name) (L : Lower) (pos : ℕ)
    (buf : Bytes) :
    AgreeOn g (writeTail L g.ino x pos buf d) (BackupFs.writeTail L g.ino x pos buf e) := by
  unfold BackupFs.writeTail
  cases L.openSrc with
  | err r => exact ⟨rfl,h⟩
  | null => exact h.put L pos buf
  | file =>
    cases L.openDest with
    | err r => exact ⟨rfl,h⟩
    | null => exact h.put L pos buf
    | file => exact (h.copied hx L h.file).put L pos buf

theorem writeEffect (h : Agrees g d e) (hd : Rooted g d) (he : Rooted g e) (L : Lower) (J : Junk)
    (pos : ℕ) (buf : Bytes) :
    AgreeOn g (writeEffect L J g pos buf d) (BackupFs.writeEffect L J g pos buf e) := by
  unfold BackupFs.writeEffect newName oldName
  rw [h.counter L J]
  generalize nextVersion (BackupFs.counter L J g e) = val
  have hs := h.stamp L val
  have hds := rooted_within hd (Confined.stamp L val d).within
  have hes := rooted_within he (Confined.stamp L val e).within
  have hnew := backup_family val g.name
  have hold := backup_family (val - N) g.name
  dsimp only
  split_ifs
  · refine hs.discardThen hold fun h => ?_
    exact h.createThen (rooted_within hds (Confined.discard hold L _).within)
      (rooted_within hes (Confined.discard hold L _).within) hnew
      fun h => h.writeTail hnew L pos buf
  · exact hs.createThen hds hes hnew fun h => h.writeTail hnew L pos buf

theorem pathLookup (h : Agrees g d e) (hx : x ∈ family g.name) (fail : Option Errno) :
    ((∃ err, (vfsPathLookup fail x d).1 = .error err ∧ (vfsPathLookup fail x e).1 = .error err) ∨
      ∃ i j, (vfsPathLookup fail x d).1 = .ok i ∧ (vfsPathLookup fail x e).1 = .ok j ∧
        d.inodes i = e.inodes j) ∧
      Agrees g (vfsPathLookup fail x d).2 (vfsPathLookup fail x e).2 := by
  have hs := slash_family hx
  unfold vfsPathLookup
  cases fail with
  | some err => exact ⟨.inl ⟨err,rfl,rfl⟩,h⟩
  | none =>
    dsimp only
    rw [if_neg hs,if_neg hs,Disk.pathIno_of_slash d hs,Disk.pathIno_of_slash e hs]
    refine ⟨?_,h.hash x⟩
    cases hd : d.dir x with
    | none =>
      rw [(h.missing hx).mp hd]
      exact .inl ⟨_,rfl,rfl⟩
    | some i =>
      obtain ⟨j,hj,hij⟩ := h.slots (s := .entry x) hx hd
      change e.dir x = some j at hj
      rw [hj]
      exact .inr ⟨i,j,rfl,rfl,hij⟩

theorem loopResult {n : Name} (h : Agrees g d e) (hn : n = g.name) (L : Lower) (k : ℕ)
    (err : Int) : AgreeOn g (loopResult (BackupFs.discardLoop L n k err d))
      (BackupFs.loopResult (BackupFs.discardLoop L n k err e)) := by
  subst hn
  obtain ⟨h1,h2⟩ := h.discardLoop L k err
  generalize BackupFs.discardLoop L _ k err d = out at h1 h2 ⊢
  generalize BackupFs.discardLoop L _ k err e = out' at h1 h2 ⊢
  obtain ⟨r,d'⟩ := out
  obtain ⟨r',e'⟩ := out'
  dsimp only at h1
  subst h1
  cases r <;> exact ⟨rfl,h2⟩

theorem restoreTail {q : Request} (h : Agrees g d e) (hq : q.file = g.name) :
    AgreeOn g (restoreTail L J g q d) (BackupFs.restoreTail L J g q e) := by
  have hb : backupName q.version q.file ∈ family g.name := hq ▸ backup_family q.version q.file
  have hr : restoredName q.file ∈ family g.name := hq ▸ restored_family q.file
  have hin (d : Disk) := (vfsPathLookup_fields L.pathLookup (backupName q.version q.file) d).2.1
  obtain ⟨hres,hdisk⟩ := h.pathLookup hb L.pathLookup
  unfold BackupFs.restoreTail
  rcases hres with ⟨err,h1,h2⟩ | ⟨i,j,h1,h2,hij⟩
  · rw [h1,h2]
    exact ⟨rfl,hdisk⟩
  · rw [h1,h2]
    rw [← hin d,← hin e] at hij
    generalize (vfsPathLookup L.pathLookup _ d).2 = d' at hdisk hij ⊢
    generalize (vfsPathLookup L.pathLookup _ e).2 = e' at hdisk hij ⊢
    unfold restoreFrom
    cases L.openSrc with
    | err r => exact ⟨rfl,hdisk⟩
    | null => exact ⟨rfl,hdisk⟩
    | file =>
      cases L.openDest with
      | err r => exact ⟨rfl,hdisk⟩
      | null => exact ⟨rfl,hdisk⟩
      | file =>
        have hc := hdisk.copied hr L hij
        dsimp only
        unfold cleanup
        rw [hc.counter L J]
        exact hc.loopResult hq L _ 0

theorem restoreEffect {q : Request} (h : Agrees g d e) (hd : Rooted g d) (he : Rooted g e)
    (hq : q.file = g.name) :
    AgreeOn g (restoreEffect L J g q d) (BackupFs.restoreEffect L J g q e) := by
  have hn : q.file ∈ family g.name := hq ▸ self_family q.file
  have hr : restoredName q.file ∈ family g.name := hq ▸ restored_family q.file
  refine h.discardThen hn fun h => ?_
  exact h.createThen (rooted_within hd (Confined.discard hn L d).within)
    (rooted_within he (Confined.discard hn L e).within) hr fun h => h.restoreTail hq

theorem deletedOne {q : Request} (h : Agrees g d e) (hq : q.file = g.name) :
    (deletedOne L J g q d).1 = (BackupFs.deletedOne L J g q e).1 ∧
      Agrees g (BackupFs.deletedOne L J g q d).2 (BackupFs.deletedOne L J g q e).2 := by
  have hb : backupName q.version q.file ∈ family g.name := hq ▸ backup_family q.version q.file
  obtain ⟨h1,h2⟩ := h.discard L hb
  unfold BackupFs.deletedOne
  generalize BackupFs.discard L _ d = out at h1 h2 ⊢
  generalize BackupFs.discard L _ e = out' at h1 h2 ⊢
  obtain ⟨r,d'⟩ := out
  obtain ⟨r',e'⟩ := out'
  dsimp only at h1 h2
  subst h1
  cases r with
  | none => exact ⟨rfl,h2⟩
  | some r =>
    dsimp only
    rw [h2.getxattr L .youngest J.val]
    split_ifs
    · exact ⟨rfl,h2⟩
    · exact ⟨rfl,h2.stamp L _⟩
    · exact ⟨rfl,h2⟩

theorem deletedAll {q : Request} (h : Agrees g d e) (hq : q.file = g.name) :
    (deletedAll L J g q d).1 = (BackupFs.deletedAll L J g q e).1 ∧
      Agrees g (BackupFs.deletedAll L J g q d).2 (BackupFs.deletedAll L J g q e).2 := by
  unfold BackupFs.deletedAll
  rw [h.counter L J,hq]
  obtain ⟨h1,h2⟩ := h.discardLoop L (BackupFs.counter L J g e).toNat (-ENOTTY)
  generalize BackupFs.discardLoop L _ _ _ d = out at h1 h2 ⊢
  generalize BackupFs.discardLoop L _ _ _ e = out' at h1 h2 ⊢
  obtain ⟨r,d'⟩ := out
  obtain ⟨r',e'⟩ := out'
  dsimp only at h1 h2
  subst h1
  cases r with
  | error err => exact ⟨rfl,h2⟩
  | ok err => exact ⟨rfl,h2.setxattr L .revision (-1)⟩

end Agrees

end

end BackupFs
