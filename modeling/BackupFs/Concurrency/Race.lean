import BackupFs.Concurrency.Stages

namespace BackupFs

structure Race where
  stage : Bool → WriteStage
  disk : Disk

namespace Race

def start (d : Disk) : Race := ⟨fun _ => .readRevision,d⟩

def tick (f : File) (w : Bool → WriteCall) (r : Race) (b : Bool) : Race where
  stage := Function.update r.stage b (advance f (w b) (r.stage b) r.disk).1
  disk := (advance f (w b) (r.stage b) r.disk).2

def run (f : File) (w : Bool → WriteCall) (sched : List Bool) (r : Race) : Race :=
  sched.foldl (tick f w) r

def Complete (r : Race) : Prop := ∀ b, ∃ out, r.stage b = .done out

def Succeeded (r : Race) : Prop := ∀ b, ∃ k : ℕ, r.stage b = .done (.returned k)

end Race

theorem Race.tick_self (f : File) (w : Bool → WriteCall) (r : Race) (b : Bool) :
    (r.tick f w b).stage b = (advance f (w b) (r.stage b) r.disk).1 := Function.update_self ..

theorem Race.tick_other (f : File) (w : Bool → WriteCall) (r : Race) {b c : Bool} (h : c ≠ b) :
    (r.tick f w b).stage c = r.stage c := Function.update_of_ne h _ _

structure BackedUpFrom (f : File) (d : Disk) (r : Race) (v : Int) : Prop where
  succeeded : r.Succeeded
  start : (d.inodes f.ino).revision = some v
  free : ∀ u, u = v + 1 ∨ u = v + 2 → d.dir (backupName u f.name) = none
  made : ∀ u, u = v + 1 ∨ u = v + 2 → r.disk.dir (backupName u f.name) ≠ none
  revision : (r.disk.inodes f.ino).revision = some (v + 2)

def BothBackedUp (f : File) (d : Disk) (r : Race) : Prop := ∃ v, BackedUpFrom f d r v

def SucceedInTurn (f : File) (w : Bool → WriteCall) (s : Sys) : Prop :=
  ∃ b, let first := bkpfsWrite (w b).lower (w b).junk f (w b).pos (w b).buf s
    let second := bkpfsWrite (w !b).lower (w !b).junk f (w !b).pos (w !b).buf first.2
    (∃ k : ℕ, first.1 = .returned k) ∧ ∃ k : ℕ, second.1 = .returned k

def StoresFirst (sched : List Bool) : Prop := ∃ b rest, sched = b :: b :: rest

def WriteStage.Stored : WriteStage → Prop
  | .readRevision | .setRevision _ => False
  | _ => True

structure Ready (f : File) (n : Int) (d : Disk) : Prop where
  free : d.dir (backupName n f.name) = none
  unblocked : n > N → d.cached (backupName (n - N) f.name) = true →
    d.dir (backupName (n - N) f.name) ≠ none

def Progress (f : File) (n : Int) (d : Disk) : WriteStage → Prop
  | .readRevision => Ready f n d
  | .setRevision val => val = n ∧ Ready f n d
  | .setYoungest val => val = n ∧ Ready f n d
  | .retention val => val = n ∧ Ready f n d
  | .create val => val = n ∧ d.dir (backupName n f.name) = none
  | .copy val => val = n ∧ d.dir (backupName n f.name) ≠ none
  | .write => d.dir (backupName n f.name) ≠ none
  | .done out => d.dir (backupName n f.name) ≠ none ∧ ∃ k : ℕ, out = .returned k

section
variable {f : File} {w : WriteCall} {d d' : Disk} {n m : Int} {st : WriteStage}

theorem Ready.congr (h : Ready f n d)
    (hn : d'.dir (backupName n f.name) = d.dir (backupName n f.name))
    (ho : d'.dir (backupName (n - N) f.name) = d.dir (backupName (n - N) f.name) ∧
      d'.cached (backupName (n - N) f.name) = d.cached (backupName (n - N) f.name)) :
    Ready f n d' where
  free := hn.trans h.free
  unblocked hv hc := by
    rw [ho.1]
    exact h.unblocked hv (ho.2 ▸ hc)

theorem progress_congr
    (hn : d'.dir (backupName n f.name) = d.dir (backupName n f.name))
    (ho : d'.dir (backupName (n - N) f.name) = d.dir (backupName (n - N) f.name) ∧
      d'.cached (backupName (n - N) f.name) = d.cached (backupName (n - N) f.name))
    (h : Progress f n d st) : Progress f n d' st := by
  cases st with
  | readRevision => exact h.congr hn ho
  | setRevision val | setYoungest val | retention val => exact ⟨h.1,h.2.congr hn ho⟩
  | create val => exact ⟨h.1,hn.trans h.2⟩
  | copy val => exact ⟨h.1,fun hx => h.2 (hn.symm.trans hx)⟩
  | write => exact fun hx => h (hn.symm.trans hx)
  | done out => exact ⟨fun hx => h.1 (hn.symm.trans hx),h.2⟩

theorem advanced_apart (h : Advanced f w m d d') (h1 : n ≠ m) (h2 : n ≠ m - N) :
    d'.dir (backupName n f.name) = d.dir (backupName n f.name) ∧
      d'.cached (backupName n f.name) = d.cached (backupName n f.name) :=
  advanced_other h (fun he => h1 (backupName_inj.mp he).1) fun he => h2 (backupName_inj.mp he).1

theorem progress_other (h : Progress f n d st) (ha : Advanced f w m d d')
    (hm : n = m + 1 ∨ m = n + 1) : Progress f n d' st := by
  have hN : N = 10 := rfl
  exact progress_congr (advanced_apart ha (by omega) (by omega)).1
    (advanced_apart ha (by omega) (by omega)) h

theorem create_free {L : Lower} (hL : L.Grants) (h : d.dir (backupName n f.name) = none) :
    vfsCreate L (backupName n f.name) (lookedUp (backupName n f.name) d) =
      (0,begun (backupName n f.name) d) := by
  have hs : slash ∉ backupName n f.name := fun hx =>
    f.name.property.2.1 (slash_mem_backupName.mp hx)
  refine vfsCreate_done ?_ hL.create
  rw [lookedUp_lowerIno,Disk.lowerIno_of_slash d hs,h]

theorem blocked_grants {L : Lower} (hL : L.Grants) {x : Name} :
    ¬ Blocked L x d ↔ (d.cached x = true → d.dir x ≠ none) := by
  rw [Blocked,refusal_grants hL]
  simp

theorem discard_ready {L : Lower} (hL : L.Grants) (h : Ready f n d) (hn : n > N) :
    (discard L (backupName (n - N) f.name) d).1.getD 0 = 0 ∧
      (discard L (backupName (n - N) f.name) d).2.dir (backupName n f.name) = none :=
  ⟨discard_free.mpr ((blocked_grants hL).mpr (h.unblocked hn)),discard_missing h.free⟩

theorem progress_advance (hL : w.lower.Grants) (h : Progress f n d st)
    (hr : st = .readRevision → nextVersion (counter w.lower w.junk f d) = n) :
    Progress f n (advance f w st d).2 (advance f w st d).1 := by
  cases st with
  | readRevision => exact ⟨hr rfl,h⟩
  | setRevision val =>
    obtain ⟨m,hm,_⟩ := vfsSetxattr_setInode w.lower f.ino .revision val d
    rw [advance,hm]
    exact ⟨h.1,h.2.congr rfl ⟨rfl,rfl⟩⟩
  | setYoungest val =>
    obtain ⟨m,hm,_⟩ := vfsSetxattr_setInode w.lower f.ino .youngest val d
    rw [advance,hm]
    exact ⟨h.1,h.2.congr rfl ⟨rfl,rfl⟩⟩
  | retention val =>
    obtain ⟨rfl,hready⟩ := h
    rw [advance]
    split_ifs with hv
    · obtain ⟨h0,hx⟩ := discard_ready hL hready hv
      dsimp only
      rw [h0,if_neg (by simp)]
      exact ⟨rfl,hx⟩
    · exact ⟨rfl,hready.free⟩
  | create val =>
    obtain ⟨rfl,hx⟩ := h
    rw [advance,hL.lookup,create_free hL hx,if_neg (by simp [hL.dAlloc])]
    dsimp only
    rw [if_neg (by simp)]
    refine ⟨rfl,?_⟩
    dsimp only
    rw [begun,Disk.created_dir,Function.update_self]
    simp
  | copy val =>
    obtain ⟨rfl,hx⟩ := h
    rw [advance,hL.openSrc,hL.openDest]
    change (copied w.lower f.ino (backupName val f.name) d).dir _ ≠ none
    rwa [(copied_fields (L := w.lower) (J := w.junk) (f := f) (i := f.ino)
      (x := backupName val f.name) (d := d)).1]
  | write =>
    obtain ⟨k,hk⟩ := vfsWrite_granted hL f.ino w.pos w.buf (d := d)
    rw [advance,hk]
    exact ⟨h,k,rfl⟩
  | done out => exact h

theorem advance_stored (h : st.Stored) :
    (advance f w st d).1.Stored ∧ st ≠ .readRevision ∧ ∀ r, st.stored r = r := by
  cases st with
  | readRevision | setRevision val => exact h.elim
  | setYoungest val => exact ⟨trivial,by simp,fun _ => rfl⟩
  | retention val =>
    refine ⟨?_,by simp,fun _ => rfl⟩
    rw [advance]
    dsimp only
    split_ifs <;> trivial
  | create val =>
    refine ⟨?_,by simp,fun _ => rfl⟩
    rw [advance]
    split_ifs
    · trivial
    · cases w.lower.lookup with
      | some e => trivial
      | none =>
        dsimp only
        split_ifs <;> trivial
  | copy val =>
    refine ⟨?_,by simp,fun _ => rfl⟩
    rw [advance]
    cases w.lower.openSrc with
    | err e => trivial
    | null => trivial
    | file => cases w.lower.openDest <;> trivial
  | write | done out => exact ⟨trivial,by simp,fun _ => rfl⟩

theorem advance_read (f : File) (w : WriteCall) (st : WriteStage) (d : Disk) :
    (advance f w st d).1 ≠ .readRevision := by
  by_cases hs : st.Stored
  · intro he
    have h := (advance_stored (f := f) (w := w) (d := d) hs).1
    rw [he] at h
    exact h
  · cases st with
    | readRevision | setRevision val => simp [advance]
    | setYoungest | retention | create | copy | write | done => exact absurd trivial hs

end

structure Ordered (f : File) (b : Bool) (n : Int) (r : Race) : Prop where
  base : f.ino < r.disk.nextIno
  stored : (r.stage b).Stored
  numbered : (r.stage b).Numbered n
  next : (r.stage !b).Numbered (nextVersion n)
  before : ¬ (r.stage !b).Stored → (r.disk.inodes f.ino).revision = some n
  after : (r.stage !b).Stored → (r.disk.inodes f.ino).revision = some (nextVersion n)

section
variable {f : File} {w : Bool → WriteCall} {b : Bool} {n : Int} {r : Race}

theorem ordered_self (hL : (w b).lower.Grants) (h : Ordered f b n r) :
    Ordered f b n (r.tick f w b) := by
  obtain ⟨hs,hread,hkeep⟩ := advance_stored (f := f) (w := w b) (d := r.disk) h.stored
  have hrev : ((r.tick f w b).disk.inodes f.ino).revision =
      (r.stage b).stored (r.disk.inodes f.ino).revision := advance_revision hL h.base
  rw [hkeep] at hrev
  have hself := Race.tick_self f w r b
  have hother := Race.tick_other f w r (b := b) (c := !b) (by simp)
  refine ⟨?_,?_,?_,?_,?_,?_⟩
  · exact h.base.trans_le (advanced_nextIno (advance_cases h.numbered))
  · rwa [hself]
  · rw [hself]
    exact advance_numbered h.numbered hread
  · rw [hother]
    exact h.next
  · rw [hother]
    exact fun hst => hrev.trans (h.before hst)
  · rw [hother]
    exact fun hst => hrev.trans (h.after hst)

theorem ordered_other (hL : (w !b).lower.Grants) (h : Ordered f b n r) :
    Ordered f b n (r.tick f w !b) := by
  have hbase := h.base.trans_le (advanced_nextIno (advance_cases (f := f) (w := w !b) h.next))
  have hrev : ((r.tick f w !b).disk.inodes f.ino).revision =
      (r.stage !b).stored (r.disk.inodes f.ino).revision := advance_revision hL h.base
  have hself := Race.tick_self f w r !b
  have hother := Race.tick_other f w r (b := !b) (c := b) (by simp)
  have hnext := h.next
  have hbefore := h.before
  have hafter := h.after
  refine ⟨hbase,hother ▸ h.stored,hother ▸ h.numbered,?_,?_,?_⟩
  all_goals
    rw [hself]
    clear hself hother hbase
    generalize r.stage (!b) = st at hrev hnext hbefore hafter ⊢
  · by_cases hst : st = .readRevision
    · subst hst
      change nextVersion (counter _ _ f r.disk) = nextVersion n
      rw [counter_revision hL (hbefore id)]
    · exact advance_numbered hnext hst
  · intro hst
    refine hrev.trans ?_
    cases st with
    | readRevision => exact hbefore id
    | setRevision val => exact absurd trivial hst
    | setYoungest | retention | create | copy | write | done =>
      refine absurd (advance_stored ?_).1 hst
      trivial
  · intro hst
    refine hrev.trans ?_
    cases st with
    | readRevision => exact hst.elim
    | setRevision val => exact congrArg some hnext
    | setYoungest | retention | create | copy | write | done => exact hafter trivial

theorem ordered_tick (hL : ∀ b, (w b).lower.Grants) (h : Ordered f b n r) (c : Bool) :
    Ordered f b n (r.tick f w c) := by
  rcases Bool.eq_or_eq_not c b with rfl | rfl
  · exact ordered_self (hL _) h
  · exact ordered_other (hL _) h

structure Paired (f : File) (w : Bool → WriteCall) (b : Bool) (n : Int) (r : Race) : Prop where
  ordered : Ordered f b n r
  first : Progress f n r.disk (r.stage b)
  second : Progress f (n + 1) r.disk (r.stage !b)

theorem paired_tick (hL : ∀ b, (w b).lower.Grants) (hn : nextVersion n = n + 1)
    (h : Paired f w b n r) (c : Bool) : Paired f w b n (r.tick f w c) := by
  have hnext := h.ordered.next
  rw [hn] at hnext
  refine ⟨ordered_tick hL h.ordered c,?_,?_⟩
  all_goals rcases Bool.eq_or_eq_not c b with rfl | rfl
  · rw [Race.tick_self]
    refine progress_advance (hL _) h.first fun hst => ?_
    have hs := h.ordered.stored
    rw [hst] at hs
    exact hs.elim
  · rw [Race.tick_other _ _ _ (by simp)]
    exact progress_other h.first (advance_cases hnext) (.inr rfl)
  · rw [Race.tick_other _ _ _ (by simp)]
    exact progress_other h.second (advance_cases h.ordered.numbered) (.inl rfl)
  · rw [Race.tick_self]
    refine progress_advance (hL _) h.second fun hst => ?_
    rw [counter_revision (hL _) (h.ordered.before (by rw [hst]; exact id)),hn]

structure Same (f : File) (n : Int) (d : Disk) (r : Race) : Prop where
  read : ∀ b, r.stage b ≠ .readRevision
  numbered : ∀ b, (r.stage b).Numbered n
  missing : ∀ x, x ≠ backupName n f.name → d.dir x = none → r.disk.dir x = none

theorem same_tick {d : Disk} (h : Same f n d r) (c : Bool) : Same f n d (r.tick f w c) := by
  refine ⟨?_,?_,fun x hx hd =>
    advanced_missing (advance_cases (h.numbered c)) hx (h.missing x hx hd)⟩
  all_goals
    intro b
    rcases eq_or_ne b c with rfl | hb
  · rw [Race.tick_self]
    exact advance_read _ _ _ _
  · rw [Race.tick_other _ _ _ hb]
    exact h.read b
  · rw [Race.tick_self]
    exact advance_numbered (h.numbered b) (h.read b)
  · rw [Race.tick_other _ _ _ hb]
    exact h.numbered b

theorem stored_first {v : Int} (b : Bool) (hv : counter (w b).lower (w b).junk f d = v) :
    let r := ((Race.start d).tick f w b).tick f w b
    r.stage b = .setYoungest (nextVersion v) ∧ r.stage (!b) = .readRevision ∧
      r.disk = vfsSetxattr (w b).lower f.ino .revision (nextVersion v) d := by
  subst hv
  have hb : (!b) ≠ b := by simp
  have h1 := Race.tick_self f w (Race.start d) b
  dsimp only
  refine ⟨?_,?_,?_⟩
  · rw [Race.tick_self,h1]
    rfl
  · rw [Race.tick_other _ _ _ hb,Race.tick_other _ _ _ hb]
    rfl
  · change (advance f (w b) (((Race.start d).tick f w b).stage b) _).2 = _
    rw [h1]
    rfl

theorem read_both (d : Disk) (b : Bool) :
    let r := ((Race.start d).tick f w b).tick f w !b
    (∀ c, r.stage c = .setRevision (nextVersion (counter (w c).lower (w c).junk f d))) ∧
      r.disk = d := by
  have hb : (!b) ≠ b := by simp
  have h1 := Race.tick_other f w (Race.start d) hb
  refine ⟨fun c => ?_,?_⟩
  · rcases Bool.eq_or_eq_not c b with rfl | rfl
    · rw [Race.tick_other _ _ _ hb.symm,Race.tick_self]
      rfl
    · rw [Race.tick_self,h1]
      rfl
  · change (advance f (w !b) (((Race.start d).tick f w b).stage !b) _).2 = _
    rw [h1]
    rfl

end

section
variable {f : File} {w : WriteCall} {d : Disk} {n : Int} {x : Name}

theorem advances_other (k : ℕ) {st : WriteStage} (h : st.Numbered n) (hr : st ≠ .readRevision)
    (hx : x ≠ backupName n f.name) (hx' : x ≠ backupName (n - N) f.name) :
    (advances f w k st d).2.dir x = d.dir x ∧ (advances f w k st d).2.cached x = d.cached x := by
  induction k generalizing st d with
  | zero => exact ⟨rfl,rfl⟩
  | succ k ih =>
    obtain ⟨h1,h2⟩ := ih (d := (advance f w st d).2) (advance_numbered h hr) (advance_read f w st d)
    obtain ⟨h3,h4⟩ := advanced_other (advance_cases (w := w) (d := d) h) hx hx'
    rw [advances_succ]
    exact ⟨h1.trans h3,h2.trans h4⟩

theorem bkpfsWrite_apart (s : Sys) {n m : Int}
    (hn : nextVersion (counter w.lower w.junk f s.disk) = n) (h1 : m ≠ n) (h2 : m ≠ n - N) :
    let t := (bkpfsWrite w.lower w.junk f w.pos w.buf s).2
    t.disk.dir (backupName m f.name) = s.disk.dir (backupName m f.name) ∧
      t.disk.cached (backupName m f.name) = s.disk.cached (backupName m f.name) := by
  have hdisk : (advances f w 6 (.setRevision (nextVersion (counter w.lower w.junk f s.disk)))
      s.disk).2 = (bkpfsWrite w.lower w.junk f w.pos w.buf s).2.disk :=
    congrArg Prod.snd (advances_alone s)
  have hstage : WriteStage.Numbered n
      (.setRevision (nextVersion (counter w.lower w.junk f s.disk))) := hn
  have ho := advances_other (f := f) (w := w) (d := s.disk) (x := backupName m f.name) 6 hstage
    (by simp) (fun he => h1 (backupName_inj.mp he).1) fun he => h2 (backupName_inj.mp he).1
  rwa [hdisk] at ho

theorem ready_succeeded {s : Sys} (hL : w.lower.Grants) {k : ℕ}
    (h : (bkpfsWrite w.lower w.junk f w.pos w.buf s).1 = .returned k) :
    Ready f (nextVersion (counter w.lower w.junk f s.disk)) s.disk := by
  have hr := bkpfsWrite_run w.lower w.junk f w.pos w.buf s
  rw [h] at hr
  rcases writeRun_outcome hL.lookup hr with ⟨_,hg⟩ | ⟨⟨e,he,ho⟩,_⟩
  · exact ⟨hg.backs.free,fun hv => (blocked_grants hL).mp (hg.retention hv)⟩
  · cases ho
    omega

end

section
variable {f : File} {w : Bool → WriteCall} {s : Sys} {sched : List Bool}

theorem ready_inTurn {v : Int} (hL : ∀ b, (w b).lower.Grants) (hf : f.ino < s.disk.nextIno)
    (h : SucceedInTurn f w s) (hr : (s.disk.inodes f.ino).revision = some v) (h0 : 0 ≤ v)
    (hm : v + 2 ≤ INT_MAX) : Ready f (v + 1) s.disk ∧ Ready f (v + 1 + 1) s.disk := by
  obtain ⟨b,⟨k,hk⟩,⟨k',hk'⟩⟩ := h
  have hfirst := ready_succeeded (hL b) hk
  have hsecond := ready_succeeded (hL !b) hk'
  have hlist : ListedFaults (w b).lower := ⟨(hL b).getxattr,(hL b).setxattr,(hL b).lookup⟩
  have hnum : nextVersion (counter (w b).lower (w b).junk f s.disk) = v + 1 := by
    rw [counter_revision (hL b) hr,nextVersion_eq (by omega),if_neg (by omega)]
  have hrev := writeRun_revision hlist hf
    (bkpfsWrite_run (w b).lower (w b).junk f (w b).pos (w b).buf s)
  rw [hnum] at hfirst hrev
  rw [counter_revision (hL _) hrev,nextVersion_eq (by omega),if_neg (by omega)] at hsecond
  have hN : N = 10 := rfl
  have hn := bkpfsWrite_apart s hnum (m := v + 1 + 1) (by omega) (by omega)
  have ho := bkpfsWrite_apart s hnum (m := v + 1 + 1 - N) (by omega) (by omega)
  exact ⟨hfirst,hsecond.congr hn.1.symm ⟨ho.1.symm,ho.2.symm⟩⟩

theorem ordered_start {v : Int} (hL : ∀ b, (w b).lower.Grants) (hf : f.ino < s.disk.nextIno)
    (hr : (s.disk.inodes f.ino).revision = some v) (b : Bool) :
    Ordered f b (nextVersion v) (((Race.start s.disk).tick f w b).tick f w b) := by
  obtain ⟨h1,h2,h3⟩ := stored_first (f := f) (w := w) b (counter_revision (hL b) hr _)
  rw [vfsSetxattr,(hL b).setxattr] at h3
  dsimp only at h3
  refine ⟨?_,?_,?_,?_,?_,?_⟩
  · rwa [h3]
  · rw [h1]
    trivial
  · rw [h1]
    rfl
  · rw [h2]
    trivial
  · intro _
    rw [h3,Disk.setInode_inodes,Function.update_self]
    rfl
  · rw [h2]
    exact False.elim

theorem paired_start {v : Int} (hL : ∀ b, (w b).lower.Grants) (hf : f.ino < s.disk.nextIno)
    (h : SucceedInTurn f w s) (hr : (s.disk.inodes f.ino).revision = some v) (h0 : 0 ≤ v)
    (hm : v + 2 ≤ INT_MAX) (b : Bool) :
    Paired f w b (v + 1) (((Race.start s.disk).tick f w b).tick f w b) := by
  obtain ⟨hfirst,hsecond⟩ := ready_inTurn hL hf h hr h0 hm
  have hord := ordered_start hL hf hr b
  obtain ⟨h1,h2,h3⟩ := stored_first (f := f) (w := w) b (counter_revision (hL b) hr _)
  have hn : nextVersion v = v + 1 := by rw [nextVersion_eq (by omega),if_neg (by omega)]
  obtain ⟨m,hset,_⟩ := vfsSetxattr_setInode (w b).lower f.ino .revision (nextVersion v) s.disk
  rw [hset] at h3
  rw [hn] at h1
  rw [hn] at hord
  refine ⟨hord,?_,?_⟩
  · rw [h1,h3]
    exact ⟨rfl,hfirst.congr rfl ⟨rfl,rfl⟩⟩
  · rw [h2,h3]
    exact hsecond.congr rfl ⟨rfl,rfl⟩

theorem nextVersion_two {v : Int} (h : nextVersion (nextVersion v) = v + 2) :
    0 ≤ v ∧ v + 2 ≤ INT_MAX := by
  refine ⟨?_,h ▸ nextVersion_le _⟩
  by_contra hv
  have h1 : nextVersion v = 1 := if_pos (by omega)
  have h2 : nextVersion 1 = 2 := by decide
  rw [h1,h2] at h
  omega

theorem succeeded_paired {n : Int} {b : Bool} {r : Race} (h : Paired f w b n r)
    (hd : r.Complete) : r.Succeeded ∧ r.disk.dir (backupName n f.name) ≠ none ∧
      r.disk.dir (backupName (n + 1) f.name) ≠ none := by
  obtain ⟨o1,h1⟩ := hd b
  obtain ⟨o2,h2⟩ := hd !b
  have hp1 := h.first
  have hp2 := h.second
  rw [h1] at hp1
  rw [h2] at hp2
  obtain ⟨hm1,k1,rfl⟩ := hp1
  obtain ⟨hm2,k2,rfl⟩ := hp2
  refine ⟨fun c => ?_,hm1,hm2⟩
  rcases Bool.eq_or_eq_not c b with rfl | rfl
  · exact ⟨k1,h1⟩
  · exact ⟨k2,h2⟩

theorem stored_complete {b : Bool} {n : Int} {r : Race} (h : Ordered f b n r) (hd : r.Complete) :
    (r.disk.inodes f.ino).revision = some (nextVersion n) := by
  obtain ⟨out,ho⟩ := hd !b
  refine h.after ?_
  rw [ho]
  trivial

theorem not_complete (b : Bool) : ¬ (Race.run f w [b] (Race.start s.disk)).Complete := by
  intro hd
  obtain ⟨out,ho⟩ := hd !b
  change ((Race.start s.disk).tick f w b).stage (!b) = _ at ho
  rw [Race.tick_other _ _ _ (by simp)] at ho
  cases ho

theorem same_misses {v : Int} {r : Race} (h : Same f (nextVersion v) s.disk r) :
    ¬ BackedUpFrom f s.disk r v := by
  intro hb
  have hmiss (u : Int) (hu : u = v + 1 ∨ u = v + 2) : u = nextVersion v := by
    by_contra hne
    exact hb.made u hu (h.missing _ (fun he => hne (backupName_inj.mp he).1) (hb.free u hu))
  have h1 := hmiss _ (.inl rfl)
  have h2 := hmiss _ (.inr rfl)
  omega

theorem same_start {v : Int} (hL : ∀ b, (w b).lower.Grants)
    (hr : (s.disk.inodes f.ino).revision = some v) (b : Bool) :
    Same f (nextVersion v) s.disk (((Race.start s.disk).tick f w b).tick f w !b) := by
  obtain ⟨h1,h2⟩ := read_both (f := f) (w := w) s.disk b
  refine ⟨fun c => ?_,fun c => ?_,fun x _ hd => ?_⟩
  · rw [h1]
    simp
  · rw [h1,counter_revision (hL c) hr]
    rfl
  · rwa [h2]

theorem backed_up_stored (hL : ∀ b, (w b).lower.Grants) (hf : f.ino < s.disk.nextIno)
    (h : SucceedInTurn f w s) {b : Bool} {rest : List Bool}
    (hd : (Race.run f w (b :: b :: rest) (Race.start s.disk)).Complete) (v : Int) :
    BackedUpFrom f s.disk (Race.run f w (b :: b :: rest) (Race.start s.disk)) v ↔
      (s.disk.inodes f.ino).revision = some v ∧ 0 ≤ v ∧ v + 2 ≤ INT_MAX := by
  constructor
  · intro hb
    have hord : Ordered f b (nextVersion v) (Race.run f w (b :: b :: rest) (Race.start s.disk)) :=
      List.foldlRecOn rest _ (ordered_start hL hf hb.start b) fun _ h c _ => ordered_tick hL h c
    have hrev := stored_complete hord hd
    rw [hb.revision] at hrev
    exact ⟨hb.start,nextVersion_two (Option.some.inj hrev).symm⟩
  · rintro ⟨hr,h0,hm⟩
    have hn : nextVersion (v + 1) = v + 1 + 1 := by
      rw [nextVersion_eq (by omega),if_neg (by omega)]
    have hp : Paired f w b (v + 1) (Race.run f w (b :: b :: rest) (Race.start s.disk)) :=
      List.foldlRecOn rest _ (paired_start hL hf h hr h0 hm b) fun _ h c _ => paired_tick hL hn h c
    obtain ⟨hs,h1,h2⟩ := succeeded_paired hp hd
    obtain ⟨hr1,hr2⟩ := ready_inTurn hL hf h hr h0 hm
    have hrev := stored_complete hp.ordered hd
    have htwo : v + 1 + 1 = v + 2 := by omega
    rw [hn,htwo] at hrev
    rw [htwo] at h2 hr2
    refine ⟨hs,hr,?_,?_,hrev⟩
    · rintro u (rfl | rfl)
      · exact hr1.free
      · exact hr2.free
    · rintro u (rfl | rfl)
      · exact h1
      · exact h2

theorem both_backed_up_iff (hL : ∀ b, (w b).lower.Grants) (hf : f.ino < s.disk.nextIno)
    (h : SucceedInTurn f w s) (hd : (Race.run f w sched (Race.start s.disk)).Complete) :
    BothBackedUp f s.disk (Race.run f w sched (Race.start s.disk)) ↔
      StoresFirst sched ∧ ∃ v, (s.disk.inodes f.ino).revision = some v ∧ 0 ≤ v ∧
        v + 2 ≤ INT_MAX := by
  match sched with
  | [] =>
    obtain ⟨out,ho⟩ := hd true
    cases ho
  | [b] => exact absurd hd (not_complete b)
  | b :: c :: rest =>
    rcases Bool.eq_or_eq_not c b with rfl | rfl
    · have hfirst : StoresFirst (c :: c :: rest) := ⟨c,rest,rfl⟩
      exact (exists_congr (backed_up_stored hL hf h hd)).trans (and_iff_right hfirst).symm
    · constructor
      · rintro ⟨v,hv⟩
        refine absurd hv (same_misses ?_)
        exact List.foldlRecOn rest _ (same_start hL hv.start b) fun _ h c _ => same_tick h c
      · rintro ⟨⟨a,r,he⟩,_⟩
        obtain ⟨hb,hr⟩ := List.cons_eq_cons.mp he
        have hc := (List.cons_eq_cons.mp hr).1
        rw [← hb] at hc
        simp at hc

end

def pairCalls (b : Bool) : WriteCall := ⟨{},{},0,[if b then 1 else 2]⟩

def revised : Sys := ⟨Disk.single aTxt { revision := some 0 },[]⟩

theorem pairCalls_inTurn : SucceedInTurn aTxt pairCalls revised :=
  ⟨true,⟨1,by decide +kernel⟩,1,by decide +kernel⟩

def turns : List Bool := true :: true :: (List.replicate 6 [false,true]).flatten ++ [false]

theorem both_backed_up_iff_turns :
    BothBackedUp aTxt revised.disk (Race.run aTxt pairCalls turns (Race.start revised.disk)) := by
  refine (both_backed_up_iff (fun _ => grants_default) (Nat.lt_succ_self _) pairCalls_inTurn
    fun b => ?_).mpr ⟨⟨true,_,rfl⟩,0,by decide +kernel,le_refl 0,by decide⟩
  cases b with
  | true => exact ⟨.returned 1,by decide +kernel⟩
  | false => exact ⟨.returned 1,by decide +kernel⟩

theorem same_number_collides : ¬ ∀ (f : File) (w : Bool → WriteCall) (s : Sys)
    (sched : List Bool), (∀ b, (w b).lower.Grants) → f.ino < s.disk.nextIno →
      SucceedInTurn f w s → (Race.run f w sched (Race.start s.disk)).Complete →
        BothBackedUp f s.disk (Race.run f w sched (Race.start s.disk)) := by
  intro h
  obtain ⟨v,hv⟩ := h aTxt pairCalls revised (List.replicate 7 [true,false]).flatten
    (fun _ => grants_default) (Nat.lt_succ_self _) pairCalls_inTurn fun b => by
      cases b with
      | true => exact ⟨.returned 1,by decide +kernel⟩
      | false => exact ⟨.returned (-EEXIST),by decide +kernel⟩
  obtain ⟨k,hk⟩ := hv.succeeded false
  have he : (Race.run aTxt pairCalls (List.replicate 7 [true,false]).flatten
      (Race.start revised.disk)).stage false = .done (.returned (-EEXIST)) := by decide +kernel
  rw [he] at hk
  have hneg : -EEXIST = (k : Int) := Outcome.returned.inj (WriteStage.done.inj hk)
  rw [EEXIST] at hneg
  omega

end BackupFs
