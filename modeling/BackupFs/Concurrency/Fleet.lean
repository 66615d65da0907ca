import BackupFs.Concurrency.Race
import BackupFs.Library.Ticket

namespace BackupFs

structure Fleet (ι : Type) where
  stage : ι → WriteStage
  disk : Disk

namespace Fleet

section
variable {ι : Type} [DecidableEq ι]

def start (d : Disk) : Fleet ι := ⟨fun _ => .readRevision,d⟩

def tick (f : File) (w : ι → WriteCall) (r : Fleet ι) (i : ι) : Fleet ι where
  stage := Function.update r.stage i (advance f (w i) (r.stage i) r.disk).1
  disk := (advance f (w i) (r.stage i) r.disk).2

def run (f : File) (w : ι → WriteCall) (sched : List ι) (r : Fleet ι) : Fleet ι :=
  sched.foldl (tick f w) r

def Complete (r : Fleet ι) : Prop := ∀ i, ∃ out, r.stage i = .done out

def Succeeded (r : Fleet ι) : Prop := ∀ i, ∃ k : ℕ, r.stage i = .done (.returned k)

theorem tick_self (f : File) (w : ι → WriteCall) (r : Fleet ι) (i : ι) :
    (r.tick f w i).stage i = (advance f (w i) (r.stage i) r.disk).1 := Function.update_self ..

theorem tick_other (f : File) (w : ι → WriteCall) (r : Fleet ι) {i j : ι} (h : j ≠ i) :
    (r.tick f w i).stage j = r.stage j := Function.update_of_ne h _ _

end

def Takes (v : Int) : Ticket.Stage → WriteStage → Prop
  | .idle,st => st = .readRevision
  | .read a,st => st = .setRevision (v + a)
  | .stored a,st => st.Stored ∧ st.Numbered (v + a)

structure Follows {ι : Type} (f : File) (v : Int) (r : Fleet ι) (t : Ticket.State ι) : Prop where
  base : f.ino < r.disk.nextIno
  revision : (r.disk.inodes f.ino).revision = some (v + t.reg)
  takes : ∀ i, Takes v (t.stage i) (r.stage i)

section
variable {ι : Type} {f : File} {w : WriteCall} {d : Disk} {v : Int} {st : WriteStage}
  {c : Ticket.Stage}

theorem follows_start (hf : f.ino < d.nextIno) (hr : (d.inodes f.ino).revision = some v) :
    Follows f v (Fleet.start d) (Ticket.start : Ticket.State ι) where
  base := hf
  revision := by rw [show v + (Ticket.start : Ticket.State ι).reg = v from add_zero v]; exact hr
  takes _ := rfl

theorem complete_stored {r : Fleet ι} {t : Ticket.State ι} (h : Follows f v r t)
    (hd : r.Complete) (i : ι) : ∃ a, t.stage i = .stored a := by
  obtain ⟨out,ho⟩ := hd i
  have hi := h.takes i
  rw [ho] at hi
  cases hc : t.stage i with
  | idle | read a =>
    rw [hc] at hi
    cases hi
  | stored a => exact ⟨a,rfl⟩

theorem takes_reading (h : Takes v c .readRevision) : c = .idle := by
  cases c with
  | idle => rfl
  | read a => cases h
  | stored a => exact h.1.elim

theorem takes_numbered (h : Takes v c st) :
    ∃ n, st.Numbered n ∧ ∀ a, c.ticket = some a → n = v + a := by
  cases c with
  | idle =>
    refine ⟨0,?_,by simp [Ticket.Stage.ticket]⟩
    rw [show st = .readRevision from h]
    trivial
  | read a =>
    refine ⟨v + a,?_,by simp [Ticket.Stage.ticket]⟩
    rw [show st = .setRevision (v + a) from h]
    rfl
  | stored a => exact ⟨v + a,h.2,by simp [Ticket.Stage.ticket]⟩

end

section
variable {ι : Type} [DecidableEq ι] {f : File} {w : ι → WriteCall} {v : Int} {r : Fleet ι}
  {t : Ticket.State ι} {i : ι} {d : Disk}

theorem follows_takes (hL : (w i).lower.Grants) (h : Follows f v r t)
    (hn : t.stage i = .idle → nextVersion (v + t.reg) = v + (t.reg + 1 : ℕ)) :
    Takes v ((Ticket.tick t i).stage i) ((r.tick f w i).stage i) ∧
      (r.stage i).stored (some (v + t.reg)) = some (v + (Ticket.tick t i).reg) := by
  have hi := h.takes i
  rw [tick_self]
  cases hc : t.stage i with
  | idle =>
    rw [hc] at hi
    rw [Ticket.stage_idle hc,Ticket.reg_idle hc,show r.stage i = .readRevision from hi]
    refine ⟨?_,rfl⟩
    change WriteStage.setRevision (nextVersion (counter _ _ f r.disk)) = _
    rw [counter_revision hL h.revision,hn hc]
  | read a =>
    rw [hc] at hi
    rw [Ticket.stage_read hc,Ticket.reg_read hc,show r.stage i = .setRevision (v + a) from hi]
    exact ⟨⟨trivial,rfl⟩,rfl⟩
  | stored a =>
    rw [hc] at hi
    obtain ⟨hs,hread,hkeep⟩ := advance_stored (f := f) (w := w i) (d := r.disk) hi.1
    rw [Ticket.tick_stored hc,hc]
    exact ⟨⟨hs,advance_numbered hi.2 hread⟩,hkeep _⟩

theorem follows_tick (hL : (w i).lower.Grants) (h : Follows f v r t)
    (hn : t.stage i = .idle → nextVersion (v + t.reg) = v + (t.reg + 1 : ℕ)) :
    Follows f v (r.tick f w i) (Ticket.tick t i) := by
  obtain ⟨hself,hreg⟩ := follows_takes hL h hn
  obtain ⟨n,hnum,_⟩ := takes_numbered (h.takes i)
  refine ⟨h.base.trans_le (advanced_nextIno (advance_cases hnum)),?_,fun j => ?_⟩
  · rw [← hreg,← h.revision]
    exact advance_revision hL h.base
  · rcases eq_or_ne j i with rfl | hj
    · exact hself
    · rw [Ticket.tick_other hj,tick_other f w r hj]
      exact h.takes j

end

def trioCalls (i : Fin 3) : WriteCall := ⟨{},{},i.val,[1]⟩

def inTurn : List (Fin 3) := [0,0,1,1,2,2] ++ (List.replicate 5 [0,1,2]).flatten

theorem inTurn_done (i : Fin 3) :
    (run aTxt trioCalls inTurn (start revised.disk)).stage i = .done (.returned 1) := by
  revert i
  decide +kernel

section
variable {ι : Type} [DecidableEq ι] [Fintype ι] {f : File} {w : ι → WriteCall} {v : Int}
  {d : Disk} {sched : List ι} {t : Ticket.State ι} {i : ι}

theorem nextVersion_idle (h0 : 0 ≤ v) (hm : v + Fintype.card ι ≤ INT_MAX)
    (ht : Ticket.Filled t) (hi : t.stage i = .idle) :
    nextVersion (v + t.reg) = v + (t.reg + 1 : ℕ) := by
  have hlt := Ticket.reg_lt_idle ht hi
  rw [nextVersion_eq (by omega),if_neg (by omega)]
  push_cast
  omega

theorem follows_run (sched : List ι) (hL : ∀ i, (w i).lower.Grants) (hf : f.ino < d.nextIno)
    (hr : (d.inodes f.ino).revision = some v) (h0 : 0 ≤ v) (hm : v + Fintype.card ι ≤ INT_MAX) :
    Follows f v (Fleet.run f w sched (Fleet.start d)) (Ticket.run sched Ticket.start) :=
  Ticket.simulate (R := Follows f v) (follows_start hf hr) Ticket.filled_start fun _ _ i ht h =>
    follows_tick (hL i) h fun hi => nextVersion_idle h0 hm ht hi

theorem revisions_counted_iff (hL : ∀ i, (w i).lower.Grants) (hf : f.ino < d.nextIno)
    (hr : (d.inodes f.ino).revision = some v) (h0 : 0 ≤ v) (hm : v + Fintype.card ι ≤ INT_MAX)
    (hd : (Fleet.run f w sched (Fleet.start d)).Complete) :
    ∃ k : ℕ, ((Fleet.run f w sched (Fleet.start d)).disk.inodes f.ino).revision = some (v + k) ∧
      (Ticket.Atomic [] sched → k = Fintype.card ι) ∧
      (¬ Ticket.Atomic [] sched → k < Fintype.card ι) := by
  have h := follows_run sched hL hf hr h0 hm
  have hfill : Ticket.Filled (Ticket.run sched (Ticket.start : Ticket.State ι)) :=
    Ticket.filled_run Ticket.filled_start
  refine ⟨_,h.revision,fun ha => ?_,fun hn => ?_⟩
  · have hle := Ticket.serial_card (Ticket.atomic_iff.mp ha) hfill (complete_stored h hd)
    exact le_antisymm (Ticket.reg_le hfill) hle
  · exact Ticket.reg_lt_clash hfill (Ticket.clash_iff.mpr hn)

theorem revisions_counted_iff_trio :
    ∃ k : ℕ, ((run aTxt trioCalls inTurn (start revised.disk)).disk.inodes aTxt.ino).revision =
      some (0 + k) ∧ (Ticket.Atomic [] inTurn → k = Fintype.card (Fin 3)) ∧
      (¬ Ticket.Atomic [] inTurn → k < Fintype.card (Fin 3)) :=
  revisions_counted_iff (v := 0) (fun _ => grants_default) (Nat.lt_succ_self _)
    (by decide +kernel) (le_refl 0) (by decide) fun i => ⟨_,inTurn_done i⟩

end

def Past : WriteStage → Prop
  | .copy _ | .write => True
  | .done out => ∃ k : ℕ, out = .returned k
  | _ => False

section
variable {f : File} {w : WriteCall} {d d' : Disk} {n m : Int} {st : WriteStage}

theorem past_negative {e : Int} (h : e < 0) : ¬ Past (.done (.returned e)) := by
  rintro ⟨k,hk⟩
  have : e = k := Outcome.returned.inj hk
  omega

theorem past_advance (hL : w.lower.Grants) (h : Past (advance f w st d).1) :
    Past st ∨ ∃ val, st = .create val ∧ d.dir (backupName val f.name) = none ∧
      (advance f w st d).2.dir (backupName val f.name) ≠ none := by
  cases st with
  | readRevision | setRevision val | setYoungest val => exact h.elim
  | retention val =>
    rw [advance] at h
    have hle := discard_nonpos w.lower (backupName (val - N) f.name) d
    dsimp only at h
    split_ifs at h with hv he
    · exact absurd h (past_negative (by omega))
    · exact h.elim
    · exact h.elim
  | create val =>
    right
    refine ⟨val,rfl,?_⟩
    cases hx : d.dir (backupName val f.name) with
    | none =>
      refine ⟨rfl,?_⟩
      rw [advance,hL.lookup,create_free hL hx,if_neg (by simp [hL.dAlloc])]
      dsimp only
      rw [if_neg (by simp),begun,Disk.created_dir,Function.update_self]
      simp
    | some j =>
      refine absurd h ?_
      have hs : slash ∉ backupName val f.name := fun hx =>
        f.name.property.2.1 (slash_mem_backupName.mp hx)
      have hi : ((lookedUp (backupName val f.name) d).lowerIno
          (backupName val f.name)).isSome = true := by
        rw [lookedUp_lowerIno,Disk.lowerIno_of_slash d hs,hx]
        rfl
      rw [advance,hL.lookup,vfsCreate_exists hi,if_neg (by simp [hL.dAlloc])]
      dsimp only
      rw [if_pos (by decide)]
      exact past_negative (by decide)
  | copy | write => exact .inl trivial
  | done => exact .inl h

theorem advanced_present (h : Advanced f w n d d') (hm : m ≠ n - N)
    (hd : d.dir (backupName m f.name) ≠ none) : d'.dir (backupName m f.name) ≠ none := by
  rcases eq_or_ne m n with rfl | hne
  · cases h with
    | same => exact hd
    | setxattr a =>
      obtain ⟨k,hk,_⟩ := vfsSetxattr_setInode w.lower f.ino a m d
      rw [hk]
      exact hd
    | discard => rwa [(discard_other fun he => hm (backupName_inj.mp he).1).1]
    | lookup => rwa [lookedUp_dir]
    | create hn => exact absurd hn hd
    | copy =>
      rwa [(copied_fields (L := w.lower) (J := w.junk) (f := f) (i := f.ino)
        (x := backupName m f.name) (d := d)).1]
    | write => rwa [(vfsWrite_dir w.lower f.ino w.pos w.buf d).1]
  · rwa [(advanced_apart h hne hm).1]

end

theorem numbers_apart {v : Int} {a b k : ℕ} (hk : k ≤ N) (ha : 0 < a) (ha' : a ≤ k)
    (hb : 0 < b) (hb' : b ≤ k) (hne : b ≠ a) :
    v + b ≠ v + a ∧ v + b ≠ v + a - N ∧ v + b - N ≠ v + a ∧ v + b - N ≠ v + a - N := by
  have hN : N = 10 := rfl
  rw [hN] at hk ⊢
  omega

structure Fares {ι : Type} [Fintype ι] (f : File) (v : Int) (r : Fleet ι) (t : Ticket.State ι) :
    Prop where
  follows : Follows f v r t
  progress : ∀ i a, (t.stage i).ticket = some a → Progress f (v + a) r.disk (r.stage i)
  ready : ∀ b : ℕ, 0 < b → b ≤ Fintype.card ι → (∀ i, (t.stage i).ticket ≠ some b) →
    Ready f (v + b) r.disk

structure Once {ι : Type} (f : File) (v : Int) (r : Fleet ι) (t : Ticket.State ι) : Prop where
  follows : Follows f v r t
  made : ∀ i a, (t.stage i).ticket = some a → Past (r.stage i) →
    r.disk.dir (backupName (v + a) f.name) ≠ none
  once : ∀ i j a, (t.stage i).ticket = some a → (t.stage j).ticket = some a →
    Past (r.stage i) → Past (r.stage j) → i = j

section
variable {ι : Type} {f : File} {v : Int} {r : Fleet ι} {t : Ticket.State ι}

theorem succeeded_atomic (h : Once f v r t) (hs : r.Succeeded) : ¬ Ticket.Clash t := by
  rintro ⟨i,j,a,hne,hi,hj⟩
  obtain ⟨k,hk⟩ := hs i
  obtain ⟨l,hl⟩ := hs j
  exact hne (h.once i j a hi hj (by rw [hk]; exact ⟨k,rfl⟩) (by rw [hl]; exact ⟨l,rfl⟩))

theorem fares_complete [Fintype ι] (h : Fares f v r t) (hd : r.Complete) :
    r.Succeeded ∧ ∀ b i, (t.stage i).ticket = some b →
      r.disk.dir (backupName (v + b) f.name) ≠ none := by
  have hdone (i : ι) : ∃ a, (t.stage i).ticket = some a ∧
      Progress f (v + a) r.disk (r.stage i) := by
    obtain ⟨a,ha⟩ := complete_stored h.follows hd i
    have ht : (t.stage i).ticket = some a := by rw [ha]; rfl
    exact ⟨a,ht,h.progress i a ht⟩
  constructor
  · intro i
    obtain ⟨out,ho⟩ := hd i
    obtain ⟨a,_,hp⟩ := hdone i
    rw [ho] at hp
    obtain ⟨_,k,rfl⟩ := hp
    exact ⟨k,ho⟩
  · intro b i hb
    obtain ⟨out,ho⟩ := hd i
    have hp := h.progress i b hb
    rw [ho] at hp
    exact hp.1

end

section
variable {ι : Type} [DecidableEq ι] {f : File} {w : ι → WriteCall} {v : Int} {d : Disk}
  {r : Fleet ι} {sched : List ι} {t : Ticket.State ι} {i : ι} {a : ℕ}

theorem advanced_ticket (h : Follows f v r t)
    (ha : ((Ticket.tick t i).stage i).ticket = some a) :
    (r.stage i).Numbered (v + a) ∧ Advanced f (w i) (v + a) r.disk (r.tick f w i).disk := by
  have hnum : (r.stage i).Numbered (v + a) := by
    obtain ⟨n,hn,heq⟩ := takes_numbered (h.takes i)
    rcases Ticket.ticket_tick ha with hs | ⟨_,hs,_⟩
    · rwa [← heq a hs]
    · have hi := h.takes i
      rw [hs] at hi
      rw [show r.stage i = .readRevision from hi]
      trivial
  exact ⟨hnum,advance_cases hnum⟩

theorem past_tick {j : ι} (hL : (w i).lower.Grants) (h : Past ((r.tick f w i).stage j)) :
    Past (r.stage j) ∨ j = i ∧ ∃ val, r.stage i = .create val ∧
      r.disk.dir (backupName val f.name) = none ∧
        (r.tick f w i).disk.dir (backupName val f.name) ≠ none := by
  rcases eq_or_ne j i with rfl | hj
  · rw [tick_self] at h
    exact (past_advance hL h).imp_right fun hx => ⟨rfl,hx⟩
  · rw [tick_other f w r hj] at h
    exact .inl h

theorem ticket_stood {j : ι} {b : ℕ} (h : Follows f v r t) (hp : Past (r.stage j))
    (hb : ((Ticket.tick t i).stage j).ticket = some b) : (t.stage j).ticket = some b := by
  refine (Ticket.ticket_tick hb).resolve_right ?_
  rintro ⟨rfl,hi,_⟩
  have hst := h.takes j
  rw [hi] at hst
  rw [show r.stage j = .readRevision from hst] at hp
  exact hp

variable [Fintype ι]

theorem fares_self (hL : (w i).lower.Grants) (h0 : 0 ≤ v) (hm : v + Fintype.card ι ≤ INT_MAX)
    (ht : Ticket.Filled t) (hs : Ticket.Serial (Ticket.tick t i)) (h : Fares f v r t)
    (ha : ((Ticket.tick t i).stage i).ticket = some a) :
    Progress f (v + a) (r.tick f w i).disk ((r.tick f w i).stage i) := by
  have hidle (hi : t.stage i = .idle) : a = t.reg + 1 := by
    rw [Ticket.stage_idle hi] at ha
    exact (Option.some.inj ha).symm
  rw [tick_self]
  refine progress_advance hL ?_ fun hst => ?_
  · rcases Ticket.ticket_tick ha with hold | ⟨_,hi,_⟩
    · exact h.progress i a hold
    · have hst := h.follows.takes i
      rw [hi] at hst
      rw [show r.stage i = .readRevision from hst]
      have ht' := Ticket.filled_tick ht i
      refine h.ready a (ht'.positive i a ha) (Ticket.ticket_le ht' ha) fun j hj => ?_
      obtain rfl := hs.apart j i a (Ticket.ticket_kept hj) ha
      rw [hi] at hj
      cases hj
  · have hi := h.follows.takes i
    rw [hst] at hi
    have hread := takes_reading hi
    rw [counter_revision hL h.follows.revision,nextVersion_idle h0 hm ht hread,hidle hread]

theorem fares_tick (hL : ∀ i, (w i).lower.Grants) (h0 : 0 ≤ v)
    (hm : v + Fintype.card ι ≤ INT_MAX) (hk : Fintype.card ι ≤ N) (ht : Ticket.Filled t)
    (hs : Ticket.Serial (Ticket.tick t i)) (h : Fares f v r t) :
    Fares f v (r.tick f w i) (Ticket.tick t i) := by
  have hnext := follows_tick (hL i) h.follows fun hi => nextVersion_idle h0 hm ht hi
  have ht' := Ticket.filled_tick ht i
  obtain ⟨a,ha⟩ := Ticket.ticket_self t i
  have hpos := ht'.positive i a ha
  have hle := Ticket.ticket_le ht' ha
  obtain ⟨_,hadv⟩ := advanced_ticket (w := w) h.follows ha
  have hsame (b : ℕ) (hb : 0 < b) (hb' : b ≤ Fintype.card ι) (hne : b ≠ a) :
      (r.tick f w i).disk.dir (backupName (v + b) f.name) =
        r.disk.dir (backupName (v + b) f.name) ∧
      (r.tick f w i).disk.dir (backupName (v + b - N) f.name) =
        r.disk.dir (backupName (v + b - N) f.name) ∧
      (r.tick f w i).disk.cached (backupName (v + b - N) f.name) =
        r.disk.cached (backupName (v + b - N) f.name) := by
    obtain ⟨h1,h2,h3,h4⟩ := numbers_apart (v := v) hk hpos hle hb hb' hne
    exact ⟨(advanced_apart hadv h1 h2).1,advanced_apart hadv h3 h4⟩
  refine ⟨hnext,fun j b hb => ?_,fun b hb hb' hfree => ?_⟩
  · rcases eq_or_ne j i with rfl | hj
    · obtain rfl : b = a := Option.some.inj (hb.symm.trans ha)
      exact fares_self (hL j) h0 hm ht hs h ha
    · have hne : b ≠ a := fun he => hj (hs.apart j i a (he ▸ hb) ha)
      have hold : (t.stage j).ticket = some b := by rwa [Ticket.tick_other hj] at hb
      obtain ⟨h1,h2⟩ := hsame b (ht'.positive j b hb) (Ticket.ticket_le ht' hb) hne
      rw [tick_other f w r hj]
      exact progress_congr h1 h2 (h.progress j b hold)
  · have hne : b ≠ a := fun he => hfree i (he ▸ ha)
    obtain ⟨h1,h2⟩ := hsame b hb hb' hne
    exact (h.ready b hb hb' fun j hj => hfree j (Ticket.ticket_kept hj)).congr h1 h2

theorem once_tick (hL : ∀ i, (w i).lower.Grants) (h0 : 0 ≤ v)
    (hm : v + Fintype.card ι ≤ INT_MAX) (hk : Fintype.card ι ≤ N) (ht : Ticket.Filled t)
    (h : Once f v r t) : Once f v (r.tick f w i) (Ticket.tick t i) := by
  have hnext := follows_tick (hL i) h.follows fun hi => nextVersion_idle h0 hm ht hi
  have ht' := Ticket.filled_tick ht i
  obtain ⟨a,ha⟩ := Ticket.ticket_self t i
  have hpos := ht'.positive i a ha
  have hle := Ticket.ticket_le ht' ha
  obtain ⟨hnum,hadv⟩ := advanced_ticket (w := w) h.follows ha
  have hnew (val : Int) (hst : r.stage i = .create val) : val = v + a := by
    rwa [hst] at hnum
  refine ⟨hnext,fun j b hb hp => ?_,fun j k b hj hk => ?_⟩
  · rcases past_tick (hL i) hp with hp | ⟨rfl,val,hst,_,hmade⟩
    · refine advanced_present hadv ?_ (h.made j b (ticket_stood h.follows hp hb) hp)
      have hb0 := ht'.positive j b hb
      have hN : N = 10 := rfl
      rw [hN] at hk ⊢
      omega
    · obtain rfl : b = a := Option.some.inj (hb.symm.trans ha)
      rwa [← hnew val hst]
  · intro hpj hpk
    rcases past_tick (hL i) hpj with hold | ⟨rfl,val,hst,hfree,_⟩
    · have hj' := ticket_stood h.follows hold hj
      rcases past_tick (hL i) hpk with hpk | ⟨rfl,val,hst,hfree,_⟩
      · exact h.once j k b hj' (ticket_stood h.follows hpk hk) hold hpk
      · obtain rfl : b = a := Option.some.inj (hk.symm.trans ha)
        rw [hnew val hst] at hfree
        exact absurd hfree (h.made j b hj' hold)
    · obtain rfl : b = a := Option.some.inj (hj.symm.trans ha)
      rw [hnew val hst] at hfree
      rcases past_tick (hL j) hpk with hpk | ⟨rfl,_⟩
      · exact absurd hfree (h.made k b (ticket_stood h.follows hpk hk) hpk)
      · rfl

theorem fares_run (hL : ∀ i, (w i).lower.Grants) (hf : f.ino < d.nextIno)
    (hr : (d.inodes f.ino).revision = some v) (h0 : 0 ≤ v) (hm : v + Fintype.card ι ≤ INT_MAX)
    (hk : Fintype.card ι ≤ N) (hready : ∀ u, v < u → u ≤ v + Fintype.card ι → Ready f u d)
    (ha : Ticket.Atomic [] sched) :
    Fares f v (run f w sched (start d)) (Ticket.run sched Ticket.start) := by
  refine Ticket.simulate_atomic (R := Fares f v) ?_ Ticket.filled_start Ticket.follows_start
    Ticket.serial_start ha fun _ _ i ht _ hs h => fares_tick hL h0 hm hk ht hs h
  refine ⟨follows_start hf hr,fun i a hi => ?_,fun b hb hb' _ => hready _ (by omega) (by omega)⟩
  cases hi

theorem once_run (sched : List ι) (hL : ∀ i, (w i).lower.Grants) (hf : f.ino < d.nextIno)
    (hr : (d.inodes f.ino).revision = some v) (h0 : 0 ≤ v) (hm : v + Fintype.card ι ≤ INT_MAX)
    (hk : Fintype.card ι ≤ N) :
    Once f v (run f w sched (start d)) (Ticket.run sched Ticket.start) := by
  refine Ticket.simulate (R := Once f v) ?_ Ticket.filled_start fun _ _ i ht h =>
    once_tick hL h0 hm hk ht h
  exact ⟨follows_start hf hr,fun i a hi => (by cases hi),fun i j a hi => (by cases hi)⟩

theorem fleet_succeeds_iff (hL : ∀ i, (w i).lower.Grants) (hf : f.ino < d.nextIno)
    (hr : (d.inodes f.ino).revision = some v) (h0 : 0 ≤ v) (hm : v + Fintype.card ι ≤ INT_MAX)
    (hk : Fintype.card ι ≤ N) (hready : ∀ u, v < u → u ≤ v + Fintype.card ι → Ready f u d)
    (hd : (run f w sched (start d)).Complete) :
    ((run f w sched (start d)).Succeeded ↔ Ticket.Atomic [] sched) ∧
      ((run f w sched (start d)).Succeeded → ∀ u, v < u → u ≤ v + Fintype.card ι →
        (run f w sched (start d)).disk.dir (backupName u f.name) ≠ none) := by
  have hatomic (hs : (run f w sched (start d)).Succeeded) : Ticket.Atomic [] sched :=
    not_not.mp fun hc => succeeded_atomic (once_run sched hL hf hr h0 hm hk) hs
      (Ticket.clash_iff.mpr hc)
  refine ⟨⟨hatomic,fun ha =>
    (fares_complete (fares_run hL hf hr h0 hm hk hready ha) hd).1⟩,fun hs u hu hu' => ?_⟩
  have ha := hatomic hs
  have hfares := fares_run hL hf hr h0 hm hk hready ha
  have hfill : Ticket.Filled (Ticket.run sched (Ticket.start : Ticket.State ι)) :=
    Ticket.filled_run Ticket.filled_start
  have hle := Ticket.serial_card (Ticket.atomic_iff.mp ha) hfill
    (complete_stored hfares.follows hd)
  obtain ⟨b,rfl⟩ : ∃ b : ℕ, u = v + b := ⟨(u - v).toNat,by omega⟩
  obtain ⟨i,hi⟩ := hfill.below b (by omega) (.inl (by omega))
  exact (fares_complete hfares hd).2 b i hi

end

theorem fleet_succeeds_iff_trio :
    (run aTxt trioCalls inTurn (start revised.disk)).Succeeded :=
  (fleet_succeeds_iff (v := 0) (fun _ => grants_default) (Nat.lt_succ_self _) (by decide +kernel)
    (le_refl 0) (by decide) (by decide)
    (fun u h h' => by
      have hu : u ≤ 3 := h'
      refine ⟨?_,fun hv => absurd hv (by rw [N]; omega)⟩
      interval_cases u <;> decide +kernel)
    fun i => ⟨_,inTurn_done i⟩).1.mpr (by decide)

end Fleet

end BackupFs
