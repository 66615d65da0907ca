import BackupFs.Lower.State

namespace BackupFs

def pwrite (c : Bytes) (pos : ℕ) (b : Bytes) : Bytes :=
  if b = [] then c
  else c.take pos ++ List.replicate (pos - c.length) 0 ++ b ++ c.drop (pos + b.length)

structure Pipe where
  src : Bytes
  srcPos : ℕ
  dst : Bytes
  dstPos : ℕ
  deriving DecidableEq, Repr

def Pipe.rest (p : Pipe) : ℕ := p.src.length - p.srcPos

def spliceLen (r : Int) (rest : ℕ) : ℕ := max 1 (min r.toNat (min 4096 rest))

def doSpliceDirect (r : Int) (p : Pipe) : Int × Pipe :=
  if r < 0 then (r,p)
  else if p.rest = 0 then (0,p)
  else
    let n := spliceLen r p.rest
    (n,{ p with
      srcPos := p.srcPos + n
      dst := pwrite p.dst p.dstPos ((p.src.drop p.srcPos).take n)
      dstPos := p.dstPos + n })

-- while (bytes > 0); `none` is a loop still running when the fuel is gone
def copyLoop (splice : ℕ → Int) : ℕ → ℕ → Pipe → Option (Int × Pipe)
  | 0, _, _ => none
  | fuel + 1, k, p =>
    let (bytes,p') := doSpliceDirect (splice k) p
    if bytes > 0 then copyLoop splice fuel (k+1) p' else some (bytes,p')

def copyBytes (splice : ℕ → Int) (src dst : Bytes) : Int × Bytes :=
  match copyLoop splice (src.length + 1) 0 ⟨src,0,dst,0⟩ with
  | some (bytes,p) => (bytes,p.dst)
  | none => (0,dst)

theorem pwrite_end (c b : Bytes) : pwrite c c.length b = c ++ b := by
  unfold pwrite
  split_ifs with hb
  · simp [hb]
  · simp

theorem spliceLen_pos (r : Int) (rest : ℕ) : 0 < spliceLen r rest := by
  unfold spliceLen
  omega

theorem spliceLen_le {r : Int} {rest : ℕ} (h : 0 < rest) : spliceLen r rest ≤ rest := by
  unfold spliceLen
  omega

structure Copying (c : Bytes) (p : Pipe) : Prop where
  src : p.src = c
  pos : p.srcPos ≤ c.length
  dst : p.dst = c.take p.srcPos
  dstPos : p.dstPos = p.srcPos

theorem copying_start (c : Bytes) : Copying c ⟨c,0,[],0⟩ where
  src := rfl
  pos := Nat.zero_le _
  dst := rfl
  dstPos := rfl

theorem copying_step {c : Bytes} {p : Pipe} (h : Copying c p) (r : Int) :
    Copying c (doSpliceDirect r p).2 := by
  unfold doSpliceDirect
  split_ifs with hr hz
  · exact h
  · exact h
  · have hrest : 0 < p.rest := Nat.pos_of_ne_zero hz
    have hle := spliceLen_le (r := r) hrest
    have hlen : p.rest = c.length - p.srcPos := by rw [Pipe.rest,h.src]
    refine ⟨h.src,by dsimp only; omega,?_,?_⟩
    · have hd : p.dstPos = p.dst.length := by
        rw [h.dstPos,h.dst,List.length_take]
        exact (Nat.min_eq_left h.pos).symm
      dsimp only
      rw [hd,pwrite_end,h.src,h.dst]
      exact (List.take_add ..).symm
    · dsimp only
      rw [h.dstPos]

inductive Drains (splice : ℕ → Int) : ℕ → ℕ → Prop
  | done {k : ℕ} : Drains splice k 0
  | step {k rest : ℕ} (hr : 0 ≤ splice k)
      (h : Drains splice (k+1) (rest - spliceLen (splice k) rest)) : Drains splice k rest

theorem drains_of_nonneg {splice : ℕ → Int} (h : ∀ k, 0 ≤ splice k) (k rest : ℕ) :
    Drains splice k rest := by
  induction rest using Nat.strong_induction_on generalizing k with
  | _ rest ih =>
    rcases Nat.eq_zero_or_pos rest with rfl | hpos
    · exact .done
    · have hp := spliceLen_pos (splice k) rest
      exact .step (h k) (ih _ (by omega) _)

theorem splice_error {r : Int} (h : r < 0) (p : Pipe) : doSpliceDirect r p = (r,p) := if_pos h

theorem splice_end {r : Int} (h : 0 ≤ r) {p : Pipe} (hz : p.rest = 0) :
    doSpliceDirect r p = (0,p) := by
  rw [doSpliceDirect,if_neg (by omega),if_pos hz]

theorem splice_rest {r : Int} (h : 0 ≤ r) {p : Pipe} (hz : p.rest ≠ 0) :
    (doSpliceDirect r p).1 = spliceLen r p.rest ∧
      (doSpliceDirect r p).2.rest = p.rest - spliceLen r p.rest := by
  rw [doSpliceDirect,if_neg (by omega),if_neg hz]
  refine ⟨rfl,?_⟩
  simp only [Pipe.rest]
  omega

theorem copyLoop_drains (splice : ℕ → Int) {c : Bytes} (fuel k : ℕ) (p : Pipe)
    (hc : Copying c p) (hf : p.rest < fuel) :
    ∃ bytes p', copyLoop splice fuel k p = some (bytes,p') ∧ Copying c p' ∧
      (p'.rest = 0 ↔ Drains splice k p.rest) := by
  induction fuel generalizing k p with
  | zero => omega
  | succ fuel ih =>
    simp only [copyLoop]
    rcases lt_or_ge (splice k) 0 with hr | hr
    · rw [splice_error hr,if_neg (by dsimp only; omega)]
      refine ⟨_,_,rfl,hc,fun hz => hz ▸ .done,fun hd => ?_⟩
      generalize hrest : p.rest = rest at hd
      cases hd with
      | done => rfl
      | step hn _ => omega
    · by_cases hz : p.rest = 0
      · rw [splice_end hr hz,if_neg (by simp)]
        exact ⟨_,_,rfl,hc,fun _ => hz ▸ .done,fun _ => hz⟩
      · obtain ⟨hm,hrest⟩ := splice_rest hr hz
        have hp := spliceLen_pos (splice k) p.rest
        rw [if_pos (by omega)]
        obtain ⟨bytes,p',he,hc',hiff⟩ :=
          ih (k+1) (doSpliceDirect (splice k) p).2 (copying_step hc _) (by omega)
        refine ⟨bytes,p',he,hc',hiff.trans ?_⟩
        rw [hrest]
        refine ⟨.step hr,fun hd => ?_⟩
        generalize hq : p.rest = rest at hd hz ⊢
        cases hd with
        | done => exact absurd rfl hz
        | step _ h => exact h

theorem copying_full {c : Bytes} {p : Pipe} (h : Copying c p) : p.dst = c ↔ p.rest = 0 := by
  rw [h.dst,Pipe.rest,h.src,List.take_eq_self_iff]
  omega

theorem copyBytes_full (splice : ℕ → Int) (c : Bytes) :
    (copyBytes splice c []).2 = c ↔ Drains splice 0 c.length := by
  obtain ⟨bytes,p',he,hc,hiff⟩ := copyLoop_drains splice (c.length + 1) 0 ⟨c,0,[],0⟩
    (copying_start c) (by simp [Pipe.rest])
  rw [copyBytes,he]
  exact (copying_full hc).trans hiff

end BackupFs
