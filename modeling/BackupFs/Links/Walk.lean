import BackupFs.Links.State

namespace BackupFs

namespace Links

def Fresh (h : Pages) : Prop := ∀ p, h.next ≤ p → h.live p = none

def Owed (base : ℕ → Option Bytes) : (ℕ → Option Bytes) → List (Option Ptr) → Prop
  | live,[] => live = base
  | live,some (.page p) :: ds => live p ≠ none ∧ Owed base (Function.update live p none) ds
  | _,_ => False

section
variable {base : ℕ → Option Bytes} {h : Pages} {d : Option Ptr} {ds : List (Option Ptr)}
  {f : Follow} {w : Walk} {ss : List Step} {x : Fault} {n p : ℕ}

theorem fresh_set (hf : Fresh h) (hp : p < h.next) (y : Option Bytes) : Fresh (h.set p y) := by
  intro q hq
  have hqp : q ≠ p := by
    have : h.next ≤ q := hq
    omega
  rw [Pages.set_live,Function.update_of_ne hqp]
  exact hf q hq

theorem fresh_lt (hf : Fresh h) (hp : h.live p ≠ none) : p < h.next := by
  by_contra hn
  exact hp (hf p (not_lt.mp hn))

theorem delayed_owed (hf : Fresh h) (ho : Owed base h.live (d :: ds)) :
    ∃ h', doDelayedCall h d = .ok h' ∧ Fresh h' ∧ h'.next = h.next ∧ Owed base h'.live ds := by
  rcases d with _ | p | e
  · exact ho.elim
  · obtain ⟨hp,ho⟩ := ho
    obtain ⟨y,hy⟩ := Option.ne_none_iff_exists'.mp hp
    refine ⟨h.set p none,?_,fresh_set hf (fresh_lt hf hp) none,rfl,ho⟩
    simp only [doDelayedCall,kfreeLink,hy]
  · exact ho.elim

theorem terminate_owed (hf : Fresh h) (ho : Owed base h.live ds) :
    ∃ h', terminateWalk ds h = .ok h' ∧ h'.live = base := by
  induction ds generalizing h with
  | nil => exact ⟨h,rfl,ho⟩
  | cons d ds ih =>
    obtain ⟨h',hd,hf',-,ho'⟩ := delayed_owed hf ho
    obtain ⟨t,ht,hl⟩ := ih hf' ho'
    exact ⟨t,by rw [terminateWalk,hd]; exact ht,hl⟩

theorem owed_push (hp : h.live p = none) (ho : Owed base h.live ds) (y : Bytes) :
    Owed base (h.set p (some y)).live (some (.page p) :: ds) := by
  refine ⟨?_,?_⟩
  · rw [Pages.set_live,Function.update_self]
    simp
  · rw [Pages.set_live,Function.update_idem,← hp,Function.update_eq_self]
    exact ho

theorem readlink_failed {l : Symlink} (hl : l.readlink = false ∨ l.fails ≠ none) (n : ℕ) :
    ∃ e < 0, bkpfsReadlink l n = (e,[]) := by
  unfold bkpfsReadlink
  by_cases hr : l.readlink = false
  · exact ⟨-EINVAL,by decide,if_pos hr⟩
  · rw [if_neg hr]
    obtain ⟨e,he⟩ := Option.ne_none_iff_exists'.mp (hl.resolve_left hr)
    exact ⟨e.1,e.2,by rw [he]⟩

theorem readlink_text {l : Symlink} (hl : ¬ (l.readlink = false ∨ l.fails ≠ none)) (n : ℕ) :
    bkpfsReadlink l n = (((l.text.take n).length : Int),l.text.take n) := by
  obtain ⟨hr,hn⟩ := not_or.mp hl
  unfold bkpfsReadlink
  rw [if_neg hr,not_not.mp hn]

theorem getLink_asked {l : Symlink} {r : Int × Bytes} (hr : bkpfsReadlink l PAGE_SIZE = r) :
    bkpfsGetLink (some l) true h =
      if r.1 < 0 then .ok (.err r.1,some (.err r.1),h.kmalloc.2.set h.next none)
      else if r.1 ≥ PAGE_SIZE then .error .overflow
      else .ok (.page h.next,some (.page h.next),h.kmalloc.2.set h.next (some r.2)) := by
  unfold bkpfsGetLink
  dsimp only
  rw [if_neg (by decide : ¬ true = false),hr]
  rfl

theorem getLink_badFree {l : Symlink} (hl : l.readlink = false ∨ l.fails ≠ none) :
    ∃ e, bkpfsGetLink (some l) true h =
      .ok (.err e,some (.err e),h.kmalloc.2.set h.next none) := by
  obtain ⟨e,he,hr⟩ := readlink_failed hl PAGE_SIZE
  exact ⟨e,(getLink_asked hr).trans (if_pos he)⟩

theorem getLink_overflow {l : Symlink} (hl : ¬ (l.readlink = false ∨ l.fails ≠ none))
    (ht : l.text.length ≥ PAGE_SIZE) : bkpfsGetLink (some l) true h = .error .overflow := by
  have hlen : (l.text.take PAGE_SIZE).length = PAGE_SIZE := by
    rw [List.length_take,min_eq_left ht]
  refine (getLink_asked (readlink_text hl PAGE_SIZE)).trans ?_
  dsimp only
  rw [hlen,if_neg (not_lt.mpr (Int.natCast_nonneg _)),if_pos (le_refl _)]

theorem getLink_page {l : Symlink} (hl : ¬ (l.readlink = false ∨ l.fails ≠ none))
    (ht : ¬ l.text.length ≥ PAGE_SIZE) : bkpfsGetLink (some l) true h =
      .ok (.page h.next,some (.page h.next),h.kmalloc.2.set h.next (some l.text)) := by
  have htake : l.text.take PAGE_SIZE = l.text := List.take_of_length_le (le_of_not_ge ht)
  refine (getLink_asked (readlink_text hl PAGE_SIZE)).trans ?_
  dsimp only
  rw [htake,if_neg (not_lt.mpr (Int.natCast_nonneg _)),if_neg (by omega)]

def Walk.counted (w : Walk) : Walk := { w with count := w.count + 1 }

theorem follow_full (hc : w.count ≥ MAXSYMLINKS) : w.follow f = .ok (some (-Tree.ELOOP),w) :=
  if_pos hc

theorem follow_asked (hc : ¬ w.count ≥ MAXSYMLINKS) (ha : f.Asked) :
    w.follow f = w.counted.took (bkpfsGetLink (some f.link) true w.pages) := by
  obtain ⟨hs,hr,hk⟩ := ha
  refine (if_neg hc).trans ?_
  rw [hs,hk]
  refine if_neg fun h => ?_
  rw [hr h.1] at h
  cases h.2

theorem follow_unasked (hc : ¬ w.count ≥ MAXSYMLINKS) (ha : ¬ f.Asked) :
    ∃ e < 0, w.follow f = .ok (some e,{ w.counted with stack := none :: w.stack }) := by
  unfold Walk.follow
  rw [if_neg hc]
  dsimp only
  cases hs : f.security with
  | some e => exact ⟨e.1,e.2,rfl⟩
  | none =>
    by_cases hr : f.rcu = true ∧ f.unlazy = false
    · exact ⟨-ECHILD,by decide,if_pos hr⟩
    · have hk : f.kmalloc = false := by
        by_contra hk
        refine ha ⟨hs,fun h => ?_,eq_true_of_ne_false hk⟩
        exact eq_true_of_ne_false fun hu => hr ⟨h,hu⟩
      rw [hk]
      exact ⟨-ENOMEM,by decide,if_neg hr⟩

theorem fault_badFree (hx : f.fault = some .badFree) :
    f.link.readlink = false ∨ f.link.fails ≠ none := by
  unfold Follow.fault at hx
  split_ifs at hx with h1 h2
  · exact h1
  · cases hx

theorem fault_overflow (hx : f.fault = some .overflow) :
    ¬ (f.link.readlink = false ∨ f.link.fails ≠ none) ∧ f.link.text.length ≥ PAGE_SIZE := by
  unfold Follow.fault at hx
  split_ifs at hx with h1 h2
  · cases hx
  · exact ⟨h1,h2⟩

theorem fault_none (hx : f.fault = none) :
    ¬ (f.link.readlink = false ∨ f.link.fails ≠ none) ∧ ¬ f.link.text.length ≥ PAGE_SIZE := by
  unfold Follow.fault at hx
  split_ifs at hx with h1 h2
  exact ⟨h1,h2⟩

theorem follow_good (hc : ¬ w.count ≥ MAXSYMLINKS) (hg : f.Good) (hf : Fresh w.pages)
    (ho : Owed base w.pages.live w.stack) :
    ∃ w', w.follow f = .ok (none,w') ∧ Fresh w'.pages ∧ Owed base w'.pages.live w'.stack ∧
      w'.count = w.count + 1 ∧ w'.names = w.names ++ [f.link.text] := by
  obtain ⟨hl,ht⟩ := fault_none hg.2
  have hset : w.pages.kmalloc.2.set w.pages.next (some f.link.text) =
      ⟨(w.pages.set w.pages.next (some f.link.text)).live,w.pages.next + 1⟩ := by
    simp only [Pages.kmalloc,Pages.set,Function.update_idem]
  have hlive := hf w.pages.next (le_refl _)
  rw [follow_asked hc hg.1,getLink_page hl ht,hset]
  refine ⟨_,rfl,fun q hq => ?_,owed_push hlive ho f.link.text,rfl,?_⟩
  · have hq : w.pages.next + 1 ≤ q := hq
    dsimp only
    rw [Pages.set_live,Function.update_of_ne (by omega)]
    exact hf q (by omega)
  · dsimp only [Walk.counted]
    rw [Pages.set_live,Function.update_self]
    rfl

theorem follow_overflow (hc : ¬ w.count ≥ MAXSYMLINKS) (ha : f.Asked)
    (hx : f.fault = some .overflow) : w.follow f = .error .overflow := by
  obtain ⟨hl,ht⟩ := fault_overflow hx
  rw [follow_asked hc ha,getLink_overflow hl ht]
  rfl

-- kfree_link gets the error pointer when the walk ends
theorem follow_badFree (hc : ¬ w.count ≥ MAXSYMLINKS) (ha : f.Asked)
    (hx : f.fault = some .badFree) : ∃ e w', w.follow f = .ok (some e,w') ∧
      terminateWalk w'.stack w'.pages = .error .badFree := by
  obtain ⟨e,he⟩ := getLink_badFree (h := w.pages) (fault_badFree hx)
  rw [follow_asked hc ha,he]
  exact ⟨e,_,rfl,rfl⟩

theorem meets_nil : ¬ Meets x n [] := by
  rintro ⟨_ | _,f,post,h,-⟩ <;> cases h

theorem meets_putLink : Meets x n (.putLink :: ss) ↔ Meets x n ss := Iff.rfl

theorem meets_zero : ¬ Meets x 0 ss := by
  rintro ⟨_,_,_,_,_,h,_⟩
  exact absurd h (Nat.not_lt_zero _)

theorem meets_good (hg : f.Good) : Meets x (n + 1) (.follow f :: ss) ↔ Meets x n ss := by
  constructor
  · rintro ⟨_ | ⟨g,pre⟩,f',post,h,hpre,hn,ha,hx⟩
    · obtain ⟨rfl,-⟩ := List.cons.inj h
      rw [hg.2] at hx
      cases hx
    · exact ⟨pre,f',post,(List.cons.inj h).2,fun g hg => hpre g (List.mem_cons_of_mem _ hg),
        Nat.lt_of_succ_lt_succ hn,ha,hx⟩
  · rintro ⟨pre,f',post,h,hpre,hn,ha,hx⟩
    exact ⟨f :: pre,f',post,congrArg (f :: ·) h,List.forall_mem_cons.mpr ⟨hg,hpre⟩,
      Nat.succ_lt_succ hn,ha,hx⟩

theorem meets_bad (hg : ¬ f.Good) :
    Meets x (n + 1) (.follow f :: ss) ↔ f.Asked ∧ f.fault = some x := by
  constructor
  · rintro ⟨_ | ⟨g,pre⟩,f',post,h,hpre,hn,ha,hx⟩
    · obtain ⟨rfl,-⟩ := List.cons.inj h
      exact ⟨ha,hx⟩
    · obtain ⟨rfl,-⟩ := List.cons.inj h
      exact absurd (hpre f List.mem_cons_self) hg
  · rintro ⟨ha,hx⟩
    exact ⟨[],f,follows ss,rfl,(fun _ h => by cases h),Nat.succ_pos _,ha,hx⟩

theorem linksRead_zero : linksRead 0 ss = [] := List.take_zero

theorem linksRead_good (hg : f.Good) :
    linksRead (n + 1) (.follow f :: ss) = f :: linksRead n ss := by
  change ((f :: follows ss).takeWhile fun f => decide f.Good).take (n + 1) = _
  rw [List.takeWhile_cons,if_pos (decide_eq_true hg),List.take_succ_cons]
  rfl

theorem linksRead_bad (hg : ¬ f.Good) : linksRead n (.follow f :: ss) = [] := by
  change ((f :: follows ss).takeWhile fun f => decide f.Good).take n = _
  rw [List.takeWhile_cons,if_neg (by rw [decide_eq_true_iff]; exact hg),List.take_nil]

structure Ends (base : ℕ → Option Bytes) (n : ℕ) (ss : List Step) (names : List Bytes)
    (r : Except Fault (Int × List Bytes × Pages)) : Prop where
  faults : ∀ x, r = .error x ↔ Meets x n ss
  freed : ∀ e ns h, r = .ok (e,ns,h) → h.live = base
  read : ∀ e ns h, r = .ok (e,ns,h) →
    ns = names ++ (linksRead n ss).map (fun f => f.link.text) ∧
      (e = 0 ↔ linksRead n ss = follows ss)

theorem ends_stopped {e : Int} (hf : Fresh h) (ho : Owed base h.live ds)
    (hm : ∀ x, ¬ Meets x n ss) (hr : linksRead n ss = []) (he : e = 0 ↔ follows ss = [])
    (names : List Bytes) :
    Ends base n ss names ((terminateWalk ds h).map fun h => (e,names,h)) := by
  obtain ⟨h',ht,hl⟩ := terminate_owed hf ho
  rw [ht]
  refine ⟨fun x => iff_of_false (fun h => by cases h) (hm x),fun _ _ _ h => ?_,fun _ _ _ h => ?_⟩
  · cases h
    exact hl
  · cases h
    rw [hr]
    exact ⟨(List.append_nil _).symm,he.trans eq_comm⟩

theorem ends_fault {names : List Bytes} (hm : ∀ y, Meets y n ss ↔ f.Asked ∧ f.fault = some y)
    (ha : f.Asked) (hx : f.fault = some x) : Ends base n ss names (.error x) := by
  refine ⟨fun y => ?_,fun _ _ _ h => (by cases h),fun _ _ _ h => (by cases h)⟩
  rw [hm y,hx]
  exact ⟨fun h => ⟨ha,by cases h; rfl⟩,fun h => by rw [Option.some.inj h.2]⟩

theorem ends_putLink {names : List Bytes} {r : Except Fault (Int × List Bytes × Pages)}
    (h : Ends base n ss names r) : Ends base n (.putLink :: ss) names r :=
  ⟨fun x => (h.faults x).trans meets_putLink.symm,h.freed,h.read⟩

theorem pathWalk_ends (hf : Fresh w.pages) (ho : Owed base w.pages.live w.stack) :
    Ends base (MAXSYMLINKS - w.count) ss w.names (pathWalk ss w) := by
  induction ss generalizing w with
  | nil => exact ends_stopped hf ho (fun _ => meets_nil) List.take_nil (iff_of_true rfl rfl) w.names
  | cons s ss ih =>
    cases s with
    | putLink =>
      unfold pathWalk
      cases hs : w.stack with
      | nil => exact ends_putLink (ih hf ho)
      | cons d ds =>
        rw [hs] at ho
        obtain ⟨h',hd,hf',-,ho'⟩ := delayed_owed hf ho
        dsimp only
        rw [hd]
        exact ends_putLink (ih (w := { w with stack := ds, pages := h' }) hf' ho')
    | follow f =>
      unfold pathWalk
      by_cases hc : w.count ≥ MAXSYMLINKS
      · rw [follow_full hc,Nat.sub_eq_zero_of_le hc]
        exact ends_stopped hf ho (fun _ => meets_zero) linksRead_zero
          (iff_of_false (by decide) (by simp [follows])) w.names
      have hn : MAXSYMLINKS - w.count = MAXSYMLINKS - (w.count + 1) + 1 := by omega
      rw [hn]
      by_cases hg : f.Good
      · obtain ⟨w',hw,hf',ho',hcount,hnames⟩ := follow_good hc hg hf ho
        rw [hw]
        have hi := ih hf' ho'
        rw [hcount,hnames] at hi
        refine ⟨fun x => (hi.faults x).trans (meets_good hg).symm,hi.freed,fun e ns h hr => ?_⟩
        obtain ⟨hk,he⟩ := hi.read e ns h hr
        rw [linksRead_good hg,he]
        refine ⟨hk.trans ?_,(List.cons_inj_right f).symm⟩
        rw [List.append_assoc]
        rfl
      · by_cases ha : f.Asked
        · cases hx : f.fault with
          | none => exact absurd ⟨ha,hx⟩ hg
          | some x =>
            cases x with
            | overflow =>
              rw [follow_overflow hc ha hx]
              exact ends_fault (fun _ => meets_bad hg) ha hx
            | badFree =>
              obtain ⟨e,w',hw,ht⟩ := follow_badFree hc ha hx
              rw [hw]
              change Ends _ _ _ _ ((terminateWalk w'.stack w'.pages).map _)
              rw [ht]
              exact ends_fault (fun _ => meets_bad hg) ha hx
        · obtain ⟨e,he,hw⟩ := follow_unasked hc ha
          rw [hw]
          exact ends_stopped hf ho (fun x h => ha ((meets_bad hg).mp h).1) (linksRead_bad hg)
            (iff_of_false he.ne (by simp [follows])) w.names

end

def Walk.start (h : Pages) : Walk := ⟨h,[],0,[]⟩

theorem links_followed (ss : List Step) (h : Pages) (hf : Fresh h) :
    Ends h.live MAXSYMLINKS ss [] (pathWalk ss (.start h)) :=
  pathWalk_ends (w := .start h) hf rfl

def bare : Follow := ⟨⟨false,none,[97]⟩,none,false,true,true⟩

theorem links_followed_bare :
    Ends (fun _ => none) MAXSYMLINKS [.follow bare] [] (pathWalk [.follow bare]
      (.start ⟨fun _ => none,0⟩)) ∧ Meets .badFree MAXSYMLINKS [.follow bare] :=
  ⟨links_followed [.follow bare] ⟨fun _ => none,0⟩ fun _ _ => rfl,
    (meets_bad (by decide)).mpr ⟨by decide,by decide⟩⟩

end Links

end BackupFs
