import BackupFs.Chain.History
import Mathlib.Data.Set.Card
import Mathlib.Order.Interval.Finset.Nat
import Mathlib.Data.Int.Interval

namespace BackupFs

open Transition

inductive Call where
  | write (L : Lower) (J : Junk) (pos : ℕ) (buf : Bytes)
  | delete (L : Lower) (J : Junk) (q : Request)

structure Logged where
  sys : Sys
  log : List (Int × Bytes)

inductive CallStep (f : File) : Logged → Call → Logged → Prop
  | write {s : Logged} {L : Lower} {J : Junk} {pos : ℕ} {buf : Bytes} (hL : L.Grants)
      (hc : counter L J f s.sys.disk < INT_MAX) :
      CallStep f s (.write L J pos buf)
        ⟨(bkpfsWrite L J f pos buf s.sys).2,
          s.log ++ [(nextVersion (counter L J f s.sys.disk),(s.sys.disk.inodes f.ino).content)]⟩
  | delete {s : Logged} {L : Lower} {J : Junk} {q : Request} (hL : L.Grants)
      (hq : q.file = f.name) :
      CallStep f s (.delete L J q) ⟨(bkpfsUnlockedIoctl L J f 1000 q s.sys).2.1,s.log⟩

def Windowed (c : Chain) : Prop :=
  ∀ v, (c.backups v).isSome = true → ∃ r, c.revision = some r ∧ c.youngest = some r ∧
    r - N < v ∧ v ≤ r ∧ 1 ≤ v ∧ r ≤ INT_MAX

structure Dated (c : Chain) (log : List (Int × Bytes)) (birth : Int → ℕ) : Prop where
  entry : ∀ v content, c.backups v = some content → log[birth v]? = some (v,content)
  last : ∀ v, (c.backups v).isSome = true → ∀ j, birth v < j → ∀ e, log[j]? = some e → e.1 ≠ v
  order : ∀ v w, (c.backups v).isSome = true → (c.backups w).isSome = true → v < w →
    birth v < birth w

section
variable {c c' : Chain} {log : List (Int × Bytes)} {birth : Int → ℕ}

theorem windowed_next (h : Windowed c) {junk : Int} (hc : c.counter junk < INT_MAX) {v : Int}
    (hv : (c.backups v).isSome = true) : v < c.next junk ∧ c.next junk - N ≤ v := by
  obtain ⟨r,hr,_,h1,h2,h3,_⟩ := h v hv
  have hcr : c.counter junk = r := by rw [Chain.counter,hr,Option.getD_some]
  have hn : c.next junk = r + 1 := by
    rw [Chain.next,hcr,nextVersion_eq (hcr ▸ hc),if_neg (by omega)]
  omega

theorem windowed_free (h : Windowed c) {junk : Int} (hc : c.counter junk < INT_MAX) :
    c.backups (c.next junk) = none := by
  rw [← Option.not_isSome_iff_eq_none]
  intro hv
  have hlt := (windowed_next h hc hv).1
  omega

theorem write_backups {val v : Int} {current content : Bytes}
    (h : (c.write val current).backups v = some content) :
    v = val ∧ content = c.current ∨ v ≠ val ∧ (val > N → v ≠ val - N) ∧
      c.backups v = some content := by
  rw [Chain.write] at h
  dsimp only at h
  rcases eq_or_ne v val with rfl | hv
  · rw [Function.update_self] at h
    exact .inl ⟨rfl,(Option.some.inj h).symm⟩
  · rw [Function.update_of_ne hv] at h
    refine .inr ⟨hv,?_⟩
    split_ifs at h with hN
    · rcases eq_or_ne v (val - N) with rfl | hv'
      · simp at h
      · rw [Function.update_of_ne hv'] at h
        exact ⟨fun _ => hv',h⟩
    · exact ⟨fun hN' => absurd hN' hN,h⟩

theorem windowed_write (h : Windowed c) {junk : Int} (hc : c.counter junk < INT_MAX)
    (current : Bytes) : Windowed (c.write (c.next junk) current) := by
  intro v hv
  obtain ⟨content,hv⟩ := Option.isSome_iff_exists.mp hv
  obtain ⟨h1,h2⟩ := one_le_nextVersion hc
  change 1 ≤ c.next junk at h1
  change c.next junk ≤ INT_MAX at h2
  refine ⟨c.next junk,rfl,rfl,?_⟩
  rcases write_backups hv with ⟨rfl,_⟩ | ⟨_,hp,hv⟩
  · refine ⟨?_,le_refl _,h1,h2⟩
    rw [N]
    omega
  · have hs : (c.backups v).isSome = true := by rw [hv]; rfl
    obtain ⟨hlt,hle⟩ := windowed_next h hc hs
    obtain ⟨r,_,_,_,_,h1v,_⟩ := h v hs
    refine ⟨lt_of_le_of_ne hle ?_,hlt.le,h1v,h2⟩
    rintro rfl
    exact hp (by omega) rfl

theorem dated_write (hw : Windowed c) (h : Dated c log birth) {junk : Int}
    (hc : c.counter junk < INT_MAX) (current : Bytes) :
    Dated (c.write (c.next junk) current) (log ++ [(c.next junk,c.current)])
      (Function.update birth (c.next junk) log.length) := by
  have hlt : ∀ v, (c.backups v).isSome = true → birth v < log.length := by
    intro v hv
    obtain ⟨content,hv⟩ := Option.isSome_iff_exists.mp hv
    exact (List.getElem?_eq_some_iff.mp (h.entry v content hv)).1
  refine ⟨?_,?_,?_⟩
  · intro v content hv
    rcases write_backups hv with ⟨rfl,rfl⟩ | ⟨hne,_,hv⟩
    · rw [Function.update_self,List.getElem?_append_right (le_refl _)]
      simp
    · rw [Function.update_of_ne hne,List.getElem?_append_left (hlt v (by rw [hv]; rfl))]
      exact h.entry v content hv
  · intro v hv j hj e he
    obtain ⟨content,hv⟩ := Option.isSome_iff_exists.mp hv
    rcases write_backups hv with ⟨rfl,_⟩ | ⟨hne,_,hv⟩
    · rw [Function.update_self] at hj
      rw [List.getElem?_eq_none (by simpa using hj)] at he
      cases he
    · rw [Function.update_of_ne hne] at hj
      rcases lt_or_ge j log.length with hjl | hjl
      · rw [List.getElem?_append_left hjl] at he
        exact h.last v (by rw [hv]; rfl) j hj e he
      · rw [List.getElem?_append_right hjl,List.getElem?_singleton] at he
        split_ifs at he
        cases he
        exact hne.symm
  · intro v w hv hw' hvw
    obtain ⟨cv,hv⟩ := Option.isSome_iff_exists.mp hv
    obtain ⟨cw,hw'⟩ := Option.isSome_iff_exists.mp hw'
    rcases write_backups hv with ⟨rfl,_⟩ | ⟨hnv,_,hv⟩
    · rcases write_backups hw' with ⟨rfl,_⟩ | ⟨_,_,hw'⟩
      · exact absurd hvw (lt_irrefl _)
      · have := (windowed_next hw hc (v := w) (by rw [hw']; rfl)).1
        omega
    · rw [Function.update_of_ne hnv]
      rcases write_backups hw' with ⟨rfl,_⟩ | ⟨hnw,_,hw'⟩
      · rw [Function.update_self]
        exact hlt v (by rw [hv]; rfl)
      · rw [Function.update_of_ne hnw]
        exact h.order v w (by rw [hv]; rfl) (by rw [hw']; rfl) hvw

theorem dated_sub (h : Dated c log birth)
    (hs : ∀ v content, c'.backups v = some content → c.backups v = some content) :
    Dated c' log birth := by
  have hsome : ∀ v, (c'.backups v).isSome = true → (c.backups v).isSome = true := by
    intro v hv
    obtain ⟨content,hv⟩ := Option.isSome_iff_exists.mp hv
    rw [hs v content hv]
    rfl
  exact ⟨fun v content hv => h.entry v content (hs v content hv),
    fun v hv => h.last v (hsome v hv),
    fun v w hv hw => h.order v w (hsome v hv) (hsome w hw)⟩

theorem deleteOne_backups {v w junk : Int} {content : Bytes}
    (h : (c.deleteOne v junk).backups w = some content) : c.backups w = some content ∧ w ≠ v := by
  have hu : Function.update c.backups v none w = some content →
      c.backups w = some content ∧ w ≠ v := by
    intro hw
    rcases eq_or_ne w v with rfl | hne
    · simp at hw
    · rw [Function.update_of_ne hne] at hw
      exact ⟨hw,hne⟩
  rw [Chain.deleteOne] at h
  split_ifs at h with hv
  · exact hu h
  · exact hu h
  · refine ⟨h,?_⟩
    rintro rfl
    rw [h] at hv
    exact hv rfl

theorem windowed_deleteOne (h : Windowed c) (v junk : Int) : Windowed (c.deleteOne v junk) := by
  intro w hw
  obtain ⟨content,hw⟩ := Option.isSome_iff_exists.mp hw
  obtain ⟨hw',hne⟩ := deleteOne_backups hw
  obtain ⟨r,hr,hy,h1,h2,h3,h4⟩ := h w (by rw [hw']; rfl)
  rw [Chain.deleteOne]
  split_ifs with hv he
  · rw [hy,Option.getD_some] at he
    subst he
    have hwr := wrapInt_eq (x := v - 1) (by omega) (by omega)
    exact ⟨v - 1,congrArg some hwr,congrArg some hwr,by omega,by omega,h3,by omega⟩
  · exact ⟨r,hr,hy,h1,h2,h3,h4⟩
  · exact ⟨r,hr,hy,h1,h2,h3,h4⟩

theorem deleteAll_backups (h : Windowed c) (junk v : Int) :
    (c.deleteAll (c.counter junk)).backups v = none := by
  rw [Chain.deleteAll]
  dsimp only
  split_ifs with hv
  · rfl
  · rw [← Option.not_isSome_iff_eq_none]
    intro hs
    obtain ⟨r,hr,_,_,h2,h3,_⟩ := h v hs
    rw [Chain.counter,hr,Option.getD_some] at hv
    exact hv ⟨h3,h2⟩

def Chain.call (c : Chain) : Call → Chain
  | .write L J pos buf => c.write (c.next J.val) (pwrite c.current pos (taken L buf))
  | .delete _ J q =>
    if q.version = 0 then c.deleteAll (c.counter J.val) else c.deleteOne q.version J.val

theorem windowed_call (h : Windowed c) {a : Call}
    (hc : ∀ L J pos buf, a = .write L J pos buf → c.counter J.val < INT_MAX) :
    Windowed (c.call a) := by
  cases a with
  | write L J pos buf => exact windowed_write h (hc L J pos buf rfl) _
  | delete L J q =>
    rw [Chain.call]
    split_ifs with hv
    · intro v hv'
      rw [deleteAll_backups h] at hv'
      cases hv'
    · exact windowed_deleteOne h _ _

end

theorem callStep_chain {f : File} {s t : Logged} {a : Call} (hd : Sound f s.sys.disk)
    (hw : Windowed (chain f s.sys.disk)) (hs : CallStep f s a t) :
    Sound f t.sys.disk ∧ chain f t.sys.disk = (chain f s.sys.disk).call a ∧
      ∀ L J pos buf, a = .write L J pos buf → (chain f s.sys.disk).counter J.val < INT_MAX := by
  cases hs with
  | write hL hc =>
    rename_i L J pos buf
    have hc' : (chain f s.sys.disk).counter J.val < INT_MAX := by rwa [← chain_counter hL]
    have hfree := windowed_free hw hc'
    rw [← chain_next hL,chain_backups_eq_none] at hfree
    obtain ⟨_,hwr⟩ := bkpfsWrite_granted hL hd.exact hd.base hfree pos buf
    have hch := chain_written hd hwr
    rw [chain_next hL] at hch
    refine ⟨sound_written hd hwr,hch,?_⟩
    rintro _ _ _ _ ⟨⟩
    exact hc'
  | delete hL hq =>
    rename_i L J q
    rw [Chain.call]
    split_ifs with hv
    · rw [ioctl_deletedAll hL hv s.sys]
      obtain ⟨hsd,hc⟩ := deletedAll_chain (J := J) hL hd hq
      exact ⟨hsd,hc,fun _ _ _ _ h => by cases h⟩
    · rw [ioctl_deletedOne hL hv s.sys]
      obtain ⟨hsd,hc⟩ := deletedOne_chain (J := J) hL hd hq
      exact ⟨hsd,hc,fun _ _ _ _ h => by cases h⟩

structure Tracked (f : File) (s : Logged) : Prop where
  sound : Sound f s.sys.disk
  windowed : Windowed (chain f s.sys.disk)
  dated : ∃ birth, Dated (chain f s.sys.disk) s.log birth

theorem tracked_step {f : File} {s t : Logged} {a : Call} (h : Tracked f s)
    (hs : CallStep f s a t) : Tracked f t := by
  obtain ⟨birth,hd⟩ := h.dated
  obtain ⟨hsd,hch,hcount⟩ := callStep_chain h.sound h.windowed hs
  refine ⟨hsd,?_,?_⟩
  · rw [hch]
    exact windowed_call h.windowed hcount
  · rw [hch]
    cases hs with
    | write hL hc =>
      rw [chain_next hL]
      exact ⟨_,dated_write h.windowed hd (hcount _ _ _ _ rfl) _⟩
    | delete hL hq =>
      refine ⟨birth,dated_sub hd ?_⟩
      rw [Chain.call]
      intro v content hv
      split_ifs at hv
      · rw [deleteAll_backups h.windowed] at hv
        cases hv
      · exact (deleteOne_backups hv).1

theorem tracked_start {f : File} {s : Sys} (hs : Sound f s.disk)
    (hn : ∀ v, s.disk.dir (backupName v f.name) = none) : Tracked f ⟨s,[]⟩ := by
  have hnone : ∀ v, (chain f s.disk).backups v = none := fun v => chain_backups_eq_none.mpr (hn v)
  refine ⟨hs,?_,fun _ => 0,?_,?_,?_⟩
  · intro v hv
    rw [hnone v] at hv
    cases hv
  · intro v content hv
    rw [hnone v] at hv
    cases hv
  · intro v hv
    rw [hnone v] at hv
    cases hv
  · intro v w hv
    rw [hnone v] at hv
    cases hv

theorem window_encard {S : Set Int} {rev : Option Int}
    (h : ∀ v ∈ S, ∃ r, rev = some r ∧ r - N < v ∧ v ≤ r) : S.encard ≤ N.toNat := by
  rcases S.eq_empty_or_nonempty with he | ⟨v,hv⟩
  · rw [he,Set.encard_empty]
    exact bot_le
  · obtain ⟨r,hr,_⟩ := h v hv
    have hsub : S ⊆ Finset.Ioc (r - N) r := by
      intro w hw
      obtain ⟨r',hr',h1,h2⟩ := h w hw
      rw [hr] at hr'
      cases hr'
      rw [Finset.coe_Ioc]
      exact ⟨h1,h2⟩
    refine (Set.encard_le_encard hsub).trans ?_
    rw [Set.encard_coe_eq_coe_finsetCard,Int.card_Ioc,sub_sub_cancel]

theorem numbers_window {f : File} {d : Disk} (h : Windowed (chain f d)) :
    ∀ v ∈ numbers f d, ∃ r, (d.inodes f.ino).revision = some r ∧ r - N < v ∧ v ≤ r := by
  intro v hv
  rw [numbers_eq] at hv
  obtain ⟨r,hr,_,h1,h2,_⟩ := h v hv
  exact ⟨r,hr,h1,h2⟩

structure WithinWindow (f : File) (s : Logged) : Prop where
  window : ∀ v ∈ numbers f s.sys.disk,
    ∃ r, (s.sys.disk.inodes f.ino).revision = some r ∧ r - N < v ∧ v ≤ r
  few : (numbers f s.sys.disk).encard ≤ N.toNat
  free : ∀ (L : Lower) (J : Junk) (pos : ℕ) (buf : Bytes), L.Grants →
    counter L J f s.sys.disk < INT_MAX →
      s.sys.disk.dir (newName L J f s.sys.disk) = none ∧
        ∃ k : ℕ, (bkpfsWrite L J f pos buf s.sys).1 = .returned k
  dated : ∃ birth, Dated (chain f s.sys.disk) s.log birth

theorem calls_stay_within_window {f : File} {s : Sys} {t : Logged} {calls : List Call}
    (hs : Sound f s.disk) (hn : ∀ v, s.disk.dir (backupName v f.name) = none)
    (run : Run (CallStep f) ⟨s,[]⟩ calls t) : WithinWindow f t := by
  have h := run.invariant (Tracked f) (fun _ _ _ h hs => tracked_step h hs) (tracked_start hs hn)
  have hw := numbers_window h.windowed
  refine ⟨hw,window_encard hw,?_,h.dated⟩
  intro L J pos buf hL hc
  have hc' : (chain f t.sys.disk).counter J.val < INT_MAX := by rwa [← chain_counter hL]
  have hfree := windowed_free h.windowed hc'
  rw [← chain_next hL,chain_backups_eq_none] at hfree
  exact ⟨hfree,(bkpfsWrite_granted hL h.sound.exact h.sound.base hfree pos buf).1⟩

theorem calls_stay_within_window_gaps : ∃ t : Logged,
    t.log = [(1,[]),(2,bytesOf "one")] ∧ WithinWindow aTxt t := by
  have h1 : Run (CallStep aTxt) ⟨⟨Disk.single aTxt {},[]⟩,[]⟩ _ _ :=
    Run.nil.snoc (@CallStep.write aTxt _ {} { val := -7 } 0 (bytesOf "one") grants_default
      (by decide +kernel))
  have h2 := h1.snoc (@CallStep.write aTxt _ {} {} 0 (bytesOf "two") grants_default
    (by decide +kernel))
  have h3 := h2.snoc (@CallStep.delete aTxt _ {} {} (clientRequest aTxt.name 1) grants_default
    (clientRequest_file _ _))
  have h4 := h3.snoc (@CallStep.delete aTxt _ {} {} (clientRequest aTxt.name (-4)) grants_default
    (clientRequest_file _ _))
  exact ⟨_,by decide +kernel,
    calls_stay_within_window (sound_single aTxt {}) (Disk.single_backups aTxt {}) h4⟩

end BackupFs
