import BackupFs.Chain.Counted

namespace BackupFs

open Transition

structure Emptied (f : File) (d d' : Disk) : Prop where
  backups : ∀ v, d'.dir (backupName v f.name) = none
  other : ∀ x, (∀ v, x ≠ backupName v f.name) → d'.dir x = d.dir x
  inodes : d'.inodes =
    Function.update d.inodes f.ino { d.inodes f.ino with revision := some (-1) }

structure Renumbers (f : File) (k : ℕ) (d : Disk) (out : Outcome × Sys) : Prop where
  free : d.dir (backupName k f.name) = none
  outcome : ∃ r : ℕ, out.1 = .returned r
  snapshot : (chain f out.2.disk).backups k = some (d.inodes f.ino).content
  numbers : numbers f out.2.disk = {v | k - N < v ∧ 1 ≤ v ∧ v ≤ k}
  kept : ∀ v : Int, k - N < v → v < k →
    (chain f out.2.disk).backups v = (chain f d).backups v

structure Restarts (f : File) (d : Disk) (u : Sys) : Prop where
  emptied : Emptied f d u.disk
  again : ∀ (L : Lower) (J : Junk) (q : Request), L.Grants → q.file = f.name → q.version = 0 →
    (bkpfsUnlockedIoctl L J f 1000 q u).2.1.disk = u.disk
  renumbers : ∀ (ws : List Call) (w : Sys), Run (WriteStep f) u ws w → ws.length < INT_MAX →
    ∀ (L : Lower) (J : Junk) (pos : ℕ) (buf : Bytes), L.Grants →
      Renumbers f (ws.length + 1) w.disk (bkpfsWrite L J f pos buf w)

def Spans (c : Chain) (k : ℕ) : Prop :=
  ∀ v, (c.backups v).isSome = true ↔ k - N < v ∧ 1 ≤ v ∧ v ≤ k

structure Renumbered (c : Chain) (k : ℕ) : Prop where
  revision : c.revision = some (if k = 0 then -1 else (k : Int))
  numbers : ∀ v, (c.backups v).isSome = true ↔ k - N < v ∧ 1 ≤ v ∧ v ≤ k

section
variable {c : Chain} {k : ℕ} {junk : Int}

theorem renumbered_next (h : Renumbered c k) (hk : k < INT_MAX) (junk : Int) :
    c.next junk = (k + 1 : ℕ) ∧ c.counter junk < INT_MAX := by
  have hcount : c.counter junk = if k = 0 then -1 else (k : Int) := by
    rw [Chain.counter,h.revision,Option.getD_some]
  have hlt : c.counter junk < INT_MAX := by
    rw [hcount]
    split_ifs
    · decide
    · exact hk
  refine ⟨?_,hlt⟩
  rw [Chain.next,nextVersion_eq hlt,hcount]
  split_ifs with hz <;> omega

theorem write_isSome {val v : Int} {current : Bytes} :
    ((c.write val current).backups v).isSome = true ↔
      v = val ∨ (c.backups v).isSome = true ∧ ¬ (val > N ∧ v = val - N) := by
  rw [Chain.write]
  dsimp only
  rcases eq_or_ne v val with rfl | hv
  · rw [Function.update_self]
    exact iff_of_true rfl (.inl rfl)
  · rw [Function.update_of_ne hv]
    split_ifs with hN
    · rcases eq_or_ne v (val - N) with rfl | hp
      · rw [Function.update_self]
        refine iff_of_false (by simp) ?_
        rintro (he | ⟨_,hno⟩)
        · exact hv he
        · exact hno ⟨hN,rfl⟩
      · rw [Function.update_of_ne hp]
        simp [hv,hp]
    · simp [hv,hN]

theorem spans_write (h : Spans c k) (current : Bytes) :
    Spans (c.write (k + 1 : ℕ) current) (k+1) := by
  intro v
  have hN : N = 10 := rfl
  rw [write_isSome,h v]
  omega

theorem renumbered_deleteAll (h : Windowed c) : Renumbered (c.deleteAll (c.counter junk)) 0 := by
  refine ⟨rfl,fun v => ?_⟩
  rw [deleteAll_backups h]
  refine iff_of_false (by simp) ?_
  omega

end

section
variable {L : Lower} {J : Junk} {f : File} {s t : Sys} {k : ℕ}

theorem write_spans (hL : L.Grants) (hs : Sound f s.disk) (h : Spans (chain f s.disk) k)
    (hn : nextVersion (counter L J f s.disk) = (k + 1 : ℕ)) (pos : ℕ) (buf : Bytes) :
    Sound f (bkpfsWrite L J f pos buf s).2.disk ∧
      (chain f (bkpfsWrite L J f pos buf s).2.disk).revision = some ((k + 1 : ℕ) : Int) ∧
        Spans (chain f (bkpfsWrite L J f pos buf s).2.disk) (k+1) ∧
          Renumbers f (k+1) s.disk (bkpfsWrite L J f pos buf s) := by
  have hnone : (chain f s.disk).backups (k + 1 : ℕ) = none := by
    rw [← Option.not_isSome_iff_eq_none,h]
    omega
  have hfree := chain_backups_eq_none.mp hnone
  have hnew : s.disk.dir (newName L J f s.disk) = none := by
    rw [newName,hn]
    exact hfree
  obtain ⟨ho,hw⟩ := bkpfsWrite_granted hL hs.exact hs.base hnew pos buf
  have hch := chain_written hs hw
  rw [hn] at hch
  have hre := spans_write h (pwrite (s.disk.inodes f.ino).content pos (taken L buf))
  rw [← hch] at hre
  have hN : N = 10 := rfl
  refine ⟨sound_written hs hw,by rw [hch]; rfl,hre,hfree,ho,?_,?_,fun v h1 h2 => ?_⟩
  · rw [hch,Chain.write]
    dsimp only
    rw [Function.update_self]
    rfl
  · rw [numbers_eq]
    ext v
    exact hre v
  · rw [hch,Chain.write]
    dsimp only
    rw [Function.update_of_ne (ne_of_lt h2)]
    split_ifs
    · exact Function.update_of_ne (by omega) _ _
    · rfl

theorem write_renumbers (hL : L.Grants) (hs : Sound f s.disk)
    (h : Renumbered (chain f s.disk) k) (hk : k < INT_MAX) (pos : ℕ) (buf : Bytes) :
    Sound f (bkpfsWrite L J f pos buf s).2.disk ∧
      Renumbered (chain f (bkpfsWrite L J f pos buf s).2.disk) (k+1) ∧
        Renumbers f (k+1) s.disk (bkpfsWrite L J f pos buf s) := by
  have hn := (chain_next hL).trans (renumbered_next h hk J.val).1
  obtain ⟨hs',hrev,hsp,hre⟩ := write_spans hL hs h.numbers hn pos buf
  exact ⟨hs',⟨by rw [hrev,if_neg (Nat.succ_ne_zero k)],hsp⟩,hre⟩

theorem writes_renumber {ws : List Call} (hs : Sound f s.disk)
    (h : Renumbered (chain f s.disk) k) (run : Run (WriteStep f) s ws t)
    (hk : k + ws.length ≤ INT_MAX) :
    Sound f t.disk ∧ Renumbered (chain f t.disk) (k + ws.length) := by
  induction run with
  | nil => exact ⟨hs,h⟩
  | snoc run ha ih =>
    rw [List.length_append,List.length_singleton] at hk ⊢
    obtain ⟨hs,h⟩ := ih (by omega)
    obtain ⟨hstep,hwrite⟩ := ha
    cases hstep with
    | write hL =>
      obtain ⟨hs',h',_⟩ := write_renumbers hL hs h (by push_cast at hk ⊢; omega) _ _
      exact ⟨hs',h'⟩
    | delete hL hq => exact hwrite.elim

theorem deleteAll_empties {q : Request} (hL : L.Grants) (hk : Kept f s.disk)
    (hq : q.file = f.name) (hv : q.version = 0) :
    Emptied f s.disk (bkpfsUnlockedIoctl L J f 1000 q s).2.1.disk := by
  have hch := (deletedAll_chain (J := J) hL hk.sound hq).2
  obtain ⟨d₁,hsw,he⟩ := deletedAll_granted (J := J) (f := f) hL hk.sound.exact q
  rw [ioctl_deletedAll hL hv]
  refine ⟨fun v => ?_,fun x hx => ?_,?_⟩
  · rw [← chain_backups_eq_none,hch]
    exact deleteAll_backups hk.windowed J.val v
  · rw [he,Disk.setInode_dir]
    exact hsw.kept x fun v _ _ => hq ▸ hx v
  · rw [he,Disk.setInode_inodes,hsw.inodes]

theorem deleteAll_idle {q : Request} (hL : L.Grants) (hv : q.version = 0)
    (hr : (s.disk.inodes f.ino).revision = some (-1)) :
    (bkpfsUnlockedIoctl L J f 1000 q s).2.1.disk = s.disk := by
  have hc : counter L J f s.disk = -1 := counter_revision hL hr J
  have hself : { s.disk.inodes f.ino with revision := some (-1) } = s.disk.inodes f.ino := by
    rw [← hr]
  rw [ioctl_deletedAll hL hv,deletedAll,hc]
  change vfsSetxattr L f.ino .revision (-1) s.disk = s.disk
  rw [vfsSetxattr,hL.setxattr]
  change s.disk.setInode f.ino { s.disk.inodes f.ino with revision := some (-1) } = s.disk
  rw [hself,Disk.setInode,Function.update_eq_self]

end

theorem delete_all_restarts {f : File} {s t : Sys} {calls : List Call} {L : Lower} {J : Junk}
    {q : Request} (hs : Sound f s.disk) (hn : ∀ v, s.disk.dir (backupName v f.name) = none)
    (run : Run (CountedStep f) s calls t) (hL : L.Grants) (hq : q.file = f.name)
    (hv : q.version = 0) : Restarts f t.disk (bkpfsUnlockedIoctl L J f 1000 q t).2.1 := by
  have hk := kept_run hs hn run
  have he := deleteAll_empties (J := J) hL hk hq hv
  obtain ⟨hsound,hch⟩ := deletedAll_chain (J := J) hL hk.sound hq
  have hre := @renumbered_deleteAll _ J.val hk.windowed
  rw [← ioctl_deletedAll hL hv] at hsound hch
  rw [← hch] at hre
  refine ⟨he,fun L' J' q' hL' _ hv' => deleteAll_idle hL' hv' hre.revision,?_⟩
  intro ws w hws hlen L' J' pos buf hL'
  obtain ⟨hsw,hrw⟩ := writes_renumber hsound hre hws (by push_cast; omega)
  rw [Nat.zero_add] at hrw
  exact (write_renumbers hL' hsw hrw hlen pos buf).2.2

theorem delete_all_restarts_written : ∃ t : Sys, (numbers aTxt t.disk).Nonempty ∧
    Restarts aTxt t.disk
      (bkpfsUnlockedIoctl {} {} aTxt 1000 (clientRequest aTxt.name 0) t).2.1 := by
  have h1 : Run (CountedStep aTxt) ⟨Disk.single aTxt {},[]⟩ _ _ :=
    Run.single ⟨@VersionStep.write aTxt _ {} { val := 6 } 0 (bytesOf "one") grants_default,
      by change _ < INT_MAX; decide +kernel⟩
  exact ⟨_,⟨7,by change _ = _; decide +kernel⟩,delete_all_restarts (sound_single aTxt _)
    (Disk.single_backups aTxt _) h1 grants_default (clientRequest_file _ _) rfl⟩

theorem wrapped_delete_all_leaves_backup : ¬ ∀ (f : File) (s t : Sys) (calls : List Call)
    (L : Lower) (J : Junk) (q : Request), Sound f s.disk →
      (∀ v, s.disk.dir (backupName v f.name) = none) → Run (VersionStep f) s calls t →
        L.Grants → q.file = f.name → q.version = 0 →
          Restarts f t.disk (bkpfsUnlockedIoctl L J f 1000 q t).2.1 := by
  intro h
  obtain ⟨calls,run⟩ := wrapped_run
  have hr := h aTxt _ wrapped calls {} {} (clientRequest aTxt.name 0) (sound_single aTxt {})
    (Disk.single_backups aTxt {}) run grants_default (clientRequest_file _ _) rfl
  have hgone := hr.emptied.backups (-INT_MAX - 1)
  revert hgone
  decide +kernel

end BackupFs
