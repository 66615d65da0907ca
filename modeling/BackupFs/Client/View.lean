import BackupFs.Locals.Write

namespace BackupFs

def Junk.sprinted (J : Junk) (c : Bytes) : Bytes := cString (pwrite J.buffer 0 (c.take 1024))

structure Viewed (J : Junk) (name : ℕ) (version : Int) (c : Bytes) (r : Query) : Prop where
  content : c ++ [nul] <+: r.buff
  within : (J.sprinted c).length ≤ 1024
  name : r.name = name
  version : r.version = version

def Completes (J : Junk) (c : Bytes) : Prop :=
  if nul ∈ c then c.drop (cString c).length ++ [nul] <+: J.q2.buff.drop (cString c).length
  else [nul] <+: J.buffer.drop c.length

structure ViewMeets (L : Lower) (J : Junk) (name : ℕ) (version : Int) (c : Bytes) : Prop where
  openSrc : L.openSrc = .file
  completes : Completes J c
  name : J.q2.name = name
  version : J.q2.version = version

section
variable {b b' c : Bytes} {J : Junk}

theorem pwrite_zero (c b : Bytes) : pwrite c 0 b = b ++ c.drop b.length := by
  unfold pwrite
  split_ifs with hb
  · simp [hb]
  · simp

theorem cString_cons {x : UInt8} (h : x ≠ nul) (c : Bytes) :
    cString (x :: c) = x :: cString c := by simp [cString,h]

theorem cString_append_mem (h : nul ∈ c) (b : Bytes) : cString (c ++ b) = cString c := by
  induction c with
  | nil => cases h
  | cons x c ih =>
    by_cases hx : x = nul
    · simp [cString,hx]
    · have hm : nul ∈ c := (List.mem_cons.mp h).resolve_left (Ne.symm hx)
      rw [List.cons_append,cString_cons hx,cString_cons hx,ih hm]

theorem cString_append_notMem (h : nul ∉ c) (b : Bytes) :
    cString (c ++ b) = c ++ cString b := by
  have hc : ∀ x ∈ c, decide (x ≠ nul) = true := fun x hx => by
    simpa using fun he : x = nul => h (he ▸ hx)
  rw [cString,cString,List.takeWhile_append_of_pos hc,List.append_assoc]

theorem cString_mem (h : nul ∈ c) : c = cString c ++ c.drop (cString c).length := by
  induction c with
  | nil => cases h
  | cons x c ih =>
    by_cases hx : x = nul
    · subst hx
      simp [cString]
    · have hm : nul ∈ c := (List.mem_cons.mp h).resolve_left (Ne.symm hx)
      rw [cString_cons hx,List.length_cons,List.drop_succ_cons,List.cons_append,← ih hm]

theorem nul_prefix_cString (h : b ≠ []) : [nul] <+: cString b ++ b' ↔ [nul] <+: b := by
  cases b with
  | nil => exact absurd rfl h
  | cons x b =>
    by_cases hx : x = nul
    · simp [cString,hx]
    · simp [cString,hx,List.cons_prefix_cons,Ne.symm hx]

theorem sprinted_eq (hc : c.length < 1024) :
    J.sprinted c = cString (c ++ J.buffer.drop c.length) := by
  rw [Junk.sprinted,List.take_of_length_le hc.le,pwrite_zero]

theorem sprinted_completes (hJ : J.Fits) (hc : c.length < 1024) :
    (c ++ [nul] <+: pwrite J.q2.buff 0 (J.sprinted c) ∧ (J.sprinted c).length ≤ 1024) ↔
      Completes J c := by
  rw [pwrite_zero,sprinted_eq hc,Completes]
  split_ifs with hm
  · have hlen := congrArg List.length (cString_mem hm)
    rw [List.length_append] at hlen
    rw [cString_append_mem hm]
    nth_rewrite 1 [cString_mem hm]
    rw [List.append_assoc,List.prefix_append_right_inj,and_iff_left (by omega)]
  · have hne : J.buffer.drop c.length ≠ [] := by
      rw [← List.length_pos_iff,List.length_drop,hJ.buffer]
      omega
    rw [cString_append_notMem hm,List.append_assoc,List.prefix_append_right_inj,
      nul_prefix_cString hne,and_iff_left_iff_imp]
    rintro ⟨t,ht⟩
    have h1 : cString (J.buffer.drop c.length) = [nul] := by
      rw [← ht]
      simp [cString]
    rw [h1,List.length_append,List.length_singleton]
    omega

end

section
variable {L : Lower} {J : Junk} {f : File} {q : Request} {s : Sys} {i : Ino}

theorem view_returned (h : (bkpfsUnlockedIoctl L J f 1002 q s).1 = .returned 0)
    (hi : s.disk.pathIno (backupName q.version q.file) = some i) :
    (L.openSrc = .null ∧ (bkpfsUnlockedIoctl L J f 1002 q s).2.2 = none) ∨
      L.openSrc = .file ∧ (bkpfsUnlockedIoctl L J f 1002 q s).2.2 =
        some (viewReply J (s.disk.inodes i).content) := by
  have hl : L.lowerFile = true := by
    by_contra hl
    rw [ioctl_noFile J f s (Bool.eq_false_of_not_eq_true hl)] at h
    cases h
  rw [ioctl_view J f s hl] at h ⊢
  rcases view_cases L q s with ⟨err,t,hf,hv⟩ | ⟨hd,j,t,hj,hv⟩
  · rw [hv] at h ⊢
    cases Outcome.returned.inj h
    exact .inl ⟨viewFails_zero hf,rfl⟩
  · cases hj.symm.trans hi
    exact .inr ⟨hd.openSrc,by rw [hv]⟩

end

theorem view_returns_iff {L : Lower} {J : Junk} {f : File} {q : Request} {s : Sys} {i : Ino}
    {c : Bytes} (name : ℕ) (hJ : J.Fits)
    (hi : s.disk.pathIno (backupName q.version q.file) = some i)
    (hc : (s.disk.inodes i).content = c) (hlen : c.length < 1024)
    (h : (bkpfsUnlockedIoctl L J f 1002 q s).1 = .returned 0) :
    (∃ r, (bkpfsUnlockedIoctl L J f 1002 q s).2.2 = some r ∧ Viewed J name q.version c r) ↔
      ViewMeets L J name q.version c := by
  rcases view_returned h hi with ⟨ho,hr⟩ | ⟨ho,hr⟩
  · refine iff_of_false ?_ fun hm => ?_
    · rintro ⟨r,hs,_⟩
      rw [hr] at hs
      cases hs
    · have hf := hm.openSrc
      rw [ho] at hf
      cases hf
  · rw [hr,hc]
    constructor
    · rintro ⟨r,hs,hv⟩
      cases hs
      exact ⟨ho,(sprinted_completes hJ hlen).mp ⟨hv.content,hv.within⟩,hv.name,hv.version⟩
    · intro hm
      obtain ⟨hcontent,hwithin⟩ := (sprinted_completes hJ hlen).mpr hm.completes
      exact ⟨_,rfl,hcontent,hwithin,hm.name,hm.version⟩

def twice : Sys := (bkpfsWrite {} {} aTxt 0 (bytesOf "two")
  (bkpfsWrite {} {} aTxt 0 (bytesOf "one") ⟨Disk.single aTxt {},[]⟩).2).2

theorem twice_backup : twice.disk.pathIno (backupName 2 aTxt.name) = some 2 ∧
    (twice.disk.inodes 2).content = bytesOf "one" := by decide +kernel

def Junk.filled (b : UInt8) (name : ℕ) (version : Int) : Junk where
  q2 := { name := name, version := version, buff := List.replicate 1024 b }
  buffer := List.replicate 1024 b

theorem Junk.filled_fits (b : UInt8) (name : ℕ) {version : Int} (h : IsInt version) :
    (Junk.filled b name version).Fits where
  val := isInt_zero
  val1 := isInt_zero
  version := h
  youngest := isInt_zero
  oldest := isInt_zero
  buff := List.length_replicate
  buffer := List.length_replicate

theorem view_returns_zeroed : ∃ r,
    (bkpfsUnlockedIoctl {} (.filled nul 64 2) aTxt 1002 (clientRequest aTxt.name 2) twice).2.2 =
      some r ∧ Viewed (.filled nul 64 2) 64 2 (bytesOf "one") r :=
  (view_returns_iff 64 (Junk.filled_fits nul 64 ⟨by decide,by decide⟩) twice_backup.1
    twice_backup.2 (by decide) (by decide +kernel)).mpr
      ⟨rfl,by rw [Completes,if_neg (by decide)]; decide +kernel,rfl,rfl⟩

theorem view_runs_past_content : ¬ ∀ (L : Lower) (J : Junk) (f : File) (q : Request) (s : Sys)
    (i : Ino) (c : Bytes) (name : ℕ), J.Fits →
      s.disk.pathIno (backupName q.version q.file) = some i →
        (s.disk.inodes i).content = c → c.length < 1024 →
          (bkpfsUnlockedIoctl L J f 1002 q s).1 = .returned 0 →
            ∃ r, (bkpfsUnlockedIoctl L J f 1002 q s).2.2 = some r ∧
              Viewed J name q.version c r := by
  intro h
  obtain ⟨r,hr,hv⟩ := h {} (.filled 65 64 2) aTxt (clientRequest aTxt.name 2) twice 2
    (bytesOf "one") 64 (Junk.filled_fits 65 64 ⟨by decide,by decide⟩) twice_backup.1
    twice_backup.2 (by decide) (by decide +kernel)
  have hb : (bkpfsUnlockedIoctl {} (.filled 65 64 2) aTxt 1002
      (clientRequest aTxt.name 2) twice).2.2.map (fun r => r.buff.take 4) =
        some (bytesOf "oneA") := by decide +kernel
  rw [hr] at hb
  have hfour : r.buff.take 4 = bytesOf "oneA" := Option.some.inj hb
  have hp := hv.content.take 4
  rw [hfour] at hp
  revert hp
  decide

end BackupFs
