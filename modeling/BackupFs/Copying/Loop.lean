import BackupFs.Copying.Complete

namespace BackupFs

-- a do_splice_direct of at most 4096 bytes that returns r
structure Moves (p : Pipe) (r : Int) (p' : Pipe) : Prop where
  nonneg : 0 ≤ r
  ends : r = 0 ↔ p.rest = 0
  bound : r ≤ (min 4096 p.rest : ℕ)
  src : p'.src = p.src
  srcPos : p'.srcPos = p.srcPos + r.toNat
  dst : p'.dst = pwrite p.dst p.dstPos ((p.src.drop p.srcPos).take r.toNat)
  dstPos : p'.dstPos = p.dstPos + r.toNat

def Splices (splice : ℕ → Pipe → Int × Pipe) : Prop :=
  ∀ k p, Moves p (splice k p).1 (splice k p).2

-- while (bytes > 0) around any do_splice_direct
def copyLoopOf (splice : ℕ → Pipe → Int × Pipe) : ℕ → ℕ → Pipe → Option (Int × Pipe)
  | 0, _, _ => none
  | fuel + 1, k, p =>
    let (bytes,p') := splice k p
    if bytes > 0 then copyLoopOf splice fuel (k+1) p' else some (bytes,p')

def spliced (splice : ℕ → Pipe → Int × Pipe) (p : Pipe) : ℕ → Pipe
  | 0 => p
  | k + 1 => (splice k (spliced splice p k)).2

def returns (splice : ℕ → Pipe → Int × Pipe) (p : Pipe) (k : ℕ) : Int :=
  (splice k (spliced splice p k)).1

structure CopiedAt (x : Name) (i : Ino) (c : Bytes) (d : Disk) : Prop where
  dest : ∃ j, d.dir x = some j ∧ (d.inodes j).content = c
  source : (d.inodes i).content = c

def KernelCall.CopiesExactly (L : Lower) (J : Junk) (f : File) (s : Sys) (c : Bytes) :
    KernelCall → Prop
  | .write pos buf => WriteCopies L J f s.disk → (s.disk.inodes f.ino).content = c →
      ∃ d, CopiedAt (newName L J f s.disk) f.ino c d ∧
        (bkpfsWrite L J f pos buf s).1 = .returned (vfsWrite L f.ino pos buf d).1 ∧
        (bkpfsWrite L J f pos buf s).2.disk = (vfsWrite L f.ino pos buf d).2
  | .ioctl cmd q => L.lowerFile = true → cmd = 1001 → CleansUpOf L q s.disk →
      ∀ i, s.disk.pathIno (backupName q.version q.file) = some i → i < s.disk.nextIno →
        (s.disk.inodes i).content = c →
          ∃ d, CopiedAt (restoredName q.file) i c d ∧
            ((bkpfsUnlockedIoctl L J f cmd q s).1,(bkpfsUnlockedIoctl L J f cmd q s).2.1.disk) =
              loopResult (discardLoop L q.file (counter L J f s.disk).toNat 0 d)

section
variable {splice : ℕ → Pipe → Int × Pipe} {p p' : Pipe} {r : Int} {c : Bytes} {L : Lower} {J : Junk}
  {f : File} {s : Sys}

theorem Moves.doSpliceDirect (h : Moves p r p') : doSpliceDirect r p = (r,p') := by
  obtain ⟨src,srcPos,dst,dstPos⟩ := p'
  obtain ⟨hn,he,hb,hsrc,hsp,hdst,hdp⟩ := h
  dsimp only at hsrc hsp hdst hdp
  subst hsrc hsp hdst hdp
  by_cases hz : p.rest = 0
  · have hr : r = 0 := he.mpr hz
    subst hr
    rw [splice_end le_rfl hz]
    simp [pwrite]
  · have hr : r ≠ 0 := fun hr => hz (he.mp hr)
    have hl : spliceLen r p.rest = r.toNat := by
      unfold spliceLen
      omega
    rw [BackupFs.doSpliceDirect,if_neg (by omega),if_neg hz,hl]
    dsimp only
    rw [Int.toNat_of_nonneg hn]

theorem doSpliceDirect_moves (h : 0 ≤ r) (p : Pipe) :
    Moves p (doSpliceDirect r p).1 (doSpliceDirect r p).2 := by
  by_cases hz : p.rest = 0
  · rw [splice_end h hz]
    exact ⟨le_rfl,by simp [hz],by simp [hz],rfl,rfl,by simp [pwrite],rfl⟩
  · have hp := spliceLen_pos r p.rest
    have hle : spliceLen r p.rest ≤ min 4096 p.rest := by
      unfold spliceLen
      omega
    rw [doSpliceDirect,if_neg (by omega),if_neg hz]
    dsimp only
    exact ⟨by omega,by omega,by omega,rfl,rfl,rfl,rfl⟩

theorem copying_ended (h : Copying c p) (hz : p.rest = 0) : p = ⟨c,c.length,c,c.length⟩ := by
  have hd : p.dst = c := (copying_full h).mpr hz
  have hpos : p.srcPos = c.length := by
    have hle := h.pos
    rw [Pipe.rest,h.src] at hz
    omega
  obtain ⟨src,srcPos,dst,dstPos⟩ := p
  obtain ⟨h1,-,-,h4⟩ := h
  dsimp only at h1 h4 hd hpos
  rw [h1,hpos,hd,h4,hpos]

theorem splices_step (h : Splices splice) (k : ℕ) (hc : Copying c p) :
    Copying c (splice k p).2 ∧
      ((splice k p).1 = 0 ∧ (splice k p).2 = ⟨c,c.length,c,c.length⟩ ∨
        (splice k p).1 > 0 ∧ (splice k p).2.rest < p.rest) := by
  have hm := h k p
  have he := hm.doSpliceDirect
  have hcopy : Copying c (splice k p).2 := by
    have hs := copying_step hc (splice k p).1
    rwa [he] at hs
  refine ⟨hcopy,?_⟩
  by_cases hz : p.rest = 0
  · have hr := hm.ends.mpr hz
    rw [hr,splice_end le_rfl hz] at he
    rw [← congrArg Prod.snd he]
    exact .inl ⟨hr,copying_ended hc hz⟩
  · have hpos : (splice k p).1 > 0 := lt_of_le_of_ne hm.nonneg fun hr => hz (hm.ends.mp hr.symm)
    have hrest : (splice k p).2.rest = p.rest - (splice k p).1.toNat := by
      rw [Pipe.rest,Pipe.rest,hm.src,hm.srcPos]
      omega
    exact .inr ⟨hpos,by omega⟩

theorem copyLoopOf_exact (h : Splices splice) (fuel k : ℕ) (p : Pipe) (hc : Copying c p)
    (hf : p.rest < fuel) :
    copyLoopOf splice fuel k p = some (0,⟨c,c.length,c,c.length⟩) := by
  induction fuel generalizing k p with
  | zero => omega
  | succ fuel ih =>
    obtain ⟨hc',hr⟩ := splices_step h k hc
    rw [copyLoopOf]
    generalize splice k p = out at hc' hr ⊢
    obtain ⟨bytes,p'⟩ := out
    dsimp only at hc' hr ⊢
    rcases hr with ⟨rfl,rfl⟩ | ⟨hpos,hlt⟩
    · exact if_neg (by decide)
    · rw [if_pos hpos]
      exact ih (k+1) p' hc' (by omega)

theorem copyLoop_returns (h : Splices splice) (fuel k : ℕ) :
    copyLoop (returns splice p) fuel k (spliced splice p k) =
      copyLoopOf splice fuel k (spliced splice p k) := by
  induction fuel generalizing k with
  | zero => rfl
  | succ fuel ih =>
    have hstep : doSpliceDirect (returns splice p k) (spliced splice p k) =
        splice k (spliced splice p k) := (h k _).doSpliceDirect
    have hnext := ih (k+1)
    rw [spliced] at hnext
    rw [copyLoop,copyLoopOf,hstep]
    generalize splice k (spliced splice p k) = out at hnext ⊢
    obtain ⟨bytes,p'⟩ := out
    dsimp only at hnext ⊢
    rw [hnext]

theorem copyBytes_returns (h : Splices splice) (c : Bytes) :
    copyBytes (returns splice ⟨c,0,[],0⟩) c [] = (0,c) := by
  have hl := (copyLoop_returns (p := ⟨c,0,[],0⟩) h (c.length + 1) 0).trans
    (copyLoopOf_exact h _ 0 ⟨c,0,[],0⟩ (copying_start c) (by simp [Pipe.rest]))
  rw [spliced] at hl
  rw [copyBytes,hl]

theorem copyFile_exact {i j : Ino} {d : Disk} (h : Splices splice) (hij : i ≠ j)
    (hL : L.splice = returns splice ⟨c,0,[],0⟩) (hi : (d.inodes i).content = c)
    (hj : (d.inodes j).content = []) :
    ((copyFile L i j d).inodes j).content = c ∧ ((copyFile L i j d).inodes i).content = c := by
  rw [copyFile,Disk.setInode_inodes,Function.update_self,Function.update_of_ne hij,hL,hi,hj,
    copyBytes_returns h]
  exact ⟨rfl,rfl⟩

theorem write_copiesExactly (h : Splices splice) (hL : L.splice = returns splice ⟨c,0,[],0⟩)
    (hf : f.ino < s.disk.nextIno) (pos : ℕ) (buf : Bytes) :
    (KernelCall.write pos buf).CopiesExactly L J f s c := by
  intro hw hc
  obtain ⟨ho,hd⟩ := writeCopies_writes hw pos buf
  have hfresh : ((begun (newName L J f s.disk) (retained L J f s.disk).2).inodes
      (retained L J f s.disk).2.nextIno).content = [] := by simp [begun]
  obtain ⟨h1,h2⟩ := copyFile_exact h (retained_apart hf) hL ((begun_content hf).trans hc) hfresh
  exact ⟨_,⟨⟨_,by simp [copyFile,begun],h1⟩,h2⟩,ho,hd⟩

theorem restore_copiesExactly (h : Splices splice) (hL : L.splice = returns splice ⟨c,0,[],0⟩)
    (hf : f.ino < s.disk.nextIno) (cmd : ℕ) (q : Request) :
    (KernelCall.ioctl cmd q).CopiesExactly L J f s c := by
  intro hl hcmd hcl i hi hlt hc
  subst hcmd
  obtain ⟨j,hj,heff⟩ := restoreEffect_cleansUp hf hcl
  cases hi.symm.trans (found_pathIno hj).2
  have hrun := restoreRun_effect (restore_run L J f q s)
  obtain ⟨hin,hdir⟩ := found_fields (L := L) (q := q) (d := s.disk)
  have hnx : (cleared L q s.disk).nextIno = s.disk.nextIno := discard_nextIno
  have hfresh : ((found L q s.disk).2.inodes (cleared L q s.disk).nextIno).content = [] := by
    rw [hin,hnx,Function.update_self]
  have hne : i ≠ (cleared L q s.disk).nextIno := by
    rw [hnx]
    exact Nat.ne_of_lt hlt
  have hsrc : ((found L q s.disk).2.inodes i).content = c := by
    rw [hin,Function.update_of_ne (Nat.ne_of_lt hlt),hc]
  obtain ⟨h1,h2⟩ := copyFile_exact h hne hL hsrc hfresh
  refine ⟨refilled L q i s.disk,⟨⟨_,?_,h1⟩,h2⟩,?_⟩
  · rw [refilled,copyFile,Disk.setInode_dir,hdir,hnx]
  · rw [ioctl_restore J f s hl,← heff J,hrun]

end

theorem copy_loops_exact (splice : ℕ → Pipe → Int × Pipe) (h : Splices splice) (c : Bytes) :
    (∀ fuel, c.length < fuel →
      copyLoopOf splice fuel 0 ⟨c,0,[],0⟩ = some (0,⟨c,c.length,c,c.length⟩)) ∧
    ∀ (L : Lower) (J : Junk) (f : File) (s : Sys) (call : KernelCall), f.ino < s.disk.nextIno →
      L.splice = returns splice ⟨c,0,[],0⟩ → call.CopiesExactly L J f s c := by
  refine ⟨fun fuel hf => ?_,fun L J f s call hf hL => ?_⟩
  · exact copyLoopOf_exact h fuel 0 _ (copying_start c) hf
  · cases call with
    | write pos buf => exact write_copiesExactly h hL hf pos buf
    | ioctl cmd q => exact restore_copiesExactly h hL hf cmd q

theorem copy_loops_exact_pairs : copyLoopOf (fun _ p => doSpliceDirect 2 p) 4 0 ⟨[1,2,3],0,[],0⟩ =
    some (0,⟨[1,2,3],3,[1,2,3],3⟩) :=
  (copy_loops_exact (fun _ p => doSpliceDirect 2 p) (fun _ p => doSpliceDirect_moves (by decide) p)
    [1,2,3]).1 4 (by decide)

end BackupFs
