import BackupFs.Isolation.Agreement
import BackupFs.Library.Transition
import BackupFs.Locals.Requests

namespace BackupFs

open Transition

inductive FileCall where
  | write (w : WriteCall)
  | ioctl (L : Lower) (J : Junk) (cmd : ℕ) (q : Request)

def FileCall.run (f : File) : FileCall → Sys → Sys
  | .write w, s => (bkpfsWrite w.lower w.junk f w.pos w.buf s).2
  | .ioctl L J cmd q, s => (bkpfsUnlockedIoctl L J f cmd q s).2.1

def FileCall.withJunk (J : Junk) : FileCall → FileCall
  | .write w => .write { w with junk := J }
  | .ioctl L _ cmd q => .ioctl L J cmd q

def HasNumber (L : Lower) (g : File) (a : Attr) (d : Disk) : Prop :=
  L.getxattr a = none ∧ ((d.inodes g.ino).attr a).isSome = true

def FileCall.Initialised (g : File) (d : Disk) : FileCall → Prop
  | .write w => HasNumber w.lower g .revision d
  | .ioctl L _ cmd q => L.lowerFile = true → match cmd with
    | 1000 => if q.version = 0 then HasNumber L g .revision d
      else (discard L (backupName q.version q.file) d).1 = some 0 → HasNumber L g .youngest d
    | 1001 => CleansUpOf L q d → HasNumber L g .revision d
    | _ => True

def FileCall.Names (f : File) : FileCall → Prop
  | .write _ => True
  | .ioctl _ _ _ q => q.file = f.name

section
variable {f g : File}

theorem call_within {c : FileCall} (hc : c.Names f) (s : Sys) :
    Within f s.disk (c.run f s).disk := by
  cases c with
  | write w =>
    exact (Confined.writeRun subset_rfl (bkpfsWrite_run w.lower w.junk f w.pos w.buf s)).within
  | ioctl L J cmd q =>
    have hq : q.file = f.name := hc
    obtain ⟨effect,he,hs⟩ := ioctl_effect (L := L) (J := J) (f := f) (q := q) cmd
    rw [FileCall.run,hs]
    exact (Confined.ioctl (by rw [hq]) he s).within

theorem call_agrees {c : FileCall} (hc : c.Names g) {s t : Sys} (hs : Rooted g s.disk)
    (ht : Rooted g t.disk) (h : Agrees g s.disk t.disk) :
    Agrees g (c.run g s).disk (c.run g t).disk := by
  cases c with
  | write w =>
    have hw (s : Sys) := writeRun_effect (bkpfsWrite_run w.lower w.junk g w.pos w.buf s)
    have ha := (h.writeEffect hs ht w.lower w.junk w.pos w.buf).disk
    rwa [hw,hw] at ha
  | ioctl L J cmd q =>
    obtain ⟨effect,he,heff⟩ := ioctl_effect (L := L) (J := J) (f := g) (q := q) cmd
    rw [FileCall.run,FileCall.run,heff,heff]
    cases he with
    | none => exact h
    | deleteOne => exact (h.deletedOne hc).2
    | deleteAll => exact (h.deletedAll hc).2
    | restore => exact (h.restoreEffect hs ht hc).disk
    | view => exact (h.pathLookup (hc ▸ backup_family q.version q.file) _).2

end

section
variable {g : File} {d : Disk} {L : Lower} {a : Attr}

theorem hasNumber_getxattr (h : HasNumber L g a d) (u v : Int) :
    vfsGetxattr L g.ino a u d = vfsGetxattr L g.ino a v d := by
  obtain ⟨w,hw⟩ := Option.isSome_iff_exists.mp h.2
  rw [vfsGetxattr,vfsGetxattr,h.1,hw]
  rfl

theorem hasNumber_counter (h : HasNumber L g .revision d) (J J' : Junk) :
    counter L J g d = counter L J' g d := hasNumber_getxattr h J.val J'.val

theorem initialised_deletedOne {q : Request}
    (h : (discard L (backupName q.version q.file) d).1 = some 0 → HasNumber L g .youngest d)
    (J J' : Junk) : deletedOne L J g q d = deletedOne L J' g q d := by
  by_cases hz : (discard L (backupName q.version q.file) d).1 = some 0
  · rw [deletedOne_unlinked hz,deletedOne_unlinked hz,hasNumber_getxattr (h hz) J.val J'.val]
  · exact deletedOne_failed hz J'

theorem initialised_restore {q : Request} (hg : g.ino < d.nextIno)
    (h : CleansUpOf L q d → HasNumber L g .revision d) (J J' : Junk) :
    restoreEffect L J g q d = restoreEffect L J' g q d := by
  by_cases hc : CleansUpOf L q d
  · obtain ⟨i,_,heff⟩ := restoreEffect_cleansUp hg hc
    rw [heff,heff,hasNumber_counter (h hc) J J']
  · exact restore_unreached hc J'

theorem initialised_run {c : FileCall} {s : Sys} (hg : g.ino < s.disk.nextIno)
    (h : c.Initialised g s.disk) (J : Junk) :
    ((c.withJunk J).run g s).disk = (c.run g s).disk := by
  cases c with
  | write w =>
    have hw (J : Junk) := writeRun_effect (bkpfsWrite_run w.lower J g w.pos w.buf s)
    have hn : HasNumber w.lower g .revision s.disk := h
    have he : writeEffect w.lower J g w.pos w.buf s.disk =
        writeEffect w.lower w.junk g w.pos w.buf s.disk := by
      unfold writeEffect newName oldName
      rw [hasNumber_counter hn J w.junk]
    rw [hw,hw] at he
    exact congrArg Prod.snd he
  | ioctl L J' cmd q =>
    change (bkpfsUnlockedIoctl L J g cmd q s).2.1.disk =
      (bkpfsUnlockedIoctl L J' g cmd q s).2.1.disk
    cases hl : L.lowerFile with
    | false => rw [ioctl_noFile J g s hl,ioctl_noFile J' g s hl]
    | true =>
      have hi := h hl
      split at hi
      · by_cases hv : q.version = 0
        · rw [if_pos hv] at hi
          rw [ioctl_deleteAll J g s hl hv,ioctl_deleteAll J' g s hl hv]
          dsimp only
          rw [(deleteAll_spec L J g q s).2,(deleteAll_spec L J' g q s).2,deletedAll,deletedAll,
            hasNumber_counter hi J J']
        · rw [if_neg hv] at hi
          rw [ioctl_deleteOne J g s hl hv,ioctl_deleteOne J' g s hl hv]
          dsimp only
          rw [(deleteOne_spec L J g q s).2,(deleteOne_spec L J' g q s).2,
            initialised_deletedOne hi J J']
      · have hr (J : Junk) := restoreRun_effect (restore_run L J g q s)
        have he := initialised_restore hg hi J J'
        rw [hr,hr] at he
        rw [ioctl_restore J g s hl,ioctl_restore J' g s hl]
        exact congrArg Prod.snd he
      · rename_i h0 h1
        by_cases h2 : cmd = 1002
        · subst h2
          rw [ioctl_view J g s hl,ioctl_view J' g s hl,view_disk,view_disk]
        by_cases h3 : cmd = 1003
        · subst h3
          rw [ioctl_list J g s hl,ioctl_list J' g s hl,list_disk,list_disk]
        · have ho (J : Junk) : bkpfsUnlockedIoctl L J g cmd q s =
              (.returned (L.unlockedIoctl.getD (-ENOTTY)),s,none) :=
            execute_other hl (fun he => h0 he) (fun he => h1 he) h2 h3 J
          rw [ho,ho]

end

structure Apart (f g : File) (d : Disk) : Prop where
  rooted : Rooted g d
  base : f.ino < d.nextIno
  ino : f.ino ≠ g.ino
  unlinked : ∀ x ∈ family g.name, d.dir x ≠ some f.ino

-- a call on f, or one on g with what its locals hold where the calls on f are not made
inductive Turn where
  | other (c : FileCall)
  | own (c : FileCall) (J : Junk)

def Turn.among (f g : File) (s : Sys) : Turn → Sys
  | .other c => c.run f s
  | .own c _ => c.run g s

def Turn.alone (g : File) (s : Sys) : Turn → Sys
  | .other _ => s
  | .own c J => (c.withJunk J).run g s

def Turn.Names (f g : File) : Turn → Prop
  | .other c => c.Names f
  | .own c _ => c.Names g

def Turn.Settled (g : File) (s : Sys) : Turn → Prop
  | .other _ => True
  | .own c J => c.withJunk J = c ∨ c.Initialised g s.disk

structure SameChain (g : File) (d e : Disk) : Prop where
  opened : d.inodes g.ino = e.inodes g.ino
  entries : ∀ x ∈ family g.name, (d.dir x).map d.inodes = (e.dir x).map e.inodes

section
variable {f g : File} {d d' : Disk}

theorem apart_other (h : Apart f g d) (hn : Unrelated f.name g.name) (hw : Within f d d') :
    Apart f g d' := by
  have hdir {x : Name} (hx : x ∈ family g.name) : d'.dir x = d.dir x :=
    hw.dir x fun hf => family_disjoint hn hf hx
  refine ⟨⟨h.rooted.base.trans_le hw.nextIno,fun x hx i hi => ?_⟩,h.base.trans_le hw.nextIno,
    h.ino,fun x hx => ?_⟩
  · rw [hdir hx] at hi
    exact (h.rooted.allocated x hx i hi).trans_le hw.nextIno
  · rw [hdir hx]
    exact h.unlinked x hx

theorem apart_own (h : Apart f g d) (hw : Within g d d') : Apart f g d' := by
  refine ⟨rooted_within h.rooted hw,h.base.trans_le hw.nextIno,h.ino,fun x hx hi => ?_⟩
  rcases hw.entered x f.ino hi with hi | ⟨hle,_⟩
  · exact h.unlinked x hx hi
  · exact absurd h.base (Nat.not_lt.mpr hle)

theorem agrees_other (h : Apart f g d) (hn : Unrelated f.name g.name) (hw : Within f d d') :
    Agrees g d' d := by
  have hino {s : Slot} (hs : s.Of g.name) : s.ino g d' = s.ino g d := by
    cases s with
    | file => rfl
    | entry x => exact hw.dir x fun hf => family_disjoint hn hf hs
  refine ⟨fun x hx => hw.cached x fun hf => family_disjoint hn hf hx,fun s hs => ?_,
    fun s t hs ht => ?_⟩
  · rw [hino hs]
    cases hi : s.ino g d with
    | none => rfl
    | some i =>
      have hne : i ≠ f.ino := by
        rintro rfl
        cases s with
        | file => exact h.ino (Option.some.inj hi).symm
        | entry x => exact h.unlinked x hs hi
      rw [Option.map_some,Option.map_some,hw.inodes i (h.rooted.slot hs hi) hne]
  · rw [hino hs,hino ht]

theorem sameChain_agrees (h : Agrees g d d') : SameChain g d d' :=
  ⟨h.file,fun x hx => h.record (.entry x) hx⟩

end

theorem own_agrees {s t : Sys} {c : FileCall} {J : Junk} (hc : c.Names g) (hs : Rooted g s.disk)
    (ht : Rooted g t.disk) (h : Agrees g s.disk t.disk)
    (hset : c.withJunk J = c ∨ c.Initialised g t.disk) :
    Agrees g (c.run g s).disk ((c.withJunk J).run g t).disk := by
  have ha := call_agrees hc hs ht h
  rcases hset with he | hi
  · rwa [he]
  · rwa [initialised_run ht.base hi]

theorem chains_independent {f g : File} {s : Sys} {turns : List Turn}
    (hn : Unrelated f.name g.name) (hs : Apart f g s.disk) (hq : ∀ t ∈ turns, t.Names f g)
    (hset : Along (Turn.alone g) (Turn.Settled g) s turns) :
    SameChain g (turns.foldl (Turn.among f g) s).disk (turns.foldl (Turn.alone g) s).disk := by
  refine sameChain_agrees (foldl_related
    (fun (s t : Sys) => Agrees g s.disk t.disk ∧ Apart f g s.disk ∧ Rooted g t.disk)
    (Turn.Names f g) ?_ hq hset ⟨Agrees.refl g s.disk,hs,hs.rooted⟩).1
  rintro s t (c | ⟨c,J⟩) hc hset ⟨ha,hs,ht⟩
  · have hw : Within f s.disk (c.run f s).disk := call_within hc s
    exact ⟨(agrees_other hs hn hw).trans ha,apart_other hs hn hw,ht⟩
  · have hcJ : (c.withJunk J).Names g := by
      cases c <;> exact hc
    have hw : Within g s.disk (c.run g s).disk := call_within hc s
    have hw' : Within g t.disk ((c.withJunk J).run g t).disk := call_within hcJ t
    exact ⟨own_agrees hc hs.rooted ht ha hset,apart_own hs hw,rooted_within ht hw'⟩

def bTxtFile : File := ⟨bTxt,1⟩

def twoFiles (i j : Inode) : Sys :=
  ⟨((Disk.single aTxt i).created bTxtFile.name).setInode bTxtFile.ino j,[]⟩

theorem names_unrelated : Unrelated aTxt.name bTxtFile.name where
  ne := by decide
  backup v h := Decimal.labelled_ne_of_head (x := bTxtFile.name) (y := bytesOf ".txt")
    (b := 97) (by decide) (by simp [Decimal.isDigit]) h.symm
  restored := by decide
  backup' v h := Decimal.labelled_ne_of_head (x := aTxt.name) (y := bytesOf ".txt")
    (b := 98) (by decide) (by simp [Decimal.isDigit]) h.symm
  restored' := by decide

theorem twoFiles_dir {i j : Inode} {x : Name} (hx : x ∈ family bTxtFile.name) {k : Ino}
    (h : (twoFiles i j).disk.dir x = some k) : k = 1 := by
  change Function.update (Disk.single aTxt i).dir _ _ x = some k at h
  rcases eq_or_ne x bTxtFile.name with rfl | hne
  · rw [Function.update_self] at h
    exact (Option.some.inj h).symm
  · rw [Function.update_of_ne hne,Disk.single_dir,Function.update_of_ne] at h
    · cases h
    · rintro rfl
      exact family_disjoint names_unrelated (self_family _) hx

theorem twoFiles_apart (i j : Inode) : Apart aTxt bTxtFile (twoFiles i j).disk where
  rooted := ⟨Nat.lt_add_one 1,fun x hx k hk => by rw [twoFiles_dir hx hk]; exact Nat.lt_add_one 1⟩
  base := Nat.zero_lt_succ 1
  ino := by decide
  unlinked x hx hk := absurd (twoFiles_dir hx hk) (by decide)

def mixedTurns : List Turn :=
  [.other (.write ⟨{},{},0,[1]⟩),.own (.write ⟨{},{ val := 8 },0,[2]⟩) { val := 5 },
    .other (.ioctl { unlink := fun _ => some ⟨-13,by decide⟩ } {} 1000
      (clientRequest aTxt.name 1)),
    .own (.ioctl {} { val := 8 } 1001 (clientRequest bTxtFile.name 3)) {}]

def counted : Sys := twoFiles {} { revision := some 2, youngest := some 2 }

theorem chains_independent_mixed :
    SameChain bTxtFile (mixedTurns.foldl (Turn.among aTxt bTxtFile) counted).disk
      (mixedTurns.foldl (Turn.alone bTxtFile) counted).disk := by
  refine chains_independent names_unrelated (twoFiles_apart _ _) (fun t ht => ?_) ?_
  · simp only [mixedTurns,List.mem_cons,List.not_mem_nil,or_false] at ht
    rcases ht with rfl | rfl | rfl | rfl
    · trivial
    · trivial
    · exact clientRequest_file _ _
    · exact clientRequest_file _ _
  · exact ⟨trivial,.inr ⟨rfl,rfl⟩,trivial,.inr fun _ _ => ⟨rfl,by decide +kernel⟩,trivial⟩

def linkedFiles : Sys := ⟨(Disk.single aTxt {}).link bTxt (some 0) true,[]⟩

def linkedBackup : Sys :=
  ⟨(twoFiles {} {}).disk.link (backupName 1 bTxtFile.name) (some 0) true,[]⟩

def oneWrite : List Turn := [.other (.write ⟨{},{},0,[1]⟩)]

-- the first write of b.txt, where a write of a.txt has left its number on the stack
def leftover : List Turn := [.own (.write ⟨{},{ val := 1 },0,[2]⟩) {}]

theorem chains_not_independent :
    (¬ ∀ (f g : File) (s : Sys) (turns : List Turn), Unrelated f.name g.name →
      (∀ t ∈ turns, t.Names f g) → Along (Turn.alone g) (Turn.Settled g) s turns →
        SameChain g (turns.foldl (Turn.among f g) s).disk
          (turns.foldl (Turn.alone g) s).disk) ∧
      (¬ ∀ (f g : File) (s : Sys) (turns : List Turn), Unrelated f.name g.name → f.ino ≠ g.ino →
        (∀ t ∈ turns, t.Names f g) → Along (Turn.alone g) (Turn.Settled g) s turns →
          SameChain g (turns.foldl (Turn.among f g) s).disk
            (turns.foldl (Turn.alone g) s).disk) ∧
      ¬ ∀ (f g : File) (s : Sys) (turns : List Turn), Unrelated f.name g.name →
        Apart f g s.disk → (∀ t ∈ turns, t.Names f g) →
          SameChain g (turns.foldl (Turn.among f g) s).disk
            (turns.foldl (Turn.alone g) s).disk := by
  have hother : ∀ (g : File), ∀ t ∈ oneWrite, t.Names aTxt g := by
    intro g t ht
    cases List.mem_singleton.mp ht
    trivial
  have hown : ∀ t ∈ leftover, t.Names aTxt bTxtFile := by
    intro t ht
    cases List.mem_singleton.mp ht
    trivial
  refine ⟨fun h => ?_,fun h => ?_,fun h => ?_⟩
  · have hs := (h aTxt ⟨bTxt,0⟩ linkedFiles oneWrite names_unrelated (hother _)
      ⟨trivial,trivial⟩).opened
    have hc := congrArg Inode.content hs
    revert hc
    decide +kernel
  · have hs := (h aTxt bTxtFile linkedBackup oneWrite names_unrelated (by decide) (hother _)
      ⟨trivial,trivial⟩).entries _ (backup_family 1 bTxtFile.name)
    have hc := congrArg (Option.map Inode.content) hs
    revert hc
    decide +kernel
  · have hs := (h aTxt bTxtFile (twoFiles {} {}) leftover names_unrelated (twoFiles_apart _ _)
      hown).entries _ (backup_family 1 bTxtFile.name)
    have hc := congrArg Option.isSome hs
    revert hc
    decide +kernel

end BackupFs
