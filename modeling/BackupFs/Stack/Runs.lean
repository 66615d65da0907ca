import BackupFs.Stack.Ledger

namespace BackupFs
namespace Stack

section functions
variable {s : State} {ds : List Dentry} {d : Dentry} {P : Multiset LowerPath} {U L : Multiset ℕ}
  {p : LowerPath} {k : ℕ}

theorem ledger_splice (h : Ledger ds P U L k s) (w : SpliceCall) (f : Found) :
    (∃ ret t, innerBkpfsInterpose w f d s = .ok (ret,d,t) ∧ Ledger ds P U L k t ∧ Frame s t ∧
        ret ≠ .ok none ∧ (∀ e, ret = .error e → e ≠ 0) ∧ (∀ a, ret = .ok (some a) →
          f.isDir = true ∧
            (f.inode ∈ s.icache.map UpperInode.lower ∨ a ∈ s.all ∧ a.inode = some s.next))) ∨
      ∃ u t, innerBkpfsInterpose w f d s = .ok (.ok none,{ d with inode := some u },t) ∧
        Ledger ds P (u ::ₘ U) L k t ∧ Frame s t := by
  unfold innerBkpfsInterpose
  split_ifs with hsb
  · exact .inl ⟨_,s,rfl,h,.refl s,by simp,fun e he => by cases he; decide,by simp⟩
  · rcases ledger_iget h w.iget f.inode with ⟨e,t,he,hl,hf,hne,-⟩ | ⟨u,t,he,hl,hf,-,hu⟩
    · refine .inl ⟨.error e,t,?_,hl,hf,by simp,fun e' he' => by cases he'; exact hne,by simp⟩
      rw [he]
      rfl
    · rw [he]
      simp only [bind,Except.bind,dSpliceAlias]
      cases ha : if f.isDir then t.aliasOf u else none with
      | none => exact .inr ⟨u,t,rfl,hl,hf⟩
      | some a =>
        obtain ⟨t',ht',hl',hf'⟩ := ledger_iput hl
        have hdir : f.isDir = true ∧ t.aliasOf u = some a := by
          cases hd : f.isDir <;> simp_all
        have hmem : a ∈ s.all ∧ a.inode = some u := by
          have hm := List.mem_of_find?_eq_some hdir.2
          have hi := List.find?_some hdir.2
          exact ⟨hf.all ▸ hm,by simpa using hi⟩
        have halias : f.inode ∈ s.icache.map UpperInode.lower ∨
            a ∈ s.all ∧ a.inode = some s.next := by
          rcases hu with ⟨rfl,-⟩ | hu
          · exact .inr hmem
          · exact .inl hu
        simp only [ht']
        cases w.unalias with
        | some e => exact .inl ⟨_,t',rfl,hl',hf.trans hf',by simp,fun e' he' => by
            cases he'
            exact e.2.ne,by simp⟩
        | none => exact .inl ⟨_,t',rfl,hl',hf.trans hf',by simp,by simp,fun b hb => by
            cases hb
            exact ⟨hdir.1,halias⟩⟩

def Dentry.Shape (d : Dentry) : Prop :=
  d.dOp = true ∧ d.path ≠ none ∨ d.dOp = false ∧ d.fsdata = none ∧ d.inode ≠ none

theorem shape_put (h : d.Shape) : d.Put := by
  unfold Dentry.Put
  rcases h with ⟨ho,hp⟩ | ⟨ho,hf,-⟩
  · rw [ho]
    cases hf : d.fsdata with
    | none => simp [Dentry.path,hf] at hp
    | some p => rfl
  · rw [ho,hf]
    rfl

theorem setLowerPath_eq {po : Option LowerPath} (hd : d.fsdata = some po) (p : LowerPath) :
    bkpfsSetLowerPath d p = .ok { d with fsdata := some (some p) } := by
  rw [bkpfsSetLowerPath,hd]
  rfl

theorem ledger_inner (h : Ledger ds P U L (k + 1) s) (w : LookupCall) (q : LowerPath)
    (hd : d.fsdata = some none) (hi : d.inode = none) :
    ∃ ret d' t, innerBkpfsLookup w q d s = .ok (ret,d',t) ∧ Ledger (d' :: ds) P U L k t ∧
      Frame s t ∧ d'.Put ∧ (ret = .ok none → d'.dOp = true ∧ d'.path ≠ none) := by
  have hset (p : LowerPath) : bkpfsSetLowerPath { d with dOp := true } p =
      .ok { d with dOp := true, fsdata := some (some p) } :=
    setLowerPath_eq (d := { d with dOp := true }) hd p
  have hbare : Ledger ({ d with dOp := true } :: ds) P U L k s :=
    ledger_cons.mpr (by simpa [hd,hi,Dentry.path] using h)
  have hput : ({ d with dOp := true } : Dentry).Put := by simp [Dentry.Put,hd]
  unfold innerBkpfsLookup
  cases hw : w.pathLookup with
  | ok f =>
    dsimp only
    rw [hset]
    simp only [bind,Except.bind]
    rcases ledger_splice (ledger_pathGet h f.path) w.splice f with
      ⟨ret,t,he,hl,hf,-⟩ | ⟨u,t,he,hl,hf⟩
    · rw [he]
      have hfr : Frame s t := ⟨hf.1,hf.2,hf.3,hf.4,hf.5⟩
      cases ret with
      | error e =>
        obtain ⟨t',ht',hl',hf'⟩ := ledger_pathPut hl
        refine ⟨.error e,{ d with dOp := true, fsdata := some none },t',?_,?_,hfr.trans hf',
          rfl,by simp⟩
        · simp [bkpfsPutResetLowerPath,bkpfsPutLowerPath,bind,Except.bind,ht']
        · exact ledger_cons.mpr (by simpa [hi,Dentry.path] using hl')
      | ok r =>
        refine ⟨.ok r,{ d with dOp := true, fsdata := some (some f.path) },t,rfl,?_,hfr,rfl,
          fun _ => ⟨rfl,by simp [Dentry.path]⟩⟩
        exact ledger_cons.mpr (by simpa [hi,Dentry.path] using hl)
    · rw [he]
      refine ⟨.ok none,{ d with dOp := true, fsdata := some (some f.path), inode := some u },t,rfl,
        ?_,⟨hf.1,hf.2,hf.3,hf.4,hf.5⟩,rfl,fun _ => ⟨rfl,by simp [Dentry.path]⟩⟩
      exact ledger_cons.mpr (by simpa [Dentry.path] using hl)
  | error e =>
    dsimp only
    split_ifs with hn
    · exact ⟨_,_,s,rfl,hbare,.refl s,hput,by simp⟩
    · cases hl : w.dLookup.or w.dAlloc with
      | none => exact ⟨_,_,s,rfl,hbare,.refl s,hput,by simp⟩
      | some l =>
        dsimp only
        rw [hset]
        refine ⟨.ok none,{ d with dOp := true, fsdata := some (some ⟨l,q.mnt⟩) },_,rfl,?_,
          ⟨rfl,rfl,rfl,rfl,rfl⟩,rfl,fun _ => ⟨rfl,by simp [Dentry.path]⟩⟩
        exact ledger_cons.mpr (by simpa [hi,Dentry.path] using ledger_pathGet h ⟨l,q.mnt⟩)

theorem ledger_lookup (h : Ledger ds P U L k s) (w : LookupCall) {parent : Dentry}
    (hp : parent.path = some p) :
    ∃ ret d' t, bkpfsLookup w parent {} s = .ok (ret,d',t) ∧ Ledger (d' :: ds) P U L k t ∧
      Frame s t ∧ d'.Put ∧ (ret = .ok none → d'.dOp = true ∧ d'.path ≠ none) := by
  have hfs : parent.fsdata = some (some p) := by
    rw [Dentry.path] at hp
    cases hf : parent.fsdata with
    | none => simp [hf] at hp
    | some po => simpa [hf] using hp
  have hget := ledger_pathGet h p
  rw [bkpfsLookup,bkpfsGetLowerPath,hfs]
  simp only [bind,Except.bind,newDentryPrivateData]
  cases hz : w.zalloc with
  | false =>
    obtain ⟨t,ht,hl,hf⟩ := ledger_pathPut hget
    refine ⟨.error (-ENOMEM),{},t,?_,?_,⟨hf.1,hf.2,hf.3,hf.4,hf.5⟩,rfl,by simp⟩
    · simp [ENOMEM,bkpfsPutLowerPath,ht]
    · exact ledger_cons.mpr (by simpa [Dentry.path] using hl)
  | true =>
    have hinfo : Ledger ds (p ::ₘ P) U L (k + 1) { s.pathGet p with infos := s.infos + 1 } :=
      ⟨hget.lower,hget.counts,hget.paths,by rw [← add_assoc,← hget.infos]; rfl,hget.lowers,
        hget.ids,hget.cached,hget.fresh⟩
    obtain ⟨ret,d',t,he,hl,hf,hput,hret⟩ :=
      ledger_inner (d := { fsdata := some none }) hinfo w p rfl rfl
    obtain ⟨t',ht',hl',hf'⟩ := ledger_pathPut hl
    refine ⟨ret,d',t',?_,hl',Frame.trans ⟨hf.1,hf.2,hf.3,hf.4,hf.5⟩ hf',hput,hret⟩
    have hs : (s.pathGet p).infos = s.infos := rfl
    simp only [Bool.true_eq_false,if_false,ne_eq,not_true_eq_false,hs]
    rw [he]
    simp [bkpfsPutLowerPath,ht']

end functions

end Stack
end BackupFs
