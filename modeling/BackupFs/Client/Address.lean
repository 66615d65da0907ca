import BackupFs.Kernel.Trace
import BackupFs.Library.Path

namespace BackupFs

def Role.nameOf (n : Name) : Role → Name
  | .current => n
  | .restored => restoredName n
  | .backup v => backupName v n

def Event.Fits (n : Name) (e : Event) : Prop := ∀ r x, e.asks = some (r,x) → x = r.nameOf n

def Emits (n : Name) (s s' : Sys) : Prop :=
  ∃ es, s'.trace = s.trace ++ es ∧ ∀ e ∈ es, e.Fits n

def Looks (n : Name) (s s' : Sys) : Prop :=
  ∃ es, s'.trace = s.trace ++ es ∧ (∀ e ∈ es, e.Fits n) ∧ ∃ e ∈ es, e.asks ≠ none

section
variable {n m x : Name} {r : Role} {s t u : Sys} {L : Lower}

theorem nameOf_inj (h : r.nameOf n = r.nameOf m) : n = m := by
  cases r with
  | current => exact h
  | restored => exact List.append_cancel_left h
  | backup v => exact (backupName_inj.mp h).2

theorem fits_inj {e : Event} (he : e.asks ≠ none) (hn : e.Fits n) (hm : e.Fits m) : n = m := by
  obtain ⟨⟨r,x⟩,hrx⟩ := Option.ne_none_iff_exists'.mp he
  exact nameOf_inj ((hn r x hrx).symm.trans (hm r x hrx))

theorem Looks.emits (h : Looks n s t) : Emits n s t := by
  obtain ⟨es,he,hf,_⟩ := h
  exact ⟨es,he,hf⟩

theorem Emits.looks (h : Emits n s t) (h' : Looks n t u) : Looks n s u := by
  obtain ⟨es,he,hf⟩ := h
  obtain ⟨es',he',hf',e,hm,ha⟩ := h'
  refine ⟨es ++ es',by rw [he',he,List.append_assoc],fun e hm => ?_,e,?_,ha⟩
  · exact (List.mem_append.mp hm).elim (hf e) (hf' e)
  · exact List.mem_append_right es hm

theorem Looks.trans (h : Looks n s t) (h' : Emits n t u) : Looks n s u := by
  obtain ⟨es,he,hf,e,hm,ha⟩ := h
  obtain ⟨es',he',hf'⟩ := h'
  refine ⟨es ++ es',by rw [he',he,List.append_assoc],fun e hm => ?_,e,?_,ha⟩
  · exact (List.mem_append.mp hm).elim (hf e) (hf' e)
  · exact List.mem_append_left es' hm

theorem emits_emit {l : List Event} (h : ∀ e ∈ l, e.Fits n) : Emits n s (s.emit l) :=
  ⟨l,rfl,h⟩

theorem Traced.emits (h : Traced (fun r x => x = r.nameOf n) s t) : Emits n s t := h.asks

theorem looks_emit {l : List Event} (h : ∀ e ∈ l, e.Fits n) {e : Event} (he : e ∈ l)
    (ha : e.asks ≠ none) : Looks n s (s.emit l) := ⟨l,rfl,h,e,he,ha⟩

@[simp] theorem fits_get (o : Obj) : (Event.get o).Fits n := fun _ _ h => by cases h
@[simp] theorem fits_dLookup : (Event.dLookup r (r.nameOf n)).Fits n := fun _ _ h => by
  cases h
  rfl
@[simp] theorem fits_pathLookup : (Event.pathLookup r (r.nameOf n)).Fits n := fun _ _ h => by
  cases h
  rfl

theorem looks_lookupDelete :
    Looks n s (lookupDelete L r (r.nameOf n) (s.emit [.get .parent])).2 := by
  have hp : Emits n s (s.emit [.get .parent]) := emits_emit (by simp)
  have hl {u : Sys} : Looks n u (u.emit [.get .lowerDirPath,.dLookup r (r.nameOf n)]) :=
    looks_emit (by simp) (.tail _ (.head _)) (by simp [Event.asks])
  unfold lookupDelete
  dsimp only
  split_ifs
  · have hd : Traced (fun r x => x = r.nameOf n) _ (delete L r (r.nameOf n)
        (((s.emit [.get .parent]).emit [.get .lowerDirPath,.dLookup r (r.nameOf n)]).emit
          [.get (.lowerEntry (r.nameOf n)),.get .parent])).2 :=
      (traced_gets [.lowerEntry (r.nameOf n),.parent] (by simp)).trans (traced_delete rfl)
    exact hp.looks (hl.trans hd.emits)
  · exact hp.looks hl

theorem emits_write {J : Junk} {f : File} {pos : ℕ} {buf : Bytes} :
    Emits f.name s (bkpfsWrite L J f pos buf s).2 := by
  have hw : ∀ p ∈ writeNames L J f s, p.2 = p.1.nameOf f.name := by
    unfold writeNames
    dsimp only
    rw [List.forall_mem_cons]
    refine ⟨rfl,?_⟩
    split_ifs
    · exact List.forall_mem_singleton.mpr rfl
    · simp
  exact (traced_write hw pos buf).after_parent.emits

theorem loopNames_fit {k : ℕ} : ∀ p ∈ loopNames L n k s, p.2 = p.1.nameOf n := by
  intro p hp
  obtain ⟨v,_,_,rfl⟩ := mem_loopNames hp
  rfl

theorem looks_deleteLoop (k : ℕ) (e : Int) : Looks n s (deleteLoop L n (k+1) e s).2 := by
  have hl : Looks n s (lookupDelete L (.backup (k + 1 : ℕ)) (backupName (k + 1 : ℕ) n)
      (s.emit [.get .parent])).2 := looks_lookupDelete (r := .backup (k + 1 : ℕ))
  have hrest (e : Int) (t : Sys) : Emits n t (deleteLoop L n k e t).2 :=
    (traced_deleteLoop k e t loopNames_fit).of_loop.emits
  rw [deleteLoop]
  generalize lookupDelete L _ _ _ = out at hl ⊢
  obtain ⟨o,t⟩ := out
  cases o with
  | none => exact hl.trans (hrest e t)
  | some e' =>
    dsimp only
    split_ifs
    · exact hl
    · exact hl.trans (hrest e' t)

section
variable {J : Junk} {f : File} {q : Request}

theorem looks_deleteOne : Looks q.file s (deleteOne L J f q s).2 :=
  (looks_lookupDelete (r := .backup q.version)).trans traced_deletedOne.emits

theorem looks_deleteAll (h : 0 < counter L J f s.disk) :
    Looks q.file s (deleteAll L J f q s).2 := by
  obtain ⟨k,hk⟩ := Nat.exists_eq_succ_of_ne_zero (n := (counter L J f s.disk).toNat) (by omega)
  have hl := looks_deleteLoop (L := L) (n := q.file) (s := s) k (-ENOTTY)
  rw [deleteAll,hk]
  generalize deleteLoop L _ _ _ _ = out at hl ⊢
  obtain ⟨o,t⟩ := out
  cases o with
  | error e => exact hl
  | ok e => exact hl.trans (traced_on _).emits

theorem deleteAll_silent (h : counter L J f s.disk ≤ 0) :
    (deleteAll L J f q s).2.trace = s.trace := by
  rw [deleteAll,Int.toNat_of_nonpos h]
  rfl

theorem restoreNames_fit : ∀ p ∈ restoreNames L J f q s, p.2 = p.1.nameOf q.file := by
  unfold restoreNames
  dsimp only
  rw [List.forall_mem_cons]
  refine ⟨rfl,?_⟩
  generalize lookupDelete L _ _ _ = out
  obtain ⟨e,t⟩ := out
  dsimp only
  split_ifs
  · simp
  · exact List.forall_mem_singleton.mpr rfl
  · rw [List.forall_mem_cons]
    refine ⟨rfl,?_⟩
    cases bkpfsLookup L .restored (restoredName q.file)
        (t.emit [.get (.newDentry (restoredName q.file))]) with
    | none => simp
    | some u =>
      dsimp only
      generalize create L .restored (restoredName q.file) u = out
      obtain ⟨e,v⟩ := out
      dsimp only
      split_ifs
      · simp
      · rw [List.forall_mem_cons]
        refine ⟨rfl,?_⟩
        generalize restoreCopy L _ _ _ _ = out
        obtain ⟨o,w⟩ := out
        cases o with
        | some e => simp
        | none => exact loopNames_fit

theorem looks_restore : Looks q.file s (restore L J f q s).2 :=
  (looks_lookupDelete (r := .current)).trans (traced_restored restoreNames_fit).emits

theorem looks_view : Looks q.file s (view L J q s).2.1 := by
  have hp : Looks q.file s (s.emit [.get .parent,.get .parent,.get .lowerDirPath,
      .pathLookup (.backup q.version) (backupName q.version q.file)]) := by
    refine looks_emit ?_ (.tail _ (.tail _ (.tail _ (.head _)))) (by simp [Event.asks])
    simp only [List.forall_mem_cons,fits_get,true_and]
    exact ⟨fits_pathLookup (r := .backup q.version),by simp⟩
  exact hp.trans traced_viewed.emits

end

end

end BackupFs
