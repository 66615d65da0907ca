import BackupFs.Versions.Sessions

namespace BackupFs

namespace Versions

def Careful (b : Store) : Act → Prop
  | .bkpctl _ _ _ argv => ∀ x v,
    parseCommand argv = some (.view,x,some v) ∨ parseCommand argv = some (.restore,x,some v) →
      b.entry (.version v) ≠ none
  | .shrink _ => False
  | _ => True

def Exact (a : Shelf) : Prop := ∀ k, a.Settled k

def Neat (a : Shelf) : Prop :=
  ∀ k, a.Settled k ∨ k = .own ∧ a.entry .own = none ∧ a.held = false

section
variable {a : Shelf} {k : Slot} {J : Junk} {L : Lower} {n : ℕ} {err v : Int} {q : Request}

theorem Exact.neat (h : Exact a) : Neat a := fun k => .inl (h k)

theorem exact_on (h : Exact a) {b : Store} (hb : b.entry = a.entry) : Exact (a.on b) := by
  intro k
  have hk := h k
  unfold Shelf.Settled at hk ⊢
  rw [show (a.on b).entry k = a.entry k from congrFun hb k]
  exact hk

theorem exact_link (h : Exact a) (k : Slot) (m : Option Node) : Exact (a.link k m) := by
  intro l
  rcases eq_or_ne l k with rfl | hne
  · have he : (a.link l m).entry l = m := Store.link_self_entry m
    have hh : (a.link l m).hashed l = m.isSome := Function.update_self _ _ _
    rw [Shelf.Settled,he,hh]
  · exact (settled_link hne m).mpr (h l)

theorem exact_hash (h : Exact a) (hk : a.entry k ≠ none) : Exact (a.hash k true) := by
  intro l
  have hl := h l
  unfold Shelf.Settled at hl ⊢
  rcases eq_or_ne l k with rfl | hne
  · have hh : (a.hash l true).hashed l = true := Function.update_self _ _ _
    rw [hh]
    exact (Option.isSome_iff_ne_none.mpr hk).symm
  · have hh : (a.hash k true).hashed l = a.hashed l := Function.update_of_ne hne _ _
    rw [hh]
    exact hl

theorem exact_discard (h : Exact a) (k : Slot) : Exact (a.discard k).2 := by
  unfold Shelf.discard
  split_ifs
  · cases a.entry k with
    | none => exact h
    | some m => exact exact_link h k none
  · exact h

theorem exact_sweep (h : Exact a) (n : ℕ) (err : Int) : Exact (Shelf.sweep n err a).2 := by
  induction n generalizing a err with
  | zero => exact h
  | succ n ih =>
    have hd := exact_discard h (.version (n + 1 : ℕ))
    rw [Shelf.sweep]
    generalize a.discard (.version (n + 1 : ℕ)) = out at hd ⊢
    obtain ⟨e,a'⟩ := out
    cases e with
    | none => exact ih hd err
    | some e =>
      dsimp only
      split_ifs
      · exact hd
      · exact ih hd e

theorem exact_write (h : Exact a) (J : Junk) (L : Lower) (pos : ℕ) (buf : Bytes) :
    Exact (a.write J L pos buf).2 := by
  have hstamp : Exact (a.on (a.stamp (nextVersion (a.number J)))) := exact_on h rfl
  have hp : Exact ((a.on (a.stamp (nextVersion (a.number J)))).pruned
      (nextVersion (a.number J))).2 := by
    unfold Shelf.pruned
    split_ifs
    · exact exact_discard hstamp _
    · exact hstamp
  unfold Shelf.write
  dsimp only
  generalize (a.on (a.stamp (nextVersion (a.number J)))).pruned (nextVersion (a.number J)) = p
    at hp ⊢
  split_ifs
  · exact hp
  · cases he : p.2.entry (.version (nextVersion (a.number J))) with
    | some m =>
      refine exact_hash hp ?_
      simp [he]
    | none =>
      refine exact_on (exact_link hp _ _) ?_
      rfl

theorem exact_delete (h : Exact a) (J : Junk) (v : Int) : Exact (a.delete J v).2 := by
  have hd := exact_discard h (.version v)
  unfold Shelf.delete
  generalize a.discard (.version v) = out at hd ⊢
  obtain ⟨e,a'⟩ := out
  cases e with
  | none => exact hd
  | some e =>
    dsimp only
    split_ifs
    · exact hd
    · refine exact_on hd ?_
      rfl
    · exact hd

theorem exact_deleteAll (h : Exact a) (J : Junk) : Exact (a.deleteAll J).2 := by
  have hs := exact_sweep h (a.number J).toNat (-ENOTTY)
  unfold Shelf.deleteAll
  generalize Shelf.sweep _ _ a = out at hs ⊢
  obtain ⟨r,a'⟩ := out
  cases r with
  | error e => exact hs
  | ok e =>
    refine exact_on hs ?_
    rfl

theorem exact_refill (h : Exact a) (hv : a.entry (.version v) ≠ none) (J : Junk) :
    Exact (a.refill J v).2 := by
  obtain ⟨m,hm⟩ := Option.ne_none_iff_exists'.mp hv
  unfold Shelf.refill
  cases hr : a.entry .restored with
  | some m =>
    refine exact_hash h ?_
    simp [hr]
  | none =>
    rw [hm]
    have hf : Exact (a.refilled v m) := by
      refine exact_hash (exact_link h .restored _) ?_
      rwa [(link_other (by simp) _).1]
    have hs := exact_sweep hf ((a.refilled v m).number J).toNat 0
    dsimp only
    unfold Shelf.swept
    generalize Shelf.sweep _ _ (a.refilled v m) = out at hs ⊢
    obtain ⟨r,a'⟩ := out
    cases r <;> exact hs

theorem exact_restore (h : Exact a) (hv : a.entry (.version v) ≠ none) (J : Junk) :
    Exact (a.restore J v).2 := by
  have hd := exact_discard h .own
  unfold Shelf.restore
  split_ifs
  · exact hd
  · exact exact_refill hd (by rwa [discard_own_entry _ (by simp)]) J

theorem exact_ioctl (h : Exact a) (J : Junk) (L : Lower) (cmd : ℕ) (q : Request)
    (hv : cmd = 1001 ∨ cmd = 1002 → a.entry (.version q.version) ≠ none) :
    Exact (a.ioctl J L cmd q).2.1 := by
  unfold Shelf.ioctl
  split
  · dsimp only
    split_ifs
    · exact exact_delete h J _
    · exact exact_deleteAll h J
  · exact exact_restore h (hv (.inl rfl)) J
  · exact exact_hash h (hv (.inr rfl))
  · exact h
  · exact h

theorem settled_hash {l : Slot} (h : l ≠ k) (x : Bool) :
    (a.hash k x).Settled l ↔ a.Settled l := by
  have hh : (a.hash k x).hashed l = a.hashed l := Function.update_of_ne h _ _
  rw [Shelf.Settled,Shelf.Settled,hh]
  exact Iff.rfl

theorem neat_opened (h : Neat a) : Neat a.opened.2 ∧ (a.opened.1 = true → Exact a.opened.2) ∧
    a.opened.2.entry = a.entry := by
  unfold Shelf.opened
  split_ifs with hh ho
  · refine ⟨h,fun _ k => (h k).resolve_right fun hk => ?_,rfl⟩
    rw [hh] at hk
    cases hk.2.2
  · have ho := Option.isSome_iff_ne_none.mp ho
    have he : Exact a := fun k => (h k).resolve_right fun hk => ho hk.2.1
    have hs : Exact ((a.on (a.hold true)).hash .own true) := exact_hash (exact_on he rfl) ho
    exact ⟨hs.neat,fun _ => hs,rfl⟩
  · refine ⟨fun k => ?_,fun hf => absurd hf (by simp),rfl⟩
    rcases eq_or_ne k .own with rfl | hne
    · exact .inr ⟨rfl,Option.not_isSome_iff_eq_none.mp ho,Bool.eq_false_iff.mpr hh⟩
    · exact .inl ((settled_hash hne true).mpr ((h k).resolve_right fun hk => hne hk.1))

theorem neat_evict (h : Neat a) : Neat (a.on (a.hold false)) := by
  intro k
  rcases h k with hs | ⟨rfl,he,_⟩
  · exact .inl hs
  · exact .inr ⟨rfl,he,rfl⟩

theorem Exact.writeSuits (h : Exact a) (J : Junk) : a.WriteSuits J := fun _ => h _

theorem Exact.ioctlSuits (h : Exact a) (J : Junk) (cmd : ℕ) (q : Request) :
    a.IoctlSuits J cmd q where
  one _ _ hm := by
    have hs := h (.version q.version)
    rw [Shelf.Settled] at hs
    rw [hs]
    exact Option.isSome_iff_ne_none.mpr hm
  all _ _ v _ _ := h _
  restore _ := ⟨.inl (h _),fun _ _ w _ _ _ => h _⟩

theorem versioned {argv : List Bytes} {c : Command} {x : Name} {v : Option Int}
    (hp : parseCommand argv = some (c,x,v)) (hc : c.number = 1001 ∨ c.number = 1002) :
    ∃ w, v = some w ∧ (parseCommand argv = some (.view,x,some w) ∨
      parseCommand argv = some (.restore,x,some w)) := by
  rcases parseCommand_version hp with ⟨rfl,_⟩ | ⟨_,b,_,rfl⟩
  · exact absurd hc (by decide)
  · refine ⟨_,rfl,?_⟩
    cases c with
    | delete | list => exact absurd hc (by decide)
    | view => exact .inl hp
    | restore => exact .inr hp

theorem neat_bkpctl (h : Neat a) (J : Junk) (L : Lower) (E : Process) {argv : List Bytes}
    (hc : ∀ x v, parseCommand argv = some (.view,x,some v) ∨
      parseCommand argv = some (.restore,x,some v) → a.entry (.version v) ≠ none) :
    shelves.Suits (fun J a => a.WriteSuits J) (fun J cmd q a => a.IoctlSuits J cmd q) a
        (.bkpctl L J E argv) ∧ Neat (shelves.bkpctl L J E argv a).2 := by
  obtain ⟨hn,hex,hen⟩ := neat_opened h
  unfold Service.bkpctl Service.Suits Service.host
  dsimp only [shelves]
  rcases main_host E a.opened.1 argv with ⟨e,he,hmain⟩ | ⟨ho,c,x,v,hp,hmain⟩
  · rw [hmain,he]
    refine ⟨by simp,?_⟩
    dsimp only
    split_ifs
    · exact hn
    · exact h
  · rw [hmain,finished_asked]
    refine ⟨fun cmd q _ => (hex ho).ioctlSuits J cmd q,?_⟩
    refine (exact_ioctl (hex ho) J L c.number _ fun hcmd => ?_).neat
    obtain ⟨w,rfl,hw⟩ := versioned hp hcmd
    rw [hen]
    exact hc x w hw

theorem neat_step (h : Neat a) {c : Act} (hc : Careful a.toStore c) :
    shelves.Suits (fun J a => a.WriteSuits J) (fun J cmd q a => a.IoctlSuits J cmd q) a c ∧
      Neat (shelves.step a c).2 := by
  obtain ⟨hn,hex,_⟩ := neat_opened h
  cases c with
  | cat L => exact ⟨trivial,hn⟩
  | write L J pos buf =>
    refine ⟨fun ho => (hex ho).writeSuits J,?_⟩
    cases ho : a.opened.1 with
    | true =>
      have hst : (shelves.step a (.write L J pos buf)).2 = (a.opened.2.write J L pos buf).2 :=
        congrArg Prod.snd (if_pos ho)
      rw [hst]
      exact (exact_write (hex ho) J L pos buf).neat
    | false =>
      have hst : (shelves.step a (.write L J pos buf)).2 = a.opened.2 :=
        congrArg Prod.snd (if_neg (by simpa [shelves] using ho))
      rw [hst]
      exact hn
  | bkpctl L J E argv => exact neat_bkpctl h J L E hc
  | evict => exact ⟨trivial,neat_evict h⟩
  | shrink k => exact hc.elim

end

theorem careful_along {f : File} {s : Sys} {acts : List Act} (h : Tidy f s.disk)
    (hn : Neat (shelf f s.disk)) (hacts : ∀ c ∈ acts, c.About f)
    (hc : Lockstep.Along stores.step Careful (shelf f s.disk).toStore acts) :
    Lockstep.Along (mount f).step (Untroubled f) s acts := by
  induction acts generalizing s with
  | nil => trivial
  | cons c acts ih =>
    have ha := hacts c List.mem_cons_self
    obtain ⟨hu,hn'⟩ := neat_step hn hc.1
    obtain ⟨_,hk⟩ := (keeps_step ⟨h,rfl⟩ ha).mpr hu
    obtain ⟨_,hs⟩ := mount_step h.shows ha
    refine ⟨hu,ih hk.1 ?_ (fun b hb => hacts b (List.mem_cons_of_mem c hb)) ?_⟩
    · rw [← hs.eq_shelf]
      exact hn'
    · rw [hk.2]
      exact hc.2

theorem session_served {f : File} {s : Sys} (h : Tidy f s.disk)
    (hn : ∀ k : Slot, s.disk.cached (k.name f.name) = (s.disk.dir (k.name f.name)).isSome)
    {acts : List Act} (hacts : ∀ c ∈ acts, c.About f)
    (hc : Lockstep.Along stores.step Careful (shelf f s.disk).toStore acts) :
    Lockstep.Agree (mount f).step stores.step (fun _ c => c) (Keeps f) s
      (shelf f s.disk).toStore acts := by
  have hex : Exact (shelf f s.disk) := fun k => (hn k).trans Option.isSome_map.symm
  have hagree : Lockstep.Agree (mount f).step stores.step (fun _ c => c) (Keeps f) s
        (shelf f s.disk).toStore acts ↔
      Lockstep.Along (mount f).step (Untroubled f) s acts :=
    Lockstep.agree_iff (fun _ _ _ hs hc => keeps_step hs hc) ⟨h,rfl⟩ hacts
  exact hagree.mpr (careful_along h hex.neat hacts hc)

theorem viewed_careful : Lockstep.Along stores.step Careful
    (shelf aTxt (Disk.single aTxt {})).toStore viewed := by
  refine ⟨trivial,?_,trivial⟩
  have hp : parseCommand (bkpctlArgs ["v","a.txt","1"]) =
      some (.view,bytesOf "a.txt",some 1) := by decide
  intro x v h
  rw [hp] at h
  have hv : v = 1 := by
    rcases h with h | h <;> cases h
    rfl
  rw [hv]
  decide +kernel

theorem session_served_viewed : Lockstep.Agree (mount aTxt).step stores.step (fun _ c => c)
    (Keeps aTxt) ⟨Disk.single aTxt {},[]⟩ (shelf aTxt (Disk.single aTxt {})).toStore viewed :=
  session_served (f := aTxt) (s := ⟨Disk.single aTxt {},[]⟩) (tidy_single aTxt {})
    (fun k => Disk.single_exact aTxt {} (k.name aTxt.name)) viewed_about viewed_careful

end Versions

end BackupFs
