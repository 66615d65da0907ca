import BackupFs.Client.Command
import BackupFs.Kernel.Trace
import BackupFs.Locals.Requests

namespace BackupFs

open Decimal

def KernelCall.names (L : Lower) (J : Junk) (f : File) (s : Sys) :
    KernelCall → List (Role × Name)
  | .write _ _ => writeNames L J f s
  | .ioctl cmd q =>
    if L.lowerFile = false then []
    else
      match cmd with
      | 1000 => deleteNames L J f q s
      | 1001 => restoreNames L J f q s
      | 1002 => viewNames q
      | _ => []

def listStrings (H : Host) (c : Command) (inputFile : Name) (q : Request) : List Bytes :=
  if H.openFile q.name ≤ 0 then []
  else
    let (r,reply) := H.ioctl c.number q
    if r = -1 then []
    else if c = .list then
      listLoop inputFile N.toNat (reply.getD { H.heap with version := q.version }).oldest
    else []

def clientStrings (H : Host) (argv : List Bytes) : List Bytes :=
  match parseCommand argv with
  | none => []
  | some (c,inputFile,version) =>
    if inputFile = bytesOf "NULL" then []
    else if H.mallocQuery = false then []
    else if H.mallocName = false then []
    else
      let q := clientRequest inputFile (version.getD H.heap.version)
      mountPoint :: q.name :: listStrings H c inputFile q

-- char name[100], with the terminating NUL
def InBuffer (x : Name) : Prop := x.length + 1 ≤ 100

instance (x : Name) : Decidable (InBuffer x) := inferInstanceAs (Decidable (_ ≤ _))

def Labels (v : Int) (x : Name) : Prop := (int v).length + x.length ≤ 98

def KernelCall.Short (L : Lower) (J : Junk) (f : File) (d : Disk) : KernelCall → Prop
  | .write _ _ => Labels (nextVersion (counter L J f d)) f.name
  | .ioctl cmd q => L.lowerFile = true → match cmd with
    | 1000 =>
      if q.version ≠ 0 then Labels q.version q.file
      else 0 < counter L J f d → Labels (counter L J f d) q.file
    | 1001 => q.file.length ≤ 99 ∧ (¬ Blocked L q.file d → q.file.length ≤ 90 ∧
        (Begins L (restoredName q.file) d → Labels q.version q.file ∧
          (Refills L q d → 0 < counter L J f d → Labels (counter L J f d) q.file)))
    | 1002 => Labels q.version q.file
    | _ => True

def KernelCall.bounded (L : Lower) (J : Junk) (f : File) (c : KernelCall) (s : Sys) :
    Option (Outcome × Sys × Option Query) :=
  if ∀ p ∈ c.names L J f s, InBuffer p.2 then some (c.execute L J f s) else none

structure Host.Fits (H : Host) : Prop where
  heap : IsInt H.heap.oldest
  reply : ∀ cmd q u, (H.ioctl cmd q).2 = some u → IsInt u.oldest

section
variable {L : Lower} {J : Junk} {f : File} {q : Request} {s t : Sys} {d : Disk} {n x : Name}
  {v : Int} {H : Host} {argv : List Bytes}

theorem inBuffer_backupName : InBuffer (backupName v x) ↔ Labels v x := by
  rw [InBuffer,Labels,backupName,labelled_length]
  omega

theorem inBuffer_restoredName : InBuffer (restoredName x) ↔ x.length ≤ 90 := by
  have hr : restored.length = 9 := by decide
  rw [InBuffer,restoredName,List.length_append,hr]
  omega

theorem labels_mono {w : Int} (h : 0 ≤ v) (hvw : v ≤ w) (hl : Labels w x) : Labels v x :=
  (Nat.add_le_add_right (int_length_mono h hvw) _).trans hl

theorem loopNames_inBuffer {c : Int} : (∀ p ∈ loopNames L n c.toNat s, InBuffer p.2) ↔
    (0 < c → Labels c n) := by
  constructor
  · intro h hc
    obtain ⟨k,hk⟩ := Nat.exists_eq_succ_of_ne_zero (n := c.toNat) (by omega)
    rw [hk,loopNames] at h
    have hv := h _ List.mem_cons_self
    have hck : ((k + 1 : ℕ) : Int) = c := by omega
    rw [hck] at hv
    exact inBuffer_backupName.mp hv
  · intro h p hp
    obtain ⟨v,h1,h2,rfl⟩ := mem_loopNames hp
    exact inBuffer_backupName.mpr (labels_mono (by omega) (by omega) (h (by omega)))

theorem writeNames_inBuffer : (∀ p ∈ writeNames L J f s, InBuffer p.2) ↔
    Labels (nextVersion (counter L J f s.disk)) f.name := by
  unfold writeNames
  generalize nextVersion (counter L J f s.disk) = val
  rw [List.forall_mem_cons]
  refine ⟨fun h => inBuffer_backupName.mp h.1,fun h => ⟨inBuffer_backupName.mpr h,?_⟩⟩
  split_ifs with hv
  · rintro p hp
    rw [List.mem_singleton.mp hp]
    have hN : N = 10 := rfl
    exact inBuffer_backupName.mpr (labels_mono (by omega) (by omega) h)
  · simp

theorem deleteNames_inBuffer : (∀ p ∈ deleteNames L J f q s, InBuffer p.2) ↔
    if q.version ≠ 0 then Labels q.version q.file
    else 0 < counter L J f s.disk → Labels (counter L J f s.disk) q.file := by
  unfold deleteNames
  split_ifs
  · rw [List.forall_mem_singleton]
    exact inBuffer_backupName
  · exact loopNames_inBuffer

theorem restoreCopy_spec (ht : t.disk = begun (restoredName q.file) (cleared L q d)) :
    ¬ Refills L q d ∧
        (∃ e, (restoreCopy L q.file q.version (restoredName q.file) t).1 = some e) ∨
      Refills L q d ∧ (restoreCopy L q.file q.version (restoredName q.file) t).1 = none ∧
        ∃ i, (restoreCopy L q.file q.version (restoredName q.file) t).2.disk =
          refilled L q i d := by
  have hfd : vfsPathLookup L.pathLookup (backupName q.version q.file) t.disk = found L q d := by
    rw [ht,found]
  unfold restoreCopy
  dsimp only
  rw [hfd]
  have hdir := found_dir (L := L) (q := q) (d := d)
  have hres := found_result (L := L) (q := q) (d := d)
  unfold refilled
  generalize found L q d = r at hdir hres ⊢
  obtain ⟨r,d'⟩ := r
  rcases hres with ⟨⟨err,_,he⟩,hno⟩ | ⟨⟨i,hi,hp⟩,hpl⟩
  · cases he
    exact .inl ⟨fun h => hno ⟨h.1,h.2.1⟩,err,rfl⟩
  · cases hi
    dsimp only at hdir ⊢
    have hnull (hn : Opened.isNull L.openSrc L.openDest) : ¬ Refills L q d := by
      rintro ⟨_,_,hs,hd⟩
      rcases hn with hn | ⟨_,hn⟩
      · simp [hs] at hn
      · simp [hd] at hn
    cases hs : L.openSrc with
    | err e =>
      exact .inl ⟨fun h => absurd (h.2.2.1.symm.trans hs) (by simp),e,
        (openAndCopy_src hs _ _ _ _).1⟩
    | null => exact .inl ⟨hnull (.inl hs),0,(openAndCopy_null (.inl hs) _ _ _ _).1⟩
    | file =>
      cases hd : L.openDest with
      | err e =>
        exact .inl ⟨fun h => absurd (h.2.2.2.symm.trans hd) (by simp),e,
          (openAndCopy_dest hs hd _ _ _ _).1⟩
      | null =>
        exact .inl ⟨hnull (.inr ⟨hs,hd⟩),0,(openAndCopy_null (.inr ⟨hs,hd⟩) _ _ _ _).1⟩
      | file =>
        exact .inr ⟨⟨hpl,by rw [hp]; rfl,hs,hd⟩,(openAndCopy_done hs hd hdir _ _).1,i,
          (openAndCopy_done hs hd hdir _ _).2⟩

theorem restoreNames_inBuffer (hf : f.ino < s.disk.nextIno) :
    (∀ p ∈ restoreNames L J f q s, InBuffer p.2) ↔
      q.file.length ≤ 99 ∧ (¬ Blocked L q.file s.disk → q.file.length ≤ 90 ∧
        (Begins L (restoredName q.file) s.disk → Labels q.version q.file ∧
          (Refills L q s.disk → 0 < counter L J f s.disk →
            Labels (counter L J f s.disk) q.file))) := by
  have hcur : InBuffer q.file ↔ q.file.length ≤ 99 := by
    rw [InBuffer]
    omega
  unfold restoreNames
  dsimp only
  obtain ⟨h1,h2⟩ := lookupDelete_spec L .current q.file (s.emit [.get .parent])
  rw [Sys.emit_disk] at h1 h2
  rw [List.forall_mem_cons,hcur]
  refine and_congr_right fun _ => ?_
  generalize lookupDelete L _ _ _ = out at h1 h2 ⊢
  obtain ⟨err,t⟩ := out
  dsimp only at h1 h2 ⊢
  change t.disk = cleared L q s.disk at h2
  subst h1
  have hrest : Begins L (restoredName q.file) s.disk → L.dAlloc = true ∧ L.lookup = none ∧
      (cleared L q s.disk).lowerIno (restoredName q.file) = none ∧ L.create = none := fun h =>
    have hb := cleared_begins.mpr h
    ⟨hb.dAlloc,hb.lookup,hb.free,hb.create⟩
  have hnil (h : ¬ Begins L (restoredName q.file) s.disk) {P : Prop} :
      (∀ p ∈ ([] : List (Role × Name)), InBuffer p.2) ↔
        (Begins L (restoredName q.file) s.disk → P) :=
    iff_of_true (by simp) fun hb => absurd hb h
  split_ifs with he ha
  · exact iff_of_true (by simp) fun hb => absurd he (not_not.mpr (discard_free.mpr hb))
  · rw [List.forall_mem_cons,inBuffer_restoredName,
      forall_prop_of_true (discard_free.mp (not_not.mp he))]
    refine and_congr_right fun _ => hnil fun hb => ?_
    simp [(hrest hb).1] at ha
  · rw [List.forall_mem_cons,inBuffer_restoredName,
      forall_prop_of_true (discard_free.mp (not_not.mp he))]
    refine and_congr_right fun _ => ?_
    cases hl : L.lookup with
    | some e =>
      rw [bkpfsLookup_none hl]
      exact hnil fun hb => by simp [(hrest hb).2.1] at hl
    | none =>
      obtain ⟨u,hu,hud⟩ := bkpfsLookup_some hl .restored (restoredName q.file)
        (t.emit [.get (.newDentry (restoredName q.file))])
      rw [hu]
      rw [Sys.emit_disk,h2] at hud
      dsimp only
      have hcr := create_lookedUp (L := L) (r := .restored) hud
      generalize create L _ _ u = out at hcr ⊢
      obtain ⟨err,v⟩ := out
      dsimp only at hcr ⊢
      rcases hcr with ⟨hi,rfl,_⟩ | ⟨hi,⟨e,hcr,rfl⟩,_⟩ | ⟨⟨hi,hcr⟩,rfl,hv⟩
      · rw [if_pos (by decide)]
        exact hnil fun hb => by simp [(hrest hb).2.2.1] at hi
      · rw [if_pos (errno_ne_zero e)]
        exact hnil fun hb => by simp [(hrest hb).2.2.2] at hcr
      · have hb : Begins L (restoredName q.file) s.disk :=
          cleared_begins.mp ⟨by simpa using ha,hl,hi,hcr⟩
        rw [if_neg (by decide),List.forall_mem_cons,inBuffer_backupName,forall_prop_of_true hb]
        refine and_congr_right fun _ => ?_
        have hspec := restoreCopy_spec (L := L) (q := q) hv
        generalize restoreCopy L _ _ _ _ = out at hspec ⊢
        obtain ⟨o,w⟩ := out
        dsimp only at hspec
        rcases hspec with ⟨hn,e,rfl⟩ | ⟨hr,rfl,i,hw⟩
        · exact iff_of_true (by simp) fun h => absurd h hn
        · dsimp only
          rw [forall_prop_of_true hr,loopNames_inBuffer,hw,refilled_counter hf]

theorem names_inBuffer (hf : f.ino < s.disk.nextIno) (c : KernelCall) :
    (∀ p ∈ c.names L J f s, InBuffer p.2) ↔ c.Short L J f s.disk := by
  cases c with
  | write pos buf => exact writeNames_inBuffer
  | ioctl cmd q =>
    unfold KernelCall.names KernelCall.Short
    dsimp only
    cases hl : L.lowerFile with
    | false => exact iff_of_true (by simp) fun h => by simp at h
    | true =>
      rw [if_neg (by simp),forall_prop_of_true rfl]
      split
      · exact deleteNames_inBuffer
      · exact restoreNames_inBuffer hf
      · rw [viewNames,List.forall_mem_singleton]
        exact inBuffer_backupName
      · exact iff_of_true (by simp) trivial

theorem bounded_iff (hf : f.ino < s.disk.nextIno) {c : KernelCall}
    {r : Outcome × Sys × Option Query} :
    c.bounded L J f s = some r ↔ c.Short L J f s.disk ∧ c.execute L J f s = r := by
  rw [← names_inBuffer hf,KernelCall.bounded]
  split_ifs with hn
  · rw [and_iff_right hn,Option.some.injEq]
  · exact iff_of_false (by simp) fun h => hn h.1

theorem ioctl_unchanged {cmd : ℕ} (h0 : cmd ≠ 1000) (h1 : cmd ≠ 1001) (h2 : cmd ≠ 1002) :
    (bkpfsUnlockedIoctl L J f cmd q s).2.1 = s := by
  cases hl : L.lowerFile with
  | false => rw [ioctl_noFile J f s hl]
  | true =>
    by_cases h3 : cmd = 1003
    · subst h3
      rw [ioctl_list J f s hl,list]
      dsimp only
      split_ifs <;> rfl
    · have he := execute_other (f := f) (q := q) (s := s) hl h0 h1 h2 h3 J
      change bkpfsUnlockedIoctl L J f cmd q s = _ at he
      rw [he]

theorem execute_traced (c : KernelCall) :
    Traced (fun r x => (r,x) ∈ c.names L J f s) s (c.execute L J f s).2.1 := by
  cases c with
  | write pos buf => exact (traced_write (fun _ hp => hp) pos buf).after_parent
  | ioctl cmd q =>
    change Traced (fun r x => (r,x) ∈ (KernelCall.ioctl cmd q).names L J f s) s
      (bkpfsUnlockedIoctl L J f cmd q s).2.1
    cases hl : L.lowerFile with
    | false =>
      rw [ioctl_noFile J f s hl]
      exact .refl
    | true =>
      unfold KernelCall.names
      dsimp only
      rw [if_neg (by simp [hl])]
      split
      · unfold deleteNames
        by_cases hv : q.version = 0
        · rw [ioctl_deleteAll J f s hl hv,if_neg (not_not.mpr hv)]
          exact (traced_deleteAll fun _ hp => hp).of_loop
        · rw [ioctl_deleteOne J f s hl hv,if_pos hv]
          exact (traced_deleteOne List.mem_cons_self).after_parent
      · rw [ioctl_restore J f s hl]
        exact (traced_restore fun _ hp => hp).after_parent
      · rw [ioctl_view J f s hl]
        exact (traced_view fun _ hp => hp).after_parent
      · rw [ioctl_unchanged ‹_› ‹_› ‹_›]
        exact .refl

theorem inBuffer_listLoop (hx : x.length ≤ 88) (j : ℕ) {i : Int} (hi : IsInt i) :
    ∀ w ∈ listLoop x j i, InBuffer w := by
  induction j generalizing i with
  | zero => simp [listLoop]
  | succ j ih =>
    have hrest : ∀ w ∈ listLoop x j (wrapInt (i - 1)), InBuffer w := ih (wrapInt_bounds _)
    rw [listLoop]
    split_ifs with hpos
    · refine List.forall_mem_cons.mpr ⟨inBuffer_backupName.mpr ?_,hrest⟩
      have hmax : (int INT_MAX).length = 10 := by decide
      have hlen := int_length_mono hpos.le hi.2
      rw [Labels]
      omega
    · exact hrest

theorem listStrings_inBuffer (hH : H.Fits) (hx : x.length ≤ 88) (c : Command) (q : Request) :
    ∀ w ∈ listStrings H c x q, InBuffer w := by
  have hr := hH.reply c.number q
  unfold listStrings
  generalize H.ioctl c.number q = out at hr ⊢
  obtain ⟨r,reply⟩ := out
  dsimp only at hr ⊢
  split_ifs
  · simp
  · simp
  · cases reply with
    | none => exact inBuffer_listLoop hx N.toNat hH.heap
    | some u => exact inBuffer_listLoop hx N.toNat (hr u rfl)
  · simp

theorem clientStrings_inBuffer (hH : H.Fits) : (∀ w ∈ clientStrings H argv, InBuffer w) ↔
    ∀ c x v, Accepted H argv c x v → x.length ≤ 88 := by
  have hmount : InBuffer mountPoint := by
    rw [InBuffer]
    decide
  have hpath (x : Name) : InBuffer (mountPoint ++ x) ↔ x.length ≤ 88 := by
    have hm : mountPoint.length = 11 := by decide
    rw [InBuffer,List.length_append,hm]
    omega
  unfold clientStrings
  cases hp : parseCommand argv with
  | none =>
    refine iff_of_true (by simp) fun c x v ha => ?_
    have hp' := ha.parsed
    rw [hp] at hp'
    cases hp'
  | some r =>
    obtain ⟨c,x,v⟩ := r
    have huniq {c' : Command} {x' : Name} {v' : Option Int} (ha : Accepted H argv c' x' v') :
        Accepted H argv c x v ∧ x' = x := by
      cases Option.some.inj (hp.symm.trans ha.parsed)
      exact ⟨ha,rfl⟩
    have hstop (hno : ¬ Accepted H argv c x v) : (∀ w ∈ ([] : List Bytes), InBuffer w) ↔
        ∀ c x v, Accepted H argv c x v → x.length ≤ 88 :=
      iff_of_true (by simp) fun _ _ _ ha => absurd (huniq ha).1 hno
    dsimp only
    split_ifs with hx hq hn
    · exact hstop fun ha => ha.named hx
    · exact hstop fun ha => by simp [ha.query] at hq
    · exact hstop fun ha => by simp [ha.name] at hn
    · have ha : Accepted H argv c x v := ⟨hp,hx,by simpa using hq,by simpa using hn⟩
      rw [List.forall_mem_cons,List.forall_mem_cons]
      constructor
      · rintro ⟨_,hw,_⟩ c' x' v' ha'
        rw [(huniq ha').2]
        exact (hpath x).mp hw
      · intro h
        have hlen := h c x v ha
        exact ⟨hmount,(hpath x).mpr hlen,listStrings_inBuffer hH hlen c _⟩

end

theorem formatted_names_fit_iff (L : Lower) (J : Junk) (f : File) (c : KernelCall) (s : Sys)
    (hf : f.ino < s.disk.nextIno) (H : Host) (argv : List Bytes) (hH : H.Fits) :
    ((∀ p ∈ c.names L J f s, InBuffer p.2) ↔ c.Short L J f s.disk) ∧
      ((∀ w ∈ clientStrings H argv, InBuffer w) ↔
        ∀ c x v, Accepted H argv c x v → x.length ≤ 88) :=
  ⟨names_inBuffer hf c,clientStrings_inBuffer hH⟩

theorem formatted_names_fit_iff_aTxt :
    ((∀ p ∈ (KernelCall.write 0 [1]).names {} {} aTxt ⟨Disk.single aTxt {},[]⟩, InBuffer p.2) ↔
      (KernelCall.write 0 [1]).Short {} {} aTxt (Disk.single aTxt {})) ∧
    ((∀ w ∈ clientStrings obliging [[],bytesOf "l",aTxt.name], InBuffer w) ↔
      ∀ c x v, Accepted obliging [[],bytesOf "l",aTxt.name] c x v → x.length ≤ 88) :=
  formatted_names_fit_iff {} {} aTxt (.write 0 [1]) ⟨Disk.single aTxt {},[]⟩ (by decide) obliging
    [[],bytesOf "l",aTxt.name] ⟨isInt_zero,fun _ _ _ h => by cases h⟩

def longName : File := ⟨⟨List.replicate 255 97,by decide +kernel⟩,0⟩

theorem long_name_overflows : ¬ ∀ (L : Lower) (J : Junk) (f : File) (c : KernelCall) (s : Sys),
    Sound f s.disk → f.name.val.length ≤ 255 → ∀ p ∈ c.names L J f s, InBuffer p.2 := by
  intro h
  have hlen : longName.name.val.length = 255 := List.length_replicate
  have hb := h {} { val := -7 } longName (.write 0 [1]) ⟨Disk.single longName {},[]⟩
    (sound_single longName {}) hlen.le _ List.mem_cons_self
  have hl := inBuffer_backupName.mp hb
  rw [Labels,hlen] at hl
  omega

end BackupFs
