import BackupFs.Client.Address

namespace BackupFs

def dot : UInt8 := 46

def Opens {D : Type} (t : Path.Tree UInt8 D Ino) (input : Name) (d : D) (f : File) : Prop :=
  Path.Walk slash dot t t.root ((mountPoint ++ input).splitOn slash) d f.name.val f.ino

def SameEntries (n : Name) (s s' : Sys) : Prop :=
  ∃ es, s'.trace = s.trace ++ es ∧ (∀ e ∈ es, e.Fits n) ∧
    ∀ r x, .create r x 0 ∈ es → slash ∉ x

def AsksNothing (L : Lower) (J : Junk) (f : File) (cmd : ℕ) (q : Request) (s : Sys) : Prop :=
  L.lowerFile = false ∨ cmd = 1000 ∧ q.version = 0 ∧ counter L J f s.disk ≤ 0

section
variable {n m : Name} {s s' : Sys}

theorem slash_mem_nameOf {r : Role} : slash ∈ r.nameOf n ↔ slash ∈ n := by
  cases r with
  | current => exact Iff.rfl
  | restored => exact slash_mem_restoredName
  | backup v => exact slash_mem_backupName

theorem emits_same (hn : slash ∉ n) (h : Emits n s s') : SameEntries n s s' := by
  obtain ⟨es,he,hf⟩ := h
  refine ⟨es,he,hf,fun r x hm => ?_⟩
  rw [hf _ hm r x rfl]
  exact fun hx => hn (slash_mem_nameOf.mp hx)

theorem looks_same (h : Looks m s s') (h' : SameEntries n s s') : m = n := by
  obtain ⟨es,he,hf,e,hm,ha⟩ := h
  obtain ⟨es',he',hf',_⟩ := h'
  have hes : es = es' := List.append_cancel_left (he.symm.trans he')
  exact fits_inj ha (hf e hm) (hf' e (hes ▸ hm))

variable {L : Lower} {J : Junk} {f : File} {cmd : ℕ} {q : Request}

theorem ioctl_looks (hc : cmd = 1000 ∨ cmd = 1001 ∨ cmd = 1002)
    (h : ¬ AsksNothing L J f cmd q s) :
    Looks q.file s (bkpfsUnlockedIoctl L J f cmd q s).2.1 := by
  obtain ⟨hl,hd⟩ := not_or.mp h
  rw [Bool.not_eq_false] at hl
  rcases hc with rfl | rfl | rfl
  · by_cases hv : q.version = 0
    · rw [ioctl_deleteAll J f s hl hv]
      exact looks_deleteAll (by_contra fun hn => hd ⟨rfl,hv,not_lt.mp hn⟩)
    · rw [ioctl_deleteOne J f s hl hv]
      exact looks_deleteOne
  · rw [ioctl_restore J f s hl]
    exact looks_restore
  · rw [ioctl_view J f s hl]
    exact looks_view

theorem ioctl_silent (h : AsksNothing L J f cmd q s) :
    (bkpfsUnlockedIoctl L J f cmd q s).2.1.trace = s.trace := by
  rcases Bool.eq_false_or_eq_true L.lowerFile with hl | hl
  · obtain hl' | ⟨rfl,hv,hd⟩ := h
    · rw [hl] at hl'
      cases hl'
    · rw [ioctl_deleteAll J f s hl hv]
      exact deleteAll_silent hd
  · rw [ioctl_noFile J f s hl]

theorem ioctl_same_iff (hc : cmd = 1000 ∨ cmd = 1001 ∨ cmd = 1002) :
    SameEntries f.name s (bkpfsUnlockedIoctl L J f cmd q s).2.1 ↔
      q.file = f.name ∨ AsksNothing L J f cmd q s := by
  constructor
  · intro h
    by_cases ha : AsksNothing L J f cmd q s
    · exact .inr ha
    · exact .inl (looks_same (ioctl_looks hc ha) h)
  · intro h
    by_cases ha : AsksNothing L J f cmd q s
    · exact ⟨[],by rw [ioctl_silent ha,List.append_nil],by simp,by simp⟩
    · have hq := h.resolve_right ha
      have hl := ioctl_looks hc ha
      rw [hq] at hl
      exact emits_same f.name.2.2.1 hl.emits

end

theorem opens_plain {D : Type} {t : Path.Tree UInt8 D Ino} {d : D} {f : File} {input : Name}
    (hn : t.NoSymlinks) (h : Opens t input d f) : input = f.name ↔ slash ∉ input := by
  constructor
  · rintro rfl
    exact f.name.2.2.1
  · intro hs
    have hm : mountPoint ++ input = bytesOf "/mnt/bkpfs" ++ slash :: input := by
      have hb : mountPoint = bytesOf "/mnt/bkpfs" ++ [slash] := by decide
      rw [hb,List.append_assoc,List.singleton_append]
    have hw := Path.walk_last hn h
    rw [hm,Path.splitOn_last hs] at hw
    exact Option.some.inj hw

theorem client_addresses_file {D : Type} {t : Path.Tree UInt8 D Ino} {d : D} {f : File}
    {input : Name} (h : Opens t input d f) {cmd : ℕ} (hc : cmd = 1000 ∨ cmd = 1001 ∨ cmd = 1002)
    (L : Lower) (J : Junk) (version : Int) (s : Sys) :
    (SameEntries f.name s
        (bkpfsUnlockedIoctl L J f cmd (clientRequest input version) s).2.1 ↔
      input = f.name ∨ AsksNothing L J f cmd (clientRequest input version) s) ∧
    (t.NoSymlinks → (input = f.name ↔ slash ∉ input)) ∧
    ∀ pos buf, SameEntries f.name s (bkpfsWrite L J f pos buf s).2 := by
  refine ⟨?_,fun hn => opens_plain hn h,fun _ _ => emits_same f.name.2.2.1 emits_write⟩
  have hi := ioctl_same_iff (s := s) (L := L) (J := J) (f := f)
    (q := clientRequest input version) hc
  rwa [clientRequest_file] at hi

def nested : Path.Tree UInt8 ℕ Ino where
  root := 0
  parent := fun d => d - 1
  entry := fun d x =>
    match d with
    | 0 => if x = bytesOf "mnt" then some (.dir 1) else none
    | 1 => if x = bytesOf "bkpfs" then some (.dir 2) else none
    | 2 =>
      if x = bytesOf "d" then some (.dir 3)
      else if x = bytesOf "a.txt" then some (.file 0)
      else none
    | 3 => if x = bytesOf "a.txt" then some (.file 1) else none
    | _ => none

def nestedFile : File := ⟨aTxt.name,1⟩

section
variable {d : ℕ} {x : Name} {i : Ino} {xs : List Name}

theorem nested_mount (h : Path.Walk slash dot nested 2 xs d x i) :
    Path.Walk slash dot nested 0 ([] :: bytesOf "mnt" :: bytesOf "bkpfs" :: xs) d x i :=
  .stay (.inl rfl) (.down (e := 1) (by decide) (.down (e := 2) (by decide) h))

end

theorem nested_opens : Opens nested (bytesOf "a.txt") 2 aTxt := by
  have hs : (mountPoint ++ bytesOf "a.txt").splitOn slash =
      [[],bytesOf "mnt",bytesOf "bkpfs",bytesOf "a.txt"] := by decide +kernel
  rw [Opens,hs]
  exact nested_mount (.file (by decide))

theorem nested_opens_deep : Opens nested (bytesOf "d/a.txt") 3 nestedFile := by
  have hs : (mountPoint ++ bytesOf "d/a.txt").splitOn slash =
      [[],bytesOf "mnt",bytesOf "bkpfs",bytesOf "d",bytesOf "a.txt"] := by decide +kernel
  rw [Opens,hs]
  exact nested_mount (.down (e := 3) (by decide) (.file (by decide)))

theorem client_addresses_file_mount :
    (SameEntries aTxt.name ⟨Disk.single aTxt {},[]⟩
        (bkpfsUnlockedIoctl {} {} aTxt 1001 (clientRequest (bytesOf "a.txt") 1)
          ⟨Disk.single aTxt {},[]⟩).2.1 ↔
      bytesOf "a.txt" = aTxt.name ∨
        AsksNothing {} {} aTxt 1001 (clientRequest (bytesOf "a.txt") 1)
          ⟨Disk.single aTxt {},[]⟩) ∧
    (nested.NoSymlinks → (bytesOf "a.txt" = aTxt.name ↔ slash ∉ bytesOf "a.txt")) ∧
    ∀ pos buf, SameEntries aTxt.name ⟨Disk.single aTxt {},[]⟩
      (bkpfsWrite {} {} aTxt pos buf ⟨Disk.single aTxt {},[]⟩).2 :=
  client_addresses_file nested_opens (.inr (.inl rfl)) {} {} 1 ⟨Disk.single aTxt {},[]⟩

theorem nested_restore_addresses_path : ¬ ∀ (input : Name) (d : ℕ) (f : File),
    Opens nested input d f → ∀ (version : Int) (s : Sys), SameEntries f.name s
      (bkpfsUnlockedIoctl {} {} f 1001 (clientRequest input version) s).2.1 := by
  intro h
  obtain ⟨es,he,_,hs⟩ := h (bytesOf "d/a.txt") 3 nestedFile nested_opens_deep 1
    ⟨Disk.single nestedFile {},[]⟩
  have hm : .create .restored (bytesOf "restored_d/a.txt") 0 ∈
      (bkpfsUnlockedIoctl {} {} nestedFile 1001 (clientRequest (bytesOf "d/a.txt") 1)
        ⟨Disk.single nestedFile {},[]⟩).2.1.trace := by decide +kernel
  rw [he] at hm
  exact hs .restored (bytesOf "restored_d/a.txt") hm (by decide)

end BackupFs
