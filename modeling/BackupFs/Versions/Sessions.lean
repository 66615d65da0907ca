import BackupFs.Versions.Served

namespace BackupFs

namespace Versions

def Stored (a : Shelf) (b : Store) : Prop := a.toStore = b

section
variable {L : Lower} {f : File} {a : Shelf} {b : Store} {q : Request} {J : Junk} {cmd : ℕ}

theorem userResult_failed {S : Type} (r : Int) (s : S) (x : Option Query) :
    (userResult (.returned r,s,x)).1 = -1 ↔ r < 0 := by
  rw [userResult]
  dsimp only
  split_ifs with h
  · exact iff_of_true rfl h
  · exact iff_of_false (by omega) h

theorem serves_alike {r : Int × Shelf} {r' : Int × Store} (h : Serves r r') :
    Alike Stored (.returned r.1,r.2,none) (.returned r'.1,r'.2,none) := by
  refine ⟨?_,by simp,h.2⟩
  rw [userResult,userResult]
  dsimp only
  rcases h.1 with he | ⟨h1,h2⟩
  · rw [he]
  · rw [if_pos h1,if_pos h2]

theorem shelves_opened (a : Shelf) :
    a.opened.1 = a.toStore.opened.1 ∧ a.opened.2.toStore = a.toStore.opened.2 := by
  unfold Shelf.opened Store.opened
  split_ifs <;> exact ⟨rfl,rfl⟩

theorem ioctl_alike (h : a.IoctlSuits J cmd q) :
    Alike Stored (a.ioctl J L cmd q) (a.toStore.ioctl J L cmd q) := by
  unfold Shelf.ioctl Store.ioctl
  split
  · rcases eq_or_ne q.version 0 with hv | hv
    · rw [if_neg (not_not.mpr hv),if_neg (not_not.mpr hv)]
      exact serves_alike (deleteAll_serves (h.all rfl hv))
    · rw [if_pos hv,if_pos hv]
      exact serves_alike (delete_serves (h.one rfl hv) J)
  · exact serves_alike (restore_serves (h.restore rfl))
  · exact ⟨rfl,Iff.rfl,rfl⟩
  · exact ⟨rfl,Iff.rfl,rfl⟩
  · exact ⟨rfl,Iff.rfl,rfl⟩

theorem ioctl_suits (h0 : (userResult (a.ioctl J L cmd q)).1 = -1 ↔
      (userResult (a.toStore.ioctl J L cmd q)).1 = -1)
    (h : Stored (a.ioctl J L cmd q).2.1 (a.toStore.ioctl J L cmd q).2.1) :
    a.IoctlSuits J cmd q := by
  refine ⟨?_,?_,?_⟩
  · rintro rfl hv hm
    refine delete_only (J := J) hm ?_
    simpa only [Shelf.ioctl,Store.ioctl,if_pos hv,userResult_failed] using h0
  · rintro rfl hv
    refine deleteAll_only ?_
    simpa only [Shelf.ioctl,Store.ioctl,if_neg (not_not.mpr hv),Stored] using h
  · rintro rfl
    refine restore_only ?_ h
    simpa only [Shelf.ioctl,Store.ioctl,userResult_failed] using h0

theorem shelves_refine (f : File) : Refines f shelves stores Stored
    (fun J a => a.WriteSuits J) (fun J cmd q a => a.IoctlSuits J cmd q) where
  opened {_ a b} _ h := by
    obtain rfl : a.toStore = b := h
    exact shelves_opened a
  data {a b} h := congrArg Store.current h
  write {L J a b} pos buf _ h := by
    obtain rfl : a.toStore = b := h
    exact write_serves J L pos buf a
  ioctl {L J cmd q a b} _ h _ hs := by
    obtain rfl : a.toStore = b := h
    exact ioctl_alike hs
  ioctl_only {L J cmd q a b} _ h _ h0 hst := by
    obtain rfl : a.toStore = b := h
    exact ioctl_suits h0 hst
  evict {a b} h := by
    obtain rfl : a.toStore = b := h
    rfl
  shrink {k a b} h := by
    obtain rfl : a.toStore = b := h
    dsimp only [shelves,stores,Stored]
    split_ifs <;> rfl

end

def Untroubled (f : File) (s : Sys) (c : Act) : Prop :=
  shelves.Suits (fun J a => a.WriteSuits J) (fun J cmd q a => a.IoctlSuits J cmd q)
    (shelf f s.disk) c

def Keeps (f : File) (s : Sys) (b : Store) : Prop :=
  Tidy f s.disk ∧ (shelf f s.disk).toStore = b

theorem keeps_step {f : File} {s : Sys} {b : Store} {c : Act} (h : Keeps f s b)
    (hc : c.About f) : ((mount f).step s c).1 = (stores.step b c).1 ∧
      Keeps f ((mount f).step s c).2 (stores.step b c).2 ↔ Untroubled f s c := by
  obtain ⟨ht,rfl⟩ := h
  obtain ⟨h1,h2⟩ := mount_step ht.shows hc
  have hshelf := h2.eq_shelf
  rw [Untroubled,← step_iff (shelves_refine f) rfl hc,h1,Keeps,← hshelf]
  exact and_congr_right fun _ => and_iff_right h2.toTidy

theorem session_served_iff (f : File) (s : Sys) (h : Tidy f s.disk) (acts : List Act)
    (hacts : ∀ c ∈ acts, c.About f) :
    Lockstep.Agree (mount f).step stores.step (fun _ c => c) (Keeps f) s
        (shelf f s.disk).toStore acts ↔
      Lockstep.Along (mount f).step (Untroubled f) s acts :=
  Lockstep.agree_iff (fun _ _ _ hs hc => keeps_step hs hc) ⟨h,rfl⟩ hacts

theorem session_served_iff_viewed :
    Lockstep.Agree (mount aTxt).step stores.step (fun _ c => c) (Keeps aTxt)
        ⟨Disk.single aTxt {},[]⟩ (shelf aTxt (Disk.single aTxt {})).toStore viewed ↔
      Lockstep.Along (mount aTxt).step (Untroubled aTxt) ⟨Disk.single aTxt {},[]⟩ viewed :=
  session_served_iff aTxt ⟨Disk.single aTxt {},[]⟩ (tidy_single aTxt {}) viewed viewed_about

end Versions

end BackupFs
