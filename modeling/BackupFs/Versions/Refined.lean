import BackupFs.Versions.Calls
import BackupFs.Versions.Shell

namespace BackupFs

namespace Versions

def Showing (f : File) (s : Sys) (a : Shelf) : Prop := Shows f s.disk a

section
variable {L : Lower} {f : File} {d : Disk} {a : Shelf} {s : Sys} {k : Slot}

theorem shows_drop (h : Shows f d a) : Shows f (d.drop f.name) (a.on (a.hold false)) := by
  have hu : (d.drop f.name).upper f.name = none := Function.update_self _ _ _
  refine ⟨⟨h.base,h.allocated,h.own,fun i hi => ?_⟩,h.revision,h.youngest,h.current,h.entry,?_,
    h.hashed⟩
  · rw [hu] at hi
    cases hi
  · rw [hu]
    rfl

theorem shows_forget (h : Shows f d a) (k : Slot) :
    Shows f { d with cached := Function.update d.cached (k.name f.name) false }
      (a.hash k false) := by
  refine ⟨⟨h.base,h.allocated,h.own,h.pinned⟩,h.revision,h.youngest,h.current,h.entry,h.held,
    fun l => ?_⟩
  dsimp only
  rw [update_name,funext h.hashed]
  rfl

theorem mount_opened (hL : Granted L) (h : Showing f s a) :
    ((mount f).opened L s).1 = (shelves.opened L a).1 ∧
      Showing f ((mount f).opened L s).2 (shelves.opened L a).2 := by
  obtain ⟨ho,hs⟩ := shows_opened hL.lookup hL.dRevalidate h
  refine ⟨?_,hs⟩
  dsimp only [mount,shelves]
  rcases ho with ⟨h1,h2⟩ | ⟨h1,h2⟩
  · rw [h1,h2]
    rfl
  · rw [h1,h2]
    rfl

theorem mount_shrink (h : Showing f s a) (k : Slot) :
    Showing f ((mount f).shrink k s) (shelves.shrink k a) := by
  dsimp only [mount,shelves]
  rw [h.held]
  split_ifs
  · exact h
  · exact shows_forget h k

theorem mount_refines (f : File) : Refines f (mount f) shelves (Showing f) (fun _ _ => True)
    (fun _ _ _ _ => True) where
  opened hL h := mount_opened hL h
  data h := h.current
  write pos buf hL h := iff_of_true (shows_write hL.toGrants h _ pos buf) trivial
  ioctl {_ J cmd _ _ _} hL h hq _ := by
    obtain ⟨h1,h2,h3⟩ := shows_ioctl hL.toGrants h hq J cmd
    dsimp only [mount,shelves]
    refine ⟨?_,by rw [h1],h3⟩
    rw [userResult,userResult,h1,h2]
  ioctl_only _ _ _ _ _ := trivial
  evict h := shows_drop h
  shrink {k _ _} h := mount_shrink h k

theorem mount_step (h : Showing f s a) {c : Act} (hc : c.About f) :
    ((mount f).step s c).1 = (shelves.step a c).1 ∧
      Showing f ((mount f).step s c).2 (shelves.step a c).2 :=
  (step_iff (mount_refines f) h hc).mpr (suits_of (fun _ _ => trivial) (fun _ _ _ _ => trivial) s c)

end

theorem session_shows (f : File) (s : Sys) (h : Tidy f s.disk) (acts : List Act)
    (hacts : ∀ c ∈ acts, c.About f) :
    Lockstep.Agree (mount f).step shelves.step (fun _ c => c) (Showing f) s (shelf f s.disk)
      acts :=
  Lockstep.agree_of (fun _ _ _ hs hc => mount_step hs hc) h.shows hacts

theorem tidy_single (f : File) (n : Inode) : Tidy f (Disk.single f n) where
  base := Nat.lt_succ_self _
  allocated := (sound_single f n).allocated
  own i hi := by
    rw [Disk.single_dir,Function.update_self] at hi
    exact (Option.some.inj hi).symm
  pinned i hi := by cases hi

theorem granted_default : Granted {} := ⟨grants_default,rfl⟩

def bkpctlArgs (args : List String) : List Bytes := bytesOf "bkpctl" :: args.map bytesOf

def viewed : List Act :=
  [.write {} {} 0 (bytesOf "one"),.bkpctl {} {} {} (bkpctlArgs ["v","a.txt","1"])]

theorem viewed_about : ∀ c ∈ viewed, c.About aTxt := by
  have hp : parseCommand (bkpctlArgs ["v","a.txt","1"]) =
      some (.view,bytesOf "a.txt",some 1) := by decide
  rw [viewed,List.forall_mem_cons,List.forall_mem_singleton]
  refine ⟨granted_default,granted_default,fun c x v h => ?_⟩
  rw [hp] at h
  cases h
  rfl

theorem session_shows_viewed : Lockstep.Agree (mount aTxt).step shelves.step (fun _ c => c)
    (Showing aTxt) ⟨Disk.single aTxt {},[]⟩ (shelf aTxt (Disk.single aTxt {})) viewed :=
  session_shows aTxt ⟨Disk.single aTxt {},[]⟩ (tidy_single aTxt {}) viewed viewed_about

end Versions

end BackupFs
