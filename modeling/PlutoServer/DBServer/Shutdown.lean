import PlutoServer.DBServer.Task

/-!
# The end of the DB server

Reference: `DBServer/db_task.h`, `DBServer/main.cpp`.

`main` joins the workers, so the DB server ends only if each of them leaves `CDBTask::Run`. Once the
flag is up and nothing is pushed any more, a turn of the loop takes a message from the list or finds
the list empty, in which case it is the last one. `stepsLeft` bounds the steps that a worker still
takes; its own steps bring the bound down and those of the others do not raise it
(`stepsLeft_run`). So all workers leave, and they leave nothing behind (`shutdown_completes`).
-/

namespace PlutoServer

open Runs

variable {ι M : Type*}

/-- A step of the worker `i`. -/
def DBStep.isWorker [DecidableEq ι] (i : ι) : DBStep ι M → Bool
  | .worker j => decide (j = i)
  | _ => false

/-- How many of the steps are steps of the worker `i`. -/
def workerSteps [DecidableEq ι] (i : ι) (ls : List (DBStep ι M)) : ℕ :=
  ls.countP (DBStep.isWorker i)

/-- How many steps a worker takes at most before it has left, with `n` messages in the list. -/
def Pc.stepsLeft (n : ℕ) : Pc M → ℕ
  | .popPluto => 4 * max n 1
  | .sleep => 4 * n + 3
  | .handleMessages _ => 4 * n + 3
  | .testShutDown => 4 * n + 2
  | .testEmpty => 4 * n + 1
  | .left => 0

theorem Pc.stepsLeft_mono (pc : Pc M) {m n : ℕ} (h : m ≤ n) : pc.stepsLeft m ≤ pc.stepsLeft n := by
  cases pc with
  | left => exact Nat.le_refl _
  | _ => simp only [stepsLeft]; omega

theorem Pc.stepsLeft_le (pc : Pc M) (n : ℕ) : pc.stepsLeft n ≤ 4 * (n + 1) := by
  cases pc with
  | left => exact Nat.zero_le _
  | _ => simp only [stepsLeft]; omega

theorem Pc.eq_left_of_stepsLeft {pc : Pc M} {n : ℕ} (h : pc.stepsLeft n = 0) : pc = .left := by
  cases pc with
  | left => rfl
  | _ => simp only [stepsLeft] at h; omega

namespace CDBTasks

/-- How many steps the worker `i` takes at most before it has left. -/
def stepsLeft (s : CDBTasks ι M) (i : ι) : ℕ := (s.pc i).stepsLeft s.recvPlutoList.list.length

variable [DecidableEq ι]

/-- What a step of the worker `j` does with the list and with the other workers. -/
theorem runStep_frame (s : CDBTasks ι M) (j : ι) :
    (s.runStep j).recvPlutoList.list.length ≤ s.recvPlutoList.list.length ∧
      (s.runStep j).bShutDown = s.bShutDown ∧ ∀ i, i ≠ j → (s.runStep j).pc i = s.pc i := by
  unfold runStep
  split
  next =>
    rcases s.recvPlutoList.popPluto_cases with ⟨hpop, -⟩ | ⟨p, rest, hpop, hlist⟩
    · rw [hpop]
      exact ⟨Nat.le_refl _, rfl, fun i hi => goto_pc_of_ne _ hi _⟩
    · rw [hpop, hlist]
      exact ⟨Nat.le_succ _, rfl, fun i hi => goto_pc_of_ne _ hi _⟩
  next => exact ⟨Nat.le_refl _, rfl, fun i hi => goto_pc_of_ne _ hi _⟩
  next => exact ⟨Nat.le_refl _, rfl, fun i hi => goto_pc_of_ne _ hi _⟩
  next => exact ⟨Nat.le_refl _, rfl, fun i hi => goto_pc_of_ne _ hi _⟩
  next => exact ⟨Nat.le_refl _, rfl, fun i hi => goto_pc_of_ne _ hi _⟩
  next => exact ⟨Nat.le_refl _, rfl, fun _ _ => rfl⟩

/-- With the flag up, each step of a worker that has not left brings it nearer to the end. -/
theorem stepsLeft_runStep_self {s : CDBTasks ι M} (hflag : s.bShutDown = true) (i : ι) :
    (s.runStep i).stepsLeft i ≤ s.stepsLeft i - 1 := by
  unfold runStep stepsLeft
  split
  next hpc =>
    rw [hpc]
    rcases s.recvPlutoList.popPluto_cases with ⟨hpop, hlist⟩ | ⟨p, rest, hpop, hlist⟩
    · simp [hpop, hlist, Pc.stepsLeft, goto]
    · rw [hpop, hlist]
      simp only [goto_pc_self, Pc.stepsLeft, List.length_cons]
      simp only [goto]
      omega
  next hpc =>
    rw [hpc, goto_pc_self]
    exact Nat.le_refl _
  next hpc =>
    rw [hpc, goto_pc_self]
    exact Nat.le_refl _
  next hpc =>
    rw [hpc, goto_pc_self, if_pos hflag]
    exact Nat.le_refl _
  next hpc =>
    rw [hpc, goto_pc_self]
    -- the loop ends unless there is another message
    by_cases hempty : s.recvPlutoList.empty = true
    · rw [if_pos hempty]
      exact Nat.zero_le _
    · have hlist := mt (CPlutoList.empty_iff _).mpr hempty
      have hpos := List.length_pos_iff.mpr hlist
      rw [if_neg hempty]
      simp only [Pc.stepsLeft, goto]
      omega
  next hpc =>
    rw [hpc]
    exact Nat.zero_le _

theorem stepsLeft_step {s : CDBTasks ι M} (hflag : s.bShutDown = true) {l : DBStep ι M}
    (hl : s.NoLatePush l) (i : ι) :
    (s.step l).stepsLeft i ≤ s.stepsLeft i - workerSteps i [l] := by
  cases l with
  | worker j =>
    obtain ⟨hlength, -, hother⟩ := s.runStep_frame j
    by_cases hj : j = i
    · subst hj
      have hone : workerSteps j [DBStep.worker (M := M) j] = 1 := by
        simp [workerSteps, DBStep.isWorker]
      rw [hone]
      exact stepsLeft_runStep_self hflag j
    · have hzero : workerSteps i [DBStep.worker (M := M) j] = 0 := by
        simp [workerSteps, DBStep.isWorker, hj]
      rw [hzero, Nat.sub_zero, stepsLeft, stepsLeft]
      show ((s.runStep j).pc i).stepsLeft (s.runStep j).recvPlutoList.list.length ≤ _
      rw [hother i (Ne.symm hj)]
      exact (s.pc i).stepsLeft_mono hlength
  | pushPluto p => exact absurd (hflag.symm.trans hl) Bool.noConfusion
  | shutDown => exact Nat.le_of_eq rfl

/-- **Progress.** Once the flag is up, what is left for a worker goes down with each of its own
steps. -/
theorem stepsLeft_run {s : CDBTasks ι M} (hflag : s.bShutDown = true) {ls : List (DBStep ι M)}
    (hpush : Guarded step NoLatePush s ls) (i : ι) :
    (run step s ls).stepsLeft i ≤ s.stepsLeft i - workerSteps i ls := by
  induction ls generalizing s with
  | nil => exact Nat.le_refl _
  | cons l ls ih =>
    have hflag' : (s.step l).bShutDown = true := by
      cases l with
      | worker j => exact (s.runStep_frame j).2.1.trans hflag
      | pushPluto p => exact hflag
      | shutDown => rfl
    have hfirst := stepsLeft_step hflag hpush.1 i
    have hrest := ih hflag' hpush.2
    have hsplit : workerSteps i (l :: ls) = workerSteps i [l] + workerSteps i ls := by
      rw [← List.singleton_append, workerSteps, List.countP_append]
      rfl
    rw [run_cons, hsplit]
    omega

/-- **Shutdown comes to its end.** Nothing is pushed once the flag is up, and then each worker gets
four steps for every message that is in the list at that moment, and four more, in any order and
with any steps of the others in between. After that all workers have left, the list is empty, and
every message that was ever pushed has been handled exactly once. -/
theorem shutdown_completes [Nonempty ι] (before after : List (DBStep ι M))
    (hpush : Guarded step NoLatePush new (before ++ .shutDown :: after))
    (hsteps : ∀ i, 4 * ((run step new before).recvPlutoList.list.length + 1) ≤
      workerSteps i after) :
    (∀ i, (run step new (before ++ .shutDown :: after)).pc i = .left) ∧
      (run step new (before ++ .shutDown :: after)).recvPlutoList.list = [] ∧
      ((run step new (before ++ .shutDown :: after)).handled.map Prod.snd).Perm
        (run step new (before ++ .shutDown :: after)).pushed := by
  have hleaving : (run step new (before ++ .shutDown :: after)).Leaving :=
    hpush.inv (fun _ _ h hl => h.step hl) leaving_new
  have haccounted := accounted_run (before ++ .shutDown :: after)
  have hall (i : ι) : (run step new (before ++ .shutDown :: after)).pc i = .left := by
    rw [run_append, run_cons] at *
    have hafter := (guarded_append.mp hpush).2.2
    have hle := stepsLeft_run (s := (run step new before).step .shutDown) rfl hafter i
    have hbound := Pc.stepsLeft_le (((run step new before).step .shutDown).pc i)
      (run step new before).recvPlutoList.list.length
    have hi := hsteps i
    refine Pc.eq_left_of_stepsLeft (Nat.le_zero.mp (Nat.le_trans hle ?_))
    exact Nat.le_of_eq (Nat.sub_eq_zero_of_le (Nat.le_trans hbound hi))
  obtain ⟨i⟩ := ‹Nonempty ι›
  have hempty := hleaving.empty i (hall i)
  refine ⟨hall, hempty, haccounted.handled_perm (fun j => ?_) hempty⟩
  rw [hall j]
  rfl

/-- Two workers, two messages in the list when the flag goes up, twelve steps for each. -/
theorem shutdown_completes_two_workers :
    let before : List (DBStep (Fin 2) ℕ) := [.pushPluto 10, .pushPluto 11, .worker 0, .pushPluto 12]
    let after : List (DBStep (Fin 2) ℕ) := (List.replicate 12 [.worker 1, .worker 0]).flatten
    (∀ i, (run step new (before ++ .shutDown :: after)).pc i = .left) ∧
      (run step new (before ++ .shutDown :: after)).recvPlutoList.list = [] ∧
      ((run step new (before ++ .shutDown :: after)).handled.map Prod.snd).Perm
        (run step new (before ++ .shutDown :: after)).pushed :=
  shutdown_completes _ _ (by decide) (by decide)

end CDBTasks

end PlutoServer
