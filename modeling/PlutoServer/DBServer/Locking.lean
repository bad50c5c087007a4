import PlutoServer.Common.Mutex
import PlutoServer.DBServer.Task
import Mathlib.Data.Sum.Basic

/-!
# The list of the workers and its mutex

Reference: `DBServer/db_task.h`.

`Task` takes each method of `CPlutoList` for a single step. Here the methods are cut into their
statements: the constructor of `CGuardLock`, which waits for the mutex, each use of `m_list`, and
the destructor of the guard. Between any two of them the other threads can take their own steps. A
`pthread_mutex_t` is a handle here (`pthread.h`), so the copy of it in the guard is the same mutex.

At most one thread is between the constructor and the destructor of its guard, and so `front` and
`pop_front` are only called on a list with elements, and the message they remove is the one they
return (`ListSafe`). Each statement is no step of the model in `Task`, or one step of it
(`abs_step`): what the threads do is what they would do if the methods were atomic
(`locked_refines`).
-/

namespace PlutoServer

open Runs Mutex

variable {ι κ M : Type*}

/-! ## The model -/

/-- Where a worker is in `CDBTask::Run` and in the methods of the list that it calls. -/
inductive LockPc (M : Type*) where
  /-- The constructor of the guard in `PopPluto`. -/
  | popLock
  /-- `m_list.size() > 0`. -/
  | popSize
  /-- `m_list.front()`. -/
  | popFront
  /-- `m_list.pop_front()`, with the front in a local variable. -/
  | popPopFront (p : M)
  /-- The destructor of the guard, with the value that `PopPluto` returns. -/
  | popUnlock (p : Option M)
  | sleep
  | handleMessages (p : M)
  | testShutDown
  /-- The constructor of the guard in `Empty`. -/
  | emptyLock
  /-- `m_list.size() == 0`. -/
  | emptySize
  | emptyUnlock (b : Bool)
  | left

/-- Where another thread is in `PushPluto`. -/
inductive PushPc (M : Type*) where
  /-- It is not in `PushPluto`. -/
  | idle
  | lock (p : M)
  | pushBack (p : M)
  | unlock

/-- What the threads of the DB server share, and where each of them is. -/
structure LockedTasks (ι κ M : Type*) where
  /-- `m_list` of `g_RecvPlutoList`. -/
  list : List M
  /-- The thread that has locked `m_lock`. -/
  owner : Option (ι ⊕ κ)
  /-- `g_bShutDown`. -/
  bShutDown : Bool
  pc : ι → LockPc M
  push : κ → PushPc M
  /-- Ghost: the messages put in the list, in order. -/
  pushed : List M
  /-- Ghost: the messages taken out of the list, in order, each with the worker that got it. -/
  popped : List (ι × M)
  /-- Ghost: the messages given to `HandleMessages`, in order, each with the worker. -/
  handled : List (ι × M)

/-- A step of a thread: a statement of a worker or of a thread in `PushPluto`, a call of
`PushPluto`, or the assignment to the flag. -/
inductive LockStep (ι κ M : Type*) where
  | worker (i : ι)
  | pusher (k : κ)
  | callPushPluto (k : κ) (p : M)
  | shutDown

namespace LockedTasks

/-- The threads before their first step. -/
def new : LockedTasks ι κ M where
  list := []
  owner := none
  bShutDown := false
  pc := fun _ => .popLock
  push := fun _ => .idle
  pushed := []
  popped := []
  handled := []

variable [DecidableEq ι] [DecidableEq κ]

/-- The worker `i` goes on at `pc`. -/
def goto (s : LockedTasks ι κ M) (i : ι) (pc : LockPc M) : LockedTasks ι κ M :=
  { s with pc := Function.update s.pc i pc }

/-- The thread `k` goes on at `pc`. -/
def pushGoto (s : LockedTasks ι κ M) (k : κ) (pc : PushPc M) : LockedTasks ι κ M :=
  { s with push := Function.update s.push k pc }

/-- The next statement of the worker `i`. -/
def runStep (s : LockedTasks ι κ M) (i : ι) : LockedTasks ι κ M :=
  match s.pc i with
  | .popLock =>
    -- a thread that waits for the mutex takes no step
    if s.owner = none then { s with owner := some (.inl i) }.goto i .popSize else s
  | .popSize => s.goto i (if s.list.length > 0 then .popFront else .popUnlock none)
  | .popFront =>
    match s.list with
    | [] => s -- the front of an empty list is undefined
    | p :: _ => s.goto i (.popPopFront p)
  | .popPopFront p =>
    { s with list := s.list.tail, popped := s.popped ++ [(i, p)] }.goto i (.popUnlock (some p))
  | .popUnlock none => { s with owner := none }.goto i .sleep
  | .popUnlock (some p) => { s with owner := none }.goto i (.handleMessages p)
  | .sleep => s.goto i .testShutDown
  | .handleMessages p => { s with handled := s.handled ++ [(i, p)] }.goto i .testShutDown
  | .testShutDown => s.goto i (if s.bShutDown then .emptyLock else .popLock)
  | .emptyLock =>
    if s.owner = none then { s with owner := some (.inl i) }.goto i .emptySize else s
  | .emptySize => s.goto i (.emptyUnlock (if s.list.length = 0 then true else false))
  | .emptyUnlock b => { s with owner := none }.goto i (if b then .left else .popLock)
  | .left => s

/-- The next statement of `PushPluto` in the thread `k`. -/
def pushStep (s : LockedTasks ι κ M) (k : κ) : LockedTasks ι κ M :=
  match s.push k with
  | .idle => s
  | .lock p =>
    if s.owner = none then { s with owner := some (.inr k) }.pushGoto k (.pushBack p) else s
  | .pushBack p =>
    { s with list := s.list ++ [p], pushed := s.pushed ++ [p] }.pushGoto k .unlock
  | .unlock => { s with owner := none }.pushGoto k .idle

/-- One step of any thread. -/
def step (s : LockedTasks ι κ M) : LockStep ι κ M → LockedTasks ι κ M
  | .worker i => s.runStep i
  | .pusher k => s.pushStep k
  | .callPushPluto k p =>
    match s.push k with
    | .idle => s.pushGoto k (.lock p)
    | _ => s -- the thread is still in an earlier call
  | .shutDown => { s with bShutDown := true }

/-- Nothing is put in the list once the flag is up. -/
def NoLatePush (s : LockedTasks ι κ M) : LockStep ι κ M → Prop
  | .pusher k => ∀ p, s.push k = .pushBack p → s.bShutDown = false
  | _ => True

end LockedTasks

/-! ## Mutual exclusion -/

/-- What a worker knows of the list: something between the two ends of its guard. -/
def LockPc.claim : LockPc M → Claim (List M)
  | .popSize => some fun _ => True
  | .popFront => some fun l => l ≠ []
  | .popPopFront p => some fun l => l.head? = some p
  | .popUnlock _ => some fun _ => True
  | .emptySize => some fun _ => True
  | .emptyUnlock _ => some fun _ => True
  | _ => none

def PushPc.claim : PushPc M → Claim (List M)
  | .pushBack _ => some fun _ => True
  | .unlock => some fun _ => True
  | _ => none

namespace LockedTasks

/-- The claims of all threads. -/
def claims (s : LockedTasks ι κ M) : ι ⊕ κ → Claim (List M) :=
  Sum.elim (fun i => (s.pc i).claim) fun k => (s.push k).claim

/-- The list is protected by its mutex. -/
def Exclusive (s : LockedTasks ι κ M) : Prop := Protected s.owner s.list s.claims

theorem exclusive_new : (new : LockedTasks ι κ M).Exclusive := by
  refine Protected.of_forall_none fun t => ?_
  cases t with
  | inl i => rfl
  | inr k => rfl

/-- `front` and `pop_front` are called on a list that has elements, and the second removes what the
first returned. -/
def ListSafe (s : LockedTasks ι κ M) (i : ι) : Prop :=
  (s.pc i = .popFront → s.list ≠ []) ∧ ∀ p, s.pc i = .popPopFront p → s.list.head? = some p

theorem claims_inl {s : LockedTasks ι κ M} {i : ι} {pc : LockPc M} (hpc : s.pc i = pc) :
    s.claims (.inl i) = pc.claim := by
  rw [← hpc]
  rfl

theorem claims_inr {s : LockedTasks ι κ M} {k : κ} {pc : PushPc M} (hpc : s.push k = pc) :
    s.claims (.inr k) = pc.claim := by
  rw [← hpc]
  rfl

theorem Exclusive.listSafe {s : LockedTasks ι κ M} (h : s.Exclusive) (i : ι) : s.ListSafe i :=
  ⟨fun hpc => (h.inside (.inl i) _ (claims_inl hpc)).2,
    fun _ hpc => (h.inside (.inl i) _ (claims_inl hpc)).2⟩

variable [DecidableEq ι] [DecidableEq κ]

theorem exclusive_goto {s : LockedTasks ι κ M} {i : ι} {pc : LockPc M}
    (h : Protected s.owner s.list (Function.update s.claims (.inl i) pc.claim)) :
    (s.goto i pc).Exclusive := by
  have hclaims : (s.goto i pc).claims = Function.update s.claims (.inl i) pc.claim := by
    rw [claims, claims, Sum.update_elim_inl]
    congr 1
    exact Function.comp_update LockPc.claim s.pc i pc
  rw [Exclusive, hclaims]
  exact h

theorem exclusive_pushGoto {s : LockedTasks ι κ M} {k : κ} {pc : PushPc M}
    (h : Protected s.owner s.list (Function.update s.claims (.inr k) pc.claim)) :
    (s.pushGoto k pc).Exclusive := by
  have hclaims : (s.pushGoto k pc).claims = Function.update s.claims (.inr k) pc.claim := by
    rw [claims, claims, Sum.update_elim_inr]
    congr 1
    exact Function.comp_update PushPc.claim s.push k pc
  rw [Exclusive, hclaims]
  exact h

/-- A thread takes the mutex if it is free. -/
theorem Exclusive.acquire {s : LockedTasks ι κ M} (h : s.Exclusive) (howner : s.owner = none)
    (t : ι ⊕ κ) {claim : List M → Prop} (hclaim : claim s.list) :
    Protected (some t) s.list (Function.update s.claims t (some claim)) := by
  rw [Exclusive, howner] at h
  exact Protected.acquire h t hclaim

/-- **Mutual exclusion, workers.** -/
theorem Exclusive.runStep {s : LockedTasks ι κ M} (h : s.Exclusive) (i : ι) :
    (s.runStep i).Exclusive := by
  unfold LockedTasks.runStep
  split
  next =>
    split_ifs with howner
    · exact exclusive_goto (h.acquire howner (.inl i) trivial)
    · exact h
  next hpc =>
    by_cases hsize : s.list.length > 0
    · rw [if_pos hsize]
      exact exclusive_goto (h.change (claims_inl hpc) (List.length_pos_iff.mp hsize))
    · rw [if_neg hsize]
      exact exclusive_goto (h.change (claims_inl hpc) trivial)
  next hpc =>
    split
    next => exact h
    next p rest hlist => exact exclusive_goto (h.change (claims_inl hpc) (by rw [hlist]; rfl))
  next hpc => exact exclusive_goto (h.change (claims_inl hpc) trivial)
  next hpc => exact exclusive_goto (h.release (claims_inl hpc))
  next hpc => exact exclusive_goto (h.release (claims_inl hpc))
  next hpc => exact exclusive_goto (h.stay ((claims_inl hpc).trans rfl))
  next hpc => exact exclusive_goto (h.stay ((claims_inl hpc).trans rfl))
  next hpc =>
    refine exclusive_goto (h.stay ((claims_inl hpc).trans ?_))
    split_ifs
    · rfl
    · rfl
  next =>
    split_ifs with howner
    · exact exclusive_goto (h.acquire howner (.inl i) trivial)
    · exact h
  next hpc => exact exclusive_goto (h.change (claims_inl hpc) trivial)
  next b hpc =>
    have hnone : (if b then LockPc.left else LockPc.popLock : LockPc M).claim = none := by
      cases b <;> rfl
    refine exclusive_goto ?_
    rw [hnone]
    exact h.release (claims_inl hpc)
  next => exact h

/-- **Mutual exclusion, threads in `PushPluto`.** -/
theorem Exclusive.pushStep {s : LockedTasks ι κ M} (h : s.Exclusive) (k : κ) :
    (s.pushStep k).Exclusive := by
  unfold LockedTasks.pushStep
  split
  next => exact h
  next =>
    split_ifs with howner
    · exact exclusive_pushGoto (h.acquire howner (.inr k) trivial)
    · exact h
  next hpc => exact exclusive_pushGoto (h.change (claims_inr hpc) trivial)
  next hpc => exact exclusive_pushGoto (h.release (claims_inr hpc))

theorem Exclusive.step {s : LockedTasks ι κ M} (h : s.Exclusive) (l : LockStep ι κ M) :
    (s.step l).Exclusive := by
  cases l with
  | worker i => exact h.runStep i
  | pusher k => exact h.pushStep k
  | callPushPluto k p =>
    rw [LockedTasks.step]
    split
    next hpc => exact exclusive_pushGoto (h.stay ((claims_inr hpc).trans rfl))
    next => exact h
  | shutDown => exact h

/-! ## Refinement -/

end LockedTasks

/-- The place in the atomic model. A method has happened there as soon as it has read or changed the
list for the last time. -/
def LockPc.abs : LockPc M → Pc M
  | .popLock => .popPluto
  | .popSize => .popPluto
  | .popFront => .popPluto
  | .popPopFront _ => .popPluto
  | .popUnlock none => .sleep
  | .popUnlock (some p) => .handleMessages p
  | .sleep => .sleep
  | .handleMessages p => .handleMessages p
  | .testShutDown => .testShutDown
  | .emptyLock => .testEmpty
  | .emptySize => .testEmpty
  | .emptyUnlock b => if b then .left else .popPluto
  | .left => .left

namespace LockedTasks

/-- The state of the atomic model. -/
def abs (s : LockedTasks ι κ M) : CDBTasks ι M where
  recvPlutoList := ⟨s.list⟩
  bShutDown := s.bShutDown
  pc i := (s.pc i).abs
  pushed := s.pushed
  popped := s.popped
  handled := s.handled

theorem abs_pc {s : LockedTasks ι κ M} {i : ι} {pc : LockPc M} (hpc : s.pc i = pc) :
    s.abs.pc i = pc.abs := by
  rw [← hpc]
  rfl

variable [DecidableEq ι]

theorem abs_goto (s : LockedTasks ι κ M) (i : ι) (pc : LockPc M) :
    (s.goto i pc).abs = s.abs.goto i pc.abs := by
  have hpc : (fun j => ((s.goto i pc).pc j).abs) = Function.update s.abs.pc i pc.abs :=
    Function.comp_update LockPc.abs s.pc i pc
  rw [abs, hpc]
  rfl

/-- A statement that the atomic model does not see. -/
theorem abs_goto_of_eq {s : LockedTasks ι κ M} {i : ι} {pc pc' : LockPc M} (hpc : s.pc i = pc)
    (habs : pc.abs = pc'.abs) : (s.goto i pc').abs = s.abs := by
  rw [abs_goto, ← habs, ← abs_pc hpc, CDBTasks.goto, Function.update_eq_self]

/-- **One statement.** A statement of a worker is one step of the worker in the atomic model, or
none. -/
theorem abs_runStep {s : LockedTasks ι κ M} (h : s.Exclusive) (i : ι) :
    (s.runStep i).abs = s.abs ∨ (s.runStep i).abs = s.abs.runStep i := by
  have hsafe := h.listSafe i
  unfold LockedTasks.runStep CDBTasks.runStep
  split
  next hpc =>
    left
    split_ifs
    · exact abs_goto_of_eq hpc rfl
    · rfl
  next hpc =>
    cases hlist : s.list with
    | nil =>
      -- `PopPluto` returns NULL: the list is not used any more
      right
      have hpop : s.abs.recvPlutoList.popPluto = (none, s.abs.recvPlutoList) := by
        simp only [abs, hlist, CPlutoList.popPluto]
      simp only [abs_goto, abs_pc hpc, LockPc.abs, hpop, List.length_nil, gt_iff_lt,
        Nat.lt_irrefl, if_false]
    | cons p rest =>
      left
      rw [if_pos (show (p :: rest).length > 0 from Nat.zero_lt_succ _)]
      exact abs_goto_of_eq hpc rfl
  next hpc =>
    left
    split
    next => rfl
    next => exact abs_goto_of_eq hpc rfl
  next p hpc =>
    right
    obtain ⟨rest, hlist⟩ := List.head?_eq_some_iff.mp (hsafe.2 p hpc)
    have hpop : s.abs.recvPlutoList.popPluto = (some p, ⟨rest⟩) := by
      simp only [abs, hlist, CPlutoList.popPluto]
    simp only [abs_goto, abs_pc hpc, LockPc.abs, hpop, hlist, List.tail_cons]
    rfl
  next hpc => exact .inl (abs_goto_of_eq hpc rfl)
  next hpc => exact .inl (abs_goto_of_eq hpc rfl)
  next hpc => exact .inr (by simp only [abs_goto, abs_pc hpc, LockPc.abs])
  next hpc =>
    right
    simp only [abs_goto, abs_pc hpc, LockPc.abs]
    rfl
  next hpc =>
    right
    simp only [abs_goto, abs_pc hpc, apply_ite LockPc.abs]
    rfl
  next hpc =>
    left
    split_ifs
    · exact abs_goto_of_eq hpc rfl
    · rfl
  next hpc =>
    right
    simp only [abs_goto, abs_pc hpc, LockPc.abs]
    rfl
  next b hpc =>
    left
    exact abs_goto_of_eq hpc (by cases b <;> rfl)
  next => exact .inl rfl

variable [DecidableEq κ]

/-- A statement of `PushPluto` puts the message in the list of the atomic model, or does nothing
there. -/
theorem abs_pushStep (s : LockedTasks ι κ M) (k : κ) :
    (s.pushStep k).abs = s.abs ∨
      ∃ p, s.push k = .pushBack p ∧ (s.pushStep k).abs = s.abs.step (.pushPluto p) := by
  unfold LockedTasks.pushStep
  split
  next => exact .inl rfl
  next =>
    split_ifs
    · exact .inl rfl
    · exact .inl rfl
  next p hpc => exact .inr ⟨p, hpc, rfl⟩
  next => exact .inl rfl

/-- Every step is a run of the atomic model, of one step or of none. -/
theorem abs_step {s : LockedTasks ι κ M} (h : s.Exclusive) (l : LockStep ι κ M) :
    ∃ ls, (s.step l).abs = run CDBTasks.step s.abs ls ∧
      (s.NoLatePush l → Guarded CDBTasks.step CDBTasks.NoLatePush s.abs ls) := by
  cases l with
  | worker i =>
    rcases abs_runStep h i with hsame | hstep
    · exact ⟨[], hsame, fun _ => trivial⟩
    · exact ⟨[.worker i], hstep, fun _ => ⟨trivial, trivial⟩⟩
  | pusher k =>
    rcases s.abs_pushStep k with hsame | ⟨p, hpc, hstep⟩
    · exact ⟨[], hsame, fun _ => trivial⟩
    · exact ⟨[.pushPluto p], hstep, fun hok => ⟨hok p hpc, trivial⟩⟩
  | callPushPluto k p =>
    refine ⟨[], ?_, fun _ => trivial⟩
    rw [LockedTasks.step]
    split
    next => rfl
    next => rfl
  | shutDown => exact ⟨[.shutDown], rfl, fun _ => ⟨trivial, trivial⟩⟩

/-- **The mutex makes the methods atomic.** In every interleaving of the statements of the workers
and of the threads that push messages, at most one thread is between the ends of its guard, and
`front` and `pop_front` find the message they are called for. The list, the messages handled and the
places of the workers are those of a run of the atomic model, which pushes nothing after the flag is
up if the threads do not. -/
theorem locked_refines (ls : List (LockStep ι κ M)) :
    Always step (fun s => (∀ t t', s.claims t ≠ none → s.claims t' ≠ none → t = t') ∧
        ∀ i, s.ListSafe i) new ls ∧
      ∃ ls', (run step new ls).abs = run CDBTasks.step CDBTasks.new ls' ∧
        (Guarded step NoLatePush new ls →
          Guarded CDBTasks.step CDBTasks.NoLatePush CDBTasks.new ls') := by
  refine ⟨fun pre _ => ?_, ?_⟩
  · have h : (run step new pre).Exclusive := run_inv pre (fun _ l h => h.step l) exclusive_new
    refine ⟨fun t t' ht ht' => ?_, h.listSafe⟩
    obtain ⟨claim, hclaim⟩ := Option.ne_none_iff_exists'.mp ht
    obtain ⟨claim', hclaim'⟩ := Option.ne_none_iff_exists'.mp ht'
    exact h.unique hclaim hclaim'
  · exact exists_run_refines abs (fun _ l h => h.step l) (fun _ l h => abs_step h l)
      exclusive_new ls

end LockedTasks

end PlutoServer
