import PlutoServer.Common.Interleaving

/-!
# The workers of the DB server

Reference: `DBServer/db_task.h`.

Each worker thread runs `CDBTask::Run`: it takes a message from the shared `CPlutoList` and handles
it, or sleeps when there is none, and leaves once it has seen the shutdown flag and after that an
empty list. The methods of the list hold its mutex and are single steps here; between any two steps
of one worker the others can take theirs, and other threads can push messages or raise the flag.

What is popped, followed by what is still in the list, is what was pushed (`Accounted.pushed_eq`),
and what a worker has popped is what it has handled and the message in its hand
(`Accounted.popped_eq`). If nothing is pushed once the flag is up, the list is empty for good when
the first worker leaves.
-/

namespace PlutoServer

open Runs Interleaving

variable {ι M : Type*}

/-! ## The model -/

/-- `CPlutoList`. A message is a pointer other than NULL. -/
structure CPlutoList (M : Type*) where
  list : List M

namespace CPlutoList

/-- `CPlutoList::PushPluto`. -/
def pushPluto (l : CPlutoList M) (p : M) : CPlutoList M := ⟨l.list ++ [p]⟩

/-- `CPlutoList::PopPluto`; `none` is the NULL returned when the list is empty. -/
def popPluto (l : CPlutoList M) : Option M × CPlutoList M :=
  match l.list with
  | [] => (none, l)
  | p :: rest => (some p, ⟨rest⟩)

/-- `CPlutoList::Size`. -/
def size (l : CPlutoList M) : ℕ := l.list.length

/-- `CPlutoList::Empty`. -/
def empty (l : CPlutoList M) : Bool := if l.size = 0 then true else false

theorem empty_iff (l : CPlutoList M) : l.empty = true ↔ l.list = [] := by
  simp [empty, size]

/-- A pop takes the front message, and there is one unless the list is empty. -/
theorem popPluto_cases (l : CPlutoList M) :
    (l.popPluto = (none, l) ∧ l.list = []) ∨
      ∃ p rest, l.popPluto = (some p, ⟨rest⟩) ∧ l.list = p :: rest := by
  unfold popPluto
  cases h : l.list with
  | nil => exact .inl ⟨rfl, rfl⟩
  | cons p rest => exact .inr ⟨p, rest, rfl, rfl⟩

end CPlutoList

/-- Where a worker is in the loop of `CDBTask::Run`. -/
inductive Pc (M : Type*) where
  | popPluto
  | sleep
  | handleMessages (p : M)
  | testShutDown
  | testEmpty
  /-- After the `break`. -/
  | left
  deriving DecidableEq

/-- The message a worker has popped and not yet handled. -/
def Pc.inHand : Pc M → List M
  | .handleMessages p => [p]
  | _ => []

/-- What the threads of the DB server share, and where each worker is. -/
structure CDBTasks (ι M : Type*) where
  /-- `g_RecvPlutoList`. -/
  recvPlutoList : CPlutoList M
  /-- `g_bShutDown`. -/
  bShutDown : Bool
  pc : ι → Pc M
  /-- Ghost: the messages given to `PushPluto`, in order. -/
  pushed : List M
  /-- Ghost: the messages `PopPluto` returned, in order, each with the worker that got it. -/
  popped : List (ι × M)
  /-- Ghost: the messages given to `HandleMessages`, in order, each with the worker. -/
  handled : List (ι × M)

/-- A step of a worker, or of another thread. -/
inductive DBStep (ι M : Type*) where
  | worker (i : ι)
  | pushPluto (p : M)
  | shutDown

namespace CDBTasks

/-- The workers before their first step. -/
def new : CDBTasks ι M where
  recvPlutoList := ⟨[]⟩
  bShutDown := false
  pc := fun _ => .popPluto
  pushed := []
  popped := []
  handled := []

variable [DecidableEq ι]

/-- The worker `i` goes on at `pc`. -/
def goto (s : CDBTasks ι M) (i : ι) (pc : Pc M) : CDBTasks ι M :=
  { s with pc := Function.update s.pc i pc }

/-- The next step of `CDBTask::Run` in the worker `i`. -/
def runStep (s : CDBTasks ι M) (i : ι) : CDBTasks ι M :=
  match s.pc i with
  | .popPluto =>
    match s.recvPlutoList.popPluto with
    | (none, l) => { s with recvPlutoList := l }.goto i .sleep
    | (some p, l) =>
      { s with recvPlutoList := l, popped := s.popped ++ [(i, p)] }.goto i (.handleMessages p)
  | .sleep => s.goto i .testShutDown
  | .handleMessages p => { s with handled := s.handled ++ [(i, p)] }.goto i .testShutDown
  | .testShutDown => s.goto i (if s.bShutDown then .testEmpty else .popPluto)
  | .testEmpty => s.goto i (if s.recvPlutoList.empty then .left else .popPluto)
  | .left => s

/-- One step of any thread. -/
def step (s : CDBTasks ι M) : DBStep ι M → CDBTasks ι M
  | .worker i => s.runStep i
  | .pushPluto p =>
    { s with recvPlutoList := s.recvPlutoList.pushPluto p, pushed := s.pushed ++ [p] }
  | .shutDown => { s with bShutDown := true }

/-- Nothing is pushed once the flag is up. -/
def NoLatePush (s : CDBTasks ι M) : DBStep ι M → Prop
  | .pushPluto _ => s.bShutDown = false
  | _ => True

instance (s : CDBTasks ι M) : ∀ l : DBStep ι M, Decidable (s.NoLatePush l)
  | .worker _ => inferInstanceAs (Decidable True)
  | .pushPluto _ => inferInstanceAs (Decidable (s.bShutDown = false))
  | .shutDown => inferInstanceAs (Decidable True)

@[simp] theorem goto_pc_self (s : CDBTasks ι M) (i : ι) (pc : Pc M) : (s.goto i pc).pc i = pc :=
  Function.update_self ..

theorem goto_pc_of_ne (s : CDBTasks ι M) {i j : ι} (h : j ≠ i) (pc : Pc M) :
    (s.goto i pc).pc j = s.pc j :=
  Function.update_of_ne h ..

/-! ## Where every message is -/

/-- Each pushed message is in one place: in the list, with the worker that popped it, or handled. -/
structure Accounted (s : CDBTasks ι M) : Prop where
  pushed_eq : s.popped.map Prod.snd ++ s.recvPlutoList.list = s.pushed
  popped_eq : ∀ i, opsOf i s.handled ++ (s.pc i).inHand = opsOf i s.popped

theorem accounted_new : (new : CDBTasks ι M).Accounted := ⟨rfl, fun _ => rfl⟩

/-- A step of a worker that takes no message and handles none. -/
theorem Accounted.goto {s : CDBTasks ι M} (h : s.Accounted) {i : ι} (hi : (s.pc i).inHand = [])
    {pc : Pc M} (hpc : pc.inHand = []) : (s.goto i pc).Accounted := by
  refine ⟨h.pushed_eq, fun j => ?_⟩
  by_cases hj : j = i
  · subst hj
    rw [goto_pc_self, hpc, ← hi]
    exact h.popped_eq j
  · rw [goto_pc_of_ne s hj]
    exact h.popped_eq j

theorem Accounted.pop {s : CDBTasks ι M} (h : s.Accounted) {i : ι} (hi : (s.pc i).inHand = [])
    {p : M} {rest : List M} (hlist : s.recvPlutoList.list = p :: rest) :
    ({ s with recvPlutoList := ⟨rest⟩, popped := s.popped ++ [(i, p)] }.goto i
      (.handleMessages p)).Accounted := by
  refine ⟨?_, fun j => ?_⟩
  · have hpushed := h.pushed_eq
    rw [hlist] at hpushed
    simpa [CDBTasks.goto] using hpushed
  · by_cases hj : j = i
    · subst hj
      have hpopped := h.popped_eq j
      rw [hi, List.append_nil] at hpopped
      rw [goto_pc_self]
      change opsOf j s.handled ++ [p] = opsOf j (s.popped ++ [(j, p)])
      rw [opsOf_append, hpopped, opsOf_cons_self, opsOf_nil]
    · rw [goto_pc_of_ne _ hj]
      change opsOf j s.handled ++ (s.pc j).inHand = opsOf j (s.popped ++ [(i, p)])
      rw [opsOf_append, opsOf_cons_of_ne (Ne.symm hj), opsOf_nil, List.append_nil]
      exact h.popped_eq j

theorem Accounted.handle {s : CDBTasks ι M} (h : s.Accounted) {i : ι} {p : M}
    (hi : s.pc i = .handleMessages p) :
    ({ s with handled := s.handled ++ [(i, p)] }.goto i .testShutDown).Accounted := by
  refine ⟨h.pushed_eq, fun j => ?_⟩
  by_cases hj : j = i
  · subst hj
    have hpopped := h.popped_eq j
    rw [hi] at hpopped
    rw [goto_pc_self]
    change opsOf j (s.handled ++ [(j, p)]) ++ [] = opsOf j s.popped
    rw [opsOf_append, opsOf_cons_self, opsOf_nil, List.append_nil]
    exact hpopped
  · rw [goto_pc_of_ne _ hj]
    change opsOf j (s.handled ++ [(i, p)]) ++ (s.pc j).inHand = opsOf j s.popped
    rw [opsOf_append, opsOf_cons_of_ne (Ne.symm hj), opsOf_nil, List.append_nil]
    exact h.popped_eq j

theorem Accounted.runStep {s : CDBTasks ι M} (h : s.Accounted) (i : ι) :
    (s.runStep i).Accounted := by
  unfold CDBTasks.runStep
  split
  next hi =>
    have hhand : (s.pc i).inHand = [] := by rw [hi]; rfl
    rcases s.recvPlutoList.popPluto_cases with ⟨hpop, -⟩ | ⟨p, rest, hpop, hlist⟩
    · rw [hpop]
      exact h.goto hhand rfl
    · rw [hpop]
      exact h.pop hhand hlist
  next hi => exact h.goto (by rw [hi]; rfl) rfl
  next p hi => exact h.handle hi
  next hi => exact h.goto (by rw [hi]; rfl) (by split <;> rfl)
  next hi => exact h.goto (by rw [hi]; rfl) (by split <;> rfl)
  next => exact h

theorem Accounted.step {s : CDBTasks ι M} (h : s.Accounted) (l : DBStep ι M) :
    (s.step l).Accounted := by
  cases l with
  | worker i => exact h.runStep i
  | pushPluto p =>
    refine ⟨?_, h.popped_eq⟩
    change s.popped.map Prod.snd ++ (s.recvPlutoList.list ++ [p]) = s.pushed ++ [p]
    rw [← List.append_assoc, h.pushed_eq]
  | shutDown => exact ⟨h.pushed_eq, h.popped_eq⟩

theorem accounted_run (ls : List (DBStep ι M)) : (run step new ls).Accounted :=
  run_inv ls (fun _ l h => h.step l) accounted_new

/-- When no worker has a message in hand and the list is empty, what was handled is what was
pushed, up to the order in which the workers got through. -/
theorem Accounted.handled_perm {s : CDBTasks ι M} (h : s.Accounted)
    (hhand : ∀ i, (s.pc i).inHand = []) (hlist : s.recvPlutoList.list = []) :
    (s.handled.map Prod.snd).Perm s.pushed := by
  have hperm : s.handled.Perm s.popped := by
    refine perm_of_opsOf_eq fun i => ?_
    rw [← h.popped_eq i, hhand i, List.append_nil]
  have hpushed := h.pushed_eq
  rw [hlist, List.append_nil] at hpushed
  rw [← hpushed]
  exact hperm.map Prod.snd

/-! ## Leaving -/

/-- A worker tests the list only once the flag is up, and leaves only an empty list. -/
structure Leaving (s : CDBTasks ι M) : Prop where
  shutDown : ∀ i, s.pc i = .testEmpty ∨ s.pc i = .left → s.bShutDown = true
  empty : ∀ i, s.pc i = .left → s.recvPlutoList.list = []

omit [DecidableEq ι] in
theorem leaving_new : (new : CDBTasks ι M).Leaving :=
  ⟨fun _ h => by simp [new] at h, fun _ h => by simp [new] at h⟩

/-- A step of the worker `i` to `pc`, after which the list is no longer than before. -/
theorem Leaving.goto {s : CDBTasks ι M} (h : s.Leaving) (i : ι) {l : CPlutoList M} {pc : Pc M}
    {popped handled : List (ι × M)} (hl : s.recvPlutoList.list = [] → l.list = [])
    (hflag : pc = .testEmpty ∨ pc = .left → s.bShutDown = true)
    (hempty : pc = .left → l.list = []) :
    ({ s with recvPlutoList := l, popped := popped, handled := handled }.goto i pc).Leaving := by
  refine ⟨fun j hj => ?_, fun j hj => ?_⟩
  · by_cases hji : j = i
    · subst hji
      rw [goto_pc_self] at hj
      exact hflag hj
    · rw [goto_pc_of_ne _ hji] at hj
      exact h.shutDown j hj
  · by_cases hji : j = i
    · subst hji
      rw [goto_pc_self] at hj
      exact hempty hj
    · rw [goto_pc_of_ne _ hji] at hj
      exact hl (h.empty j hj)

theorem Leaving.runStep {s : CDBTasks ι M} (h : s.Leaving) (i : ι) : (s.runStep i).Leaving := by
  unfold CDBTasks.runStep
  split
  next =>
    rcases s.recvPlutoList.popPluto_cases with ⟨hpop, -⟩ | ⟨p, rest, hpop, hlist⟩
    · rw [hpop]
      exact h.goto i id (by simp) (by simp)
    · rw [hpop]
      exact h.goto i (by simp [hlist]) (by simp) (by simp)
  next => exact h.goto i id (by simp) (by simp)
  next => exact h.goto i id (by simp) (by simp)
  next =>
    by_cases hflag : s.bShutDown = true
    · exact h.goto i id (fun _ => hflag) (by simp [hflag])
    · exact h.goto i id (by simp [hflag]) (by simp [hflag])
  next hi =>
    have hflag := h.shutDown i (.inl hi)
    by_cases hempty : s.recvPlutoList.empty = true
    · exact h.goto i id (fun _ => hflag) (fun _ => (CPlutoList.empty_iff _).mp hempty)
    · exact h.goto i id (fun _ => hflag) (by simp [hempty])
  next => exact h

theorem Leaving.step {s : CDBTasks ι M} (h : s.Leaving) {l : DBStep ι M} (hl : s.NoLatePush l) :
    (s.step l).Leaving := by
  cases l with
  | worker i => exact h.runStep i
  | pushPluto p =>
    -- the flag is still down, so no worker has left
    refine ⟨h.shutDown, fun i hi => ?_⟩
    have hflag := h.shutDown i (.inr hi)
    rw [show s.bShutDown = false from hl] at hflag
    exact absurd hflag Bool.false_ne_true
  | shutDown => exact ⟨fun _ _ => rfl, h.empty⟩

/-- A worker that has left stays where it is. -/
theorem step_pc_of_left {s : CDBTasks ι M} {i : ι} (h : s.pc i = .left) (l : DBStep ι M) :
    (s.step l).pc i = .left := by
  cases l with
  | worker j =>
    by_cases hj : i = j
    · subst hj
      simp only [step, runStep, h]
    · change (s.runStep j).pc i = .left
      unfold runStep
      split
      next =>
        rcases s.recvPlutoList.popPluto_cases with ⟨hpop, -⟩ | ⟨p, rest, hpop, -⟩ <;> rw [hpop] <;>
          exact (goto_pc_of_ne _ hj _).trans h
      all_goals first | exact h | exact (goto_pc_of_ne _ hj _).trans h
  | pushPluto p => exact h
  | shutDown => exact h

/-- **Shutdown.** In every interleaving, what the workers pop is what was pushed, in that order and
each message once. If nothing is pushed once the flag is up, the list is empty for good when the
first worker has left, and when all of them have, every message was handled exactly once. -/
theorem shutdown_loses_nothing (ls : List (DBStep ι M)) :
    (run step new ls).popped.map Prod.snd ++ (run step new ls).recvPlutoList.list =
        (run step new ls).pushed ∧
      (Guarded step NoLatePush new ls →
        (∀ pre, pre <+: ls → (∃ i, (run step new pre).pc i = .left) →
          (run step new ls).recvPlutoList.list = []) ∧
        (Nonempty ι → (∀ i, (run step new ls).pc i = .left) →
          ((run step new ls).handled.map Prod.snd).Perm (run step new ls).pushed)) := by
  refine ⟨(accounted_run ls).pushed_eq, fun hguard => ?_⟩
  have hleaving : (run step new ls).Leaving :=
    hguard.inv (fun _ _ h hl => h.step hl) leaving_new
  refine ⟨fun pre hpre hleft => ?_, fun ⟨i⟩ hall => ?_⟩
  · obtain ⟨i, hi⟩ := hleft
    obtain ⟨post, rfl⟩ := hpre
    apply hleaving.empty i
    rw [run_append]
    exact run_inv (P := fun t : CDBTasks ι M => t.pc i = .left) post
      (fun _ l h => step_pc_of_left h l) hi
  · apply (accounted_run ls).handled_perm
    · intro j
      rw [hall j]
      rfl
    · exact hleaving.empty i (hall i)

end CDBTasks

/-- Two workers and three messages. The worker 1 leaves while the worker 0 has the last message in
hand. -/
def shutdownRun : List (DBStep (Fin 2) ℕ) :=
  [.pushPluto 10, .pushPluto 11, .worker 0, .worker 1, .pushPluto 12, .shutDown, .worker 0,
    .worker 0, .worker 0, .worker 0, .worker 1, .worker 1, .worker 1, .worker 0, .worker 0,
    .worker 0]

theorem shutdownRun_loses_nothing :
    (run CDBTasks.step CDBTasks.new (shutdownRun.take 13)).pc 0 = .handleMessages 12 ∧
      (run CDBTasks.step CDBTasks.new shutdownRun).recvPlutoList.list = [] ∧
      ((run CDBTasks.step CDBTasks.new shutdownRun).handled.map Prod.snd).Perm [10, 11, 12] := by
  have hlost := (CDBTasks.shutdown_loses_nothing shutdownRun).2 (by decide)
  refine ⟨by decide, hlost.1 (shutdownRun.take 13) (List.take_prefix ..) ⟨1, by decide⟩, ?_⟩
  exact hlost.2 ⟨0⟩ (by decide)

end PlutoServer
