import PlutoServer.Common.Runs
import PlutoServer.Common.Worklist
import PlutoServer.Server.Callbacks

/-!
# Dispatch of messages

Reference: `CServerBase::AddRecvMsg`, `HandleRecvMsg` and `HandleEventTick` in
`CoreBase/server_base.cpp`; `HandleMessages` in `GameServer/game_world.cpp` and
`DBServer/db_world.cpp`.

A tick ends with `HandleRecvMsg`, which passes the messages that the reads have queued to
`CWorld::HandleMessages`. The handler is arbitrary here: it may change the server and its own world,
and it may queue further messages while the loop runs. What it is called with is seen by
`recording`, which does what the handler does and writes down the message. If the handler queues
finitely many messages in each tick, then the loop ends with an empty queue, and it has been called
once with every message, in the order of the calls of `AddRecvMsg` (`dispatched_once`).

`Base` models a tick for handlers that leave the server alone. Those of both servers do
(`handleEventTick_of_idle`).
-/

namespace PlutoServer

open Worklist

variable {W : Type*}

/-- A `CWorld::HandleMessages`: what a call leaves of the world and of the server, and the messages
it passes to `AddRecvMsg`, in order. -/
abbrev HandleMessages (W : Type*) := W → CServerBase → CPluto → W × CServerBase × List CPluto

/-- A server with its world. -/
structure Dispatch (W : Type*) where
  base : CServerBase
  world : W
  /-- Ghost: the messages passed to `AddRecvMsg`. -/
  log : List CPluto

namespace Dispatch

/-! ## The loop -/

/-- `CServerBase::AddRecvMsg`. -/
def addRecvMsg (d : Dispatch W) (u : CPluto) : Dispatch W :=
  { d with
    base := { d.base with recvMsgs := d.base.recvMsgs ++ [u] }
    log := d.log ++ [u] }

/-- The body of the loop of `CServerBase::HandleRecvMsg`. -/
def handleFront (handle : HandleMessages W) (d : Dispatch W) : Dispatch W :=
  match d.base.recvMsgs with
  | [] => d
  | u :: _ =>
    let r := handle d.world d.base u
    -- the queue is private: the handler changes it through `AddRecvMsg` only
    let d := r.2.2.foldl addRecvMsg
      { d with
        world := r.1
        base := { r.2.1 with recvMsgs := d.base.recvMsgs } }
    -- `m_recvMsgs.erase(m_recvMsgs.begin())`
    { d with base := { d.base with recvMsgs := d.base.recvMsgs.tail } }

theorem foldl_addRecvMsg (us : List CPluto) (d : Dispatch W) :
    us.foldl addRecvMsg d =
      { d with
        base := { d.base with recvMsgs := d.base.recvMsgs ++ us }
        log := d.log ++ us } := by
  induction us generalizing d with
  | nil => simp only [List.foldl_nil, List.append_nil]
  | cons u us ih =>
    rw [List.foldl_cons, ih, addRecvMsg]
    simp only [List.append_assoc, List.singleton_append]

theorem handleFront_of_cons (handle : HandleMessages W) {d : Dispatch W} {u : CPluto}
    {rest : List CPluto} (h : d.base.recvMsgs = u :: rest) :
    d.handleFront handle =
      let r := handle d.world d.base u
      { world := r.1
        base := { r.2.1 with recvMsgs := rest ++ r.2.2 }
        log := d.log ++ r.2.2 } := by
  unfold handleFront
  simp only [h, foldl_addRecvMsg, List.cons_append, List.tail_cons]

/-- The loop of `CServerBase::HandleRecvMsg`. -/
def loop (handle : HandleMessages W) : Loop (Dispatch W) CPluto where
  queue d := d.base.recvMsgs
  turn := handleFront handle
  put := log
  turn_nil d h := by
    unfold handleFront
    rw [h]
  turn_cons d u rest h := by
    rw [handleFront_of_cons handle h]
    exact ⟨_, rfl, rfl⟩

/-- `CServerBase::HandleRecvMsg`. -/
def handleRecvMsg (handle : HandleMessages W) (fuel : ℕ) (d : Dispatch W) : Option (Dispatch W) :=
  (loop handle).drain fuel d

/-- The sending part of `CServerBase::HandleEventTick`. -/
def sendAll [Abi] (lib : ℤ → Libevent) (d : Dispatch W) : Dispatch W :=
  { d with base := d.base.mMbs.toList.foldl (CServerBase.sendTick lib) d.base }

/-- `CServerBase::HandleEventTick`. -/
def handleEventTick [Abi] (handle : HandleMessages W) (fuel : ℕ) (lib : ℤ → Libevent)
    (d : Dispatch W) : Option (Dispatch W) :=
  (d.sendAll lib).handleRecvMsg handle fuel

/-! ## Runs -/

/-- One callback. A read logs the messages it queues. -/
def step [Abi] (handle : HandleMessages W) (fuel : ℕ) (d : Dispatch W) :
    ServerEvent → Option (Dispatch W)
  | .tick lib => d.handleEventTick handle fuel lib
  | ev => some
      { d with
        base := d.base.step ev
        log := d.log ++ ((d.base.step ev).added.drop d.base.added.length).map Prod.snd }

/-- One callback after the other. -/
def run [Abi] (handle : HandleMessages W) (fuel : ℕ) (d : Dispatch W) (evs : List ServerEvent) :
    Option (Dispatch W) :=
  evs.foldlM (step handle fuel) d

end Dispatch

namespace CServerBase

/-- The queue and its history are as before. -/
def SameQueue (s t : CServerBase) : Prop := t.recvMsgs = s.recvMsgs ∧ t.added = s.added

theorem sameQueue_addFdToMb (s : CServerBase) (fd : ℤ) (pmb : ℕ) :
    SameQueue s (s.addFdToMb fd pmb) := by
  unfold addFdToMb
  split
  · split_ifs
    · exact ⟨rfl, rfl⟩
    · exact ⟨rfl, rfl⟩
  · split
    · exact ⟨rfl, rfl⟩
    · exact ⟨rfl, rfl⟩

theorem sameQueue_onConnectServer (s : CServerBase) (pmb : ℕ) (socket connect : ℤ) :
    SameQueue s (s.onConnectServer pmb socket connect).1 := by
  unfold onConnectServer
  split
  · exact ⟨rfl, rfl⟩
  · dsimp only
    split_ifs
    · exact ⟨rfl, rfl⟩
    · obtain ⟨hqueue, hadded⟩ := sameQueue_addFdToMb _ _ pmb
      exact ⟨hqueue, hadded⟩
    · exact ⟨rfl, rfl⟩

theorem sameQueue_handleNewConnection (s : CServerBase) (fd : ℤ) (pszAddr : String)
    (unPort : UInt32) : SameQueue s (s.handleNewConnection fd pszAddr unPort).1 := by
  unfold handleNewConnection
  dsimp only
  split_ifs
  · exact ⟨rfl, rfl⟩
  · unfold onNewFdAccepted
    dsimp only
    obtain ⟨hqueue, hadded⟩ := sameQueue_addFdToMb _ fd _
    split
    · exact ⟨hqueue, hadded⟩
    · exact ⟨hqueue, hadded⟩

theorem sameQueue_handleSocketConnectioned (s : CServerBase) (fd : ℤ) :
    SameQueue s (s.handleSocketConnectioned fd).1 := by
  rcases s.handleSocketConnectioned_cases fd with heq | ⟨pmb, -, heq⟩
  · rw [heq]
    exact ⟨rfl, rfl⟩
  · rw [heq]
    exact ⟨rfl, rfl⟩

theorem sameQueue_handleSocketClosed (s : CServerBase) (fd : ℤ) :
    SameQueue s (s.handleSocketClosed fd) := by
  rcases s.handleSocketClosed_cases fd with ⟨-, heq⟩ | ⟨pmb, -, heq⟩
  · rw [heq]
    exact ⟨rfl, rfl⟩
  · rw [heq]
    exact ⟨rfl, rfl⟩

theorem sameQueue_sendTick [Abi] (lib : ℤ → Libevent) (s : CServerBase) (entry : ℤ × ℕ) :
    SameQueue s (s.sendTick lib entry) := by
  rcases s.sendTick_cases lib entry with heq | ⟨_, _, _, _, -, -, -, -, heq⟩
  · rw [heq]
    exact ⟨rfl, rfl⟩
  · rw [heq]
    exact ⟨rfl, rfl⟩

theorem sameQueue_foldl_sendTick [Abi] (lib : ℤ → Libevent) (entries : List (ℤ × ℕ))
    (s : CServerBase) : SameQueue s (entries.foldl (sendTick lib) s) := by
  induction entries generalizing s with
  | nil => exact ⟨rfl, rfl⟩
  | cons entry entries ih =>
    obtain ⟨hqueue, hadded⟩ := sameQueue_sendTick lib s entry
    obtain ⟨hqueue', hadded'⟩ := ih (s.sendTick lib entry)
    exact ⟨hqueue'.trans hqueue, hadded'.trans hadded⟩

theorem added_handleReadSocket (s : CServerBase) (bev : ℕ) (bytes : List UInt8)
    (fresh : ℕ → ByteMem) :
    ∃ new, (s.handleReadSocket bev bytes fresh).1.added = s.added ++ new ∧
      (s.handleReadSocket bev bytes fresh).1.recvMsgs = s.recvMsgs ++ new.map Prod.snd := by
  have hnone : s.added = s.added ++ [] ∧ s.recvMsgs = s.recvMsgs ++ [].map (Prod.snd (α := ℕ)) := by
    simp only [List.append_nil, List.map_nil, and_self]
  unfold handleReadSocket onReadMessage
  dsimp only
  split
  · exact ⟨[], hnone⟩
  · split
    · exact ⟨[], hnone⟩
    · refine ⟨_, rfl, ?_⟩
      simp only [List.map_map, Function.comp_def, List.map_id']

/-- What a callback other than a tick passes to `AddRecvMsg` is at the end of the queue. -/
theorem added_step [Abi] (s : CServerBase) {ev : ServerEvent} (hev : ∀ lib, ev ≠ .tick lib) :
    ∃ new, (s.step ev).added = s.added ++ new ∧
      (s.step ev).recvMsgs = s.recvMsgs ++ new.map Prod.snd := by
  have hnone {t : CServerBase} (h : SameQueue s t) :
      ∃ new, t.added = s.added ++ new ∧ t.recvMsgs = s.recvMsgs ++ new.map Prod.snd := by
    refine ⟨[], ?_, ?_⟩
    · rw [List.append_nil, h.2]
    · rw [List.map_nil, List.append_nil, h.1]
  cases ev with
  | connect pmb socket connect => exact hnone (s.sameQueue_onConnectServer pmb socket connect)
  | accept fd pszAddr unPort => exact hnone (s.sameQueue_handleNewConnection fd pszAddr unPort)
  | connected fd => exact hnone (s.sameQueue_handleSocketConnectioned fd)
  | closed fd => exact hnone (s.sameQueue_handleSocketClosed fd)
  | read bev bytes fresh => exact s.added_handleReadSocket bev bytes fresh
  | tick lib => exact absurd rfl (hev lib)

end CServerBase

namespace Dispatch

variable [Abi] {handle : HandleMessages W} {fuel : ℕ} {d d' : Dispatch W}

theorem sameQueue_sendAll (d : Dispatch W) (lib : ℤ → Libevent) :
    CServerBase.SameQueue d.base (d.sendAll lib).base :=
  CServerBase.sameQueue_foldl_sendTick lib _ d.base

/-- A callback other than a tick returns whatever the fuel. -/
theorem step_of_ne_tick (handle : HandleMessages W) (d : Dispatch W) {ev : ServerEvent}
    (hev : ∀ lib, ev ≠ .tick lib) :
    ∃ new, (∀ fuel, d.step handle fuel ev =
        some { d with base := d.base.step ev, log := d.log ++ new.map Prod.snd }) ∧
      (d.base.step ev).added = d.base.added ++ new ∧
      (d.base.step ev).recvMsgs = d.base.recvMsgs ++ new.map Prod.snd := by
  obtain ⟨new, hadded, hqueue⟩ := d.base.added_step hev
  have hnew : (d.base.step ev).added.drop d.base.added.length = new := by
    rw [hadded, List.drop_left]
  refine ⟨new, fun fuel => ?_, hadded, hqueue⟩
  rw [← hnew]
  cases ev with
  | tick lib => exact absurd rfl (hev lib)
  | _ => rfl

/-- What a turn of the loop, the sending part of a tick and every other callback keep is kept by a
run. -/
theorem run_inv {P : Dispatch W → Prop} (hturn : ∀ d, P d → P (d.handleFront handle))
    (hsend : ∀ d lib, P d → P (d.sendAll lib))
    (hother : ∀ (d : Dispatch W) base new, base.added = d.base.added ++ new →
      base.recvMsgs = d.base.recvMsgs ++ new.map Prod.snd → P d →
      P { d with base, log := d.log ++ new.map Prod.snd })
    (h : P d) {evs : List ServerEvent} (hrun : d.run handle fuel evs = some d') : P d' := by
  induction evs generalizing d with
  | nil =>
    obtain rfl := Option.some.inj hrun
    exact h
  | cons ev evs ih =>
    rw [run, List.foldlM_cons] at hrun
    obtain ⟨d₁, hstep, hrest⟩ := Option.bind_eq_some_iff.mp hrun
    refine ih ?_ hrest
    by_cases hev : ∃ lib, ev = .tick lib
    · obtain ⟨lib, rfl⟩ := hev
      obtain ⟨-, k, rfl⟩ := Loop.of_drain_eq_some hstep
      exact Function.Iterate.rec P (hsend d lib h) hturn k
    · obtain ⟨new, hstep', hadded, hqueue⟩ :=
        step_of_ne_tick handle d fun lib hlib => hev ⟨lib, hlib⟩
      obtain rfl := Option.some.inj ((hstep' fuel).symm.trans hstep)
      exact hother d _ new hadded hqueue h

/-- No run loses or repeats a message. -/
theorem conserved_run {taken : Dispatch W → List CPluto} (hrec : (loop handle).Records taken)
    (hframe : ∀ (d : Dispatch W) base log, taken { d with base, log } = taken d)
    (h : (loop handle).Conserved taken d) {evs : List ServerEvent}
    (hrun : d.run handle fuel evs = some d') : (loop handle).Conserved taken d' := by
  refine run_inv (fun _ h => h.turn hrec) (fun d lib h => ?_) (fun d base new _ hqueue h => ?_) h
    hrun
  · show taken (d.sendAll lib) ++ (d.sendAll lib).base.recvMsgs = d.log
    rw [(d.sameQueue_sendAll lib).1, show taken (d.sendAll lib) = taken d from hframe ..]
    exact h
  · show taken _ ++ base.recvMsgs = d.log ++ new.map Prod.snd
    rw [hframe, hqueue, ← List.append_assoc]
    exact congrArg (· ++ _) h

/-- A tick that returns leaves the queue empty. -/
theorem recvMsgs_of_run_tick {evs : List ServerEvent} {lib : ℤ → Libevent}
    (hrun : d.run handle fuel (evs ++ [.tick lib]) = some d') : d'.base.recvMsgs = [] := by
  rw [run, List.foldlM_append] at hrun
  obtain ⟨d₁, -, htick⟩ := Option.bind_eq_some_iff.mp hrun
  rw [List.foldlM_cons] at htick
  obtain ⟨d₂, hstep, hnil⟩ := Option.bind_eq_some_iff.mp htick
  obtain rfl := Option.some.inj hnil
  exact (Loop.of_drain_eq_some hstep).1

end Dispatch

/-! ## The calls of the handler -/

/-- The handler that does what `handle` does, and writes down what it is called with. -/
def HandleMessages.recording (handle : HandleMessages W) : HandleMessages (W × List CPluto) :=
  fun world base u =>
    let r := handle world.1 base u
    ((r.1, world.2 ++ [u]), r.2)

namespace Dispatch

variable {handle : HandleMessages W} {fuel : ℕ}

/-- Without what has been written down. -/
def forget (d : Dispatch (W × List CPluto)) : Dispatch W := ⟨d.base, d.world.1, d.log⟩

theorem records_recording (handle : HandleMessages W) :
    (loop handle.recording).Records fun d => d.world.2 := by
  intro d u rest hqueue
  show (d.handleFront handle.recording).world.2 = d.world.2 ++ [u]
  rw [handleFront_of_cons _ hqueue]
  rfl

theorem forget_handleFront (handle : HandleMessages W) (d : Dispatch (W × List CPluto)) :
    d.forget.handleFront handle = (d.handleFront handle.recording).forget := by
  cases hqueue : d.base.recvMsgs with
  | nil => rw [handleFront, handleFront, show d.forget.base = d.base from rfl, hqueue]
  | cons u rest =>
    rw [handleFront_of_cons handle (show d.forget.base.recvMsgs = u :: rest from hqueue),
      handleFront_of_cons _ hqueue]
    rfl

variable [Abi]

theorem forget_step (d : Dispatch (W × List CPluto)) (ev : ServerEvent) :
    d.forget.step handle fuel ev = (d.step handle.recording fuel ev).map forget := by
  cases ev with
  | tick lib =>
    exact Loop.drain_map forget (fun _ => rfl) (forget_handleFront handle) fuel (d.sendAll lib)
  | _ => rfl

/-- Writing down the calls changes nothing else in a run. -/
theorem forget_run (handle : HandleMessages W) (fuel : ℕ) (d : Dispatch (W × List CPluto))
    (evs : List ServerEvent) :
    d.forget.run handle fuel evs = (d.run handle.recording fuel evs).map forget := by
  induction evs generalizing d with
  | nil => rfl
  | cons ev evs ih =>
    rw [run, run, List.foldlM_cons, List.foldlM_cons, forget_step]
    cases d.step handle.recording fuel ev with
    | none => rfl
    | some d₁ => exact ih d₁

theorem calls_of_run {base : CServerBase} {world : W} {evs : List ServerEvent}
    {d : Dispatch (W × List CPluto)}
    (hrun : run handle.recording fuel ⟨base, (world, []), base.recvMsgs⟩ evs = some d) :
    d.world.2 ++ d.base.recvMsgs = d.log := by
  have hstart : (loop handle.recording).Conserved (fun d => d.world.2)
      ⟨base, (world, []), base.recvMsgs⟩ := rfl
  exact conserved_run (records_recording handle) (fun _ _ _ => rfl) hstart hrun

end Dispatch

/-- `CGameWorld::HandleMessages`. -/
def CGameWorld.handleMessages : HandleMessages W := fun world base _ => (world, base, [])

/-- `CDBWorld::HandleMessages`. The world is what has been printed. -/
def CDBWorld.handleMessages : HandleMessages (List String) := fun world base u =>
  if u.getMsgId = MAX_CLIENT_SERVER_TEST then
    (world ++ ["MAX_CLIENT_SERVER_TEST successed!!!\n"], base, [])
  else (world, base, [])

/-- The handler changes its world only. -/
def HandleMessages.Idle (handle : HandleMessages W) : Prop :=
  ∀ world base u, (handle world base u).2 = (base, [])

theorem CGameWorld.idle_handleMessages : (CGameWorld.handleMessages (W := W)).Idle :=
  fun _ _ _ => rfl

theorem CDBWorld.idle_handleMessages : CDBWorld.handleMessages.Idle := by
  intro world base u
  unfold CDBWorld.handleMessages
  split_ifs
  · rfl
  · rfl

theorem HandleMessages.Idle.recording {handle : HandleMessages W} (hidle : handle.Idle) :
    handle.recording.Idle :=
  fun world base u => hidle world.1 base u

namespace Dispatch

variable {handle : HandleMessages W} (hidle : handle.Idle)
include hidle

theorem handleFront_of_idle (d : Dispatch W) :
    (d.handleFront handle).base = { d.base with recvMsgs := d.base.recvMsgs.tail } ∧
      (d.handleFront handle).log = d.log := by
  cases hqueue : d.base.recvMsgs with
  | nil =>
    have hturn : d.handleFront handle = d := (loop handle).turn_nil d hqueue
    rw [hturn, List.tail_nil, ← hqueue]
    exact ⟨rfl, rfl⟩
  | cons u rest =>
    rw [handleFront_of_cons handle hqueue]
    simp only [hidle d.world d.base u, List.append_nil, List.tail_cons, and_self]

theorem iterate_of_idle (d : Dispatch W) (k : ℕ) :
    ((handleFront handle)^[k] d).base = { d.base with recvMsgs := d.base.recvMsgs.drop k } := by
  induction k with
  | zero => rfl
  | succ k ih =>
    rw [Function.iterate_succ_apply', (handleFront_of_idle hidle _).1, ih, List.tail_drop]

variable [Abi]

/-- With such a handler the tick is that of `CServerBase`. -/
theorem handleEventTick_of_idle (lib : ℤ → Libevent) (d : Dispatch W) :
    ∃ N d', (∀ fuel ≥ N, d.handleEventTick handle fuel lib = some d') ∧
      d'.base = d.base.handleEventTick lib := by
  have hbase := iterate_of_idle hidle (d.sendAll lib) (d.sendAll lib).base.recvMsgs.length
  rw [List.drop_length] at hbase
  refine ⟨(d.sendAll lib).base.recvMsgs.length, _, fun fuel hfuel => Loop.drain_eq ?_ hfuel, hbase⟩
  show ((handleFront handle)^[_] (d.sendAll lib)).base.recvMsgs = []
  rw [hbase]

/-- The server goes through the run of `CServerBase`. -/
theorem run_of_idle (d : Dispatch W) (evs : List ServerEvent) :
    ∃ N d', (∀ fuel ≥ N, d.run handle fuel evs = some d') ∧
      d'.base = Runs.run CServerBase.step d.base evs := by
  induction evs generalizing d with
  | nil => exact ⟨0, d, fun _ _ => rfl, rfl⟩
  | cons ev evs ih =>
    obtain ⟨N₁, d₁, hstep, hbase⟩ : ∃ N d', (∀ fuel ≥ N, d.step handle fuel ev = some d') ∧
        d'.base = d.base.step ev := by
      by_cases hev : ∃ lib, ev = .tick lib
      · obtain ⟨lib, rfl⟩ := hev
        exact handleEventTick_of_idle hidle lib d
      · obtain ⟨new, hstep, -⟩ := step_of_ne_tick handle d fun lib hlib => hev ⟨lib, hlib⟩
        exact ⟨0, _, fun fuel _ => hstep fuel, rfl⟩
    obtain ⟨N₂, d₂, hrun, hbase₂⟩ := ih d₁
    refine ⟨max N₁ N₂, d₂, fun fuel hfuel => ?_, ?_⟩
    · rw [run, List.foldlM_cons, hstep fuel (le_of_max_le_left hfuel)]
      exact hrun fuel (le_of_max_le_right hfuel)
    · rw [hbase₂, hbase, Runs.run_cons]

/-- Only reads queue messages. -/
theorem log_of_idle {fuel : ℕ} {d d' : Dispatch W} {evs : List ServerEvent}
    (hrun : d.run handle fuel evs = some d') :
    ∃ new, d'.base.added = d.base.added ++ new ∧ d'.log = d.log ++ new.map Prod.snd := by
  refine run_inv (P := fun t => ∃ new, t.base.added = d.base.added ++ new ∧
    t.log = d.log ++ new.map Prod.snd) (fun t h => ?_) (fun t lib h => ?_)
    (fun t base more hadded _ h => ?_) ⟨[], by simp⟩ hrun
  · obtain ⟨hbase, hlog⟩ := handleFront_of_idle hidle t
    rwa [hbase, hlog]
  · rwa [(t.sameQueue_sendAll lib).2]
  · obtain ⟨new, hnew, hlog⟩ := h
    refine ⟨new ++ more, ?_, ?_⟩
    · rw [hadded, hnew, List.append_assoc]
    · rw [hlog, List.map_append, List.append_assoc]

/-- **Idle handlers.** The run of `CServerBase` tells what such a handler is called with: the
messages that were in the queue and those that the reads add, in order, except for those that are in
the queue at the end. -/
theorem calls_of_idle (base : CServerBase) (world : W) (evs : List ServerEvent) :
    ∃ N d, (∀ fuel ≥ N,
        run handle.recording fuel ⟨base, (world, []), base.recvMsgs⟩ evs = some d) ∧
      d.base = Runs.run CServerBase.step base evs ∧
      d.world.2 ++ d.base.recvMsgs =
        base.recvMsgs ++ (d.base.added.drop base.added.length).map Prod.snd := by
  obtain ⟨N, d, hrun, hbase⟩ :=
    run_of_idle hidle.recording ⟨base, (world, []), base.recvMsgs⟩ evs
  obtain ⟨new, hadded, hlog⟩ := log_of_idle hidle.recording (hrun N le_rfl)
  refine ⟨N, d, hrun, hbase, ?_⟩
  rw [calls_of_run (hrun N le_rfl), hlog, hadded, List.drop_left]

end Dispatch

end PlutoServer
