import PlutoServer.Pluto.EncodeTheorems
import PlutoServer.Server.Registry

/-!
# The game server

Reference: `GameServer/game_server.cpp`.

At each of its first four ticks at which the DB server is registered, the game server sends it a
test message. The message is meant to be finished by `*u << EndPluto`. But no `operator<<` takes a
function; the name of the function converts to `true`, and what is appended is a bool. The header is
then never written (`content_testPluto`), and `pushed_finished_iff` shows that the messages sent are
finished only in runs that send none.
-/

namespace PlutoServer

open Runs
open Std (TreeMap)

/-! ## The model -/

/-- `CGameServer`. -/
structure CGameServer where
  base : CServerBase
  /-- The static local of `HandleEventTick`. -/
  unSendCount : UInt32
  /-- Ghost: the messages given to `PushPluto`, in order. -/
  pushed : List CPluto

/-- The message of `HandleEventTick`, in a block with the contents `fresh`. -/
def testPluto (fresh : ℕ → ByteMem) : CPluto :=
  let u := CPluto.new DEFAULT_PLUTO_BUFFER fresh
  let u := u.encode MAX_CLIENT_SERVER_TEST
  let u := u.shlInt32 1
  -- `*u << EndPluto` selects the bool overload
  u.shlBool true

namespace CGameServer

/-- The game server with the mailboxes of its configuration. -/
def new (config : TreeMap UInt32 SObject) : CGameServer where
  base := CServerBase.new.initMailBoxs config
  unSendCount := 0
  pushed := []

/-- `CGameServer::HandleEventTick`. -/
def handleEventTick [Abi] (s : CGameServer) (lib : ℤ → Libevent) (fresh : ℕ → ByteMem) :
    CGameServer :=
  let base := s.base.handleEventTick lib
  match base.getMailBoxBySId ServerType.db.toUInt32 with
  | none => { s with base := base }
  | some pmb =>
    if s.unSendCount < 4 then
      let u := testPluto fresh
      { base := base.modifyMailBox pmb (·.pushPluto u)
        unSendCount := s.unSendCount + 1
        pushed := s.pushed ++ [u] }
    else { s with base := base }

/-- A callback, with the contents of a message buffer allocated in the course of it. -/
abbrev GameEvent := ServerEvent × (ℕ → ByteMem)

/-- One callback of the game server, which overrides that of the timer. -/
def step [Abi] (s : CGameServer) : GameEvent → CGameServer
  | (.tick lib, fresh) => s.handleEventTick lib fresh
  | (ev, _) => { s with base := s.base.step ev }

end CGameServer

/-! ## The message -/

namespace CPluto

/-- A message of these fields as `EndPluto` leaves it: the length, two zeros, `m_unMaxLen` at the
length, and nothing behind the last field. -/
structure Finished (u : CPluto) (fields : List Field) : Prop where
  head_eq : szToUint32 (u.szBuffer.slice 0 MSGLEN_HEAD) = u.unLen
  reserved_eq : u.szBuffer.slice MSGLEN_HEAD MSGLEN_RESERVED = [0, 0]
  maxLen_eq : u.unMaxLen = u.unLen
  length_eq : u.unLen.toNat = MSGLEN_TEXT_POS + (fields.flatMap Field.bytes).length

end CPluto

/-- The bytes of the test message begin with what happened to be in the block. -/
theorem content_testPluto (fresh : ℕ → ByteMem) :
    (testPluto fresh).content = (fresh 0).slice 0 6 ++ [101, 0, 1, 0, 0, 0, 1] := by
  let _ := Abi.x64
  have hbuild : testPluto fresh = (CPluto.new DEFAULT_PLUTO_BUFFER fresh).build
      MAX_CLIENT_SERVER_TEST [⟨.int32, 1⟩, ⟨.bool, true⟩] := rfl
  have hlt : ((CPluto.new DEFAULT_PLUTO_BUFFER fresh).encode MAX_CLIENT_SERVER_TEST).unLen.toNat +
      (List.flatMap Field.bytes [⟨.int32, 1⟩, ⟨.bool, true⟩]).length < 2 ^ 32 := by
    rw [CPluto.toNat_unLen_encode]
    decide
  rw [hbuild, CPluto.build, CPluto.content_foldl_shl_of_lt (by decide) hlt, CPluto.content_encode,
    List.append_assoc]
  rfl

/-- Its length is 13 and `m_unMaxLen` is still zero. -/
theorem not_finished_testPluto (fresh : ℕ → ByteMem) (fields : List Field) :
    ¬ (testPluto fresh).Finished fields := by
  intro h
  have hlen : (testPluto fresh).unLen = 13 := rfl
  have hmax : (testPluto fresh).unMaxLen = 0 := rfl
  exact absurd (hmax.symm.trans (h.maxLen_eq.trans hlen)) (by decide)

/-! ## Whole runs -/

namespace CGameServer

/-- The callback is not a tick at which the DB server is found. -/
def Silent (s : CGameServer) : GameEvent → Prop
  | (.tick _, _) => s.base.getMailBoxBySId ServerType.db.toUInt32 = none
  | _ => True

/-- A callback that is silent sends nothing. -/
theorem step_of_silent [Abi] {s : CGameServer} {ev : GameEvent} (h : s.Silent ev) :
    (s.step ev).unSendCount = s.unSendCount ∧ (s.step ev).pushed = s.pushed := by
  obtain ⟨ev, fresh⟩ := ev
  cases ev with
  | tick lib =>
    have hnone := s.base.getMailBoxBySId_handleEventTick lib ServerType.db.toUInt32
    rw [show s.base.getMailBoxBySId _ = none from h] at hnone
    simp only [step, handleEventTick, hnone, and_self]
  | _ => exact ⟨rfl, rfl⟩

/-- The first callback that is not silent sends a test message. -/
theorem step_of_not_silent [Abi] {s : CGameServer} {ev : GameEvent} (h : ¬ s.Silent ev)
    (hcount : s.unSendCount = 0) : (s.step ev).pushed = s.pushed ++ [testPluto ev.2] := by
  obtain ⟨ev, fresh⟩ := ev
  cases ev with
  | tick lib =>
    have hsome := s.base.getMailBoxBySId_handleEventTick lib ServerType.db.toUInt32
    obtain ⟨pmb, hpmb⟩ := Option.ne_none_iff_exists'.mp h
    rw [hpmb] at hsome
    have hlt : s.unSendCount < 4 := by rw [hcount]; decide
    simp only [step, handleEventTick, hsome, if_pos hlt]
  | _ => exact absurd trivial h

/-- What has been sent has been sent. -/
theorem pushed_isPrefix_step [Abi] (s : CGameServer) (ev : GameEvent) :
    s.pushed <+: (s.step ev).pushed := by
  obtain ⟨ev, fresh⟩ := ev
  cases ev with
  | tick lib =>
    rw [step, handleEventTick]
    split
    · exact List.prefix_rfl
    · split_ifs
      · exact List.prefix_append ..
      · exact List.prefix_rfl
  | _ => exact List.prefix_rfl

theorem pushed_isPrefix_run [Abi] (s : CGameServer) (evs : List GameEvent) :
    s.pushed <+: (run step s evs).pushed :=
  run_inv (P := fun t : CGameServer => s.pushed <+: t.pushed) evs
    (fun t ev h => h.trans (t.pushed_isPrefix_step ev)) List.prefix_rfl

/-- As long as nothing has been sent, all messages of a run are finished just in case there are
none. -/
theorem forall_finished_iff [Abi] {s : CGameServer} (hcount : s.unSendCount = 0)
    (hpushed : s.pushed = []) (evs : List GameEvent) :
    (∀ u ∈ (run step s evs).pushed, u.Finished [⟨.int32, 1⟩]) ↔ Guarded step Silent s evs := by
  induction evs generalizing s with
  | nil => simp [hpushed, Guarded]
  | cons ev evs ih =>
    by_cases hev : s.Silent ev
    · obtain ⟨hcount', hpushed'⟩ := step_of_silent hev
      rw [run_cons, ih (hcount'.trans hcount) (hpushed'.trans hpushed), Guarded]
      exact (and_iff_right hev).symm
    · -- the test message stays among those sent
      have hmem : testPluto ev.2 ∈ (run step s (ev :: evs)).pushed := by
        refine (pushed_isPrefix_run (s.step ev) evs).subset ?_
        rw [step_of_not_silent hev hcount]
        exact List.mem_append_right _ List.mem_cons_self
      exact iff_of_false (fun h => not_finished_testPluto ev.2 _ (h _ hmem)) fun h => hev h.1

/-- **Finished messages.** In a run of the game server all messages given to the mailbox of the DB
server are finished if and only if no tick finds that mailbox. -/
theorem pushed_finished_iff [Abi] (config : TreeMap UInt32 SObject) (evs : List GameEvent) :
    (∀ u ∈ (run step (new config) evs).pushed, u.Finished [⟨.int32, 1⟩]) ↔
      Guarded step Silent (new config) evs :=
  forall_finished_iff rfl rfl evs

/-- The DB server is configured and connected, and the timer ticks. What is sent is not finished,
and it depends on what the allocator returned. -/
theorem pushed_not_finished :
    letI := Abi.x64
    let config : TreeMap UInt32 SObject := TreeMap.insert ∅ 1 ⟨1, .db, "db", "", 0⟩
    let lib : ℤ → Libevent := fun _ => ⟨fun _ _ => none, fun _ => false⟩
    let s (b : UInt8) := run step (new config)
      [(.connect 0 7 0, fun _ _ => b), (.tick lib, fun _ _ => b)]
    ¬ (∀ u ∈ (s 205).pushed, u.Finished [⟨.int32, 1⟩]) ∧
      (s 205).pushed.map CPluto.content ≠ (s 0).pushed.map CPluto.content := by
  intro config lib s
  have hs (b : UInt8) : (s b).pushed = [testPluto fun _ _ => b] := rfl
  refine ⟨fun h => ?_, ?_⟩
  · exact not_finished_testPluto _ _ (h _ (by rw [hs]; exact List.mem_cons_self))
  · rw [hs, hs, List.map_singleton, List.map_singleton, content_testPluto, content_testPluto]
    decide

end CGameServer

end PlutoServer
