import PlutoServer.Server.GameServer
import PlutoServer.Server.Headers
import PlutoServer.Server.Wire

/-!
# The test message

Reference: `CGameServer::HandleEventTick` in `GameServer/game_server.cpp`,
`CDBWorld::HandleMessages` in `DBServer/db_world.cpp`.

The only traffic of the two servers is a test: the game server sends four messages to the DB server,
which prints a line for each it recognises. `GameServer` shows that the messages are never finished,
so their length field is what the allocator left in the block. Here is what becomes of the test:
`pushes_first_four` says which messages are sent in a run, `reports_run` which lines a run of the DB
server prints, and `testPluto_reported` puts them together for a message that arrives alone.
-/

namespace PlutoServer

open Runs

/-! ## The sender -/

namespace CGameServer

instance (s : CGameServer) : (ev : GameEvent) → Decidable (s.Silent ev)
  | (.tick _, _) => inferInstanceAs (Decidable (_ = none))
  | (.connect .., _) => inferInstanceAs (Decidable True)
  | (.accept .., _) => inferInstanceAs (Decidable True)
  | (.connected _, _) => inferInstanceAs (Decidable True)
  | (.closed _, _) => inferInstanceAs (Decidable True)
  | (.read .., _) => inferInstanceAs (Decidable True)

/-- What a message buffer contains at each tick of a run that finds the DB server. -/
def dbTicks [Abi] : CGameServer → List GameEvent → List (ℕ → ByteMem)
  | _, [] => []
  | s, ev :: evs => (if s.Silent ev then [] else [ev.2]) ++ dbTicks (s.step ev) evs

/-- The static local counts the messages. -/
structure Counted (s : CGameServer) : Prop where
  count_eq : s.unSendCount.toNat = s.pushed.length
  length_le : s.pushed.length ≤ 4

variable [Abi] {s : CGameServer} {ev : GameEvent}

/-- A tick that finds the DB server sends a message, up to the fourth. -/
theorem pushed_step (h : s.Counted) (hev : ¬ s.Silent ev) :
    (s.step ev).Counted ∧
      (s.step ev).pushed =
        s.pushed ++ if s.pushed.length < 4 then [testPluto ev.2] else [] := by
  obtain ⟨ev, fresh⟩ := ev
  cases ev with
  | tick lib =>
    have hsome := s.base.getMailBoxBySId_handleEventTick lib ServerType.db.toUInt32
    obtain ⟨pmb, hpmb⟩ := Option.ne_none_iff_exists'.mp hev
    rw [hpmb] at hsome
    have hiff : s.unSendCount < 4 ↔ s.pushed.length < 4 := by
      rw [UInt32.lt_iff_toNat_lt, h.count_eq]
      rfl
    by_cases hlt : s.pushed.length < 4
    · simp only [step, handleEventTick, hsome, if_pos (hiff.mpr hlt), if_pos hlt, and_true]
      constructor
      · show (s.unSendCount + 1).toNat = (s.pushed ++ [testPluto fresh]).length
        have hone : (1 : UInt32).toNat = 1 := rfl
        rw [UInt32.toNat_add, h.count_eq, hone, List.length_append, List.length_singleton]
        exact Nat.mod_eq_of_lt (by omega)
      · show (s.pushed ++ [testPluto fresh]).length ≤ 4
        rw [List.length_append, List.length_singleton]
        omega
    · simp only [step, handleEventTick, hsome, if_neg (mt hiff.mp hlt), if_neg hlt,
        List.append_nil, and_true]
      exact ⟨h.count_eq, h.length_le⟩
  | _ => exact absurd trivial hev

theorem pushed_run (h : s.Counted) (evs : List GameEvent) :
    (run step s evs).pushed =
      s.pushed ++ ((s.dbTicks evs).take (4 - s.pushed.length)).map testPluto := by
  induction evs generalizing s with
  | nil => simp [dbTicks]
  | cons ev evs ih =>
    rw [run_cons, dbTicks]
    by_cases hev : s.Silent ev
    · obtain ⟨hcount, hpushed⟩ := step_of_silent hev
      have hcounted : (s.step ev).Counted :=
        ⟨by rw [hcount, hpushed, h.count_eq], by rw [hpushed]; exact h.length_le⟩
      rw [ih hcounted, hpushed, if_pos hev, List.nil_append]
    · obtain ⟨hcounted, hpushed⟩ := pushed_step h hev
      rw [ih hcounted, hpushed, if_neg hev, List.singleton_append]
      by_cases hlt : s.pushed.length < 4
      · obtain ⟨k, hk⟩ : ∃ k, 4 - s.pushed.length = k + 1 := ⟨3 - s.pushed.length, by omega⟩
        have hk' : 4 - (s.pushed ++ [testPluto ev.2]).length = k := by
          rw [List.length_append, List.length_singleton]
          omega
        rw [if_pos hlt, hk', hk, List.take_succ_cons, List.map_cons, List.append_assoc,
          List.singleton_append]
      · have hzero : 4 - s.pushed.length = 0 := by omega
        rw [if_neg hlt, List.append_nil, hzero, List.take_zero, List.take_zero]

end CGameServer

/-! ## The receiver -/

namespace CDBWorld

/-- What the handler prints for these messages. -/
def reports (us : List CPluto) : List String :=
  (us.filter (·.getMsgId = MAX_CLIENT_SERVER_TEST)).map
    fun _ => "MAX_CLIENT_SERVER_TEST successed!!!\n"

theorem reports_append (us vs : List CPluto) : reports (us ++ vs) = reports us ++ reports vs := by
  rw [reports, List.filter_append, List.map_append, reports, reports]

/-- One call of the handler. -/
theorem world_handleMessages (world : List String) (base : CServerBase) (u : CPluto) :
    (handleMessages world base u).1 = world ++ reports [u] := by
  by_cases hid : u.getMsgId = MAX_CLIENT_SERVER_TEST
  · simp [handleMessages, reports, hid]
  · simp [handleMessages, reports, hid]

/-- The lines of the messages that the handler was called with have been printed. -/
def Reported (world : List String) (d : Dispatch (List String × List CPluto)) : Prop :=
  d.world.1 = world ++ reports d.world.2

theorem Reported.handleFront {world : List String} {d : Dispatch (List String × List CPluto)}
    (h : Reported world d) : Reported world (d.handleFront handleMessages.recording) := by
  cases hqueue : d.base.recvMsgs with
  | nil =>
    have hturn : d.handleFront handleMessages.recording = d :=
      (Dispatch.loop _).turn_nil d hqueue
    rwa [hturn]
  | cons u rest =>
    rw [Dispatch.handleFront_of_cons _ hqueue]
    show (handleMessages d.world.1 d.base u).1 = world ++ reports (d.world.2 ++ [u])
    rw [world_handleMessages, h, reports_append, List.append_assoc]

/-- **What the DB server prints.** A run that ends with a tick returns, and it prints one line for
each message with the id of the test that its reads queue, and nothing else. -/
theorem reports_run [Abi] (base : CServerBase) (hqueue : base.recvMsgs = []) (world : List String)
    (evs : List ServerEvent) (lib : ℤ → Libevent) :
    ∃ N d', (∀ fuel ≥ N, Dispatch.run handleMessages fuel ⟨base, world, []⟩
        (evs ++ [.tick lib]) = some d') ∧
      d'.base = run CServerBase.step base (evs ++ [.tick lib]) ∧
      d'.world = world ++ reports ((d'.base.added.drop base.added.length).map Prod.snd) := by
  obtain ⟨N, d, hrun, hbase, hcalls⟩ :=
    Dispatch.calls_of_idle idle_handleMessages base world (evs ++ [.tick lib])
  rw [hqueue] at hrun hcalls
  have hstart : Reported world ⟨base, (world, []), []⟩ := (List.append_nil world).symm
  have hreported : Reported world d :=
    Dispatch.run_inv (fun _ => Reported.handleFront) (fun _ _ h => h) (fun _ _ _ _ _ h => h) hstart
      (hrun N le_rfl)
  refine ⟨N, d.forget, fun fuel hfuel => ?_, hbase, ?_⟩
  · have hforget := Dispatch.forget_run handleMessages fuel ⟨base, (world, []), []⟩
      (evs ++ [.tick lib])
    rw [hrun fuel hfuel] at hforget
    exact hforget
  · rw [Dispatch.recvMsgs_of_run_tick (hrun N le_rfl), List.append_nil, List.nil_append] at hcalls
    show d.world.1 = world ++ reports ((d.base.added.drop base.added.length).map Prod.snd)
    rw [← hcalls]
    exact hreported

end CDBWorld

/-! ## One message -/

/-- A read on a connection, and a tick. -/
theorem CServerBase.run_read_tick [Abi] {s : CServerBase} {bev : ℕ} {mb : CMailBox}
    (h : s.Serves bev mb) (bytes : List UInt8) (fresh : ℕ → ByteMem) (lib : ℤ → Libevent) :
    let r := mb.readMessage ((s.bevs bev).input ++ bytes) fresh
    let t := run CServerBase.step s [.read bev bytes fresh, .tick lib]
    t.added = s.added ++ r.added.toList.map (fun u => (bev, u)) ∧ (t.bevs bev).input = r.input := by
  intro r t
  have hread := readStep_of_serves h (bytes, fresh)
  have ht : t = (s.readStep (bev, bytes, fresh)).handleEventTick lib := rfl
  constructor
  · have hadded : t.added = (s.readStep (bev, bytes, fresh)).added :=
      (sameQueue_foldl_sendTick lib _ (s.readStep (bev, bytes, fresh))).2
    rw [hadded, hread]
  · rw [ht, (bevs_handleEventTick lib _ bev).2, hread]
    simp only [Function.update_self]
    rfl

/-- What a trusted connection does with bytes that arrive alone depends on the first four: it leaves
the bytes where they are, or drops these four, or queues the rest as a message. -/
theorem CMailBox.readMessage_trusted {mb : CMailBox} (hmb : mb.pPluto = none)
    (htrusted : mb.eAuthz = .trusted) {buf : List UInt8} (hbuf : 4 < buf.length)
    (fresh : ℕ → ByteMem) :
    let r := mb.readMessage buf fresh
    (buf.headD 0 = 0 ∧ r.input = buf ∧ r.added = none) ∨
      (buf.headD 0 ≠ 0 ∧ (szToUint32 (buf.take 4)).toNat < 8 ∧ r.input = buf.drop 4 ∧
        r.added = none) ∨
      (buf.headD 0 ≠ 0 ∧ 8 ≤ (szToUint32 (buf.take 4)).toNat ∧ r.input = [] ∧
        r.added = some (received buf fresh)) := by
  intro r
  have hcheck : (mb.checkHeadSize (szToUint32 (buf.take 4))).1 = true ↔
      8 ≤ (szToUint32 (buf.take 4)).toNat := by
    rw [checkHeadSize_fst_iff]
    exact and_iff_left fun hne => absurd htrusted hne
  rcases readMessage_cases hmb buf fresh with
    ⟨hleft, hr⟩ | ⟨hlen', hne, hnot, closed, hr⟩ | ⟨-, hfour, -⟩ | ⟨hacc, -, hr⟩
  · have hzero : buf.headD 0 = 0 := hleft.resolve_left (by omega)
    exact Or.inl ⟨hzero, congrArg ReadResult.input hr, congrArg ReadResult.added hr⟩
  · refine Or.inr (Or.inl ⟨hne, ?_, congrArg ReadResult.input hr, congrArg ReadResult.added hr⟩)
    by_contra hge
    exact hnot ⟨hlen', hne, hcheck.mpr (Nat.not_lt.mp hge)⟩
  · omega
  · exact Or.inr (Or.inr ⟨hacc.head_ne, hcheck.mp hacc.check, congrArg ReadResult.input hr,
      congrArg ReadResult.added hr⟩)

theorem length_testPluto (fresh : ℕ → ByteMem) : (testPluto fresh).content.length = 13 := by
  rw [content_testPluto, List.length_append, ByteMem.length_slice]
  rfl

/-- The message keeps its id on the way. -/
theorem getMsgId_received_testPluto (fresh fresh' : ℕ → ByteMem) :
    (received (testPluto fresh).content fresh').getMsgId = MAX_CLIENT_SERVER_TEST := by
  rw [(CServerBase.slice_received_eight (by rw [length_testPluto]; decide) fresh').2,
    content_testPluto, List.drop_left' (ByteMem.length_slice ..)]
  decide

/-- **The test at the DB server.** Take any message that a run of the game server sends, and a
trusted connection of the DB server with an empty input, where it arrives alone. The next tick
prints the line of the test if and only if the first byte of the message is not zero and its first
four bytes are at least 8 as a number; these bytes are whatever the allocator left in the block.
Otherwise nothing is printed, and all the message, or all but these four bytes, stays in the input
of the connection. -/
theorem testPluto_reported [Abi] {config : Std.TreeMap UInt32 SObject}
    {evs : List CGameServer.GameEvent} {u : CPluto}
    (hu : u ∈ (run CGameServer.step (.new config) evs).pushed) {base : CServerBase} {bev : ℕ}
    {mb : CMailBox} (hserves : base.Serves bev mb) (htrusted : mb.eAuthz = .trusted)
    (hinput : (base.bevs bev).input = []) (hqueue : base.recvMsgs = []) (world : List String)
    (fresh : ℕ → ByteMem) (lib : ℤ → Libevent) :
    ∃ N d', (∀ fuel ≥ N, Dispatch.run CDBWorld.handleMessages fuel ⟨base, world, []⟩
        [.read bev u.content fresh, .tick lib] = some d') ∧
      (d'.world, (d'.base.bevs bev).input) =
        if u.content.headD 0 = 0 then (world, u.content)
        else if (szToUint32 (u.content.take 4)).toNat < 8 then (world, u.content.drop 4)
        else (world ++ ["MAX_CLIENT_SERVER_TEST successed!!!\n"], []) := by
  rw [CGameServer.pushed_run (s := .new config) ⟨rfl, Nat.zero_le 4⟩ evs] at hu
  obtain ⟨fresh₀, -, rfl⟩ := List.mem_map.mp (show u ∈ List.map testPluto _ from hu)
  obtain ⟨N, d', hrun, hbase, hworld⟩ := CDBWorld.reports_run base hqueue world
    [.read bev (testPluto fresh₀).content fresh] lib
  obtain ⟨hadded, hin⟩ :=
    CServerBase.run_read_tick hserves (testPluto fresh₀).content fresh lib
  rw [hinput, List.nil_append] at hadded hin
  rw [hbase, List.singleton_append, hadded, List.drop_left, List.map_map] at hworld
  refine ⟨N, d', hrun, ?_⟩
  rw [hbase, List.singleton_append, hin, hworld]
  have hlen : 4 < (testPluto fresh₀).content.length := by rw [length_testPluto]; decide
  rcases CMailBox.readMessage_trusted hserves.pPluto htrusted hlen fresh with
    ⟨hzero, hr, hnone⟩ | ⟨hne, hlt, hr, hnone⟩ | ⟨hne, hge, hr, hsome⟩
  · rw [if_pos hzero, hr, hnone]
    simp [CDBWorld.reports]
  · rw [if_neg hne, if_pos hlt, hr, hnone]
    simp [CDBWorld.reports]
  · rw [if_neg hne, if_neg (Nat.not_lt.mpr hge), hr, hsome]
    simp [CDBWorld.reports, getMsgId_received_testPluto]

/-- A run of the game server in which the DB server is connected and the timer ticks once; the
memory is filled with one byte. -/
def testEvents (b : UInt8) : List CGameServer.GameEvent :=
  [(.connect 0 7 0, fun _ _ => b), (.tick fun _ => Libevent.exact, fun _ _ => b)]

theorem mem_pushed_testEvents (b : UInt8) :
    letI := Abi.x64
    testPluto (fun _ _ => b) ∈ (run CGameServer.step
      (.new (.insert ∅ 1 ⟨1, .db, "db", "", 0⟩)) (testEvents b)).pushed :=
  List.mem_cons_self

/-- Memory filled with 205 lets the test succeed, and cleared memory does not. -/
theorem testPluto_reported_of_fill :
    letI := Abi.x64
    ∃ N d d', (∀ fuel ≥ N,
        Dispatch.run CDBWorld.handleMessages fuel ⟨Tapped.oneClient, [], []⟩
          [.read 0 (testPluto fun _ _ => 205).content fun _ _ => 0,
            .tick fun _ => Libevent.exact] = some d ∧
        Dispatch.run CDBWorld.handleMessages fuel ⟨Tapped.oneClient, [], []⟩
          [.read 0 (testPluto fun _ _ => 0).content fun _ _ => 0,
            .tick fun _ => Libevent.exact] = some d') ∧
      d.world = ["MAX_CLIENT_SERVER_TEST successed!!!\n"] ∧ d'.world = [] := by
  let _ := Abi.x64
  obtain ⟨N, d, hrun, heq⟩ := testPluto_reported (mem_pushed_testEvents 205)
    Tapped.serves_oneClient rfl rfl rfl [] (fun _ _ => 0) fun _ => Libevent.exact
  obtain ⟨N', d', hrun', heq'⟩ := testPluto_reported (mem_pushed_testEvents 0)
    Tapped.serves_oneClient rfl rfl rfl [] (fun _ _ => 0) fun _ => Libevent.exact
  rw [content_testPluto, if_neg (by decide), if_neg (by decide +kernel)] at heq
  rw [content_testPluto, if_pos (by decide)] at heq'
  refine ⟨max N N', d, d', fun fuel hfuel => ⟨hrun fuel (le_of_max_le_left hfuel),
    hrun' fuel (le_of_max_le_right hfuel)⟩, congrArg Prod.fst heq, congrArg Prod.fst heq'⟩

end PlutoServer
