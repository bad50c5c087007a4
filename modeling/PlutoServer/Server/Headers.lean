import PlutoServer.Server.Delivery
import PlutoServer.Server.Dispatch
import PlutoServer.Server.Ids
import PlutoServer.Server.Receipt

/-!
# What a header promises

`OnReadMessage` tests the length in the header of a message, and then makes a message of whatever
has arrived. `added_readMessage_iff` says when a read queues a message and which: there is a header
that passes the tests, and at least one byte after it (`TakesHead`).

What may be expected of the header then holds as far as the bytes that have arrived agree with it: a
frame is taken unless its length is a multiple of 256 (`frame_taken_iff`), a queued message has its
id if eight bytes had arrived (`queued_with_id_iff`), it has the length of its header if exactly
that much had arrived (`queued_as_declared_iff`), and a connection on which a header was refused
stays silent if nothing after it looks like a header (`silent_iff`).
-/

namespace PlutoServer

open Runs
open Std (TreeMap)

/-! ## What a read queues -/

namespace CMailBox

/-- The buffer begins with a length that is accepted from the mailbox, and there is a byte after it.
-/
def TakesHead (mb : CMailBox) (buf : List UInt8) : Prop :=
  4 < buf.length ∧ buf.headD 0 ≠ 0 ∧ MSGLEN_TEXT_POS ≤ (szToUint32 (buf.take 4)).toNat ∧
    (mb.eAuthz ≠ .trusted → (szToUint32 (buf.take 4)).toNat ≤ MSGLEN_MAX)

instance (mb : CMailBox) : DecidablePred mb.TakesHead := fun buf => inferInstanceAs (Decidable
  (4 < buf.length ∧ buf.headD 0 ≠ 0 ∧ MSGLEN_TEXT_POS ≤ (szToUint32 (buf.take 4)).toNat ∧
    (mb.eAuthz ≠ .trusted → (szToUint32 (buf.take 4)).toNat ≤ MSGLEN_MAX)))

theorem checkHeadSize_fst_iff (mb : CMailBox) (unHeadLen : UInt32) :
    (mb.checkHeadSize unHeadLen).1 = true ↔
      MSGLEN_TEXT_POS ≤ unHeadLen.toNat ∧
        (mb.eAuthz ≠ .trusted → unHeadLen.toNat ≤ MSGLEN_MAX) := by
  unfold checkHeadSize
  split_ifs with hlow hhigh
  · exact iff_of_false not_false fun h => absurd h.1 (Nat.not_le.mpr hlow)
  · exact iff_of_false not_false fun h => absurd (h.2 hhigh.1) (Nat.not_le.mpr hhigh.2)
  · refine iff_of_true rfl ⟨Nat.not_lt.mp hlow, fun hauthz => ?_⟩
    exact Nat.not_lt.mp fun hgt => hhigh ⟨hauthz, hgt⟩

theorem takesHead_iff (mb : CMailBox) (buf : List UInt8) :
    mb.TakesHead buf ↔ mb.Accepts buf ∧ 4 < buf.length := by
  constructor
  · rintro ⟨hlen, hne, hcheck⟩
    exact ⟨⟨hlen.le, hne, (mb.checkHeadSize_fst_iff _).mpr hcheck⟩, hlen⟩
  · rintro ⟨hacc, hlen⟩
    exact ⟨hlen, hacc.head_ne, (mb.checkHeadSize_fst_iff _).mp hacc.check⟩

/-- **What a read queues.** -/
theorem added_readMessage_iff {mb : CMailBox} (hmb : mb.pPluto = none) {buf : List UInt8}
    {fresh : ℕ → ByteMem} {u : CPluto} :
    (mb.readMessage buf fresh).added = some u ↔ mb.TakesHead buf ∧ u = received buf fresh := by
  rw [takesHead_iff]
  rcases readMessage_cases hmb buf fresh with
    ⟨hleft, heq⟩ | ⟨-, -, hnot, closed, heq⟩ | ⟨-, hfour, heq⟩ | ⟨hacc, hlen, heq⟩ <;> rw [heq]
  · refine iff_of_false nofun fun ⟨⟨hacc, _⟩, _⟩ => ?_
    exact hleft.elim (Nat.not_lt.mpr hacc.head_le) hacc.head_ne
  · exact iff_of_false nofun fun ⟨⟨hacc, _⟩, _⟩ => hnot hacc
  · exact iff_of_false nofun fun ⟨⟨_, hlen⟩, _⟩ => absurd hlen (by omega)
  · rw [and_iff_right ⟨hacc, hlen⟩]
    exact ⟨fun h => (Option.some.inj h).symm, fun h => congrArg some h.symm⟩

theorem added_readMessage_eq_none_iff {mb : CMailBox} (hmb : mb.pPluto = none) {buf : List UInt8}
    {fresh : ℕ → ByteMem} : (mb.readMessage buf fresh).added = none ↔ ¬ mb.TakesHead buf := by
  rw [Option.eq_none_iff_forall_ne_some]
  constructor
  · intro hnone htakes
    exact hnone _ ((added_readMessage_iff hmb).mpr ⟨htakes, rfl⟩)
  · intro hnot u hu
    exact hnot ((added_readMessage_iff hmb).mp hu).1

end CMailBox

namespace CServerBase

/-- What holds for the mailbox and the input when the read callback runs. -/
def AtRead (R : CMailBox → List UInt8 → (ℕ → ByteMem) → Prop) (s : CServerBase) :
    ServerEvent → Prop
  | .read bev bytes fresh => ∀ pmb mb, s.getMailBoxFromFd (s.bevs bev).fd = some pmb →
      s.mailBoxes pmb = some mb → R mb ((s.bevs bev).input ++ bytes) fresh
  | _ => True

theorem idle_run [Abi] (config : TreeMap UInt32 SObject) (evs : List ServerEvent) :
    (run step (CServerBase.new.initMailBoxs config) evs).Idle :=
  run_inv evs (fun _ ev hs => Idle.step hs ev) (idle_initMailBoxs config)

/-- Two conditions on reads that agree while no message is begun agree in every run. -/
theorem guarded_atRead_congr [Abi] {R R' : CMailBox → List UInt8 → (ℕ → ByteMem) → Prop}
    (h : ∀ mb buf fresh, mb.pPluto = none → (R mb buf fresh ↔ R' mb buf fresh))
    (config : TreeMap UInt32 SObject) (evs : List ServerEvent) :
    Guarded step (AtRead R) (CServerBase.new.initMailBoxs config) evs ↔
      Guarded step (AtRead R') (CServerBase.new.initMailBoxs config) evs := by
  refine guarded_congr (P := Idle) (fun _ ev hs _ => hs.step ev) (fun s ev hs => ?_)
    (idle_initMailBoxs config)
  cases ev with
  | read bev bytes fresh =>
    exact forall₄_congr fun pmb mb _ hmb => h mb _ fresh (hs pmb mb hmb)
  | connect | accept | connected | closed | tick => exact Iff.rfl

/-! ## Frames -/

/-- The two things that can happen to a frame that is all there is in the input. -/
theorem handleReadSocket_frame {s : CServerBase} {bev : ℕ} {mb : CMailBox} (h : s.Serves bev mb)
    (F : Frame) {bytes : List UInt8} (hinput : (s.bevs bev).input ++ bytes = F.bytes)
    (fresh : ℕ → ByteMem) :
    let t := (s.handleReadSocket bev bytes fresh).1
    (F.bytes.length % 256 = 0 ∧ (t.bevs bev).input = F.bytes ∧ t.recvMsgs = s.recvMsgs) ∨
      (F.bytes.length % 256 ≠ 0 ∧ (t.bevs bev).input = [] ∧
        t.recvMsgs = s.recvMsgs ++ [received F.bytes fresh]) := by
  intro t
  have hidle := h.pPluto
  have ht := readStep_of_serves h (bytes, fresh)
  rw [hinput] at ht
  have hrest : (t.bevs bev).input = (mb.readMessage F.bytes fresh).input := by
    show ((s.readStep (bev, bytes, fresh)).bevs bev).input = _
    rw [ht]
    dsimp only
    rw [Function.update_self]
  have hqueue : t.recvMsgs = s.recvMsgs ++ (mb.readMessage F.bytes fresh).added.toList := by
    show (s.readStep (bev, bytes, fresh)).recvMsgs = _
    rw [ht]
  by_cases h256 : F.bytes.length % 256 = 0
  · -- the first byte of the length is zero: the header counts as an empty string
    rw [CMailBox.readMessage_of_left hidle (Or.inr (F.headD_eq_zero_iff.mpr h256))] at hrest hqueue
    exact Or.inl ⟨h256, hrest, hqueue.trans (List.append_nil _)⟩
  · rw [F.readMessage_eq h256 hidle] at hrest hqueue
    exact Or.inr ⟨h256, hrest, hqueue⟩

/-- **When a frame is taken.** In any state that the server can reach, on any connection: if the
input is exactly one frame, the read drains it and queues a message with its bytes, unless its
length is a multiple of 256. -/
theorem frame_taken_iff [Abi] {config : TreeMap UInt32 SObject} {evs : List ServerEvent}
    {s : CServerBase} (hs : s = run step (CServerBase.new.initMailBoxs config) evs)
    {bev pmb : ℕ} {mb : CMailBox} (hfd : s.getMailBoxFromFd (s.bevs bev).fd = some pmb)
    (hmb : s.mailBoxes pmb = some mb) (F : Frame) (bytes : List UInt8)
    (hinput : (s.bevs bev).input ++ bytes = F.bytes) (fresh : ℕ → ByteMem) :
    (((s.handleReadSocket bev bytes fresh).1.bevs bev).input = [] ∧
      ∃ u, (s.handleReadSocket bev bytes fresh).1.recvMsgs = s.recvMsgs ++ [u] ∧
        u.block = F.bytes) ↔
    F.bytes.length % 256 ≠ 0 := by
  have hidle : s.Idle := by
    rw [hs]
    exact idle_run config evs
  rcases handleReadSocket_frame ⟨⟨pmb, hfd, hmb⟩, hidle⟩ F hinput fresh with
    ⟨h256, hleft, -⟩ | ⟨h256, hdrained, hqueued⟩
  · refine iff_of_false (fun ⟨hnil, _⟩ => ?_) (not_not_intro h256)
    have hmin := F.eight_le
    rw [← hleft, hnil] at hmin
    exact absurd hmin (by decide)
  · exact iff_of_true ⟨hdrained, _, hqueued, F.block_received fresh⟩ h256

/-- A frame of nine bytes, on the connection of a client. -/
theorem frame_taken_of_nine :
    letI := Abi.x64
    let s := run step (CServerBase.new.initMailBoxs ∅) [.accept 5 "" 0]
    let t := (s.handleReadSocket 0 [9, 0, 0, 0, 0, 0, 101, 0, 1] fun _ _ => 0).1
    (t.bevs 0).input = [] ∧ ∃ u, t.recvMsgs = [u] ∧ u.block = [9, 0, 0, 0, 0, 0, 101, 0, 1] := by
  intro s
  let _ := Abi.x64
  have hfd : s.getMailBoxFromFd (s.bevs 0).fd = some 0 := by decide
  have hmb : s.mailBoxes 0 = some (accepted 5 "" 0 0) := by rfl
  let F : Frame := ⟨[9, 0, 0, 0, 0, 0, 101, 0, 1], by decide, by decide, by decide⟩
  exact (frame_taken_iff rfl hfd hmb F [9, 0, 0, 0, 0, 0, 101, 0, 1] rfl fun _ _ => 0).mpr
    (by decide)

theorem length_frame256 :
    (0 :: 1 :: 0 :: 0 :: List.replicate 252 (0 : UInt8)).length = 256 := by
  simp only [List.length_cons, List.length_replicate]

/-- A frame of 256 bytes. -/
def frame256 : Frame where
  bytes := 0 :: 1 :: 0 :: 0 :: List.replicate 252 0
  le_length := by
    rw [length_frame256]
    decide
  length_le := by
    rw [length_frame256]
    decide
  head_eq := by
    rw [length_frame256]
    show [0, 1, 0, 0] = uint32ToSz (UInt32.ofNat 256)
    decide

/-- It stays in the input of the first client, and nothing is queued. -/
theorem frame_not_taken :
    letI := Abi.x64
    let s := run step (CServerBase.new.initMailBoxs ∅) [.accept 5 "" 0]
    ((s.handleReadSocket 0 frame256.bytes fun _ _ => 0).1.bevs 0).input = frame256.bytes ∧
      (s.handleReadSocket 0 frame256.bytes fun _ _ => 0).1.recvMsgs = [] := by
  intro s
  let _ := Abi.x64
  have hserves : s.Serves 0 (accepted 5 "" 0 0) := ⟨⟨0, by decide, by rfl⟩, idle_run ∅ _⟩
  have hinput : (s.bevs 0).input = [] := rfl
  rcases handleReadSocket_frame hserves frame256 (by rw [hinput, List.nil_append])
    (fun _ _ => 0) with ⟨-, hleft, hqueue⟩ | ⟨h256, -⟩
  · exact ⟨hleft, hqueue⟩
  · exact absurd (by rw [frame256, length_frame256]) h256

/-! ## The id of a message -/

/-- A queued message has the bytes up to its id, as they arrived, inside its block. -/
def QueuesWithId (mb : CMailBox) (buf : List UInt8) (fresh : ℕ → ByteMem) : Prop :=
  ∀ u, (mb.readMessage buf fresh).added = some u →
    MSGLEN_TEXT_POS ≤ u.unBufferSize.toNat ∧
    u.szBuffer.slice 0 MSGLEN_TEXT_POS = buf.take MSGLEN_TEXT_POS ∧
    u.getMsgId = szToUint16 ((buf.drop 6).take 2)

/-- Where a header is taken, the bytes up to the id have arrived. -/
def IdArrived (mb : CMailBox) (buf : List UInt8) (_fresh : ℕ → ByteMem) : Prop :=
  mb.TakesHead buf → MSGLEN_TEXT_POS ≤ buf.length % 2 ^ 32

theorem toNat_unBufferSize_received (buf : List UInt8) (fresh : ℕ → ByteMem) :
    (received buf fresh).unBufferSize.toNat = buf.length % 2 ^ 32 :=
  UInt32.toNat_ofNat' ..

/-- The bytes up to the id are the first eight of the buffer. -/
theorem slice_received_eight {buf : List UInt8} (h : 8 ≤ buf.length) (fresh : ℕ → ByteMem) :
    (received buf fresh).szBuffer.slice 0 8 = buf.take 8 ∧
      (received buf fresh).getMsgId = szToUint16 ((buf.drop 6).take 2) := by
  have hall := slice_received (show 4 ≤ buf.length by omega) fresh
  have htake := ByteMem.take_slice (received buf fresh).szBuffer 0 h
  rw [hall] at htake
  refine ⟨htake.symm, ?_⟩
  have hdrop := ByteMem.drop_slice (received buf fresh).szBuffer 0 (show 6 ≤ 8 by decide)
  rw [← htake, List.drop_take] at hdrop
  show szToUint16 ((received buf fresh).szBuffer.slice 6 2) = _
  rw [show (received buf fresh).szBuffer.slice 6 2 = (buf.drop 6).take 2 from hdrop.symm]

theorem queuesWithId_iff (mb : CMailBox) (buf : List UInt8) (fresh : ℕ → ByteMem)
    (hmb : mb.pPluto = none) : QueuesWithId mb buf fresh ↔ IdArrived mb buf fresh := by
  have hcap := toNat_unBufferSize_received buf fresh
  constructor
  · intro h htakes
    rw [← hcap]
    exact (h _ ((CMailBox.added_readMessage_iff hmb).mpr ⟨htakes, rfl⟩)).1
  · intro h u hu
    obtain ⟨htakes, rfl⟩ := (CMailBox.added_readMessage_iff hmb).mp hu
    have harrived := h htakes
    refine ⟨by rw [hcap]; exact harrived, ?_⟩
    exact slice_received_eight (harrived.trans (Nat.mod_le ..)) fresh

/-- **When queued messages are long enough for their id.** In every run, exactly when no header is
taken before eight bytes are there (of which 32 bits can tell). -/
theorem queued_with_id_iff [Abi] (config : TreeMap UInt32 SObject) (evs : List ServerEvent) :
    Guarded step (AtRead QueuesWithId) (CServerBase.new.initMailBoxs config) evs ↔
      Guarded step (AtRead IdArrived) (CServerBase.new.initMailBoxs config) evs :=
  guarded_atRead_congr queuesWithId_iff config evs

/-- A chunk ends after the first byte of the message proper: the block has five bytes, and
`GetMsgId` reads the seventh and the eighth. -/
theorem queued_without_id :
    letI := Abi.x64
    ¬ Guarded step (AtRead QueuesWithId) (CServerBase.new.initMailBoxs ∅)
      [.accept 5 "" 0, .read 0 [9, 0, 0, 0, 1] fun _ _ => 0] := by
  let _ := Abi.x64
  rintro ⟨-, h, -⟩
  have hlong := (h 0 (accepted 5 "" 0 0) (by decide) (by rfl)
    (received [9, 0, 0, 0, 1] fun _ _ => 0) (by rfl)).1
  exact absurd hlong (by decide)

/-! ## The length of a message -/

/-- A message queued from a mailbox that is not trusted is no longer than `MSGLEN_MAX`, and as long
as the header in it says. -/
def QueuesAsDeclared (mb : CMailBox) (buf : List UInt8) (fresh : ℕ → ByteMem) : Prop :=
  mb.eAuthz ≠ .trusted → ∀ u, (mb.readMessage buf fresh).added = some u →
    u.block.length ≤ MSGLEN_MAX ∧
    u.block.length = (szToUint32 (u.szBuffer.slice 0 4)).toNat

/-- Where a header is taken from a mailbox that is not trusted, the input has the length that it
says. -/
def AllArrived (mb : CMailBox) (buf : List UInt8) (_fresh : ℕ → ByteMem) : Prop :=
  mb.eAuthz ≠ .trusted → mb.TakesHead buf →
    buf.length % 2 ^ 32 = (szToUint32 (buf.take 4)).toNat

theorem queuesAsDeclared_iff (mb : CMailBox) (buf : List UInt8) (fresh : ℕ → ByteMem)
    (hmb : mb.pPluto = none) : QueuesAsDeclared mb buf fresh ↔ AllArrived mb buf fresh := by
  have hlength : (received buf fresh).block.length = buf.length % 2 ^ 32 := by
    rw [CPluto.block, ByteMem.length_slice, toNat_unBufferSize_received]
  have hhead (h : 4 < buf.length) : (received buf fresh).szBuffer.slice 0 4 = buf.take 4 := by
    rw [← ByteMem.take_slice _ 0 h.le, slice_received h.le]
  refine forall_congr' fun hauthz => ?_
  constructor
  · intro h htakes
    have hdeclared := (h _ ((CMailBox.added_readMessage_iff hmb).mpr ⟨htakes, rfl⟩)).2
    rwa [hlength, hhead htakes.1] at hdeclared
  · intro h u hu
    obtain ⟨htakes, rfl⟩ := (CMailBox.added_readMessage_iff hmb).mp hu
    rw [hlength, hhead htakes.1, h htakes]
    exact ⟨htakes.2.2.2 hauthz, rfl⟩

/-- **When the limit on untrusted peers is effective.** In every run, exactly when each header that
is taken from a mailbox that is not trusted finds just the bytes it announces in the input. -/
theorem queued_as_declared_iff [Abi] (config : TreeMap UInt32 SObject) (evs : List ServerEvent) :
    Guarded step (AtRead QueuesAsDeclared) (CServerBase.new.initMailBoxs config) evs ↔
      Guarded step (AtRead AllArrived) (CServerBase.new.initMailBoxs config) evs :=
  guarded_atRead_congr queuesAsDeclared_iff config evs

/-- A configured server, whose mailbox is not trusted, announces eight bytes and sends nine. -/
theorem queued_longer_than_declared :
    letI := Abi.x64
    ¬ Guarded step (AtRead QueuesAsDeclared) (CServerBase.new.initMailBoxs oneServer)
      [.connect 0 7 0, .read 0 [8, 0, 0, 0, 0, 0, 101, 0, 1] fun _ _ => 0] := by
  let _ := Abi.x64
  rintro ⟨-, h, -⟩
  have hdeclared := (h 0 (linked (configured ⟨105, .db, "db", "10.0.0.2", 9000⟩) 7 0) (by decide)
    (by rfl) (by decide) (received [8, 0, 0, 0, 0, 0, 101, 0, 1] fun _ _ => 0) (by rfl)).2
  exact absurd hdeclared (by decide)

/-! ## After a refusal -/

/-- Only reads queue messages. -/
theorem added_step_of_not_read [Abi] (s : CServerBase) {ev : ServerEvent}
    (hev : ∀ bev bytes fresh, ev ≠ .read bev bytes fresh) : (s.step ev).added = s.added := by
  cases ev with
  | connect pmb socket connect => exact (s.sameQueue_onConnectServer pmb socket connect).2
  | accept fd pszAddr unPort => exact (s.sameQueue_handleNewConnection fd pszAddr unPort).2
  | connected fd => exact (s.sameQueue_handleSocketConnectioned fd).2
  | closed fd => exact (s.sameQueue_handleSocketClosed fd).2
  | read bev bytes fresh => exact absurd rfl (hev bev bytes fresh)
  | tick lib => exact (sameQueue_foldl_sendTick lib _ s).2

/-- A read queues nothing from its connection exactly when it takes no header. -/
theorem addedFrom_read_iff {s : CServerBase} (hs : s.Idle) (bev : ℕ) (bytes : List UInt8)
    (fresh : ℕ → ByteMem) :
    ((s.handleReadSocket bev bytes fresh).1.addedFrom bev).length = (s.addedFrom bev).length ↔
      s.AtRead (fun mb buf _ => ¬ mb.TakesHead buf) (.read bev bytes fresh) := by
  show ((s.readStep (bev, bytes, fresh)).addedFrom bev).length = _ ↔ _
  by_cases hserves : ∃ mb, s.Serves bev mb
  · obtain ⟨mb, hmb⟩ := hserves
    have hconn := (readStep_spec hs bev (bytes, fresh)).2.2 mb hmb
    have hadded : (s.readStep (bev, bytes, fresh)).addedFrom bev = s.addedFrom bev ++
        (mb.readMessage ((s.bevs bev).input ++ bytes) fresh).added.toList :=
      congrArg Prod.snd hconn
    rw [hadded, List.length_append, Nat.add_eq_left, List.length_eq_zero_iff,
      Option.toList_eq_nil_iff, CMailBox.added_readMessage_eq_none_iff hmb.pPluto]
    constructor
    · intro hnot pmb mb' hfd hbox
      rw [← hmb.unique ⟨⟨pmb, hfd, hbox⟩, hs⟩]
      exact hnot
    · intro h
      obtain ⟨pmb, hfd, hbox⟩ := hmb.registered
      exact h pmb mb hfd hbox
  · rw [readStep_of_not_serves hs (not_exists.mp hserves)]
    refine iff_of_true rfl fun pmb mb hfd hbox => ?_
    exact absurd ⟨mb, ⟨pmb, hfd, hbox⟩, hs⟩ hserves

end CServerBase

/-- A server and, as ghost, how many messages had been queued from one of its connections when a
read on it first returned -2. -/
structure Screened where
  base : CServerBase
  refusedAt : Option ℕ

namespace Screened

variable {bev : ℕ}

/-- The callback is a read on `bev` that refuses a header. -/
def Refused (bev : ℕ) (s : CServerBase) : ServerEvent → Prop
  | .read b bytes fresh => b = bev ∧ (s.handleReadSocket b bytes fresh).2 = -2
  | _ => False

instance (s : CServerBase) : DecidablePred (Refused bev s) := fun ev => by
  cases ev <;> (unfold Refused; infer_instance)

def step [Abi] (bev : ℕ) (t : Screened) (ev : ServerEvent) : Screened where
  base := t.base.step ev
  refusedAt := t.refusedAt.or
    (if Refused bev t.base ev then some ((t.base.step ev).addedFrom bev).length else none)

/-- Nothing has been queued from the connection since a header was refused. -/
def Silent (bev : ℕ) (t : Screened) : Prop :=
  ∀ n ∈ t.refusedAt, (t.base.addedFrom bev).length = n

/-- After a refusal, a read on the connection finds no header that it takes. -/
def NoHead (bev : ℕ) (t : Screened) : ServerEvent → Prop
  | .read b bytes fresh => b = bev → t.refusedAt ≠ none →
      t.base.AtRead (fun mb buf _ => ¬ mb.TakesHead buf) (.read b bytes fresh)
  | _ => True

/-- The callback is no read on `bev`, so nothing is queued from there. -/
theorem addedFrom_step_of_ne [Abi] {s : CServerBase} (hs : s.Idle) {ev : ServerEvent}
    (hev : ∀ bytes fresh, ev ≠ .read bev bytes fresh) :
    (s.step ev).addedFrom bev = s.addedFrom bev := by
  by_cases hread : ∃ b bytes fresh, ev = .read b bytes fresh
  · obtain ⟨b, bytes, fresh, rfl⟩ := hread
    have hb : bev ≠ b := fun h => hev bytes fresh (by rw [h])
    exact congrArg Prod.snd ((CServerBase.readStep_spec hs b (bytes, fresh)).2.1 bev hb)
  · have hadded := s.added_step_of_not_read fun b bytes fresh h => hread ⟨b, bytes, fresh, h⟩
    rw [CServerBase.addedFrom, hadded]
    rfl

/-- The step lemma, once a header has been refused. -/
theorem silent_step_iff_of_refused [Abi] {s : CServerBase} (hs : s.Idle) {n : ℕ}
    (h : Silent bev ⟨s, some n⟩) (ev : ServerEvent) :
    Silent bev (step bev ⟨s, some n⟩ ev) ↔ NoHead bev ⟨s, some n⟩ ev := by
  obtain rfl : (s.addedFrom bev).length = n := h n rfl
  have hsilent : Silent bev (step bev ⟨s, some (s.addedFrom bev).length⟩ ev) ↔
      ((s.step ev).addedFrom bev).length = (s.addedFrom bev).length :=
    ⟨fun h => h _ rfl, fun h m hm => by rw [← Option.some.inj hm]; exact h⟩
  rw [hsilent]
  by_cases hread : ∃ bytes fresh, ev = .read bev bytes fresh
  · obtain ⟨bytes, fresh, rfl⟩ := hread
    refine (CServerBase.addedFrom_read_iff hs bev bytes fresh).trans ?_
    exact ⟨fun h _ _ => h, fun h => h rfl (Option.some_ne_none _)⟩
  · have hev : ∀ bytes fresh, ev ≠ .read bev bytes fresh :=
      fun bytes fresh h => hread ⟨bytes, fresh, h⟩
    rw [addedFrom_step_of_ne hs hev]
    refine iff_of_true rfl ?_
    cases ev with
    | read b bytes fresh => exact fun hb => absurd (by rw [hb]) (hev bytes fresh)
    | connect | accept | connected | closed | tick => trivial

theorem silent_step_iff [Abi] {t : Screened} (hs : t.base.Idle) (h : t.Silent bev)
    (ev : ServerEvent) : (t.step bev ev).Silent bev ↔ t.NoHead bev ev := by
  obtain ⟨s, refusedAt⟩ := t
  cases refusedAt with
  | some n => exact silent_step_iff_of_refused hs h ev
  | none =>
    -- the first refusal sets the count to what has been queued by then
    refine iff_of_true (fun n hn => ?_) ?_
    · change n ∈ if Refused bev s ev then some ((s.step ev).addedFrom bev).length else none at hn
      rw [Option.mem_ite_none_right] at hn
      exact Option.some.inj hn.2
    · cases ev with
      | read b bytes fresh => exact fun _ hne => absurd rfl hne
      | connect | accept | connected | closed | tick => trivial

/-- **When a rejected stream stays rejected.** In every run and for every connection: nothing is
queued from the connection after a header was refused on it, exactly when no later read finds, at
the front of what is left of the input, a length that is accepted. -/
theorem silent_iff [Abi] (config : TreeMap UInt32 SObject) (bev : ℕ) (evs : List ServerEvent) :
    Always (step bev) (Silent bev) ⟨CServerBase.new.initMailBoxs config, none⟩ evs ↔
      Guarded (step bev) (NoHead bev) ⟨CServerBase.new.initMailBoxs config, none⟩ evs := by
  have hany : Guarded (step bev) (fun _ _ => True)
      ⟨CServerBase.new.initMailBoxs config, none⟩ evs := guarded_of_forall fun _ _ _ => trivial
  refine hany.always_iff (fun t => t.base.Idle) (fun t ev ht _ => CServerBase.Idle.step ht ev)
    (fun t ev ht _ h => silent_step_iff ht h ev) (CServerBase.idle_initMailBoxs config) ?_
  exact fun n hn => absurd hn nofun

/-- A configured server sends a length above the maximum, and behind it eight bytes that look like
another message. Only the first four bytes are drained, so the next read takes them for a message.
-/
theorem not_silent_after_refusal :
    letI := Abi.x64
    let t : Screened := run (step 0) ⟨CServerBase.new.initMailBoxs CServerBase.oneServer, none⟩
      [.connect 0 7 0, .read 0 [1, 0, 1, 0, 8, 0, 0, 0, 1] fun _ _ => 0,
        .read 0 [1] fun _ _ => 0]
    t.refusedAt = some 0 ∧ (t.base.addedFrom 0).length = 1 ∧ ¬ t.Silent 0 := by
  let _ := Abi.x64
  refine ⟨by decide, by decide, fun h => ?_⟩
  exact absurd (h 0 (by decide)) (by decide)

end Screened

end PlutoServer
