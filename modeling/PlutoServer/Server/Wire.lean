import PlutoServer.Server.Delivery
import PlutoServer.Server.Dispatch
import PlutoServer.Server.Flush
import PlutoServer.Server.Receipt

/-!
# Two servers and the wire between them

A message goes a long way: `PushPluto` puts it in the queue of a mailbox, a tick of the sender
copies it into the output of the `bufferevent`, libevent writes the output to the socket in pieces,
the network hands the bytes to the receiver in other pieces, `OnReadMessage` makes messages of them,
and a tick of the receiver passes these to `HandleMessages`. `Wire` is the state of both servers and
of the bytes in between; its steps can come in any order, with reads on other connections of the
receiver.

At any moment what the receiver has queued from this connection, its input, the bytes on the wire,
the output and the queue of the sender are, one after the other, the bytes of all messages pushed,
as long as the reads of the receiver are `Clean`, which is to say that none drops a header; and only
then (`conserved_iff_clean`). If the reads end where the messages do, the messages arrive as they
were sent, and the handler of the receiver is called with them in this order (`arrives_in_order`).
-/

namespace PlutoServer

open Runs

namespace CServerBase

/-! ## The sender -/

/-- The mailbox `pmb` sends through `bev`, which it does not share, and has no message half sent. -/
structure Sends (s : CServerBase) (pmb bev : ℕ) (mb : CMailBox) : Prop where
  box : s.mailBoxes pmb = some mb
  bev_eq : mb.bev = some bev
  pos : mb.unSendPos = 0
  owns : s.Owns pmb bev

/-- The bytes that are to be written to the socket: the output of `bev` and the queue of `pmb`. -/
def unsent (s : CServerBase) (pmb bev : ℕ) : List UInt8 :=
  (s.bevs bev).output ++ ((s.mailBoxes pmb).elim [] fun mb => mb.sendTo.flatMap CPluto.content)

theorem Sends.unsent_eq {s : CServerBase} {pmb bev : ℕ} {mb : CMailBox} (h : s.Sends pmb bev mb) :
    s.unsent pmb bev = (s.bevs bev).output ++ mb.sendTo.flatMap CPluto.content := by
  rw [unsent, h.box, Option.elim_some]

section Tick

variable [Abi] {lib : ℤ → Libevent} {s : CServerBase} {pmb bev : ℕ} {mb : CMailBox}

/-- The turn of a mailbox moves bytes from its queue to the output. -/
theorem Sends.sendTick (h : s.Sends pmb bev mb) (hlib : ∀ fd, (lib fd).Contract) (entry : ℤ × ℕ) :
    ∃ mb', (s.sendTick lib entry).Sends pmb bev mb' ∧
      (s.sendTick lib entry).unsent pmb bev = s.unsent pmb bev := by
  obtain ⟨fd, q⟩ := entry
  have howns := h.owns.sendTick lib (fd, q)
  by_cases hq : q = pmb
  · subst hq
    by_cases hconn : mb.bConnected = true
    · obtain ⟨ret, queue, output, new, deleted, hsend, hbytes, -⟩ := CMailBox.sendAll_of_ample h.pos
        (fun _ _ => (hlib fd).ampleFor 0 mb.sendTo) (s.bevs bev).output
      have htick : s.sendTick lib (fd, q) =
          { s with
            mailBoxes := Function.update s.mailBoxes q (some { mb with sendTo := queue })
            bevs := Function.update s.bevs bev { s.bevs bev with output } } := by
        rw [CServerBase.sendTick, tickSend_of_connected lib h.box hconn h.bev_eq, hsend]
      have hsends : (s.sendTick lib (fd, q)).Sends q bev { mb with sendTo := queue } :=
        ⟨by rw [htick]; exact Function.update_self .., h.bev_eq, h.pos, howns⟩
      refine ⟨_, hsends, ?_⟩
      rw [hsends.unsent_eq, h.unsent_eq, htick]
      simpa using hbytes
    · have htick : s.sendTick lib (fd, q) = s := by
        rw [CServerBase.sendTick, tickSend_of_not_connected lib h.box hconn]
      rw [htick]
      exact ⟨mb, h, rfl⟩
  · obtain ⟨hbox, hbev⟩ := sendTick_of_ne lib hq (fun mb' hmb' => h.owns q mb' hq hmb') fd
    refine ⟨mb, ⟨hbox.trans h.box, h.bev_eq, h.pos, howns⟩, ?_⟩
    rw [unsent, hbox, hbev, ← unsent]

/-- A tick moves bytes from the queue of a mailbox to its output. -/
theorem Sends.handleEventTick (h : s.Sends pmb bev mb) (hlib : ∀ fd, (lib fd).Contract) :
    ∃ mb', (s.handleEventTick lib).Sends pmb bev mb' ∧
      (s.handleEventTick lib).unsent pmb bev = s.unsent pmb bev := by
  have hfold (entries : List (ℤ × ℕ)) :
      ∃ mb', (entries.foldl (CServerBase.sendTick lib) s).Sends pmb bev mb' ∧
        (entries.foldl (CServerBase.sendTick lib) s).unsent pmb bev = s.unsent pmb bev := by
    induction entries generalizing s mb with
    | nil => exact ⟨mb, h, rfl⟩
    | cons entry entries ih =>
      obtain ⟨mb₁, h₁, hbytes₁⟩ := h.sendTick hlib entry
      obtain ⟨mb₂, h₂, hbytes₂⟩ := ih h₁
      exact ⟨mb₂, h₂, hbytes₂.trans hbytes₁⟩
  obtain ⟨mb', h', hbytes⟩ := hfold s.mMbs.toList
  exact ⟨mb', ⟨h'.box, h'.bev_eq, h'.pos, h'.owns⟩, hbytes⟩

omit [Abi] in
/-- `PushPluto` adds the bytes of the message. -/
theorem Sends.pushPluto (h : s.Sends pmb bev mb) (u : CPluto) :
    (s.modifyMailBox pmb (·.pushPluto u)).Sends pmb bev (mb.pushPluto u) ∧
      (s.modifyMailBox pmb (·.pushPluto u)).unsent pmb bev = s.unsent pmb bev ++ u.content := by
  have hbox := modifyMailBox_self h.box (·.pushPluto u)
  have hsends : (s.modifyMailBox pmb (·.pushPluto u)).Sends pmb bev (mb.pushPluto u) := by
    refine ⟨hbox, h.bev_eq, h.pos, fun q mb' hq hmb' => ?_⟩
    rw [modifyMailBox_of_ne s _ hq] at hmb'
    exact h.owns q mb' hq hmb'
  refine ⟨hsends, ?_⟩
  rw [hsends.unsent_eq, h.unsent_eq]
  show (s.bevs bev).output ++ (mb.sendTo ++ [u]).flatMap CPluto.content = _
  rw [List.flatMap_append, List.flatMap_singleton, List.append_assoc]

end Tick

/-! ## The receiver -/

/-- `bev` is the connection of a mailbox that accepts what `mb` accepts. -/
def Receives (s : CServerBase) (bev : ℕ) (eAuthz : MailBoxClientType) : Prop :=
  ∃ mb, s.Serves bev mb ∧ mb.eAuthz = eAuthz

section Tick

variable [Abi] (lib : ℤ → Libevent) (s : CServerBase)

/-- A tick leaves the sockets and the inputs of all connections alone. -/
theorem bevs_handleEventTick (bev : ℕ) :
    ((s.handleEventTick lib).bevs bev).fd = (s.bevs bev).fd ∧
      ((s.handleEventTick lib).bevs bev).input = (s.bevs bev).input := by
  have hfold (entries : List (ℤ × ℕ)) :
      ((entries.foldl (CServerBase.sendTick lib) s).bevs bev).fd = (s.bevs bev).fd ∧
        ((entries.foldl (CServerBase.sendTick lib) s).bevs bev).input = (s.bevs bev).input := by
    induction entries generalizing s with
    | nil => exact ⟨rfl, rfl⟩
    | cons entry entries ih =>
      obtain ⟨hfd, hinput⟩ := ih (s.sendTick lib entry)
      rw [List.foldl_cons, hfd, hinput]
      rcases s.sendTick_cases lib entry with heq | ⟨_, b, _, output, -, -, -, -, heq⟩
      · rw [heq]
        exact ⟨rfl, rfl⟩
      · rw [heq]
        by_cases hb : bev = b
        · subst hb
          simp only [Function.update_self, and_self]
        · simp only [Function.update_of_ne hb, and_self]
  exact hfold s.mMbs.toList

theorem conn_handleEventTick (bev : ℕ) : conn bev (s.handleEventTick lib) = conn bev s := by
  have hadded : (s.handleEventTick lib).added = s.added :=
    (sameQueue_foldl_sendTick lib s.mMbs.toList s).2
  rw [conn, conn, addedFrom, addedFrom, hadded, (s.bevs_handleEventTick lib bev).2]

theorem Receives.handleEventTick {s : CServerBase} {bev : ℕ} {eAuthz : MailBoxClientType}
    (h : s.Receives bev eAuthz) : (s.handleEventTick lib).Receives bev eAuthz := by
  obtain ⟨mb, ⟨⟨pmb, hfd, hmb⟩, hidle⟩, hauthz⟩ := h
  have hkeeps : Keeps (fun mb => (mb.pPluto, mb.eAuthz)) s (s.handleEventTick lib) :=
    keeps_handleEventTick (fun _ _ _ => rfl) lib s
  obtain ⟨mb', hmb', heq⟩ := hkeeps.after hmb
  refine ⟨mb', ⟨⟨pmb, ?_, hmb'⟩, ?_⟩, (congrArg Prod.snd heq).trans hauthz⟩
  · rw [(s.bevs_handleEventTick lib bev).1, hkeeps.getMailBoxFromFd_eq, hfd]
  · exact (keeps_handleEventTick (fun _ _ _ => rfl) lib s).idle hidle

omit [Abi] in
theorem Receives.readStep {s : CServerBase} {bev : ℕ} {eAuthz : MailBoxClientType}
    (h : s.Receives bev eAuthz) (op : ℕ × ReadOp) : (s.readStep op).Receives bev eAuthz := by
  obtain ⟨mb, hserves, hauthz⟩ := h
  have hlinks := (readStep_spec hserves.idle op.1 op.2).1
  exact ⟨mb, (hlinks.serves_iff bev mb).mpr hserves, hauthz⟩

end Tick

end CServerBase

/-- A read keeps all bytes, in messages or in the input, exactly when it drops no header. -/
theorem CMailBox.readMessage_keeps_iff {mb : CMailBox} (hmb : mb.pPluto = none) (buf : List UInt8)
    (fresh : ℕ → ByteMem) :
    (mb.readMessage buf fresh).added.toList.flatMap CPluto.block ++
        (mb.readMessage buf fresh).input = buf ↔
      ¬ mb.Rejects buf ∧ (mb.Accepts buf → 4 < buf.length ∧ buf.length < 2 ^ 32) := by
  rcases readMessage_cases hmb buf fresh with
    ⟨hleft, heq⟩ | ⟨hlen, hne, hnot, closed, heq⟩ | ⟨hacc, hlen, heq⟩ | ⟨hacc, hlen, heq⟩
  · rw [heq]
    refine iff_of_true rfl ⟨fun hrej => ?_, fun hacc => ?_⟩
    · rcases hleft with hshort | hzero
      · exact absurd hrej.1 (Nat.not_le.mpr hshort)
      · exact hrej.2.1 hzero
    · rcases hleft with hshort | hzero
      · exact absurd hacc.head_le (Nat.not_le.mpr hshort)
      · exact absurd hzero hacc.head_ne
  · rw [heq]
    refine iff_of_false (fun hdrop => ?_) fun h => h.1 ⟨hlen, hne, ?_⟩
    · have hlength := congrArg List.length hdrop
      simp only [Option.toList_none, List.flatMap_nil, List.nil_append, List.length_drop] at hlength
      omega
    · by_contra hcheck
      exact hnot ⟨hlen, hne, by simpa using hcheck⟩
  · rw [heq]
    refine iff_of_false (fun hnil => ?_) fun h => absurd (h.2 hacc).1 (by omega)
    rw [← show [] = buf from hnil] at hlen
    cases hlen
  · have hrej : ¬ mb.Rejects buf := by
      rintro ⟨-, -, hcheck⟩
      rw [hacc.check] at hcheck
      cases hcheck
    rw [heq]
    simp only [Option.toList_some, List.flatMap_singleton, List.append_nil,
      block_received hacc.head_le]
    constructor
    · intro hblock
      have hlength := congrArg List.length hblock
      rw [List.length_take] at hlength
      exact ⟨hrej, fun _ => ⟨hlen, by omega⟩⟩
    · intro h
      rw [Nat.mod_eq_of_lt (h.2 hacc).2, List.take_length]

/-! ## The model -/

/-- The two servers, and the bytes that the sender's libevent has written and the receiver's has not
read yet. -/
structure Wire where
  sender : CServerBase
  receiver : CServerBase
  wire : List UInt8
  /-- Ghost: the messages given to `PushPluto` for the receiver, in order. -/
  pushed : List CPluto

/-- The two ends: the mailbox of the sender and its `bufferevent`, and that of the receiver. -/
structure Ends where
  pmb : ℕ
  bev : ℕ
  bev' : ℕ

/-- What can happen. -/
inductive WireEvent where
  | pushPluto (u : CPluto)
  | senderTick (lib : ℤ → Libevent)
  /-- The sender's libevent writes so many bytes of the output to the socket. -/
  | transmit (n : ℕ)
  /-- So many bytes arrive at the receiver, and its read callback runs. -/
  | read (n : ℕ) (fresh : ℕ → ByteMem)
  /-- A read on another connection of the receiver. -/
  | readOther (bev : ℕ) (op : ReadOp)
  | receiverTick (lib : ℤ → Libevent)

namespace Wire

/-- One event. -/
def step [Abi] (e : Ends) (w : Wire) : WireEvent → Wire
  | .pushPluto u =>
    { w with
      sender := w.sender.modifyMailBox e.pmb (·.pushPluto u)
      pushed := w.pushed ++ [u] }
  | .senderTick lib => { w with sender := w.sender.handleEventTick lib }
  | .transmit n =>
    let b := w.sender.bevs e.bev
    { w with
      sender := { w.sender with
        bevs := Function.update w.sender.bevs e.bev { b with output := b.output.drop n } }
      wire := w.wire ++ b.output.take n }
  | .read n fresh =>
    { w with
      receiver := w.receiver.readStep (e.bev', w.wire.take n, fresh)
      wire := w.wire.drop n }
  | .readOther bev op => { w with receiver := w.receiver.readStep (bev, op) }
  | .receiverTick lib => { w with receiver := w.receiver.handleEventTick lib }

/-- The callback that the receiver runs in an event. -/
def callback (e : Ends) (w : Wire) : WireEvent → Option ServerEvent
  | .read n fresh => some (.read e.bev' (w.wire.take n) fresh)
  | .readOther bev op => some (.read bev op.1 op.2)
  | .receiverTick lib => some (.tick lib)
  | _ => none

/-- The callbacks that the receiver runs. -/
def callbacks [Abi] (e : Ends) : Wire → List WireEvent → List ServerEvent
  | _, [] => []
  | w, ev :: evs => (w.callback e ev).toList ++ callbacks e (w.step e ev) evs

/-- The messages that the receiver has made of what came over the wire. -/
def arrived (e : Ends) (w : Wire) : List CPluto := w.receiver.addedFrom e.bev'

/-- The input of the receiver, the wire, and the output and the queue of the sender. -/
def underway (e : Ends) (w : Wire) : List UInt8 :=
  (w.receiver.bevs e.bev').input ++ w.wire ++ w.sender.unsent e.pmb e.bev

/-- What has arrived and what is under way is what was pushed. -/
def Conserved (e : Ends) (w : Wire) : Prop :=
  (w.arrived e).flatMap CPluto.block ++ w.underway e = w.pushed.flatMap CPluto.content

/-- libevent keeps to its contract in the ticks of the sender, and reads on other connections are
such. -/
def Fair (e : Ends) : WireEvent → Prop
  | .senderTick lib => ∀ fd, (lib fd).Contract
  | .readOther bev _ => bev ≠ e.bev'
  | _ => True

/-- A read drops no header: none is refused, and one that is accepted comes with a body, with fewer
than `2 ^ 32` bytes in the input. -/
def Clean (e : Ends) (eAuthz : MailBoxClientType) (w : Wire) : WireEvent → Prop
  | .read n _ =>
    let buf := (w.receiver.bevs e.bev').input ++ w.wire.take n
    ∀ mb : CMailBox, mb.eAuthz = eAuthz →
      ¬ mb.Rejects buf ∧ (mb.Accepts buf → 4 < buf.length ∧ buf.length < 2 ^ 32)
  | _ => True

/-- The two ends are connected. -/
structure Up (e : Ends) (eAuthz : MailBoxClientType) (w : Wire) : Prop where
  sends : ∃ mb, w.sender.Sends e.pmb e.bev mb
  receives : w.receiver.Receives e.bev' eAuthz

variable {e : Ends} {eAuthz : MailBoxClientType} {w : Wire}

/-- Acceptance depends on the rank of the mailbox only. -/
theorem clean_iff {mb : CMailBox} (hauthz : mb.eAuthz = eAuthz) {n : ℕ} {fresh : ℕ → ByteMem} :
    w.Clean e eAuthz (.read n fresh) ↔
      let buf := (w.receiver.bevs e.bev').input ++ w.wire.take n
      ¬ mb.Rejects buf ∧ (mb.Accepts buf → 4 < buf.length ∧ buf.length < 2 ^ 32) := by
  refine ⟨fun h => h mb hauthz, fun h mb' hauthz' => ?_⟩
  have hcheck : mb'.checkHeadSize = mb.checkHeadSize := by
    funext n
    rw [CMailBox.checkHeadSize, CMailBox.checkHeadSize, hauthz, hauthz']
  refine ⟨fun hrej => h.1 ?_, fun hacc => h.2 ⟨hacc.head_le, hacc.head_ne, ?_⟩⟩
  · rw [CMailBox.Rejects, hcheck] at hrej
    exact hrej
  · rw [← hcheck]
    exact hacc.check

/-- The effect of a read on what has arrived and on the input. -/
theorem conn_read [Abi] {mb : CMailBox} (h : w.receiver.Serves e.bev' mb) (n : ℕ)
    (fresh : ℕ → ByteMem) :
    let r := mb.readMessage ((w.receiver.bevs e.bev').input ++ w.wire.take n) fresh
    ((w.step e (.read n fresh)).receiver.bevs e.bev').input = r.input ∧
      (w.step e (.read n fresh)).arrived e = w.arrived e ++ r.added.toList := by
  have hconn := (CServerBase.readStep_spec h.idle e.bev' (w.wire.take n, fresh)).2.2 mb h
  exact ⟨congrArg Prod.fst hconn, congrArg Prod.snd hconn⟩

/-- The receiver goes through its callbacks. -/
theorem receiver_run [Abi] (w : Wire) (evs : List WireEvent) :
    (run (step e) w evs).receiver = run CServerBase.step w.receiver (w.callbacks e evs) := by
  induction evs generalizing w with
  | nil => rfl
  | cons ev evs ih =>
    have hstep : (w.step e ev).receiver =
        run CServerBase.step w.receiver (w.callback e ev).toList := by
      cases ev <;> rfl
    rw [run_cons, ih, callbacks, run_append, hstep]

/-! ## Every step -/

theorem Up.step [Abi] (h : w.Up e eAuthz) {ev : WireEvent} (hev : Fair e ev) :
    (w.step e ev).Up e eAuthz := by
  obtain ⟨⟨mb, hsends⟩, hreceives⟩ := h
  cases ev with
  | pushPluto u => exact ⟨⟨_, (hsends.pushPluto u).1⟩, hreceives⟩
  | senderTick lib =>
    obtain ⟨mb', hsends', -⟩ := hsends.handleEventTick hev
    exact ⟨⟨mb', hsends'⟩, hreceives⟩
  | transmit n => exact ⟨⟨mb, hsends.box, hsends.bev_eq, hsends.pos, hsends.owns⟩, hreceives⟩
  | read n fresh => exact ⟨⟨mb, hsends⟩, hreceives.readStep _⟩
  | readOther bev op => exact ⟨⟨mb, hsends⟩, hreceives.readStep _⟩
  | receiverTick lib => exact ⟨⟨mb, hsends⟩, hreceives.handleEventTick lib⟩

/-- An event other than a push and a read on this connection moves bytes on, if anything. -/
theorem underway_step [Abi] (h : w.Up e eAuthz) {ev : WireEvent} (hev : Fair e ev)
    (hpush : ∀ u, ev ≠ .pushPluto u) (hread : ∀ n fresh, ev ≠ .read n fresh) :
    (w.step e ev).underway e = w.underway e ∧ (w.step e ev).arrived e = w.arrived e ∧
      (w.step e ev).pushed = w.pushed := by
  obtain ⟨⟨mb, hsends⟩, hreceives⟩ := h
  cases ev with
  | pushPluto u => exact absurd rfl (hpush u)
  | senderTick lib =>
    obtain ⟨-, -, hbytes⟩ := hsends.handleEventTick hev
    refine ⟨?_, rfl, rfl⟩
    show _ ++ _ ++ (w.sender.handleEventTick lib).unsent e.pmb e.bev = _
    rw [hbytes]
    rfl
  | transmit n =>
    refine ⟨?_, rfl, rfl⟩
    simp only [underway, step, CServerBase.unsent, Function.update_self, List.append_assoc]
    rw [← List.append_assoc (List.take n _), List.take_append_drop]
  | read n fresh => exact absurd rfl (hread n fresh)
  | readOther bev op =>
    obtain ⟨mb', hserves, -⟩ := hreceives
    have hconn := (CServerBase.readStep_spec hserves.idle bev op).2.1 e.bev' (Ne.symm hev)
    refine ⟨?_, congrArg Prod.snd hconn, rfl⟩
    have hinput : ((w.receiver.readStep (bev, op)).bevs e.bev').input = _ := congrArg Prod.fst hconn
    simp only [underway, step, hinput]
    rfl
  | receiverTick lib =>
    have hconn := w.receiver.conn_handleEventTick lib e.bev'
    refine ⟨?_, congrArg Prod.snd hconn, rfl⟩
    have hinput : ((w.receiver.handleEventTick lib).bevs e.bev').input = _ :=
      congrArg Prod.fst hconn
    simp only [underway, step, hinput]
    rfl

/-- A push puts the bytes of the message at the end. -/
theorem underway_pushPluto [Abi] (h : w.Up e eAuthz) (u : CPluto) :
    (w.step e (.pushPluto u)).underway e = w.underway e ++ u.content := by
  obtain ⟨⟨mb, hsends⟩, -⟩ := h
  show _ ++ _ ++ (w.sender.modifyMailBox e.pmb (·.pushPluto u)).unsent e.pmb e.bev = _
  rw [(hsends.pushPluto u).2, ← List.append_assoc]
  rfl

theorem conserved_step_iff [Abi] (h : w.Up e eAuthz) {ev : WireEvent} (hev : Fair e ev)
    (hcons : w.Conserved e) : (w.step e ev).Conserved e ↔ w.Clean e eAuthz ev := by
  by_cases hpush : ∃ u, ev = .pushPluto u
  · obtain ⟨u, rfl⟩ := hpush
    refine iff_of_true ?_ trivial
    show (w.arrived e).flatMap CPluto.block ++ _ = (w.pushed ++ [u]).flatMap CPluto.content
    rw [underway_pushPluto h, ← List.append_assoc, hcons, List.flatMap_append,
      List.flatMap_singleton]
  by_cases hread : ∃ n fresh, ev = .read n fresh
  · obtain ⟨n, fresh, rfl⟩ := hread
    obtain ⟨-, mb, hserves, hauthz⟩ := h
    obtain ⟨hinput, harrived⟩ := conn_read hserves n fresh
    -- the buffer that the callback sees is the first part of what is under way
    have hunder : w.underway e = ((w.receiver.bevs e.bev').input ++ w.wire.take n) ++
        (w.wire.drop n ++ w.sender.unsent e.pmb e.bev) := by
      rw [underway]
      simp only [List.append_assoc]
      rw [← List.append_assoc (List.take n _), List.take_append_drop]
    have hafter : (w.step e (.read n fresh)).underway e =
        (mb.readMessage ((w.receiver.bevs e.bev').input ++ w.wire.take n) fresh).input ++
          (w.wire.drop n ++ w.sender.unsent e.pmb e.bev) := by
      rw [underway, hinput, List.append_assoc]
      rfl
    rw [clean_iff hauthz, ← CMailBox.readMessage_keeps_iff hserves.pPluto _ fresh, Conserved,
      harrived, hafter, List.flatMap_append]
    show _ = w.pushed.flatMap CPluto.content ↔ _
    rw [← hcons, hunder, List.append_assoc, List.append_cancel_left_eq, ← List.append_assoc,
      List.append_cancel_right_eq]
  · obtain ⟨hunder, harrived, hpushed⟩ := underway_step h hev (not_exists.mp hpush)
      fun n fresh heq => hread ⟨n, fresh, heq⟩
    have hclean : w.Clean e eAuthz ev := by
      cases ev with
      | read n fresh => exact absurd ⟨n, fresh, rfl⟩ hread
      | _ => trivial
    refine iff_of_true ?_ hclean
    rw [Conserved, hunder, harrived, hpushed]
    exact hcons

/-- **No byte is lost, repeated or overtaken between two servers**, in any order of pushes, ticks,
transmissions and reads, exactly as long as no read of the receiver drops a header or accepts one
with `2 ^ 32` bytes or more in the input. -/
theorem conserved_iff_clean [Abi] (h : w.Up e eAuthz) (hcons : w.Conserved e) {evs : List WireEvent}
    (hfair : ∀ ev ∈ evs, Fair e ev) :
    Always (step e) (Conserved e) w evs ↔ Guarded (step e) (Clean e eAuthz) w evs :=
  Guarded.always_iff (guarded_iff_forall.mpr hfair) (Up e eAuthz) (fun _ _ h hev => h.step hev)
    (fun _ _ h hev hcons => conserved_step_iff h hev hcons) h hcons

/-! ## One message at a time -/

/-- A message that the receiver takes for one if it comes alone: a frame whose length is no multiple
of 256. -/
def Sendable (u : CPluto) : Prop := ∃ F : Frame, F.bytes = u.content ∧ F.bytes.length % 256 ≠ 0

/-- Only such messages are pushed, and a read gets exactly the next of them. -/
def InTurn (e : Ends) (w : Wire) : WireEvent → Prop
  | .pushPluto u => Sendable u
  | .read n _ => n ≤ w.wire.length ∧
      ∃ u, w.pushed[(w.arrived e).length]? = some u ∧ n = u.content.length
  | _ => True

/-- The messages pushed so far have arrived up to one of them, and the others are under way. -/
structure InOrder (e : Ends) (w : Wire) : Prop where
  sendable : ∀ u ∈ w.pushed, Sendable u
  arrived_eq : (w.arrived e).map CPluto.block =
    (w.pushed.take (w.arrived e).length).map CPluto.content
  underway_eq : w.underway e = (w.pushed.drop (w.arrived e).length).flatMap CPluto.content
  input_eq : (w.receiver.bevs e.bev').input = []

theorem InOrder.length_le (h : w.InOrder e) : (w.arrived e).length ≤ w.pushed.length := by
  have hlength := congrArg List.length h.arrived_eq
  rw [List.length_map, List.length_map, List.length_take] at hlength
  omega

/-- A read of the next message queues that message. -/
theorem InOrder.read [Abi] (hup : w.Up e eAuthz) (h : w.InOrder e) {n : ℕ} {fresh : ℕ → ByteMem}
    (hev : w.InTurn e (.read n fresh)) : (w.step e (.read n fresh)).InOrder e := by
  obtain ⟨hn, u, hu, rfl⟩ := hev
  obtain ⟨F, hF, h256⟩ := h.sendable u (List.mem_of_getElem? hu)
  obtain ⟨-, mb, hserves, -⟩ := hup
  have hdrop : w.pushed.drop (w.arrived e).length =
      u :: w.pushed.drop ((w.arrived e).length + 1) := by
    obtain ⟨hlt, rfl⟩ := List.getElem?_eq_some_iff.mp hu
    exact List.drop_eq_getElem_cons hlt
  have htake : w.pushed.take ((w.arrived e).length + 1) =
      w.pushed.take (w.arrived e).length ++ [u] := by
    rw [List.take_add_one, hu, Option.toList_some]
  -- the wire begins with the bytes of the message
  have hunder := h.underway_eq
  rw [underway, h.input_eq, List.nil_append, hdrop, List.flatMap_cons] at hunder
  have hwire : w.wire.take u.content.length = F.bytes := by
    have htake := congrArg (List.take u.content.length) hunder
    rw [List.take_append_of_le_length hn, List.take_left' rfl] at htake
    exact htake.trans hF.symm
  have hrest : w.wire.drop u.content.length ++ w.sender.unsent e.pmb e.bev =
      (w.pushed.drop ((w.arrived e).length + 1)).flatMap CPluto.content := by
    have hdrop := congrArg (List.drop u.content.length) hunder
    rwa [List.drop_append_of_le_length hn, List.drop_left' rfl] at hdrop
  obtain ⟨hinput, harrived⟩ := conn_read (e := e) hserves u.content.length fresh
  rw [h.input_eq, List.nil_append, hwire, F.readMessage_eq h256 hserves.pPluto] at hinput harrived
  have hlength : ((w.step e (.read u.content.length fresh)).arrived e).length =
      (w.arrived e).length + 1 := by
    rw [harrived]
    exact List.length_append
  refine ⟨h.sendable, ?_, ?_, hinput⟩
  · rw [hlength]
    show _ = (w.pushed.take ((w.arrived e).length + 1)).map CPluto.content
    rw [htake, harrived, List.map_append, List.map_append, h.arrived_eq]
    exact congrArg (_ ++ [·]) ((F.block_received fresh).trans hF)
  · rw [hlength, underway, hinput, List.nil_append]
    exact hrest

theorem InOrder.step [Abi] (hup : w.Up e eAuthz) (h : w.InOrder e) {ev : WireEvent}
    (hfair : Fair e ev) (hev : w.InTurn e ev) : (w.step e ev).InOrder e := by
  have hother (hpush : ∀ u, ev ≠ .pushPluto u) (hread : ∀ n fresh, ev ≠ .read n fresh)
      (hinput : ((w.step e ev).receiver.bevs e.bev').input = (w.receiver.bevs e.bev').input) :
      (w.step e ev).InOrder e := by
    obtain ⟨hunder, harrived, hpushed⟩ := underway_step hup hfair hpush hread
    refine ⟨?_, ?_, ?_, hinput.trans h.input_eq⟩
    · rw [hpushed]
      exact h.sendable
    · rw [hpushed, harrived]
      exact h.arrived_eq
    · rw [hpushed, harrived, hunder]
      exact h.underway_eq
  cases ev with
  | pushPluto u =>
    have hle := h.length_le
    refine ⟨?_, ?_, ?_, h.input_eq⟩
    · intro u' hu'
      rcases List.mem_append.mp hu' with hu' | hu'
      · exact h.sendable u' hu'
      · rw [List.mem_singleton.mp hu']
        exact hev
    · show (w.arrived e).map CPluto.block =
        ((w.pushed ++ [u]).take (w.arrived e).length).map CPluto.content
      rw [List.take_append_of_le_length hle, h.arrived_eq]
    · show _ = ((w.pushed ++ [u]).drop (w.arrived e).length).flatMap CPluto.content
      rw [underway_pushPluto hup, List.drop_append_of_le_length hle, List.flatMap_append,
        h.underway_eq, List.flatMap_singleton]
  | read n fresh => exact h.read hup hev
  | senderTick lib => exact hother (by simp) (by simp) rfl
  | transmit n => exact hother (by simp) (by simp) rfl
  | readOther bev op =>
    obtain ⟨-, mb, hserves, -⟩ := hup
    have hconn := (CServerBase.readStep_spec hserves.idle bev op).2.1 e.bev' (Ne.symm hfair)
    exact hother (by simp) (by simp) (congrArg Prod.fst hconn)
  | receiverTick lib =>
    exact hother (by simp) (by simp) (w.receiver.bevs_handleEventTick lib e.bev').2

/-- If nothing is under way, everything has arrived. -/
theorem InOrder.arrived_of_underway (h : w.InOrder e) (hunder : w.underway e = []) :
    (w.arrived e).map CPluto.block = w.pushed.map CPluto.content := by
  have hnil : w.pushed.drop (w.arrived e).length = [] := by
    by_contra hne
    obtain ⟨u, rest, hcons⟩ := List.exists_cons_of_ne_nil hne
    obtain ⟨F, hF, -⟩ := h.sendable u (List.mem_of_mem_drop (hcons ▸ List.mem_cons_self))
    have hlength := congrArg List.length (h.underway_eq.symm.trans hunder)
    rw [hcons, List.flatMap_cons, ← hF, List.length_append, List.length_nil] at hlength
    have := F.eight_le
    omega
  rw [h.arrived_eq, List.take_of_length_le (List.drop_eq_nil_iff.mp hnil)]

/-- **Messages arrive as they were sent**, if they are frames of a length that is no multiple of 256
and each read gets exactly one of them, however pushes, ticks, transmissions and reads on other
connections are mixed with these reads. What has arrived is, message by message, what was pushed
first; it is all of it as soon as nothing is under way. A handler that leaves the server alone is
called with the messages of all connections in the order in which they arrive, up to those that are
still in the queue of the receiver. -/
theorem arrives_in_order [Abi] (hup : w.Up e eAuthz) (h : w.InOrder e) {evs : List WireEvent}
    (hevs : Guarded (step e) (fun w ev => Fair e ev ∧ w.InTurn e ev) w evs) {W : Type*}
    {handle : HandleMessages W} (hidle : handle.Idle) (world : W) :
    Always (step e) (fun w => (w.arrived e).map CPluto.block <+: w.pushed.map CPluto.content ∧
      (w.underway e = [] → (w.arrived e).map CPluto.block = w.pushed.map CPluto.content)) w evs ∧
    ∀ pre, pre <+: evs → ∃ N d,
      (∀ fuel ≥ N, Dispatch.run handle.recording fuel
        ⟨w.receiver, (world, []), w.receiver.recvMsgs⟩ (w.callbacks e pre) = some d) ∧
      d.base = (run (step e) w pre).receiver ∧
      d.world.2 ++ d.base.recvMsgs =
        w.receiver.recvMsgs ++ (d.base.added.drop w.receiver.added.length).map Prod.snd := by
  refine ⟨fun pre hpre => ?_, fun pre _ => ?_⟩
  · have hinv : (run (step e) w pre).Up e eAuthz ∧ (run (step e) w pre).InOrder e :=
      (hevs.of_isPrefix hpre).inv (P := fun w : Wire => w.Up e eAuthz ∧ w.InOrder e)
        (fun _ _ hw hev => ⟨hw.1.step hev.1, hw.2.step hw.1 hev.1 hev.2⟩) ⟨hup, h⟩
    refine ⟨?_, hinv.2.arrived_of_underway⟩
    rw [hinv.2.arrived_eq, List.map_take]
    exact List.take_prefix ..
  · rw [receiver_run]
    exact Dispatch.calls_of_idle hidle w.receiver world (w.callbacks e pre)

/-- A server that is connected to its only peer, and that peer. -/
def oneLink : Wire where
  sender := (((CServerBase.new.initMailBoxs (.insert ∅ 1 ⟨1, .db, "", "", 0⟩)).onConnectServer
    0 7 0).1.handleSocketConnectioned 7).1
  receiver := Tapped.oneClient
  wire := []
  pushed := []

theorem up_oneLink : oneLink.Up ⟨0, 0, 0⟩ .trusted := by
  refine ⟨⟨_, rfl, rfl, rfl, fun q mb' hq hmb' => ?_⟩, _, Tapped.serves_oneClient, rfl⟩
  rcases q with _ | q
  · exact absurd rfl hq
  · exact absurd (hmb'.symm.trans rfl) (Option.some_ne_none mb')

/-- A message with the number 1. -/
def oneField : CPluto :=
  letI := Abi.x64
  ((CPluto.new 256 fun _ _ => 205).finish (sgMycryto 0) 101 [⟨.int32, 1⟩]).1

/-- The message is pushed, sent, read and handled. -/
def oneFieldEvents : List WireEvent :=
  [.pushPluto oneField, .senderTick fun _ => Libevent.exact, .transmit 12, .read 12 fun _ _ => 0,
    .receiverTick fun _ => Libevent.exact]

theorem conserved_oneField :
    letI := Abi.x64
    Always (step ⟨0, 0, 0⟩) (Conserved ⟨0, 0, 0⟩) oneLink oneFieldEvents := by
  let _ := Abi.x64
  refine (conserved_iff_clean up_oneLink rfl ?_).mpr
    ⟨trivial, trivial, trivial, ?_, trivial, trivial⟩
  · intro ev hev
    simp only [oneFieldEvents, List.mem_cons, List.not_mem_nil, or_false] at hev
    rcases hev with rfl | rfl | rfl | rfl | rfl
    · trivial
    · exact fun _ => Libevent.contract_exact
    · trivial
    · trivial
    · trivial
  · have hauthz : (CServerBase.accepted 5 "" 0 0).eAuthz = .trusted := rfl
    exact (clean_iff hauthz).mpr ⟨by decide, fun _ => by decide⟩

/-- The message arrives, and the handler of the DB server is called with it. -/
theorem oneField_arrives :
    letI := Abi.x64
    ((run (step ⟨0, 0, 0⟩) oneLink oneFieldEvents).arrived ⟨0, 0, 0⟩).map CPluto.block =
        [oneField.content] ∧
      ∃ N d, (∀ fuel ≥ N, Dispatch.run CDBWorld.handleMessages.recording fuel
          ⟨oneLink.receiver, ([], []), []⟩ (oneLink.callbacks ⟨0, 0, 0⟩ oneFieldEvents) = some d) ∧
        d.world.2.map CPluto.block = [oneField.content] := by
  let _ := Abi.x64
  have hstart : oneLink.InOrder ⟨0, 0, 0⟩ := ⟨by simp [oneLink], rfl, rfl, rfl⟩
  have hsend : Sendable oneField :=
    ⟨⟨oneField.content, by decide, by decide, by decide⟩, rfl, by decide⟩
  obtain ⟨harrives, hcalls⟩ := arrives_in_order up_oneLink hstart
    (show Guarded _ _ _ oneFieldEvents from
      ⟨⟨trivial, hsend⟩, ⟨fun _ => Libevent.contract_exact, trivial⟩, ⟨trivial, trivial⟩,
        ⟨trivial, by decide, oneField, rfl, by decide⟩, ⟨trivial, trivial⟩, trivial⟩)
    CDBWorld.idle_handleMessages []
  have harrived : _ = [oneField.content] := (harrives _ List.prefix_rfl).2 (by decide)
  obtain ⟨N, d, hrun, hbase, hcalled⟩ := hcalls _ List.prefix_rfl
  refine ⟨harrived, N, d, hrun, ?_⟩
  -- the queue is empty after the tick, and there is no other connection
  have hqueue : d.base.recvMsgs = [] := by
    rw [hbase]
    rfl
  have honly : ∀ m ∈ d.base.added, decide (m.1 = 0) = true := by
    rw [hbase]
    decide
  rw [arrived, CServerBase.addedFrom, ← hbase, List.filter_eq_self.mpr honly] at harrived
  rw [hqueue, List.append_nil] at hcalled
  rw [hcalled]
  exact harrived

end Wire

end PlutoServer
