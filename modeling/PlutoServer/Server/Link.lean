import PlutoServer.Server.Ids
import PlutoServer.Server.SendTheorems

/-!
# Links that end

Reference: `eventcb` in `CoreBase/server_base.cpp`, `include/event2/bufferevent.h`.

libevent reports the state of a connection to `eventcb`. The mark that lets a tick send is set by
`CONNECTED` and taken away by `EOF`; on `ERROR` nothing happens. After an error the mark of a
connected mailbox stays, and the next tick moves its queue into the output of a connection that is
gone (`not_quiet_of_error`). `quiet_iff` shows that this is the only way in which messages are sent
on a dead link.
-/

namespace PlutoServer

open Runs
open Std (TreeMap)

/-! ## Events -/

def BEV_EVENT_READING : UInt16 := 0x01
def BEV_EVENT_EOF : UInt16 := 0x10
def BEV_EVENT_ERROR : UInt16 := 0x20
def BEV_EVENT_TIMEOUT : UInt16 := 0x40
def BEV_EVENT_CONNECTED : UInt16 := 0x80

namespace CServerBase

/-- `CServerBase::HandleSocketError`. -/
def handleSocketError (s : CServerBase) : CServerBase := s

/-- `bufferevent_free`, which also closes the socket (`BEV_OPT_CLOSE_ON_FREE`). -/
def buffereventFree (s : CServerBase) (bev : ℕ) : CServerBase :=
  { s.closeSocket (s.bevs bev).fd with bevs := Function.update s.bevs bev ⟨-1, [], []⟩ }

/-- `eventcb`. -/
def eventcb (s : CServerBase) (bev : ℕ) (events : UInt16) : CServerBase :=
  let fd := (s.bevs bev).fd
  if events &&& BEV_EVENT_CONNECTED ≠ 0 then (s.handleSocketConnectioned fd).1
  else if events &&& BEV_EVENT_EOF ≠ 0 then s.handleSocketClosed fd
  else if events &&& BEV_EVENT_ERROR ≠ 0 then s.handleSocketError
  -- a timeout is not `bFinished`
  else s.buffereventFree bev

end CServerBase

/-- What an event says, without the direction it was noticed in. libevent sets one of these flags.
-/
def eventKind (events : UInt16) : UInt16 :=
  events &&& (BEV_EVENT_EOF ||| BEV_EVENT_ERROR ||| BEV_EVENT_TIMEOUT ||| BEV_EVENT_CONNECTED)

/-- The flags that `eventcb` tests are those of the kind. -/
theorem and_eventKind {events flag : UInt16}
    (h : (BEV_EVENT_EOF ||| BEV_EVENT_ERROR ||| BEV_EVENT_TIMEOUT ||| BEV_EVENT_CONNECTED) &&&
      flag = flag) : events &&& flag = eventKind events &&& flag := by
  rw [eventKind, UInt16.and_assoc, h]

namespace CServerBase

/-- The direction does not matter. -/
theorem eventcb_eventKind (s : CServerBase) (bev : ℕ) (events : UInt16) :
    s.eventcb bev (eventKind events) = s.eventcb bev events := by
  have hc : events &&& BEV_EVENT_CONNECTED = eventKind events &&& BEV_EVENT_CONNECTED :=
    and_eventKind (by decide)
  have he : events &&& BEV_EVENT_EOF = eventKind events &&& BEV_EVENT_EOF :=
    and_eventKind (by decide)
  have hr : events &&& BEV_EVENT_ERROR = eventKind events &&& BEV_EVENT_ERROR :=
    and_eventKind (by decide)
  unfold eventcb
  rw [hc, he, hr]

theorem eventcb_of_eof {s : CServerBase} {bev : ℕ} {events : UInt16}
    (h : eventKind events = BEV_EVENT_EOF) :
    s.eventcb bev events = s.handleSocketClosed (s.bevs bev).fd := by
  rw [← eventcb_eventKind, h]
  rfl

theorem eventcb_of_error {s : CServerBase} {bev : ℕ} {events : UInt16}
    (h : eventKind events = BEV_EVENT_ERROR) : s.eventcb bev events = s := by
  rw [← eventcb_eventKind, h]
  rfl

theorem keeps_eventcb (s : CServerBase) (bev : ℕ) (events : UInt16) :
    Keeps CMailBox.link s (s.eventcb bev events) := by
  unfold eventcb
  dsimp only
  split_ifs
  · exact keeps_handleSocketConnectioned (fun _ _ => rfl) s _
  · exact keeps_handleSocketClosed (fun _ _ => rfl) s _
  · exact .refl s
  · exact ⟨rfl, rfl, rfl, rfl, fun _ => rfl⟩

/-- An event on a socket changes the mailbox of that socket only. -/
theorem eventcb_mailBoxes_of_ne {s : CServerBase} {bev pmb : ℕ}
    (h : s.getMailBoxFromFd (s.bevs bev).fd ≠ some pmb) (events : UInt16) :
    (s.eventcb bev events).mailBoxes pmb = s.mailBoxes pmb := by
  have hne (q : ℕ) (hq : s.getMailBoxFromFd (s.bevs bev).fd = some q) : pmb ≠ q := by
    rintro rfl
    exact h hq
  unfold eventcb
  dsimp only
  split_ifs
  · rcases s.handleSocketConnectioned_cases (s.bevs bev).fd with heq | ⟨q, hq, heq⟩
    · rw [heq]
    · rw [heq]
      exact modifyMailBox_of_ne s _ (hne q hq)
  · rcases s.handleSocketClosed_cases (s.bevs bev).fd with ⟨-, heq⟩ | ⟨q, hq, heq⟩
    · rw [heq]
      rfl
    · rw [heq]
      exact modifyMailBox_of_ne (s.closeSocket _) _ (hne q hq)
  · rfl
  · rfl

theorem handleSocketClosed_mailBoxes {s : CServerBase} {fd : ℤ} {pmb : ℕ} {mb : CMailBox}
    (hfd : s.getMailBoxFromFd fd = some pmb) (hmb : s.mailBoxes pmb = some mb) :
    (s.handleSocketClosed fd).mailBoxes pmb = some (mb.setConnected false) := by
  rcases s.handleSocketClosed_cases fd with ⟨hnone, -⟩ | ⟨q, hq, heq⟩
  · rw [hfd] at hnone
    cases hnone
  · obtain rfl := Option.some.inj (hfd.symm.trans hq)
    have hmb' : (s.closeSocket fd).mailBoxes pmb = some mb := hmb
    rw [heq]
    exact modifyMailBox_self hmb' _

end CServerBase

/-! ## Runs -/

/-- A server and, as ghost, whether the link on one of its sockets has ended. -/
structure LinkState where
  base : CServerBase
  dead : Bool

/-- An event, a call of `PushPluto` on the mailbox of a socket, or a tick. -/
inductive LinkEvent where
  | eventcb (bev : ℕ) (events : UInt16)
  | pushPluto (fd : ℤ) (u : CPluto)
  | tick (lib : ℤ → Libevent)

namespace LinkState

/-- One step. The link on `fd` ends with `EOF` and with `ERROR`, and is there again after
`CONNECTED`. -/
def step [Abi] (fd : ℤ) (s : LinkState) : LinkEvent → LinkState
  | .eventcb bev events =>
    ⟨s.base.eventcb bev events,
      if (s.base.bevs bev).fd = fd then
        if eventKind events = BEV_EVENT_CONNECTED then false
        else if eventKind events = BEV_EVENT_EOF ∨ eventKind events = BEV_EVENT_ERROR then true
        else s.dead
      else s.dead⟩
  | .pushPluto fd' u =>
    match s.base.getMailBoxFromFd fd' with
    | none => s
    | some pmb => { s with base := s.base.modifyMailBox pmb (·.pushPluto u) }
  | .tick lib => { s with base := s.base.handleEventTick lib }

/-- The events are `CONNECTED`, `EOF` and `ERROR`, for `fd` or for sockets of other mailboxes than
its mailbox `pmb`. -/
def Delivered (fd : ℤ) (pmb : ℕ) (s : LinkState) : LinkEvent → Prop
  | .eventcb bev events =>
    (eventKind events = BEV_EVENT_CONNECTED ∨ eventKind events = BEV_EVENT_EOF ∨
      eventKind events = BEV_EVENT_ERROR) ∧
    ((s.base.bevs bev).fd = fd ∨ s.base.getMailBoxFromFd (s.base.bevs bev).fd ≠ some pmb)
  | _ => True

/-- No `ERROR` is delivered for `fd` while its mailbox is marked as connected. -/
def NoErrorConnected (fd : ℤ) (pmb : ℕ) (s : LinkState) : LinkEvent → Prop
  | .eventcb bev events => (s.base.bevs bev).fd = fd → eventKind events = BEV_EVENT_ERROR →
      ∀ mb ∈ s.base.mailBoxes pmb, mb.bConnected = false
  | _ => True

instance (fd : ℤ) (pmb : ℕ) (s : LinkState) (ev : LinkEvent) :
    Decidable (s.Delivered fd pmb ev) := by
  cases ev <;> unfold Delivered <;> infer_instance

instance (fd : ℤ) (pmb : ℕ) (s : LinkState) (ev : LinkEvent) :
    Decidable (s.NoErrorConnected fd pmb ev) := by
  cases ev <;> unfold NoErrorConnected <;> infer_instance

/-- While the link is dead, the mailbox is not marked as connected, and a tick leaves it alone. -/
def Quiet [Abi] (pmb : ℕ) (s : LinkState) : Prop :=
  s.dead = true → ∀ mb, s.base.mailBoxes pmb = some mb → mb.bConnected = false ∧
    ∀ lib, ∃ mb', (s.base.handleEventTick lib).mailBoxes pmb = some mb' ∧ mb'.sendTo = mb.sendTo

/-- The mailbox of the socket is alive. -/
def Linked (fd : ℤ) (pmb : ℕ) (s : LinkState) : Prop :=
  s.base.getMailBoxFromFd fd = some pmb ∧ ∃ mb, s.base.mailBoxes pmb = some mb

section Step

variable [Abi] {fd : ℤ} {pmb : ℕ} {s : LinkState}

/-- The mark decides. -/
theorem quiet_iff_mark {mb : CMailBox} (hmb : s.base.mailBoxes pmb = some mb) :
    s.Quiet pmb ↔ (s.dead = true → mb.bConnected = false) := by
  constructor
  · intro h hdead
    exact (h hdead mb hmb).1
  · intro h hdead mb' hmb'
    obtain rfl := Option.some.inj (hmb.symm.trans hmb')
    refine ⟨h hdead, fun lib => ⟨mb, ?_, rfl⟩⟩
    exact CServerBase.handleEventTick_of_skipped lib hmb fun hconn =>
      absurd hconn (by simp [h hdead])

theorem keeps_linkStep (fd : ℤ) (s : LinkState) (ev : LinkEvent) :
    CServerBase.Keeps CMailBox.link s.base (s.step fd ev).base := by
  cases ev with
  | eventcb bev events => exact s.base.keeps_eventcb bev events
  | pushPluto fd' u =>
    unfold step
    dsimp only
    split
    · exact .refl _
    · exact CServerBase.keeps_modifyMailBox _ _ fun _ => rfl
  | tick lib => exact CServerBase.keeps_handleEventTick (fun _ _ _ => rfl) lib s.base

theorem Linked.step (h : s.Linked fd pmb) (ev : LinkEvent) : (s.step fd ev).Linked fd pmb := by
  have hkeeps := keeps_linkStep fd s ev
  obtain ⟨hfd, mb, hmb⟩ := h
  obtain ⟨mb', hmb', -⟩ := hkeeps.after hmb
  exact ⟨(hkeeps.getMailBoxFromFd_eq fd).trans hfd, mb', hmb'⟩

/-- Steps that leave the mark and the link as they are. -/
theorem Quiet.of_same {t : LinkState} (h : s.Quiet pmb) {mb mb' : CMailBox}
    (hmb : s.base.mailBoxes pmb = some mb) (hmb' : t.base.mailBoxes pmb = some mb')
    (hconn : mb'.bConnected = mb.bConnected) (hdead : t.dead = s.dead) : t.Quiet pmb := by
  rw [quiet_iff_mark hmb] at h
  rw [quiet_iff_mark hmb', hconn, hdead]
  exact h

/-- An event on the socket itself: only an error may leave the mark on a dead link. -/
theorem quiet_eventcb_iff (hlinked : s.Linked fd pmb) {bev : ℕ} {events : UInt16}
    (hown : (s.base.bevs bev).fd = fd)
    (hkind : eventKind events = BEV_EVENT_CONNECTED ∨ eventKind events = BEV_EVENT_EOF ∨
      eventKind events = BEV_EVENT_ERROR) :
    (s.step fd (.eventcb bev events)).Quiet pmb ↔
      s.NoErrorConnected fd pmb (.eventcb bev events) := by
  obtain ⟨hfd, mb, hmb⟩ := hlinked
  rw [← hown] at hfd
  rcases hkind with hkind | hkind | hkind
  · have hdead : (s.step fd (.eventcb bev events)).dead = false := by
      simp only [step, if_pos hown, if_pos hkind]
    refine iff_of_true (fun h => ?_) fun _ herror => ?_
    · rw [hdead] at h
      cases h
    · rw [hkind] at herror
      exact absurd herror (by decide)
  · have hmb' : (s.step fd (.eventcb bev events)).base.mailBoxes pmb =
        some (mb.setConnected false) := by
      show (s.base.eventcb bev events).mailBoxes pmb = _
      rw [CServerBase.eventcb_of_eof hkind]
      exact CServerBase.handleSocketClosed_mailBoxes hfd hmb
    refine iff_of_true ((quiet_iff_mark hmb').mpr fun _ => rfl) fun _ herror => ?_
    rw [hkind] at herror
    exact absurd herror (by decide)
  · have hmb' : (s.step fd (.eventcb bev events)).base.mailBoxes pmb = some mb := by
      show (s.base.eventcb bev events).mailBoxes pmb = _
      rw [CServerBase.eventcb_of_error hkind]
      exact hmb
    have hdead : (s.step fd (.eventcb bev events)).dead = true := by
      have hne : ¬ eventKind events = BEV_EVENT_CONNECTED := by
        rw [hkind]
        decide
      simp only [step, if_pos hown, if_neg hne, if_pos (Or.inr hkind)]
    rw [quiet_iff_mark hmb']
    constructor
    · intro h _ _ mb' hmb''
      obtain rfl := Option.some.inj (hmb.symm.trans hmb'')
      exact h hdead
    · intro h _
      exact h hown hkind mb hmb

/-- An error on a link that is marked is the one step after which a tick may send on a dead link. -/
theorem quiet_step_iff (hlinked : s.Linked fd pmb) {ev : LinkEvent} (hev : s.Delivered fd pmb ev)
    (h : s.Quiet pmb) : (s.step fd ev).Quiet pmb ↔ s.NoErrorConnected fd pmb ev := by
  obtain ⟨hfd, mb, hmb⟩ := hlinked
  cases ev with
  | eventcb bev events =>
    obtain ⟨hkind, hwhere⟩ := hev
    by_cases hown : (s.base.bevs bev).fd = fd
    · exact quiet_eventcb_iff ⟨hfd, mb, hmb⟩ hown hkind
    · have hother := hwhere.resolve_left hown
      refine iff_of_true ?_ fun hown' => absurd hown' hown
      exact h.of_same hmb ((CServerBase.eventcb_mailBoxes_of_ne hother events).trans hmb) rfl
        (if_neg hown)
  | pushPluto fd' u =>
    refine iff_of_true ?_ trivial
    have hkeeps : CServerBase.Keeps CMailBox.bConnected s.base
        (s.step fd (.pushPluto fd' u)).base := by
      unfold step
      dsimp only
      split
      · exact .refl _
      · exact CServerBase.keeps_modifyMailBox _ _ fun _ => rfl
    have hdead : (s.step fd (.pushPluto fd' u)).dead = s.dead := by
      unfold step
      dsimp only
      split <;> rfl
    obtain ⟨mb', hmb', hconn⟩ := hkeeps.after hmb
    exact h.of_same hmb hmb' hconn hdead
  | tick lib =>
    refine iff_of_true ?_ trivial
    have hkeeps := CServerBase.keeps_handleEventTick (f := CMailBox.bConnected) (fun _ _ _ => rfl)
      lib s.base
    obtain ⟨mb', hmb', hconn⟩ := hkeeps.after hmb
    exact h.of_same hmb hmb' hconn rfl

/-- **Dead links.** From a state in which `fd` is the socket of the mailbox `pmb`: after every event
of a run the mailbox of a dead link is not marked, and no tick takes from its queue, exactly when no
error is delivered for `fd` while the mailbox is marked. -/
theorem quiet_iff (base : CServerBase) (hfd : base.getMailBoxFromFd fd = some pmb) {mb : CMailBox}
    (hmb : base.mailBoxes pmb = some mb) (evs : List LinkEvent)
    (hevs : Guarded (step fd) (Delivered fd pmb) ⟨base, false⟩ evs) :
    Always (step fd) (Quiet pmb) ⟨base, false⟩ evs ↔
      Guarded (step fd) (NoErrorConnected fd pmb) ⟨base, false⟩ evs := by
  refine hevs.always_iff (Linked fd pmb) (fun _ ev h _ => h.step ev)
    (fun _ _ hlinked hev h => quiet_step_iff hlinked hev h)
    ⟨hfd, mb, hmb⟩ fun h => ?_
  cases h

end Step

/-- The server of the configuration, connected on the socket 7. -/
def connectedServer : CServerBase :=
  ((CServerBase.new.initMailBoxs CServerBase.oneServer).onConnectServer 0 7 0).1

/-- The peer closes the connection while a message waits; the link comes back, and is closed again.
-/
theorem quiet_closed_twice :
    letI := Abi.x64
    Always (step 7) (Quiet 0) ⟨connectedServer, false⟩
      [.eventcb 0 BEV_EVENT_CONNECTED, .pushPluto 7 (CPluto.new 256 fun _ _ => 0),
        .eventcb 0 (BEV_EVENT_READING ||| BEV_EVENT_EOF), .tick fun _ => Libevent.exact,
        .eventcb 0 BEV_EVENT_CONNECTED, .eventcb 0 (BEV_EVENT_READING ||| BEV_EVENT_EOF),
        .eventcb 0 BEV_EVENT_ERROR] := by
  let _ := Abi.x64
  exact (quiet_iff connectedServer (by decide) (by rfl) _ (by decide)).mpr (by decide)

/-- The same with an error: the mailbox stays marked, and the tick takes the message from the queue.
-/
theorem not_quiet_of_error :
    letI := Abi.x64
    let evs : List LinkEvent :=
      [.eventcb 0 BEV_EVENT_CONNECTED, .pushPluto 7 (CPluto.new 256 fun _ _ => 0),
        .eventcb 0 (BEV_EVENT_READING ||| BEV_EVENT_ERROR)]
    let s := run (step 7) ⟨connectedServer, false⟩ evs
    Guarded (step 7) (Delivered 7 0) ⟨connectedServer, false⟩ evs ∧ ¬ s.Quiet 0 ∧
      (s.base.mailBoxes 0).map (·.sendTo.length) = some 1 ∧
      ((s.base.handleEventTick fun _ => Libevent.exact).mailBoxes 0).map (·.sendTo.length) =
        some 0 := by
  let _ := Abi.x64
  refine ⟨by decide, fun h => ?_, by decide, by decide⟩
  have hmark := (quiet_iff_mark (by rfl)).mp h (by decide)
  exact absurd hmark (by decide)

end LinkState

end PlutoServer
