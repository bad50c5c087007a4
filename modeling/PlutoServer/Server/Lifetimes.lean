import PlutoServer.Common.Runs
import PlutoServer.Server.Receive
import PlutoServer.Server.Registry
import Mathlib.Algebra.BigOperators.Group.Finset.Basic

/-!
# The lifetime of messages

Reference: `new CPluto` and `delete` in `CServerBase::OnReadMessage`, `CServerBase::AddFdToMb`,
`CServerBase::HandleRecvMsg`, `CMailBox::SendAll` and `CMailBox::~CMailBox`.

A message is held by the queue of the server or by a mailbox. `Counted` counts how many messages are
made and how many are deleted. `Counted.always_balanced_iff` says that the server holds all messages
that are not deleted exactly as long as none is `lost`. There are three ways to lose one:
`HandleRecvMsg` drops a message that was handled, a read keeps no pointer to a message that is a
header only, and a mailbox that is deleted does not delete what it was to send.
-/

namespace PlutoServer

open Runs

/-! ## Made, deleted, lost -/

namespace CMailBox

/-- The messages that a mailbox points to. -/
def held (mb : CMailBox) : ℕ := mb.pPluto.toList.length + mb.sendTo.length

/-- The message that `OnReadMessage` makes for a header alone is neither queued nor kept. -/
def lostPlutos (mb : CMailBox) (input : List UInt8) (fresh : ℕ → ByteMem) : ℕ :=
  if input.length = PLUTO_MSGLEN_HEAD then (mb.readMessage input fresh).made else 0

end CMailBox

namespace CServerBase

/-- The messages of a mailbox, if it is there. -/
def heldBy : Option CMailBox → ℕ
  | none => 0
  | some mb => mb.held

/-- The messages that the server points to. -/
def held (s : CServerBase) : ℕ :=
  s.recvMsgs.length + ∑ pmb ∈ Finset.range s.unMailBoxes, heldBy (s.mailBoxes pmb)

/-- The mailbox that `AddFdToMb` deletes. -/
def replaced (s : CServerBase) (fd : ℤ) (pmb : ℕ) : Option CMailBox :=
  match s.getMailBoxFromFd fd with
  | some p2 => if p2 ≠ pmb then s.mailBoxes p2 else none
  | none => none

/-- The mailbox that a callback deletes. -/
def deletedBox (s : CServerBase) : ServerEvent → Option CMailBox
  | .accept fd _ _ => if s.mMbs.size > MAX_ACCEPT then none else s.replaced fd s.unMailBoxes
  | .connect pmb socket connect =>
    match s.mailBoxes pmb with
    | none => none
    | some mb =>
      if (mb.connectServer socket).2 > 0 ∧ connect = 0 then
        s.replaced (mb.connectServer socket).2 pmb
      else none
  | _ => none

/-- The mailbox and the input on which `OnReadMessage` works. -/
def reading (s : CServerBase) (bev : ℕ) (bytes : List UInt8) : Option (CMailBox × List UInt8) :=
  ((s.getMailBoxFromFd (s.bevs bev).fd).bind s.mailBoxes).map fun mb =>
    (mb, (s.bevs bev).input ++ bytes)

/-- How many messages one turn of a tick deletes. -/
def turnDeletes [Abi] (lib : ℤ → Libevent) (s : CServerBase) (entry : ℤ × ℕ) : ℕ :=
  (s.tickSend lib entry).elim 0 fun r => r.2.deleted.length

/-- How many messages the turns of a tick delete. -/
def tickDeletes [Abi] (lib : ℤ → Libevent) : CServerBase → List (ℤ × ℕ) → ℕ
  | _, [] => 0
  | s, entry :: entries => s.turnDeletes lib entry + tickDeletes lib (s.sendTick lib entry) entries

/-- How many messages a callback makes. -/
def news (s : CServerBase) : ServerEvent → ℕ
  | .read bev bytes fresh => (s.reading bev bytes).elim 0 fun r => (r.1.readMessage r.2 fresh).made
  | _ => 0

/-- How many messages a callback deletes: those that are sent, and the one that a deleted mailbox
was receiving. -/
def deletes [Abi] (s : CServerBase) : ServerEvent → ℕ
  | .tick lib => tickDeletes lib s s.mMbs.toList
  | ev => (s.deletedBox ev).elim 0 fun mb => mb.pPluto.toList.length

/-- How many messages are lost in a callback: those that are handled, a header alone, and those that
a deleted mailbox was to send. -/
def lost (s : CServerBase) : ServerEvent → ℕ
  | .tick _ => s.recvMsgs.length
  | .read bev bytes fresh => (s.reading bev bytes).elim 0 fun r => r.1.lostPlutos r.2 fresh
  | ev => (s.deletedBox ev).elim 0 fun mb => mb.sendTo.length

/-! ## The parts of a callback -/

/-- From `s` to `t` so many messages come to the server and so many leave it. -/
structure Accounts (s t : CServerBase) (come leave : ℕ) : Prop where
  allocated : t.Allocated
  held : t.held + leave = s.held + come

variable {s t u : CServerBase}

theorem Accounts.trans {a b c d : ℕ} (h : Accounts s t a b) (h' : Accounts t u c d) :
    Accounts s u (a + c) (b + d) := by
  refine ⟨h'.allocated, ?_⟩
  have h₁ := h.held
  have h₂ := h'.held
  omega

/-- Before and after, parts that neither bring nor take messages. -/
theorem Accounts.before {a b : ℕ} (h : Accounts t u a b) (h' : Accounts s t 0 0) :
    Accounts s u a b := by
  simpa only [Nat.zero_add] using h'.trans h

theorem Accounts.after {a b : ℕ} (h : Accounts s t a b) (h' : Accounts t u 0 0) :
    Accounts s u a b :=
  h.trans h'

theorem Accounts.refl (hs : s.Allocated) : Accounts s s 0 0 := ⟨hs, rfl⟩

/-- What is not a message or a mailbox does not matter. -/
theorem Accounts.congr {t' : CServerBase} {a b : ℕ} (h : Accounts s t a b)
    (hbox : t'.mailBoxes = t.mailBoxes) (hcount : t'.unMailBoxes = t.unMailBoxes)
    (hqueue : t'.recvMsgs = t.recvMsgs) : Accounts s t' a b := by
  refine ⟨?_, ?_⟩
  · rw [Allocated, hbox, hcount]
    exact h.allocated
  · rw [CServerBase.held, hbox, hcount, hqueue]
    exact h.held

theorem sum_heldBy_update {n pmb : ℕ} (f : ℕ → Option CMailBox) (v : Option CMailBox)
    (h : pmb < n) :
    (∑ q ∈ Finset.range n, heldBy (Function.update f pmb v q)) + heldBy (f pmb) =
      (∑ q ∈ Finset.range n, heldBy (f q)) + heldBy v := by
  have hmem := Finset.mem_range.mpr h
  have hrest : ∑ q ∈ (Finset.range n).erase pmb, heldBy (Function.update f pmb v q) =
      ∑ q ∈ (Finset.range n).erase pmb, heldBy (f q) :=
    Finset.sum_congr rfl fun q hq => by rw [Function.update_of_ne (Finset.ne_of_mem_erase hq)]
  rw [← Finset.add_sum_erase _ _ hmem, ← Finset.add_sum_erase _ _ hmem, hrest, Function.update_self]
  omega

/-- A mailbox that is there is replaced by another value, or by none. -/
theorem accounts_update (hs : s.Allocated) {pmb : ℕ} {mb : CMailBox}
    (hmb : s.mailBoxes pmb = some mb) {v : Option CMailBox} {come leave : ℕ}
    (hv : heldBy v + leave = mb.held + come) :
    Accounts s { s with mailBoxes := Function.update s.mailBoxes pmb v } come leave := by
  have hlt : pmb < s.unMailBoxes := hs.lt hmb
  refine ⟨fun q hq => ?_, ?_⟩
  · exact (Function.update_of_ne (hlt.trans_le hq).ne' ..).trans (hs q hq)
  · have hsum := sum_heldBy_update s.mailBoxes v hlt
    rw [hmb, heldBy] at hsum
    show s.recvMsgs.length +
      (∑ q ∈ Finset.range s.unMailBoxes, heldBy (Function.update s.mailBoxes pmb v q)) + leave = _
    rw [CServerBase.held]
    omega

theorem accounts_modifyMailBox (hs : s.Allocated) (pmb : ℕ) {f : CMailBox → CMailBox}
    (hf : ∀ mb, (f mb).held = mb.held) : Accounts s (s.modifyMailBox pmb f) 0 0 := by
  cases hmb : s.mailBoxes pmb with
  | none =>
    refine (Accounts.refl hs).congr ?_ rfl rfl
    rw [modifyMailBox, hmb, Option.map_none, ← hmb, Function.update_eq_self]
  | some mb =>
    refine (accounts_update hs hmb ?_).congr rfl rfl rfl
    rw [hmb, Option.map_some]
    exact congrArg (· + 0) (hf mb)

theorem accounts_pushPluto (hs : s.Allocated) {pmb : ℕ} (hpmb : s.mailBoxes pmb ≠ none)
    (u : CPluto) : Accounts s (s.modifyMailBox pmb (·.pushPluto u)) 1 0 := by
  obtain ⟨mb, hmb⟩ := Option.ne_none_iff_exists'.mp hpmb
  refine (accounts_update hs hmb (v := some (mb.pushPluto u)) ?_).congr ?_ rfl rfl
  · rw [heldBy, CMailBox.held, CMailBox.held, CMailBox.pushPluto, List.length_append]
    rfl
  · rw [modifyMailBox, hmb, Option.map_some]

theorem accounts_newMailBox (hs : s.Allocated) {mb : CMailBox} (hmb : mb.held = 0) :
    Accounts s (s.newMailBox mb).1 0 0 := by
  refine ⟨fun q hq => ?_, ?_⟩
  · have hlt : s.unMailBoxes < q := hq
    exact (Function.update_of_ne hlt.ne' ..).trans (hs q hlt.le)
  · have hsum := Finset.sum_range_succ
      (fun q => heldBy (Function.update s.mailBoxes s.unMailBoxes (some mb) q)) s.unMailBoxes
    have hrest : ∑ q ∈ Finset.range s.unMailBoxes,
          heldBy (Function.update s.mailBoxes s.unMailBoxes (some mb) q) =
        ∑ q ∈ Finset.range s.unMailBoxes, heldBy (s.mailBoxes q) :=
      Finset.sum_congr rfl fun q hq => by rw [Function.update_of_ne (Finset.mem_range.mp hq).ne]
    rw [hrest, Function.update_self, heldBy, hmb] at hsum
    exact congrArg (s.recvMsgs.length + · + 0) hsum

theorem accounts_deleteMailBox (hs : s.Allocated) (pmb : ℕ) :
    Accounts s (s.deleteMailBox pmb) 0 (heldBy (s.mailBoxes pmb)) := by
  cases hmb : s.mailBoxes pmb with
  | none =>
    refine (Accounts.refl hs).congr ?_ rfl rfl
    rw [deleteMailBox, ← hmb, Function.update_eq_self]
  | some mb => exact accounts_update hs hmb (Nat.add_comm ..)

theorem accounts_addFdToMb (hs : s.Allocated) (fd : ℤ) (pmb : ℕ) :
    Accounts s (s.addFdToMb fd pmb) 0 (heldBy (s.replaced fd pmb)) := by
  have hsetFd := accounts_modifyMailBox hs pmb (f := (·.setFd (UInt64.ofInt fd))) fun _ => rfl
  rw [addFdToMb, replaced]
  cases s.getMailBoxFromFd fd with
  | none =>
    dsimp only
    cases s.mailBoxes pmb with
    | none => exact .refl hs
    | some mb => exact hsetFd.congr rfl rfl rfl
  | some p2 =>
    dsimp only
    split_ifs
    · exact (accounts_deleteMailBox hs p2).congr rfl rfl rfl
    · exact .refl hs

/-! ## Callbacks -/

/-- What `AddFdToMb` deletes does not depend on the mailbox that it registers. -/
theorem replaced_congr {fd : ℤ} {pmb : ℕ} (hmbs : t.mMbs = s.mMbs)
    (hbox : ∀ q, q ≠ pmb → t.mailBoxes q = s.mailBoxes q) :
    t.replaced fd pmb = s.replaced fd pmb := by
  rw [replaced, replaced, getMailBoxFromFd, hmbs, ← getMailBoxFromFd]
  cases s.getMailBoxFromFd fd with
  | none => rfl
  | some p2 =>
    dsimp only
    split_ifs with hne
    · exact hbox p2 hne
    · rfl

theorem accounts_handleNewConnection (hs : s.Allocated) (fd : ℤ) (pszAddr : String)
    (unPort : UInt32) :
    Accounts s (s.handleNewConnection fd pszAddr unPort).1 0
      (heldBy (s.deletedBox (.accept fd pszAddr unPort))) := by
  rw [handleNewConnection, deletedBox]
  dsimp only
  split_ifs with hsize
  · exact (Accounts.refl hs).congr rfl rfl rfl
  · set s₁ : CServerBase := { s with openFds := insert fd s.openFds } with hs₁
    have hopen : Accounts s s₁ 0 0 := (Accounts.refl hs).congr rfl rfl rfl
    set mb := CMailBox.new (UInt16.ofInt (fd + MIN_ID)) pszAddr unPort
    have hnew : Accounts s (s₁.newMailBox mb).1 0 0 :=
      hopen.after (accounts_newMailBox hopen.allocated rfl)
    have hreplaced : (s₁.newMailBox mb).1.replaced fd s.unMailBoxes =
        s.replaced fd s.unMailBoxes := replaced_congr rfl fun q hq => Function.update_of_ne hq ..
    have hadd := (accounts_addFdToMb hnew.allocated fd s.unMailBoxes).before hnew
    rw [hreplaced] at hadd
    rw [onNewFdAccepted]
    dsimp only
    split
    · exact hadd
    next pmb _ =>
      have hbev : Accounts s
          (((s₁.newMailBox mb).1.addFdToMb fd s.unMailBoxes).newBufferevent fd).1 0
          (heldBy (s.replaced fd s.unMailBoxes)) := hadd.congr rfl rfl rfl
      exact hbev.after (accounts_modifyMailBox hbev.allocated pmb fun _ => rfl)

theorem accounts_onConnectServer (hs : s.Allocated) (pmb : ℕ) (socket connect : ℤ) :
    Accounts s (s.onConnectServer pmb socket connect).1 0
      (heldBy (s.deletedBox (.connect pmb socket connect))) := by
  rw [onConnectServer, deletedBox]
  cases hmb : s.mailBoxes pmb with
  | none => exact .refl hs
  | some mb =>
    dsimp only
    have hheld : (mb.connectServer socket).1.held = mb.held := by rw [connectServer_fst]; rfl
    have hmod : Accounts s (s.modifyMailBox pmb fun _ => (mb.connectServer socket).1) 0 0 := by
      refine (accounts_update hs hmb (v := some (mb.connectServer socket).1)
        (congrArg (· + 0) hheld)).congr ?_ rfl rfl
      rw [modifyMailBox, hmb, Option.map_some]
    set s₁ := s.modifyMailBox pmb fun _ => (mb.connectServer socket).1
    set fd := (mb.connectServer socket).2
    have hbev : Accounts s ({ s₁ with openFds := insert fd s₁.openFds }.newBufferevent fd).1 0 0 :=
      hmod.congr rfl rfl rfl
    set s₂ := ({ s₁ with openFds := insert fd s₁.openFds }.newBufferevent fd).1
    have hset (bev : Option ℕ) : Accounts s (s₂.modifyMailBox pmb (·.setBufferEvent bev)) 0 0 :=
      hbev.after (accounts_modifyMailBox hbev.allocated pmb fun _ => rfl)
    by_cases hfd : fd > 0
    · rw [if_pos hfd]
      by_cases hconnect : connect = 0
      · rw [if_neg (not_not_intro hconnect), if_pos ⟨hfd, hconnect⟩]
        have hreplaced :
            (s₂.modifyMailBox pmb (·.setBufferEvent (some s₁.unBevs))).replaced fd pmb =
              s.replaced fd pmb := by
          refine replaced_congr rfl fun q hq => ?_
          rw [modifyMailBox_of_ne _ _ hq]
          exact modifyMailBox_of_ne s _ hq
        rw [← hreplaced]
        exact (accounts_addFdToMb (hset _).allocated fd pmb).before (hset _)
      · rw [if_pos hconnect, if_neg fun h => hconnect h.2]
        exact hset none
    · rw [if_neg hfd, if_neg fun h => hfd h.1]
      exact hmod

/-- A message is kept, queued or lost. -/
theorem readMessage_held (mb : CMailBox) (buf : List UInt8) (fresh : ℕ → ByteMem) :
    (mb.readMessage buf fresh).pluto.toList.length +
        (mb.readMessage buf fresh).added.toList.length + mb.lostPlutos buf fresh =
      mb.pPluto.toList.length + (mb.readMessage buf fresh).made := by
  have hhead : PLUTO_MSGLEN_HEAD = 4 := rfl
  rw [CMailBox.lostPlutos, hhead]
  cases hmb : mb.pPluto with
  | some u =>
    -- going on with a message makes none, and keeps or queues it
    simp only [CMailBox.readMessage, hmb, CMailBox.readResume]
    split_ifs <;> rfl
  | none =>
    rcases CMailBox.readMessage_cases hmb buf fresh with
      ⟨-, h⟩ | ⟨-, -, -, _, h⟩ | ⟨-, hlen, h⟩ | ⟨-, hlen, h⟩ <;> rw [h]
    · rw [ite_self]
      rfl
    · rw [ite_self]
      rfl
    · rw [if_pos hlen]
      rfl
    · rw [if_neg (by omega)]
      rfl

theorem accounts_handleReadSocket (hs : s.Allocated) (bev : ℕ) (bytes : List UInt8)
    (fresh : ℕ → ByteMem) :
    Accounts s (s.handleReadSocket bev bytes fresh).1 (s.news (.read bev bytes fresh))
      (s.lost (.read bev bytes fresh)) := by
  unfold handleReadSocket onReadMessage news lost reading getMailBoxFromFd
  dsimp only
  rw [Function.update_self]
  dsimp only
  cases s.mMbs[(s.bevs bev).fd]? with
  | none => exact (Accounts.refl hs).congr rfl rfl rfl
  | some pmb =>
    dsimp only [Option.bind_some]
    cases hmb : s.mailBoxes pmb with
    | none => exact (Accounts.refl hs).congr rfl rfl rfl
    | some mb =>
      dsimp only [Option.map_some, Option.elim_some]
      set buf := (s.bevs bev).input ++ bytes
      set r := mb.readMessage buf fresh
      have hread : r.pluto.toList.length + r.added.toList.length + mb.lostPlutos buf fresh =
        mb.pPluto.toList.length + r.made := readMessage_held mb buf fresh
      -- the mailbox gets one message for another, and the queue of the server grows
      have hswap : heldBy (some (mb.setRecvPluto r.pluto)) + mb.pPluto.toList.length =
          mb.held + r.pluto.toList.length := by
        rw [heldBy, CMailBox.held, CMailBox.held, CMailBox.setRecvPluto]
        dsimp only
        omega
      have hbox := accounts_update hs hmb hswap
      refine ⟨hbox.allocated, ?_⟩
      have hheld := hbox.held
      rw [CServerBase.held] at hheld ⊢
      dsimp only at hheld ⊢
      rw [List.length_append]
      omega

/-- The messages that `SendAll` deletes leave the queue of the mailbox. -/
theorem sendLoop_held [Abi] (lib : Libevent) (mb : CMailBox) (turn : ℕ) (output : List UInt8)
    (copies : List Copy) (queue : List CPluto) :
    (CMailBox.sendLoop lib mb turn output copies queue).mb.held +
        (CMailBox.sendLoop lib mb turn output copies queue).deleted.length =
      mb.pPluto.toList.length + queue.length := by
  induction queue generalizing turn output copies with
  | nil => rfl
  | cons p rest ih =>
    unfold CMailBox.sendLoop
    dsimp only
    cases lib.reserve turn (p.unLen - mb.unSendPos) with
    | none => rfl
    | some vec =>
      dsimp only
      split_ifs
      · rfl
      · rfl
      · rfl
      · have hrest := ih (turn + 1)
          (output ++ (CMailBox.fillExtent vec.base p mb.unSendPos (p.unLen - mb.unSendPos)).slice 0
            (CMailBox.sendSize (p.unLen - mb.unSendPos) vec.iovLen))
          (⟨mb.unSendPos, p.unLen, p.unLen - mb.unSendPos, vec.iovLen⟩ :: copies)
        dsimp only
        rw [List.length_cons, List.length_cons]
        omega

theorem sendAll_held [Abi] (lib : Libevent) (mb : CMailBox) (output : List UInt8) :
    (mb.sendAll lib output).mb.held + (mb.sendAll lib output).deleted.length = mb.held := by
  rw [CMailBox.sendAll]
  split_ifs
  · rfl
  · exact sendLoop_held lib mb 0 output [] mb.sendTo
  · rfl

theorem accounts_sendTick [Abi] (hs : s.Allocated) (lib : ℤ → Libevent) (entry : ℤ × ℕ) :
    Accounts s (s.sendTick lib entry) 0 (s.turnDeletes lib entry) := by
  unfold sendTick turnDeletes
  cases hsend : s.tickSend lib entry with
  | none => exact .refl hs
  | some r =>
    obtain ⟨mb, hmb, -, -, hr⟩ := tickSend_eq_some hsend
    have hheld := sendAll_held (lib entry.1) mb (s.bevs r.1).output
    rw [← hr] at hheld
    exact (accounts_update hs hmb (v := some _) hheld).congr rfl rfl rfl

theorem recvMsgs_sendTick [Abi] (s : CServerBase) (lib : ℤ → Libevent) (entry : ℤ × ℕ) :
    (s.sendTick lib entry).recvMsgs = s.recvMsgs := by
  rcases s.sendTick_cases lib entry with heq | ⟨_, _, _, _, -, -, -, -, heq⟩ <;> rw [heq]

theorem accounts_turns [Abi] (hs : s.Allocated) (lib : ℤ → Libevent) (entries : List (ℤ × ℕ)) :
    Accounts s (entries.foldl (sendTick lib) s) 0 (tickDeletes lib s entries) ∧
      (entries.foldl (sendTick lib) s).recvMsgs = s.recvMsgs := by
  induction entries generalizing s with
  | nil => exact ⟨.refl hs, rfl⟩
  | cons entry entries ih =>
    have hturn := accounts_sendTick hs lib entry
    obtain ⟨hrest, hqueue⟩ := ih hturn.allocated
    exact ⟨hturn.trans hrest, hqueue.trans (s.recvMsgs_sendTick lib entry)⟩

theorem accounts_handleEventTick [Abi] (hs : s.Allocated) (lib : ℤ → Libevent) :
    Accounts s (s.handleEventTick lib) 0 (s.deletes (.tick lib) + s.lost (.tick lib)) := by
  obtain ⟨hturns, hqueue⟩ := accounts_turns hs lib s.mMbs.toList
  refine ⟨hturns.allocated, ?_⟩
  have hheld := hturns.held
  rw [CServerBase.held, hqueue] at hheld
  rw [deletes, lost, handleEventTick, handleRecvMsg, CServerBase.held]
  dsimp only
  rw [List.length_nil]
  omega

/-- What a callback does to the messages of the server. -/
theorem accounts_step [Abi] (hs : s.Allocated) (ev : ServerEvent) :
    Accounts s (s.step ev) (s.news ev) (s.deletes ev + s.lost ev) := by
  have hbox (o : Option CMailBox) : heldBy o =
      (o.elim 0 fun mb => mb.pPluto.toList.length) + o.elim 0 fun mb => mb.sendTo.length := by
    cases o <;> rfl
  cases ev with
  | connect pmb socket connect =>
    have h := accounts_onConnectServer hs pmb socket connect
    rwa [hbox] at h
  | accept fd pszAddr unPort =>
    have h := accounts_handleNewConnection hs fd pszAddr unPort
    rwa [hbox] at h
  | connected fd =>
    show Accounts s (s.handleSocketConnectioned fd).1 0 0
    rcases s.handleSocketConnectioned_cases fd with heq | ⟨pmb, -, heq⟩ <;> rw [heq]
    · exact .refl hs
    · exact accounts_modifyMailBox hs pmb fun _ => rfl
  | closed fd =>
    show Accounts s (s.handleSocketClosed fd) 0 0
    have hclose : Accounts s (s.closeSocket fd) 0 0 := (Accounts.refl hs).congr rfl rfl rfl
    rcases s.handleSocketClosed_cases fd with ⟨-, heq⟩ | ⟨pmb, -, heq⟩ <;> rw [heq]
    · exact hclose
    · exact hclose.after (accounts_modifyMailBox hclose.allocated pmb fun _ => rfl)
  | read bev bytes fresh =>
    have hdeletes : s.deletes (.read bev bytes fresh) = 0 := rfl
    rw [hdeletes, Nat.zero_add]
    exact accounts_handleReadSocket hs bev bytes fresh
  | tick lib => exact accounts_handleEventTick hs lib

end CServerBase

/-! ## Runs -/

/-- A server, with how many messages have been made and deleted. -/
structure Counted where
  base : CServerBase
  news : ℕ
  deletes : ℕ

/-- A callback, or a new message that is passed to `PushPluto`. -/
inductive CountedEvent where
  | callback (ev : ServerEvent)
  | pushPluto (pmb : ℕ) (u : CPluto)

namespace Counted

def step [Abi] (s : Counted) : CountedEvent → Counted
  | .callback ev => ⟨s.base.step ev, s.news + s.base.news ev, s.deletes + s.base.deletes ev⟩
  | .pushPluto pmb u =>
    { s with base := s.base.modifyMailBox pmb (·.pushPluto u), news := s.news + 1 }

/-- Messages are pushed on mailboxes that have not been deleted. -/
def Alive (s : Counted) : CountedEvent → Prop
  | .callback _ => True
  | .pushPluto pmb _ => s.base.mailBoxes pmb ≠ none

/-- No message is lost. -/
def Lossless (s : Counted) : CountedEvent → Prop
  | .callback ev => s.base.lost ev = 0
  | .pushPluto _ _ => True

/-- The server holds all messages that have been made and not deleted. -/
def Balanced (s : Counted) : Prop := s.news = s.deletes + s.base.held

section Runs

variable [Abi] {s : Counted}

/-- What an event makes comes to the server, and what leaves it is deleted or lost. -/
theorem step_held (hs : s.base.Allocated) {ev : CountedEvent} (halive : s.Alive ev) :
    (s.step ev).base.Allocated ∧ ∃ lost, (lost = 0 ↔ s.Lossless ev) ∧
      (s.step ev).base.held + (s.step ev).deletes + s.news + lost =
        s.base.held + s.deletes + (s.step ev).news := by
  cases ev with
  | callback ev =>
    have h := CServerBase.accounts_step hs ev
    refine ⟨h.allocated, s.base.lost ev, Iff.rfl, ?_⟩
    have hheld := h.held
    show (s.base.step ev).held + (s.deletes + s.base.deletes ev) + s.news + s.base.lost ev =
      s.base.held + s.deletes + (s.news + s.base.news ev)
    omega
  | pushPluto pmb u =>
    have h := CServerBase.accounts_pushPluto hs halive u
    refine ⟨h.allocated, 0, iff_of_true rfl trivial, ?_⟩
    have hheld := h.held
    show (s.base.modifyMailBox pmb (·.pushPluto u)).held + s.deletes + s.news + 0 =
      s.base.held + s.deletes + (s.news + 1)
    omega

/-- **The server holds all messages that are not deleted exactly as long as none is lost.** -/
theorem always_balanced_iff {evs : List CountedEvent} (hs : s.base.Allocated)
    (hbalanced : s.Balanced) (halive : Guarded step Alive s evs) :
    Always step Balanced s evs ↔ Guarded step Lossless s evs := by
  refine halive.always_iff (fun s => s.base.Allocated) (fun s ev hs hev => (step_held hs hev).1) ?_
    hs hbalanced
  intro s ev hs hev hbalanced
  obtain ⟨-, lost, hlost, hheld⟩ := step_held hs hev
  rw [← hlost]
  rw [Balanced] at hbalanced ⊢
  omega

end Runs

/-- A client connects and sends one message, and the timer runs. -/
def oneMessage : List CountedEvent :=
  [.callback (.accept 5 "" 0), .callback (.read 0 [9, 0, 0, 0, 0, 0, 101, 0, 1] fun _ _ => 0),
    .callback (.tick fun _ => ⟨fun _ _ => none, fun _ => false⟩)]

/-- After the tick nothing points to the message. -/
theorem not_balanced_of_oneMessage :
    letI := Abi.x64
    ¬ Always step Balanced ⟨CServerBase.new, 0, 0⟩ oneMessage := by
  let _ := Abi.x64
  intro h
  have halive : Guarded step Alive ⟨CServerBase.new, 0, 0⟩ oneMessage :=
    ⟨trivial, trivial, trivial, trivial⟩
  have hnew : Balanced ⟨CServerBase.new, 0, 0⟩ := rfl
  have hlossless := (always_balanced_iff (fun _ _ => rfl) hnew halive).mp h
  exact absurd hlossless.2.2.1 (show ¬ CServerBase.lost _ _ = 0 by decide)

end Counted

end PlutoServer
