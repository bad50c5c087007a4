import PlutoServer.Server.MailBox
import Mathlib.Data.Finset.Basic
import Mathlib.Tactic.Linarith

/-!
# The server

Reference: `CoreBase/server_base.h`, `CoreBase/server_base.cpp`, `CoreBase/world.cpp`.

The server is driven by libevent's callbacks, one at a time: a connection is opened or accepted,
bytes arrive, a peer closes, the timer ticks. `ServerEvent` has one constructor for each of them,
together with what the operating system and libevent answer in the course of the callback.

Mailboxes and `bufferevent`s are known by their addresses, which are numbered in the order of
allocation and never used again. A mailbox that has been deleted is no longer in `mailBoxes`; where
the source would go on to use it, which is undefined, the model does nothing.
-/

namespace PlutoServer

open Std (TreeMap)

/-- `ENUM_SERVER_TYPE`. -/
inductive ServerType where
  | invaliad
  | gs
  | db
deriving DecidableEq, Repr

/-- The number of a server type, as it is converted to an id. -/
def ServerType.toUInt32 : ServerType → UInt32
  | .invaliad => UInt32.ofInt (-1)
  | .gs => 0
  | .db => 1

/-- `SObject`, one server of the configuration. -/
structure SObject where
  unId : UInt32
  eServerType : ServerType
  strServerName : String
  strAddr : String
  unPort : UInt32

/-- A `bufferevent`, as far as the server uses it. -/
structure Bufferevent where
  fd : ℤ
  input : List UInt8
  output : List UInt8

/-- `CServerBase`, with the objects it points to. -/
structure CServerBase where
  recvMsgs : List CPluto
  vecConnMbs : List ℕ
  mMbs : TreeMap ℤ ℕ
  mMailBox : TreeMap UInt32 ℕ
  /-- The mailboxes that have not been deleted. -/
  mailBoxes : ℕ → Option CMailBox
  /-- How many mailboxes have been allocated. -/
  unMailBoxes : ℕ
  bevs : ℕ → Bufferevent
  /-- How many `bufferevent`s have been allocated. -/
  unBevs : ℕ
  /-- Ghost: the sockets that are open. -/
  openFds : Finset ℤ
  /-- Ghost: the messages passed to `AddRecvMsg`, each with the `bufferevent` it came from. -/
  added : List (ℕ × CPluto)

namespace CServerBase

/-- `CServerBase::CServerBase`. -/
def new : CServerBase where
  recvMsgs := []
  vecConnMbs := []
  mMbs := ∅
  mMailBox := ∅
  mailBoxes _ := none
  unMailBoxes := 0
  bevs _ := ⟨-1, [], []⟩
  unBevs := 0
  openFds := ∅
  added := []

/-! ## Objects -/

/-- `new CMailBox(..)`. -/
def newMailBox (s : CServerBase) (mb : CMailBox) : CServerBase × ℕ :=
  ({ s with
      mailBoxes := Function.update s.mailBoxes s.unMailBoxes (some mb)
      unMailBoxes := s.unMailBoxes + 1 },
    s.unMailBoxes)

/-- `delete pmb`. -/
def deleteMailBox (s : CServerBase) (pmb : ℕ) : CServerBase :=
  { s with mailBoxes := Function.update s.mailBoxes pmb none }

/-- A call of one of the setters of `*pmb`. -/
def modifyMailBox (s : CServerBase) (pmb : ℕ) (f : CMailBox → CMailBox) : CServerBase :=
  { s with mailBoxes := Function.update s.mailBoxes pmb ((s.mailBoxes pmb).map f) }

/-- `bufferevent_socket_new`. -/
def newBufferevent (s : CServerBase) (fd : ℤ) : CServerBase × ℕ :=
  ({ s with
      bevs := Function.update s.bevs s.unBevs ⟨fd, [], []⟩
      unBevs := s.unBevs + 1 },
    s.unBevs)

/-- `evutil_closesocket`. -/
def closeSocket (s : CServerBase) (fd : ℤ) : CServerBase :=
  { s with openFds := s.openFds.erase fd }

/-! ## The registry -/

/-- `CServerBase::GetMailBoxFromFd`. -/
def getMailBoxFromFd (s : CServerBase) (fd : ℤ) : Option ℕ := s.mMbs[fd]?

/-- `CServerBase::GetMailBoxBySId`. -/
def getMailBoxBySId (s : CServerBase) (unId : UInt32) : Option ℕ := s.mMailBox[unId]?

/-- `CServerBase::AddConfigMB`. -/
def addConfigMB (s : CServerBase) (pmb : ℕ) : CServerBase :=
  { s with vecConnMbs := s.vecConnMbs ++ [pmb] }

/-- The loop of `CWorld::InitMailBoxs` over the configured servers. -/
def initMailBoxs (s : CServerBase) (config : TreeMap UInt32 SObject) : CServerBase :=
  config.toList.foldl (fun s entry =>
    let (s, pmb) := s.newMailBox
      (CMailBox.new entry.2.unId.toUInt16 entry.2.strAddr entry.2.unPort)
    s.addConfigMB pmb) s

/-- `CServerBase::AddFdToMb`. -/
def addFdToMb (s : CServerBase) (fd : ℤ) (pmb : ℕ) : CServerBase :=
  match s.getMailBoxFromFd fd with
  | some p2 =>
    -- there is an old mailbox that was not deleted
    if p2 ≠ pmb then { s.deleteMailBox p2 with mMbs := s.mMbs.insert fd pmb } else s
  | none =>
    match s.mailBoxes pmb with
    | none => s
    | some mb =>
      { s.modifyMailBox pmb (·.setFd (UInt64.ofInt fd)) with
        mMbs := s.mMbs.insertIfNew fd pmb
        mMailBox := s.mMailBox.insertIfNew mb.unBoxSId.toUInt32 pmb }

def MIN_ID : ℤ := 100

/-- `CServerBase::OnNewFdAccepted`. -/
def onNewFdAccepted (s : CServerBase) (fd : ℤ) (pszAddr : String) (unPort : UInt32) :
    CServerBase × ℤ :=
  let (s, pmb) := s.newMailBox (CMailBox.new (UInt16.ofInt (fd + MIN_ID)) pszAddr unPort)
  let s := s.addFdToMb fd pmb
  match s.getMailBoxFromFd fd with
  | none => (s, 0)
  | some pmb =>
    let (s, bev) := s.newBufferevent fd
    (s.modifyMailBox pmb fun mb => (mb.setBufferEvent (some bev)).setAuthz .trusted, 0)

def MAX_ACCEPT : ℕ := 5000

/-- `CServerBase::HandleNewConnection`. -/
def handleNewConnection (s : CServerBase) (fd : ℤ) (pszAddr : String) (unPort : UInt32) :
    CServerBase × ℤ :=
  let s := { s with openFds := insert fd s.openFds }
  if s.mMbs.size > MAX_ACCEPT then (s.closeSocket fd, -1)
  else s.onNewFdAccepted fd pszAddr unPort

/-- `CServerBase::OnConnectServer`, with the answers of `socket` and of
`bufferevent_socket_connect`. -/
def onConnectServer (s : CServerBase) (pmb : ℕ) (socket connect : ℤ) : CServerBase × ℤ :=
  match s.mailBoxes pmb with
  | none => (s, -1)
  | some mb =>
    let (mb, fd) := mb.connectServer socket
    let s := s.modifyMailBox pmb fun _ => mb
    if fd > 0 then
      let (s, bev) := { s with openFds := insert fd s.openFds }.newBufferevent fd
      if connect ≠ 0 then (s.modifyMailBox pmb (·.setBufferEvent none), -1)
      else ((s.modifyMailBox pmb (·.setBufferEvent (some bev))).addFdToMb fd pmb, 0)
    else (s, -1)

/-- `CServerBase::ConnectMailBoxs`, with the answers for each mailbox. -/
def connectMailBoxs (s : CServerBase) (os : ℕ → ℤ × ℤ) : CServerBase :=
  s.vecConnMbs.foldl (fun s pmb => (s.onConnectServer pmb (os pmb).1 (os pmb).2).1) s

/-- `CServerBase::HandleSocketConnectioned`. -/
def handleSocketConnectioned (s : CServerBase) (fd : ℤ) : CServerBase × ℤ :=
  match s.getMailBoxFromFd fd with
  | none => (s, -1)
  | some pmb =>
    match s.mailBoxes pmb with
    | none => (s, -1)
    | some mb => if !mb.bConnected then (s.modifyMailBox pmb (·.setConnected true), 0) else (s, -1)

/-- `CServerBase::OnCloseFd`. -/
def onCloseFd (s : CServerBase) (_fd : ℤ) : CServerBase × ℤ := (s, 0)

/-- `CServerBase::HandleSocketClosed`. -/
def handleSocketClosed (s : CServerBase) (fd : ℤ) : CServerBase :=
  let s := s.closeSocket fd
  let s := match s.getMailBoxFromFd fd with
    | none => s
    | some pmb => s.modifyMailBox pmb (·.setConnected false)
  (s.onCloseFd fd).1

end CServerBase

/-! ## Receiving -/

/-- `evbuffer_copyout`: the bytes copied; the buffer is left as it is. -/
def evbufferCopyout (input : List UInt8) (n : ℕ) : List UInt8 := input.take n

/-- `evbuffer_drain`. -/
def evbufferDrain (input : List UInt8) (n : ℕ) : List UInt8 := input.drop n

/-- What `OnReadMessage` does to the connection: its result, what is left of the input, the message
it will go on with, the message it queues, and whether it closes the socket. -/
structure ReadResult where
  ret : ℤ
  input : List UInt8
  pluto : Option CPluto
  added : Option CPluto
  closed : Bool
  /-- Ghost: the message whose buffer it wrote into, as it is after the writes. -/
  written : Option CPluto
  /-- Ghost: how many messages it allocated. -/
  made : ℕ

namespace CMailBox

/-- `CServerBase::CheckHeadSize`: whether the length is accepted, and whether the socket is closed.
-/
def checkHeadSize (mb : CMailBox) (unHeadLen : UInt32) : Bool × Bool :=
  if unHeadLen.toNat < MSGLEN_TEXT_POS then (false, true)
  else if mb.eAuthz ≠ .trusted ∧ unHeadLen.toNat > MSGLEN_MAX then (false, false)
  else (true, false)

/-- `OnReadMessage` with no message begun. -/
def readNew (mb : CMailBox) (input : List UInt8) (fresh : ℕ → ByteMem) : ReadResult :=
  let szHead := evbufferCopyout input PLUTO_MSGLEN_HEAD
  if szHead.length < PLUTO_MSGLEN_HEAD then ⟨-1, input, none, none, false, none, 0⟩
  -- `strlen(szHead) == 0`; if no byte is zero, `strlen` reads on behind `szHead`, and is not zero
  else if (szHead.takeWhile (· ≠ 0)).length = 0 then ⟨-1, input, none, none, false, none, 0⟩
  else
    let rest := evbufferDrain input szHead.length
    let check := mb.checkHeadSize (szToUint32 szHead)
    if !check.1 then ⟨-2, rest, none, none, check.2, none, 0⟩
    else
      let u := (CPluto.new (UInt32.ofNat input.length) fresh).store 0 szHead
      let nWant := input.length - PLUTO_MSGLEN_HEAD
      let body := evbufferCopyout rest nWant
      let u := u.store PLUTO_MSGLEN_HEAD body
      let nLen := body.length
      if nLen > 0 then
        let rest := evbufferDrain rest nLen
        if nLen = nWant then
          ⟨0, rest, none, some (u.endRecv (UInt32.ofNat nLen)), false, some u, 1⟩
        else
          ⟨nLen + PLUTO_MSGLEN_HEAD, rest,
            some (u.setLen (UInt32.ofNat (PLUTO_MSGLEN_HEAD + nLen))), none, false, some u, 1⟩
      else ⟨0, rest, none, none, false, some u, 1⟩

/-- `OnReadMessage` with the message `u` begun. -/
def readResume (u : CPluto) (input : List UInt8) : ReadResult :=
  let unRecvLen := u.unLen
  let body := evbufferCopyout input input.length
  let u := u.store unRecvLen.toNat body
  let unReadLen := body.length
  let nWant : ℤ := input.length - unRecvLen.toNat
  let rest := evbufferDrain input unReadLen
  if nWant = unReadLen then
    ⟨0, rest, none, some (u.endRecv (UInt32.ofNat input.length)), false, some u, 0⟩
  else
    ⟨unRecvLen.toNat + unReadLen, rest,
      some (u.setLen (UInt32.ofNat (PLUTO_MSGLEN_HEAD + unReadLen))), none, false, some u, 0⟩

/-- `OnReadMessage` on the mailbox and the input of the connection. -/
def readMessage (mb : CMailBox) (input : List UInt8) (fresh : ℕ → ByteMem) : ReadResult :=
  if input.length = 0 then ⟨-1, input, mb.pPluto, none, false, none, 0⟩
  else
    match mb.pPluto with
    | none => mb.readNew input fresh
    | some u => readResume u input

end CMailBox

namespace CServerBase

/-- `CServerBase::OnReadMessage`. -/
def onReadMessage (s : CServerBase) (bev : ℕ) (fresh : ℕ → ByteMem) : CServerBase × ℤ :=
  let fd := (s.bevs bev).fd
  match s.getMailBoxFromFd fd with
  | none => (s, -1)
  | some pmb =>
    match s.mailBoxes pmb with
    | none => (s, -1)
    | some mb =>
      let r := mb.readMessage (s.bevs bev).input fresh
      ({ s with
          bevs := Function.update s.bevs bev { s.bevs bev with input := r.input }
          mailBoxes := Function.update s.mailBoxes pmb (some (mb.setRecvPluto r.pluto))
          recvMsgs := s.recvMsgs ++ r.added.toList
          openFds := if r.closed then s.openFds.erase fd else s.openFds
          added := s.added ++ r.added.toList.map fun u => (bev, u) },
        r.ret)

/-- Bytes arrive on a connection and the read callback runs. -/
def handleReadSocket (s : CServerBase) (bev : ℕ) (bytes : List UInt8) (fresh : ℕ → ByteMem) :
    CServerBase × ℤ :=
  let b := s.bevs bev
  { s with bevs := Function.update s.bevs bev { b with input := b.input ++ bytes } }.onReadMessage
    bev fresh

/-! ## The timer -/

/-- The call of `SendAll` that `HandleEventTick` makes for one mailbox, if it makes one that finds a
`bufferevent`: its address, and what the call leaves. -/
def tickSend [Abi] (lib : ℤ → Libevent) (s : CServerBase) (entry : ℤ × ℕ) :
    Option (ℕ × SendResult) :=
  match s.mailBoxes entry.2 with
  | none => none
  | some mb =>
    if mb.bConnected then
      mb.bev.map fun bev => (bev, mb.sendAll (lib entry.1) (s.bevs bev).output)
    else none

/-- The turn of `HandleEventTick` for one mailbox. -/
def sendTick [Abi] (lib : ℤ → Libevent) (s : CServerBase) (entry : ℤ × ℕ) : CServerBase :=
  match s.tickSend lib entry with
  | none => s
  | some (bev, r) =>
    { s with
      mailBoxes := Function.update s.mailBoxes entry.2 (some r.mb)
      bevs := Function.update s.bevs bev { s.bevs bev with output := r.output } }

/-- `CServerBase::HandleRecvMsg`. The messages go to `CWorld::HandleMessages`. -/
def handleRecvMsg (s : CServerBase) : CServerBase := { s with recvMsgs := [] }

/-- `CServerBase::HandleEventTick`, with libevent's answers for each socket. -/
def handleEventTick [Abi] (lib : ℤ → Libevent) (s : CServerBase) : CServerBase :=
  (s.mMbs.toList.foldl (sendTick lib) s).handleRecvMsg

end CServerBase

/-! ## Runs -/

/-- The callbacks, with the answers of the operating system and of libevent. -/
inductive ServerEvent where
  | connect (pmb : ℕ) (socket connect : ℤ)
  | accept (fd : ℤ) (pszAddr : String) (unPort : UInt32)
  | connected (fd : ℤ)
  | closed (fd : ℤ)
  | read (bev : ℕ) (bytes : List UInt8) (fresh : ℕ → ByteMem)
  | tick (lib : ℤ → Libevent)

/-- One callback. -/
def CServerBase.step [Abi] (s : CServerBase) : ServerEvent → CServerBase
  | .connect pmb socket connect => (s.onConnectServer pmb socket connect).1
  | .accept fd pszAddr unPort => (s.handleNewConnection fd pszAddr unPort).1
  | .connected fd => (s.handleSocketConnectioned fd).1
  | .closed fd => s.handleSocketClosed fd
  | .read bev bytes fresh => (s.handleReadSocket bev bytes fresh).1
  | .tick lib => s.handleEventTick lib

end PlutoServer
