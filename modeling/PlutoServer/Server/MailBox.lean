import PlutoServer.Pluto.Defs
import Mathlib.Data.Int.Notation

/-!
# Mailboxes

Reference: `CoreBase/mail_box.h`, `CoreBase/mail_box.cpp`, `CoreBase/enum_header.h`,
`include/event2/buffer.h`.

A mailbox is one connection to a client or to another server: the queue of messages to send, how far
the first of them has been sent, and the message being received. Queued messages belong to the
mailbox and are not touched by anyone else, so the queue holds them by value; a `bufferevent` is
known by its address.

`SendAll` copies the queue into the output buffer of the `bufferevent`. What libevent answers to
`evbuffer_reserve_space` and `evbuffer_commit_space` is an argument.
-/

namespace PlutoServer

/-- `MAILBOX_CLIENT_TYPE`. -/
inductive MailBoxClientType where
  | unauthz
  | authz
  | trusted
deriving DecidableEq, Repr

/-- `CMailBox`. -/
structure CMailBox where
  unBoxSId : UInt16
  unFd : UInt64
  strAddr : String
  unPort : UInt32
  bConnected : Bool
  eAuthz : MailBoxClientType
  tConnectTime : ℤ
  bev : Option ℕ
  unSendPos : UInt32
  pPluto : Option CPluto
  sendTo : List CPluto

namespace CMailBox

/-- `CMailBox::CMailBox`. -/
def new (unId : UInt16) (pszAddr : String) (unPort : UInt32) : CMailBox where
  unBoxSId := unId
  unFd := 0
  strAddr := pszAddr
  unPort := unPort
  bConnected := false
  eAuthz := .unauthz
  tConnectTime := 0
  bev := none
  unSendPos := 0
  pPluto := none
  sendTo := []

def setFd (mb : CMailBox) (unFd : UInt64) : CMailBox := { mb with unFd := unFd }
def setConnected (mb : CMailBox) (b : Bool) : CMailBox := { mb with bConnected := b }
def setAuthz (mb : CMailBox) (eAuthz : MailBoxClientType) : CMailBox := { mb with eAuthz := eAuthz }
def setBufferEvent (mb : CMailBox) (bev : Option ℕ) : CMailBox := { mb with bev := bev }
def setRecvPluto (mb : CMailBox) (pluto : Option CPluto) : CMailBox := { mb with pPluto := pluto }
def pushPluto (mb : CMailBox) (p : CPluto) : CMailBox := { mb with sendTo := mb.sendTo ++ [p] }

/-- `CMailBox::ConnectServer`, with what `socket()` answers. The clock it reads is `time_t(NULL)`,
a conversion and not a call, so `now` is zero. -/
def connectServer (mb : CMailBox) (socket : ℤ) : CMailBox × ℤ :=
  let mb := { mb with unFd := 0, bev := none }
  let now := 0
  if mb.tConnectTime - now > 5 then (mb, -1)
  else if socket = -1 then (mb, -1)
  else (mb, socket)

end CMailBox

/-! ## Sending -/

/-- An extent that `evbuffer_reserve_space` provides: the memory at `iov_base` and its length. -/
structure Extent where
  base : ByteMem
  iovLen : ℕ

/-- What libevent answers during one call of `SendAll`, in each turn of the loop. -/
structure Libevent where
  /-- The answer to a request for so many bytes; `none` is the error. -/
  reserve : ℕ → UInt32 → Option Extent
  /-- Whether the bytes are accepted. -/
  commit : ℕ → Bool

/-- A copy into a reserved extent: where in the message it starts, the length of the message, how
many bytes it has and how many the extent has. -/
structure Copy where
  sendPos : UInt32
  len : UInt32
  want : UInt32
  extent : ℕ
deriving DecidableEq

/-- What `SendAll` leaves behind: its result, the mailbox and the output buffer. -/
structure SendResult where
  ret : ℤ
  mb : CMailBox
  output : List UInt8
  /-- Ghost: the copies it made, the latest first. -/
  copies : List Copy
  /-- Ghost: the messages it deleted. -/
  deleted : List CPluto

namespace CMailBox

/-- The bytes that one turn of the loop puts into the extent: a few zeros at the start, then the
rest of the message over them. -/
def fillExtent [Abi] (base : ByteMem) (p : CPluto) (sendPos want : UInt32) : ByteMem :=
  (base.write 0 (List.replicate Abi.sizeofPointer 0)).write 0
    (p.szBuffer.slice sendPos.toNat want.toNat)

/-- How many bytes are committed: what is wanted, or what there is room for. -/
def sendSize (want : UInt32) (iovLen : ℕ) : ℕ := if iovLen > want.toNat then want.toNat else iovLen

/-- The loop of `SendAll` on the messages that are left. -/
def sendLoop [Abi] (lib : Libevent) (mb : CMailBox) :
    ℕ → List UInt8 → List Copy → List CPluto → SendResult
  | _, output, copies, [] => ⟨0, { mb with sendTo := [] }, output, copies, []⟩
  | turn, output, copies, p :: rest =>
    let unWantSend := p.unLen - mb.unSendPos
    match lib.reserve turn unWantSend with
    | none => ⟨-2, { mb with sendTo := p :: rest }, output, copies, []⟩
    | some vec =>
      let unSendRet := sendSize unWantSend vec.iovLen
      let upChar := fillExtent vec.base p mb.unSendPos unWantSend
      let copies := ⟨mb.unSendPos, p.unLen, unWantSend, vec.iovLen⟩ :: copies
      if !lib.commit turn then ⟨-3, { mb with sendTo := p :: rest }, output, copies, []⟩
      else
        let output := output ++ upChar.slice 0 unSendRet
        if unSendRet ≠ unWantSend.toNat then
          if mb.unBoxSId = 0 ∧ mb.eAuthz ≠ .trusted then
            -- the connection of a client is not served any further
            ⟨-1, { mb with sendTo := rest }, output, copies, [p]⟩
          else
            -- blocked: the rest is left for the next call
            ⟨0, { mb with
                sendTo := p :: rest
                unSendPos := mb.unSendPos + UInt32.ofNat unSendRet }, output, copies, []⟩
        else
          let r := sendLoop lib mb (turn + 1) output copies rest
          { r with deleted := p :: r.deleted }

/-- `CMailBox::SendAll`, on the output buffer of `m_bev`. -/
def sendAll [Abi] (lib : Libevent) (mb : CMailBox) (output : List UInt8) : SendResult :=
  if mb.bev = none then ⟨-1, mb, output, [], []⟩
  else if mb.bConnected then sendLoop lib mb 0 output [] mb.sendTo
  else ⟨0, mb, output, [], []⟩

end CMailBox

end PlutoServer
