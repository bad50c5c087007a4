import PlutoServer.Pluto.BitCryto
import PlutoServer.Pluto.Defs

/-!
# Building a message

Reference: `CoreBase/pluto.cpp`, lines 71-219 and 386-416.

`Encode` starts a message, each `<<` appends one field behind the cursor, and `EndPluto` fills in
the header and, for messages between client and server, encrypts the text. What these do to the
bytes of the message is in `EncodeTheorems`.
-/

namespace PlutoServer

namespace CPluto

/-! ## The buffer -/

def RESIZE_TIMES : UInt32 := 2
def MIDDLE_SIZE : UInt32 := 4096
def HIGH_SIZE : UInt32 := MIDDLE_SIZE * 16

/-- The end of `Resize`: get a block of `unBufferSize` bytes, copy `m_unLen` bytes into it and give
the old block back. -/
def realloc (p : CPluto) (unBufferSize : UInt32) : CPluto :=
  { p with
    szBuffer := (p.fresh 0).write 0 p.content
    unBufferSize := unBufferSize
    fresh := fun k => p.fresh (k + 1)
    accesses := .write 0 p.unLen.toNat unBufferSize.toNat ::
      .read 0 p.unLen.toNat p.unBufferSize.toNat :: p.accesses }

/-- The size rule of `Resize`. -/
def newSize (unNewLen : UInt32) : UInt32 :=
  if unNewLen < MIDDLE_SIZE then MIDDLE_SIZE
  else if unNewLen > MIDDLE_SIZE then HIGH_SIZE
  else unNewLen

/-- `CPluto::Resize`. -/
def resize (p : CPluto) (n : UInt32) : CPluto :=
  if p.unLen + n ≤ p.unBufferSize then p
  else p.realloc (newSize ((p.unLen + n) * RESIZE_TIMES))

/-! ## Appending fields -/

/-- The body shared by the fixed-width `operator<<`: make room for `size` bytes, store `sz` at the
cursor and advance it. -/
def shlFixed (p : CPluto) (size : UInt32) (sz : List UInt8) : CPluto :=
  let p := p.resize size
  let p := p.store p.unLen.toNat sz
  p.setLen (p.unLen + size)

def shlUint8 (p : CPluto) (unData : UInt8) : CPluto := p.shlFixed 1 (uint8ToSz unData)
def shlUint16 (p : CPluto) (unData : UInt16) : CPluto := p.shlFixed 2 (uint16ToSz unData)
def shlUint32 (p : CPluto) (unData : UInt32) : CPluto := p.shlFixed 4 (uint32ToSz unData)
def shlUint64 (p : CPluto) (unData : UInt64) : CPluto := p.shlFixed 8 (uint64ToSz unData)
def shlInt8 (p : CPluto) (unData : Int8) : CPluto := p.shlUint8 unData.toUInt8
def shlInt16 (p : CPluto) (unData : Int16) : CPluto := p.shlUint16 unData.toUInt16
def shlInt32 (p : CPluto) (unData : Int32) : CPluto := p.shlUint32 unData.toUInt32
def shlInt64 (p : CPluto) (unData : Int64) : CPluto := p.shlUint64 unData.toUInt64
def shlFloat32 (p : CPluto) (unData : UInt32) : CPluto := p.shlFixed 4 (float32ToSz unData)
def shlFloat64 (p : CPluto) (unData : UInt64) : CPluto := p.shlFixed 8 (float64ToSz unData)

def shlBool (p : CPluto) (bData : Bool) : CPluto :=
  let unVal : UInt8 := if bData then 1 else 0
  p.shlFixed 1 (uint8ToSz unVal)

/-- `PrintHex16`, as far as it concerns the block: it reads `n` bytes. -/
def printHex16 (p : CPluto) (off n : ℕ) : CPluto := p.touch off n

/-- `PrintHex`: rows of sixteen bytes, then the rest. -/
def printHex (p : CPluto) (off n : ℕ) : CPluto :=
  let sixteen := 16
  let count := n / sixteen + 1
  (List.range count).foldl (fun p i =>
    if i = count - 1 then p.printHex16 (off + i * sixteen) (n % sixteen)
    else p.printHex16 (off + i * sixteen) sixteen) p

def MAX_LEN : ℕ := 65534
def PRINT_LEN : ℕ := 48

/-- `operator<<(std::string)`. The room made is that of a string object, not of its bytes. -/
def shlString [Abi] (p : CPluto) (str : List UInt8) : CPluto :=
  let p := p.resize Abi.sizeofString
  let size := str.length
  let unSize := UInt16.ofNat size
  if size > MAX_LEN then
    -- the default argument of `SetEncodeErr` is `false`
    (p.setEncodeErr false).printHex p.unLen.toNat PRINT_LEN
  else
    let p := p.shlUint16 unSize
    let p := p.store p.unLen.toNat str
    p.setLen (p.unLen + UInt32.ofNat size)

/-- The `operator<<` that a field selects. -/
def shl [Abi] (p : CPluto) : Field → CPluto
  | ⟨.uint8, v⟩ => p.shlUint8 v
  | ⟨.uint16, v⟩ => p.shlUint16 v
  | ⟨.uint32, v⟩ => p.shlUint32 v
  | ⟨.uint64, v⟩ => p.shlUint64 v
  | ⟨.int8, v⟩ => p.shlInt8 v
  | ⟨.int16, v⟩ => p.shlInt16 v
  | ⟨.int32, v⟩ => p.shlInt32 v
  | ⟨.int64, v⟩ => p.shlInt64 v
  | ⟨.float32, v⟩ => p.shlFloat32 v
  | ⟨.float64, v⟩ => p.shlFloat64 v
  | ⟨.bool, v⟩ => p.shlBool v
  | ⟨.string, v⟩ => p.shlString v

/-- `CPluto::Encode`. -/
def encode (p : CPluto) (msgId : UInt16) : CPluto :=
  (p.setLen (UInt32.ofNat (MSGLEN_HEAD + MSGLEN_RESERVED))).shlUint16 msgId

/-- `Encode(id)` and the `<<` of each field. -/
def build [Abi] (p : CPluto) (msgId : UInt16) (fields : List Field) : CPluto :=
  fields.foldl shl (p.encode msgId)

/-! ## Finishing a message -/

/-- The header part of `EndPluto`: the length, two zero bytes and `m_unMaxLen`. -/
def endHead (u : CPluto) : CPluto :=
  (((u.store 0 (uint32ToSz u.unLen)).store MSGLEN_HEAD [0]).store (MSGLEN_HEAD + 1) [0]).setMaxLen
    u.unLen

/-- The loop of `EndPluto`: encrypt the `n` bytes from index `i` on in place. -/
def cryptLoop (i : ℕ) : ℕ → CPluto → CBitCryto → CPluto × CBitCryto
  | 0, u, cry => (u, cry)
  | n + 1, u, cry =>
    let r := cry.encode (u.szBuffer i)
    cryptLoop (i + 1) n ((u.touch i 1).store i [r.1]) r.2

end CPluto

open CPluto in
/-- `EndPluto`, with the shared cipher `sg_mycryto` passed along. -/
def endPluto (cry : CBitCryto) (u : CPluto) : CPluto × CBitCryto :=
  let u := u.endHead
  let u := u.touch (MSGLEN_HEAD + MSGLEN_RESERVED) MSGLEN_MSGID
  if u.getMsgId < MAX_CLIENT_SERVER_MSGID then
    cryptLoop MSGLEN_TEXT_POS (u.unLen.toNat - MSGLEN_TEXT_POS) u cry.reset
  else (u, cry)

namespace CPluto

/-- A whole message: `Encode(id)`, the `<<` of each field and `EndPluto`. -/
def finish [Abi] (cry : CBitCryto) (p : CPluto) (msgId : UInt16) (fields : List Field) :
    CPluto × CBitCryto :=
  endPluto cry (p.build msgId fields)

end CPluto

end PlutoServer
