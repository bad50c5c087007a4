import PlutoServer.Common.ByteMem
import PlutoServer.Common.LittleEndian

/-!
# Messages

Reference: `CoreBase/pluto.h`, `CoreBase/pluto.cpp`, `CoreBase/msg_id.h`.

A `CPluto` is one message: a heap block of `m_unBufferSize` bytes, the cursor `m_unLen`, the length
`m_unMaxLen` up to which it may be decoded, and two error marks. The first `MSGLEN_TEXT_POS` bytes
are the header (length, two reserved bytes, message id), the fields follow.

The block is a `ByteMem`, so that a read or a write past its end is a value of the model; the ghost
field `accesses` records every use of the block together with the capacity it had at that moment.
What a fresh block contains is up to the allocator: the ghost field `fresh` holds the contents of
the blocks that later calls of `new char[]` return, and every statement is for all of them.
-/

namespace PlutoServer

/-! ## Constants -/

def MSGLEN_HEAD : ℕ := 4
def MSGLEN_RESERVED : ℕ := 2
def MSGLEN_MSGID : ℕ := 2
def MSGLEN_TEXT_POS : ℕ := MSGLEN_HEAD + MSGLEN_RESERVED + MSGLEN_MSGID
def MSGLEN_MAX : ℕ := 65000
def PLUTO_MSGLEN_HEAD : ℕ := MSGLEN_HEAD
def PLUTO_FILED_BEGIN_POS : ℕ := MSGLEN_HEAD + MSGLEN_RESERVED + MSGLEN_MSGID
def DEFAULT_PLUTO_BUFFER : UInt32 := 256

/-- Messages with a smaller id go between client and server and are encrypted. -/
def MAX_CLIENT_SERVER_MSGID : UInt16 := 100
def MAX_CLIENT_SERVER_TEST : UInt16 := 101

/-- Sizes that the compiler fixes. -/
class Abi where
  /-- `sizeof(std::string)`. -/
  sizeofString : UInt32
  /-- `sizeof(unsigned char*)`. -/
  sizeofPointer : ℕ

/-- The sizes of a 64-bit build. -/
@[reducible] def Abi.x64 : Abi := ⟨32, 8⟩

/-! ## Numbers as bytes

The variant compiled without `REVERSE_CONVERT`, which stores a number through a cast pointer, on the
little-endian machines the servers are built for. -/

def uint8ToSz (n : UInt8) : List UInt8 := [n]
def uint16ToSz (n : UInt16) : List UInt8 := LittleEndian.toBytes 2 n.toNat
def uint32ToSz (n : UInt32) : List UInt8 := LittleEndian.toBytes 4 n.toNat
def uint64ToSz (n : UInt64) : List UInt8 := LittleEndian.toBytes 8 n.toNat

/-- A `float32_t` is taken as its bit pattern. -/
def float32ToSz (n : UInt32) : List UInt8 := LittleEndian.toBytes 4 n.toNat

/-- A `float64_t` is taken as its bit pattern. -/
def float64ToSz (n : UInt64) : List UInt8 := LittleEndian.toBytes 8 n.toNat

def szToUint8 (s : List UInt8) : UInt8 := s.headD 0
def szToUint16 (s : List UInt8) : UInt16 := UInt16.ofNat (LittleEndian.ofBytes s)
def szToUint32 (s : List UInt8) : UInt32 := UInt32.ofNat (LittleEndian.ofBytes s)
def szToUint64 (s : List UInt8) : UInt64 := UInt64.ofNat (LittleEndian.ofBytes s)
def szToFloat32 (s : List UInt8) : UInt32 := UInt32.ofNat (LittleEndian.ofBytes s)
def szToFloat64 (s : List UInt8) : UInt64 := UInt64.ofNat (LittleEndian.ofBytes s)

@[simp] theorem szToUint16_uint16ToSz (n : UInt16) : szToUint16 (uint16ToSz n) = n := by
  rw [szToUint16, uint16ToSz, LittleEndian.ofBytes_toBytes n.toNat_lt, UInt16.ofNat_toNat]

@[simp] theorem szToUint32_uint32ToSz (n : UInt32) : szToUint32 (uint32ToSz n) = n := by
  rw [szToUint32, uint32ToSz, LittleEndian.ofBytes_toBytes n.toNat_lt, UInt32.ofNat_toNat]

theorem toNat_szToUint8 {s : List UInt8} (h : s.length = 1) :
    (szToUint8 s).toNat = LittleEndian.ofBytes s := by
  obtain ⟨b, rfl⟩ := List.length_eq_one_iff.mp h
  simp [szToUint8]

theorem toNat_szToUint16 {s : List UInt8} (h : s.length = 2) :
    (szToUint16 s).toNat = LittleEndian.ofBytes s := by
  have hlt := LittleEndian.ofBytes_lt s
  rw [h] at hlt
  exact Nat.mod_eq_of_lt hlt

theorem toNat_szToUint32 {s : List UInt8} (h : s.length = 4) :
    (szToUint32 s).toNat = LittleEndian.ofBytes s := by
  have hlt := LittleEndian.ofBytes_lt s
  rw [h] at hlt
  exact Nat.mod_eq_of_lt hlt

theorem toNat_szToUint64 {s : List UInt8} (h : s.length = 8) :
    (szToUint64 s).toNat = LittleEndian.ofBytes s := by
  have hlt := LittleEndian.ofBytes_lt s
  rw [h] at hlt
  exact Nat.mod_eq_of_lt hlt

/-! ## Fields -/

/-- The types for which `CPluto` overloads `<<` and `>>`. -/
inductive FieldType where
  | uint8 | uint16 | uint32 | uint64
  | int8 | int16 | int32 | int64
  | float32 | float64 | bool | string
deriving DecidableEq, Repr

/-- The values of a field type. A string is the list of its bytes. -/
abbrev FieldType.Val : FieldType → Type
  | .uint8 => UInt8
  | .uint16 => UInt16
  | .uint32 => UInt32
  | .uint64 => UInt64
  | .int8 => Int8
  | .int16 => Int16
  | .int32 => Int32
  | .int64 => Int64
  | .float32 => UInt32
  | .float64 => UInt64
  | .bool => Bool
  | .string => List UInt8

instance FieldType.decidableEqVal : (t : FieldType) → DecidableEq t.Val
  | .uint8 => inferInstanceAs (DecidableEq UInt8)
  | .uint16 => inferInstanceAs (DecidableEq UInt16)
  | .uint32 => inferInstanceAs (DecidableEq UInt32)
  | .uint64 => inferInstanceAs (DecidableEq UInt64)
  | .int8 => inferInstanceAs (DecidableEq Int8)
  | .int16 => inferInstanceAs (DecidableEq Int16)
  | .int32 => inferInstanceAs (DecidableEq Int32)
  | .int64 => inferInstanceAs (DecidableEq Int64)
  | .float32 => inferInstanceAs (DecidableEq UInt32)
  | .float64 => inferInstanceAs (DecidableEq UInt64)
  | .bool => inferInstanceAs (DecidableEq Bool)
  | .string => inferInstanceAs (DecidableEq (List UInt8))

/-- A value together with the overload it selects. -/
abbrev Field : Type := (t : FieldType) × t.Val

/-! ## The message object -/

/-- `CPluto`. -/
structure CPluto where
  szBuffer : ByteMem
  unBufferSize : UInt32
  unLen : UInt32
  unMaxLen : UInt32
  unDecodeErrIdx : UInt32
  bEncodeErr : Bool
  /-- Ghost: the contents of the blocks that later calls of `new char[]` return. -/
  fresh : ℕ → ByteMem
  /-- Ghost: the uses of `szBuffer` so far, the latest first. -/
  accesses : List Access

namespace CPluto

/-- `CPluto::CPluto`. -/
def new (unBufferSize : UInt32) (fresh : ℕ → ByteMem) : CPluto where
  szBuffer := fresh 0
  unBufferSize := unBufferSize
  unLen := 0
  unMaxLen := 0
  unDecodeErrIdx := 0
  bEncodeErr := false
  fresh k := fresh (k + 1)
  accesses := []

/-- Record a read of `n` bytes at `off`. -/
def touch (p : CPluto) (off n : ℕ) : CPluto :=
  { p with accesses := .read off n p.unBufferSize.toNat :: p.accesses }

/-- Store `bs` at `off`. -/
def store (p : CPluto) (off : ℕ) (bs : List UInt8) : CPluto :=
  { p with
    szBuffer := p.szBuffer.write off bs
    accesses := .write off bs.length p.unBufferSize.toNat :: p.accesses }

def setLen (p : CPluto) (unLen : UInt32) : CPluto := { p with unLen := unLen }

def setMaxLen (p : CPluto) (unMaxLen : UInt32) : CPluto := { p with unMaxLen := unMaxLen }

/-- `SetEncodeErr(bool bError = false)`: without an argument it clears the mark. -/
def setEncodeErr (p : CPluto) (bError : Bool) : CPluto := { p with bEncodeErr := bError }

section Fields

variable (p : CPluto) (off n : ℕ) (bs : List UInt8) (len : UInt32)

@[simp] theorem szBuffer_touch : (p.touch off n).szBuffer = p.szBuffer := rfl
@[simp] theorem unLen_touch : (p.touch off n).unLen = p.unLen := rfl
@[simp] theorem unMaxLen_touch : (p.touch off n).unMaxLen = p.unMaxLen := rfl
@[simp] theorem unBufferSize_touch : (p.touch off n).unBufferSize = p.unBufferSize := rfl
@[simp] theorem unDecodeErrIdx_touch : (p.touch off n).unDecodeErrIdx = p.unDecodeErrIdx := rfl

@[simp] theorem szBuffer_store : (p.store off bs).szBuffer = p.szBuffer.write off bs := rfl
@[simp] theorem unLen_store : (p.store off bs).unLen = p.unLen := rfl
@[simp] theorem unMaxLen_store : (p.store off bs).unMaxLen = p.unMaxLen := rfl
@[simp] theorem unBufferSize_store : (p.store off bs).unBufferSize = p.unBufferSize := rfl
@[simp] theorem unDecodeErrIdx_store : (p.store off bs).unDecodeErrIdx = p.unDecodeErrIdx := rfl

@[simp] theorem szBuffer_setLen : (p.setLen len).szBuffer = p.szBuffer := rfl
@[simp] theorem unLen_setLen : (p.setLen len).unLen = len := rfl
@[simp] theorem unMaxLen_setLen : (p.setLen len).unMaxLen = p.unMaxLen := rfl
@[simp] theorem unBufferSize_setLen : (p.setLen len).unBufferSize = p.unBufferSize := rfl
@[simp] theorem unDecodeErrIdx_setLen : (p.setLen len).unDecodeErrIdx = p.unDecodeErrIdx := rfl
@[simp] theorem accesses_setLen : (p.setLen len).accesses = p.accesses := rfl

end Fields

/-- `CPluto::EndRecv`. -/
def endRecv (p : CPluto) (unLen : UInt32) : CPluto := { p with unLen := unLen, unMaxLen := unLen }

/-- `CPluto::GetMsgId`. -/
def getMsgId (p : CPluto) : UInt16 :=
  szToUint16 (p.szBuffer.slice (MSGLEN_HEAD + MSGLEN_RESERVED) MSGLEN_MSGID)

/-- The bytes before the cursor. -/
def content (p : CPluto) : List UInt8 := p.szBuffer.slice 0 p.unLen.toNat

@[simp] theorem length_content (p : CPluto) : p.content.length = p.unLen.toNat :=
  ByteMem.length_slice ..

/-- No write so far went past the capacity. -/
def WritesInBounds (p : CPluto) : Prop := ∀ a ∈ p.accesses, a.IsWrite → a.InBounds

instance : DecidablePred WritesInBounds := fun p =>
  inferInstanceAs (Decidable (∀ a ∈ p.accesses, a.IsWrite → a.InBounds))

theorem WritesInBounds.of_suffix {p q : CPluto} (hq : q.WritesInBounds)
    (h : p.accesses <:+ q.accesses) : p.WritesInBounds :=
  fun a ha => hq a (h.subset ha)

end CPluto

end PlutoServer
