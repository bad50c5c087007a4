import PlutoServer.Pluto.Defs

/-!
# Reading a message

Reference: `CoreBase/pluto.cpp`, lines 221-379.

Each `>>` reads one field at the cursor. A read that would pass `m_unMaxLen` sets `m_unDecodeErrIdx`
to the cursor and goes on; the caller finds out at the end. The signed readers and the string reader
declare a local without a value: it is an argument here, and so is the destination, which a failed
read may leave as it was.
-/

namespace PlutoServer

/-- The uninitialised local of a reader: `n2` of the signed ones, `unSize` of the string reader. The
`unTmp` of the bool reader is assigned before it is used. -/
abbrev FieldType.Local : FieldType → Type
  | .int8 => UInt8
  | .int16 => UInt16
  | .int32 => UInt32
  | .int64 => UInt64
  | .string => UInt16
  | _ => Unit

namespace CPluto

/-- The body shared by the fixed-width `operator>>`. -/
def shrFixed {α : Type} (p : CPluto) (size : UInt32) (load : List UInt8 → α) (unData : α) :
    CPluto × α :=
  let unNewLen := p.unLen + size
  if unNewLen > p.unMaxLen then
    ({ p with unDecodeErrIdx := p.unLen }, unData)
  else
    ((p.touch p.unLen.toNat size.toNat).setLen unNewLen,
      load (p.szBuffer.slice p.unLen.toNat size.toNat))

def shrUint8 (p : CPluto) (unData : UInt8) : CPluto × UInt8 := p.shrFixed 1 szToUint8 unData
def shrUint16 (p : CPluto) (unData : UInt16) : CPluto × UInt16 := p.shrFixed 2 szToUint16 unData
def shrUint32 (p : CPluto) (unData : UInt32) : CPluto × UInt32 := p.shrFixed 4 szToUint32 unData
def shrUint64 (p : CPluto) (unData : UInt64) : CPluto × UInt64 := p.shrFixed 8 szToUint64 unData
def shrFloat32 (p : CPluto) (unData : UInt32) : CPluto × UInt32 := p.shrFixed 4 szToFloat32 unData
def shrFloat64 (p : CPluto) (unData : UInt64) : CPluto × UInt64 := p.shrFixed 8 szToFloat64 unData

def shrBool (p : CPluto) (bData : Bool) : CPluto × Bool :=
  p.shrFixed 1 (fun s => szToUint8 s == 1) bData

/-- The signed readers read into `n2` and assign the destination whether or not that worked. -/
def shrInt8 (p : CPluto) (n2 : UInt8) (_unData : Int8) : CPluto × Int8 :=
  let r := p.shrUint8 n2
  (r.1, r.2.toInt8)

def shrInt16 (p : CPluto) (n2 : UInt16) (_unData : Int16) : CPluto × Int16 :=
  let r := p.shrUint16 n2
  (r.1, r.2.toInt16)

def shrInt32 (p : CPluto) (n2 : UInt32) (_unData : Int32) : CPluto × Int32 :=
  let r := p.shrUint32 n2
  (r.1, r.2.toInt32)

def shrInt64 (p : CPluto) (n2 : UInt64) (_unData : Int64) : CPluto × Int64 :=
  let r := p.shrUint64 n2
  (r.1, r.2.toInt64)

/-- `operator>>(std::string&)`: the only reader that looks at `m_unDecodeErrIdx` first. -/
def shrString (p : CPluto) (unSize : UInt16) (str : List UInt8) : CPluto × List UInt8 :=
  if p.unDecodeErrIdx = 0 then
    let (p, unSize) := p.shrUint16 unSize
    if unSize.toUInt32 + p.unLen > p.unMaxLen then
      ({ p with unDecodeErrIdx := p.unLen }, str)
    else
      ((p.touch p.unLen.toNat unSize.toNat).setLen (p.unLen + unSize.toUInt32),
        p.szBuffer.slice p.unLen.toNat unSize.toNat)
  else (p, str)

/-- The `operator>>` that a destination of type `t` selects. -/
def shr (p : CPluto) : (t : FieldType) → t.Local → t.Val → CPluto × t.Val
  | .uint8, _, d => p.shrUint8 d
  | .uint16, _, d => p.shrUint16 d
  | .uint32, _, d => p.shrUint32 d
  | .uint64, _, d => p.shrUint64 d
  | .int8, n2, d => p.shrInt8 n2 d
  | .int16, n2, d => p.shrInt16 n2 d
  | .int32, n2, d => p.shrInt32 n2 d
  | .int64, n2, d => p.shrInt64 n2 d
  | .float32, _, d => p.shrFloat32 d
  | .float64, _, d => p.shrFloat64 d
  | .bool, _, d => p.shrBool d
  | .string, unSize, d => p.shrString unSize d

end CPluto

/-- One `>>` of a caller: the type, what the uninitialised local happens to hold and what the
destination held before. -/
structure ReadStep where
  ty : FieldType
  loc : ty.Local
  dest : ty.Val

/-- Read into one destination after the other. -/
def CPluto.readAll : CPluto → List ReadStep → CPluto × List Field
  | p, [] => (p, [])
  | p, r :: rs =>
    let (p, v) := p.shr r.ty r.loc r.dest
    let (p, vs) := p.readAll rs
    (p, ⟨r.ty, v⟩ :: vs)

end PlutoServer
