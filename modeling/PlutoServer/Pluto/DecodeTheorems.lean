import PlutoServer.Pluto.Decode

/-!
# What one read can do

A fixed-width read either fits before `m_unMaxLen`, and then delivers what the bytes at the cursor
hold and moves the cursor over them, or it does not, and then sets the error index to the cursor
(`shr_of_ne_string`, `shr_fixed_cases`). The string reader has the five outcomes of
`shrString_cases`, among them the one in which the length prefix is cut off and the uninitialised
`unSize` is used for the length.

The bounds checks are in 32-bit arithmetic, which does not wrap as long as cursor and length are
below `2 ^ 31`. `ReadsTo` is what any number of reads then do, whatever the bytes of the message and
whether or not an earlier read failed: the cursor goes forward, never past `m_unMaxLen`, and every
byte read lies below it (`readAll_in_bounds`).
-/

namespace PlutoServer

/-- The bytes a fixed-width read consumes, and the length of the prefix of a string. -/
def FieldType.width : FieldType → ℕ
  | .uint8 | .int8 | .bool => 1
  | .uint16 | .int16 | .string => 2
  | .uint32 | .int32 | .float32 => 4
  | .uint64 | .int64 | .float64 => 8

/-- The value that a fixed-width read delivers for the bytes at the cursor. -/
def FieldType.load : (t : FieldType) → List UInt8 → t.Val
  | .uint8, s => szToUint8 s
  | .uint16, s => szToUint16 s
  | .uint32, s => szToUint32 s
  | .uint64, s => szToUint64 s
  | .int8, s => (szToUint8 s).toInt8
  | .int16, s => (szToUint16 s).toInt16
  | .int32, s => (szToUint32 s).toInt32
  | .int64, s => (szToUint64 s).toInt64
  | .float32, s => szToFloat32 s
  | .float64, s => szToFloat64 s
  | .bool, s => szToUint8 s == 1
  | .string, _ => []

/-- What a fixed-width read that does not fit leaves in the destination: the signed readers assign
the uninitialised `n2`. -/
def FieldType.onFail : (t : FieldType) → t.Local → t.Val → t.Val
  | .int8, n2, _ => n2.toInt8
  | .int16, n2, _ => n2.toInt16
  | .int32, n2, _ => n2.toInt32
  | .int64, n2, _ => n2.toInt64
  | .uint8, _, d | .uint16, _, d | .uint32, _, d | .uint64, _, d => d
  | .float32, _, d | .float64, _, d | .bool, _, d | .string, _, d => d

theorem FieldType.width_pos (t : FieldType) : 0 < t.width := by
  cases t <;> decide

theorem FieldType.width_le (t : FieldType) : t.width ≤ 8 := by
  cases t <;> decide

theorem FieldType.toNat_ofNat_width (t : FieldType) : (UInt32.ofNat t.width).toNat = t.width := by
  cases t <;> rfl

namespace CPluto

/-- The cursor is past the first byte, and neither it nor the length can make a bounds check wrap.
-/
structure Readable (p : CPluto) : Prop where
  len_pos : 0 < p.unLen.toNat
  len_lt : p.unLen.toNat < 2 ^ 31
  max_lt : p.unMaxLen.toNat < 2 ^ 31

/-- The object after a read of `n` bytes that fits. -/
def advance (p : CPluto) (n : ℕ) : CPluto :=
  (p.touch p.unLen.toNat n).setLen (p.unLen + UInt32.ofNat n)

/-- The object after a read that does not fit. -/
def fail (p : CPluto) : CPluto := { p with unDecodeErrIdx := p.unLen }

@[simp] theorem szBuffer_advance (p : CPluto) (n : ℕ) : (p.advance n).szBuffer = p.szBuffer := rfl
@[simp] theorem unMaxLen_advance (p : CPluto) (n : ℕ) : (p.advance n).unMaxLen = p.unMaxLen := rfl
@[simp] theorem unDecodeErrIdx_advance (p : CPluto) (n : ℕ) :
    (p.advance n).unDecodeErrIdx = p.unDecodeErrIdx := rfl

/-- An advance that stays below `2 ^ 32` does not wrap. -/
theorem toNat_unLen_advance {p : CPluto} {n : ℕ} (h : p.unLen.toNat + n < 2 ^ 32) :
    (p.advance n).unLen.toNat = p.unLen.toNat + n := by
  show (p.unLen + UInt32.ofNat n).toNat = _
  rw [UInt32.toNat_add, UInt32.toNat_ofNat', Nat.mod_eq_of_lt (show n < 2 ^ 32 by omega),
    Nat.mod_eq_of_lt h]

/-- The test of the readers: the next `n` bytes would pass `m_unMaxLen`, in 32-bit arithmetic. -/
def Short (p : CPluto) (n : UInt32) : Prop := p.unLen + n > p.unMaxLen

instance (p : CPluto) (n : UInt32) : Decidable (p.Short n) :=
  inferInstanceAs (Decidable (p.unLen + n > p.unMaxLen))

/-- Where the sum does not wrap, the test is the one on the bytes left. -/
theorem short_iff {p : CPluto} {n : UInt32} (h : p.unLen.toNat + n.toNat < 2 ^ 32) :
    p.Short n ↔ p.unMaxLen.toNat < p.unLen.toNat + n.toNat := by
  rw [Short, gt_iff_lt, UInt32.lt_iff_toNat_lt, UInt32.toNat_add, Nat.mod_eq_of_lt h]

/-- A fixed-width read, with no assumption on cursor and length. -/
theorem shrFixed_eq {α : Type} (p : CPluto) (size : UInt32) (load : List UInt8 → α) (d : α) :
    p.shrFixed size load d =
      if p.Short size then (p.fail, d)
      else (p.advance size.toNat, load (p.szBuffer.slice p.unLen.toNat size.toNat)) := by
  rw [CPluto.advance, UInt32.ofNat_toNat]
  rfl

/-- Every fixed-width reader is `shrFixed` at its width, followed by a conversion of what it read.
-/
theorem shr_eq_shrFixed (p : CPluto) {t : FieldType} (ht : t ≠ .string) (loc : t.Local)
    (d : t.Val) :
    ∃ (β : Type) (load : List UInt8 → β) (b : β) (conv : β → t.Val),
      p.shr t loc d = Prod.map id conv (p.shrFixed (UInt32.ofNat t.width) load b) ∧
      (∀ s, conv (load s) = t.load s) ∧ conv b = t.onFail loc d := by
  cases t with
  | string => exact absurd rfl ht
  | uint8 => exact ⟨UInt8, szToUint8, d, id, rfl, fun _ => rfl, rfl⟩
  | uint16 => exact ⟨UInt16, szToUint16, d, id, rfl, fun _ => rfl, rfl⟩
  | uint32 => exact ⟨UInt32, szToUint32, d, id, rfl, fun _ => rfl, rfl⟩
  | uint64 => exact ⟨UInt64, szToUint64, d, id, rfl, fun _ => rfl, rfl⟩
  | int8 => exact ⟨UInt8, szToUint8, loc, UInt8.toInt8, rfl, fun _ => rfl, rfl⟩
  | int16 => exact ⟨UInt16, szToUint16, loc, UInt16.toInt16, rfl, fun _ => rfl, rfl⟩
  | int32 => exact ⟨UInt32, szToUint32, loc, UInt32.toInt32, rfl, fun _ => rfl, rfl⟩
  | int64 => exact ⟨UInt64, szToUint64, loc, UInt64.toInt64, rfl, fun _ => rfl, rfl⟩
  | float32 => exact ⟨UInt32, szToFloat32, d, id, rfl, fun _ => rfl, rfl⟩
  | float64 => exact ⟨UInt64, szToFloat64, d, id, rfl, fun _ => rfl, rfl⟩
  | bool => exact ⟨Bool, fun s => szToUint8 s == 1, d, id, rfl, fun _ => rfl, rfl⟩

/-- What a read of a fixed-width type does, with no assumption on cursor and length. -/
theorem shr_of_ne_string (p : CPluto) {t : FieldType} (ht : t ≠ .string) (loc : t.Local)
    (d : t.Val) :
    p.shr t loc d =
      if p.Short (UInt32.ofNat t.width) then (p.fail, t.onFail loc d)
      else (p.advance t.width, t.load (p.szBuffer.slice p.unLen.toNat t.width)) := by
  obtain ⟨β, load, b, conv, hshr, hconv, hb⟩ := p.shr_eq_shrFixed ht loc d
  rw [hshr, shrFixed_eq, t.toNat_ofNat_width, apply_ite (Prod.map id conv), Prod.map_apply,
    Prod.map_apply, hconv, hb, id, id]

/-- The two outcomes of a fixed-width read where the sum does not wrap. The value delivered by a
read that does not fit is left open here; it is `FieldType.onFail`. -/
theorem shr_fixed_cases {p : CPluto} (hlt : p.unLen.toNat < 2 ^ 31) {t : FieldType}
    (ht : t ≠ .string) (loc : t.Local) (d : t.Val) :
    (p.unLen.toNat + t.width ≤ p.unMaxLen.toNat ∧
      p.shr t loc d =
        (p.advance t.width, t.load (p.szBuffer.slice p.unLen.toNat t.width))) ∨
    (p.unMaxLen.toNat < p.unLen.toNat + t.width ∧ (p.shr t loc d).1 = p.fail) := by
  have hwidth := t.toNat_ofNat_width
  have hle := t.width_le
  have hiff := short_iff (show p.unLen.toNat + (UInt32.ofNat t.width).toNat < 2 ^ 32 by omega)
  rw [hwidth] at hiff
  rw [p.shr_of_ne_string ht]
  by_cases hshort : p.Short (UInt32.ofNat t.width)
  · exact Or.inr ⟨hiff.mp hshort, by rw [if_pos hshort]⟩
  · exact Or.inl ⟨Nat.not_lt.mp (mt hiff.mpr hshort), by rw [if_neg hshort]⟩

/-- The string reader after an earlier error. -/
theorem shrString_of_err {p : CPluto} (herr : p.unDecodeErrIdx ≠ 0) (unSize : UInt16)
    (str : List UInt8) : p.shrString unSize str = (p, str) := by
  rw [shrString, if_neg herr]

/-- The second half of the string reader, for whatever object and size the first half leaves. -/
theorem shrString_eq {p q : CPluto} {unSize sz : UInt16} (herr : p.unDecodeErrIdx = 0)
    (hsize : p.shrUint16 unSize = (q, sz)) (str : List UInt8) :
    p.shrString unSize str =
      if q.Short sz.toUInt32 then (q.fail, str)
      else (q.advance sz.toNat, q.szBuffer.slice q.unLen.toNat sz.toNat) := by
  have hcast : UInt32.ofNat sz.toNat = sz.toUInt32 := UInt32.toNat_inj.mp (by simp)
  rw [shrString, if_pos herr, hsize, CPluto.advance, hcast, UInt32.add_comm]
  simp only [Short, CPluto.fail, UInt32.add_comm]

/-- The string reader when the length prefix fits. -/
theorem shrString_of_not_short {p : CPluto} (herr : p.unDecodeErrIdx = 0) (h2 : ¬ p.Short 2)
    {sz : UInt16} (hsz : szToUint16 (p.szBuffer.slice p.unLen.toNat 2) = sz) (unSize : UInt16)
    (str : List UInt8) :
    p.shrString unSize str =
      if (p.advance 2).Short sz.toUInt32 then ((p.advance 2).fail, str)
      else ((p.advance 2).advance sz.toNat,
        p.szBuffer.slice (p.advance 2).unLen.toNat sz.toNat) := by
  subst hsz
  exact shrString_eq herr ((p.shrFixed_eq 2 szToUint16 unSize).trans (if_neg h2)) str

/-- The string reader when the length prefix does not fit: the length is the local's. -/
theorem shrString_of_short {p : CPluto} (herr : p.unDecodeErrIdx = 0) (h2 : p.Short 2)
    (unSize : UInt16) (str : List UInt8) :
    p.shrString unSize str =
      if p.Short unSize.toUInt32 then (p.fail, str)
      else (p.fail.advance unSize.toNat, p.szBuffer.slice p.unLen.toNat unSize.toNat) :=
  shrString_eq herr ((p.shrFixed_eq 2 szToUint16 unSize).trans (if_pos h2)) str

/-- The outcomes of the string reader: nothing after an earlier error; the string; a length that
reaches past the end; and, when the length prefix itself does not fit, the length taken from the
uninitialised local. -/
theorem shrString_cases {p : CPluto} (hlt : p.unLen.toNat < 2 ^ 31) (unSize : UInt16)
    (str : List UInt8) :
    let n := LittleEndian.ofBytes (p.szBuffer.slice p.unLen.toNat 2)
    (p.unDecodeErrIdx ≠ 0 ∧ p.shrString unSize str = (p, str)) ∨
    (p.unDecodeErrIdx = 0 ∧ p.unLen.toNat + 2 + n ≤ p.unMaxLen.toNat ∧
      p.shrString unSize str =
        ((p.advance 2).advance n, p.szBuffer.slice (p.unLen.toNat + 2) n)) ∨
    (p.unDecodeErrIdx = 0 ∧ p.unLen.toNat + 2 ≤ p.unMaxLen.toNat ∧
      p.unMaxLen.toNat < p.unLen.toNat + 2 + n ∧
      p.shrString unSize str = ((p.advance 2).fail, str)) ∨
    (p.unDecodeErrIdx = 0 ∧ p.unMaxLen.toNat < p.unLen.toNat + 2 ∧
      p.unLen.toNat + unSize.toNat ≤ p.unMaxLen.toNat ∧
      p.shrString unSize str =
        (p.fail.advance unSize.toNat, p.szBuffer.slice p.unLen.toNat unSize.toNat)) ∨
    (p.unDecodeErrIdx = 0 ∧ p.unMaxLen.toNat < p.unLen.toNat + 2 ∧
      p.unMaxLen.toNat < p.unLen.toNat + unSize.toNat ∧
      p.shrString unSize str = (p.fail, str)) := by
  intro n
  by_cases herr : p.unDecodeErrIdx = 0
  swap
  · exact Or.inl ⟨herr, shrString_of_err herr unSize str⟩
  have hsize := unSize.toNat_lt
  have h2 : (2 : UInt32).toNat = 2 := rfl
  have hiff2 := short_iff (p := p) (n := 2) (by omega)
  rw [h2] at hiff2
  by_cases hfit : p.Short 2
  · -- the prefix does not fit: the length is the local's
    have hiff := short_iff (p := p) (n := unSize.toUInt32) (by rw [UInt16.toNat_toUInt32]; omega)
    rw [UInt16.toNat_toUInt32] at hiff
    have hread := shrString_of_short herr hfit unSize str
    by_cases hin : p.Short unSize.toUInt32
    · rw [if_pos hin] at hread
      exact Or.inr (Or.inr (Or.inr (Or.inr ⟨herr, hiff2.mp hfit, hiff.mp hin, hread⟩)))
    · rw [if_neg hin] at hread
      exact Or.inr (Or.inr (Or.inr (Or.inl
        ⟨herr, hiff2.mp hfit, Nat.not_lt.mp (mt hiff.mpr hin), hread⟩)))
  · -- the prefix fits: the length is the one in the message
    obtain ⟨sz, hsz⟩ : ∃ sz, szToUint16 (p.szBuffer.slice p.unLen.toNat 2) = sz := ⟨_, rfl⟩
    have hn : sz.toNat = n := by
      rw [← hsz]
      exact toNat_szToUint16 (ByteMem.length_slice ..)
    have hsz_lt := sz.toNat_lt
    have hlen := toNat_unLen_advance (show p.unLen.toNat + 2 < 2 ^ 32 by omega)
    have hiff := short_iff (p := p.advance 2) (n := sz.toUInt32)
      (by rw [UInt16.toNat_toUInt32]; omega)
    rw [UInt16.toNat_toUInt32, hn, hlen, unMaxLen_advance] at hiff
    have hread := shrString_of_not_short herr hfit hsz unSize str
    have hfit' := Nat.not_lt.mp (mt hiff2.mpr hfit)
    by_cases hin : (p.advance 2).Short sz.toUInt32
    · rw [if_pos hin] at hread
      exact Or.inr (Or.inr (Or.inl ⟨herr, hfit', hiff.mp hin, hread⟩))
    · rw [if_neg hin, hn, hlen] at hread
      exact Or.inr (Or.inl ⟨herr, Nat.not_lt.mp (mt hiff.mpr hin), hread⟩)

/-! ## What any number of reads can do -/

/-- `q` is `p` after some reads. -/
structure ReadsTo (p q : CPluto) : Prop where
  szBuffer_eq : q.szBuffer = p.szBuffer
  unMaxLen_eq : q.unMaxLen = p.unMaxLen
  unBufferSize_eq : q.unBufferSize = p.unBufferSize
  len_le : p.unLen.toNat ≤ q.unLen.toNat
  le_max : q.unLen.toNat ≤ max p.unLen.toNat p.unMaxLen.toNat
  accesses : ∃ uses, q.accesses = uses ++ p.accesses ∧
    ∀ a ∈ uses, a.Below p.unMaxLen.toNat ∧ a.cap = p.unBufferSize.toNat

theorem ReadsTo.refl (p : CPluto) : p.ReadsTo p :=
  ⟨rfl, rfl, rfl, le_rfl, le_max_left .., [], rfl, by simp⟩

theorem ReadsTo.trans {p q r : CPluto} (hpq : p.ReadsTo q) (hqr : q.ReadsTo r) : p.ReadsTo r := by
  obtain ⟨uses, huses, hbelow⟩ := hpq.accesses
  obtain ⟨uses', huses', hbelow'⟩ := hqr.accesses
  refine ⟨hqr.szBuffer_eq.trans hpq.szBuffer_eq, hqr.unMaxLen_eq.trans hpq.unMaxLen_eq,
    hqr.unBufferSize_eq.trans hpq.unBufferSize_eq, hpq.len_le.trans hqr.len_le, ?_,
    uses' ++ uses, by rw [huses', huses, List.append_assoc], fun a ha => ?_⟩
  · have hle := hqr.le_max
    rw [hpq.unMaxLen_eq] at hle
    exact hle.trans (max_le hpq.le_max (le_max_right ..))
  · rcases List.mem_append.mp ha with ha | ha
    · rw [← hpq.unMaxLen_eq, ← hpq.unBufferSize_eq]
      exact hbelow' a ha
    · exact hbelow a ha

theorem readsTo_fail (p : CPluto) : p.ReadsTo p.fail :=
  ⟨rfl, rfl, rfl, le_rfl, le_max_left .., [], rfl, by simp⟩

theorem readsTo_advance {p : CPluto} {n : ℕ} (hmax : p.unMaxLen.toNat < 2 ^ 31)
    (hn : p.unLen.toNat + n ≤ p.unMaxLen.toNat) : p.ReadsTo (p.advance n) := by
  have hlen := toNat_unLen_advance (show p.unLen.toNat + n < 2 ^ 32 by omega)
  refine ⟨rfl, rfl, rfl, by omega, ?_, [.read p.unLen.toNat n p.unBufferSize.toNat], rfl, ?_⟩
  · rw [hlen]
    exact hn.trans (le_max_right ..)
  · intro a ha
    rw [List.mem_singleton.mp ha, Access.below_iff]
    exact ⟨Or.inr hn, rfl⟩

/-- What one read does, on every path. -/
theorem readsTo_shr {p : CPluto} (hlt : p.unLen.toNat < 2 ^ 31) (hmax : p.unMaxLen.toNat < 2 ^ 31)
    (t : FieldType) (loc : t.Local) (d : t.Val) : p.ReadsTo (p.shr t loc d).1 := by
  by_cases ht : t = .string
  · subst ht
    show p.ReadsTo (p.shrString loc d).1
    rcases shrString_cases hlt loc d with ⟨-, heq⟩ | ⟨-, hin, heq⟩ | ⟨-, hfit, -, heq⟩ |
      ⟨-, -, hin, heq⟩ | ⟨-, -, -, heq⟩ <;> rw [heq]
    · exact ReadsTo.refl p
    · refine (readsTo_advance hmax (by omega)).trans (readsTo_advance hmax ?_)
      rw [toNat_unLen_advance (by omega)]
      exact hin
    · exact (readsTo_advance hmax hfit).trans (readsTo_fail _)
    · -- the length is the uninitialised local's, but the bytes read still lie below the end
      exact (readsTo_fail p).trans (readsTo_advance hmax hin)
    · exact readsTo_fail p
  · rcases shr_fixed_cases hlt ht loc d with ⟨hfit, heq⟩ | ⟨-, heq⟩ <;> rw [heq]
    · exact readsTo_advance hmax hfit
    · exact readsTo_fail p

/-- The bounds checks still do not wrap after some reads. -/
theorem ReadsTo.lt {p q : CPluto} (h : p.ReadsTo q) (hlt : p.unLen.toNat < 2 ^ 31)
    (hmax : p.unMaxLen.toNat < 2 ^ 31) : q.unLen.toNat < 2 ^ 31 ∧ q.unMaxLen.toNat < 2 ^ 31 :=
  ⟨h.le_max.trans_lt (max_lt hlt hmax), by rw [h.unMaxLen_eq]; exact hmax⟩

theorem readsTo_readAll {p : CPluto} (hlt : p.unLen.toNat < 2 ^ 31)
    (hmax : p.unMaxLen.toNat < 2 ^ 31) (rs : List ReadStep) : p.ReadsTo (p.readAll rs).1 := by
  induction rs generalizing p with
  | nil => exact ReadsTo.refl p
  | cons r rs ih =>
    have hshr := readsTo_shr hlt hmax r.ty r.loc r.dest
    obtain ⟨hlt', hmax'⟩ := hshr.lt hlt hmax
    exact hshr.trans (ih hlt' hmax')

theorem readAll_append_fst (p : CPluto) (rs rs' : List ReadStep) :
    (p.readAll (rs ++ rs')).1 = ((p.readAll rs).1.readAll rs').1 := by
  induction rs generalizing p with
  | nil => rfl
  | cons r rs ih => exact ih (p.shr r.ty r.loc r.dest).1

/-- **The decoder stays inside the message.** In any sequence of reads, whatever the uninitialised
locals hold and whatever failed before, every byte read lies below `m_unMaxLen`, and so inside the
block, and after each read the cursor is where it was or further on, and not past `m_unMaxLen`. -/
theorem readAll_in_bounds (p : CPluto) (hlen : p.unLen.toNat ≤ p.unMaxLen.toNat)
    (hsize : p.unMaxLen.toNat ≤ p.unBufferSize.toNat) (hmax : p.unMaxLen.toNat ≤ 2 ^ 31 - 1)
    (rs rs' : List ReadStep) :
    let q := (p.readAll rs).1
    let q' := (p.readAll (rs ++ rs')).1
    (∃ uses, q'.accesses = uses ++ p.accesses ∧
      ∀ a ∈ uses, a.Below p.unMaxLen.toNat ∧ a.InBounds) ∧
    q'.unMaxLen = p.unMaxLen ∧ q.unLen.toNat ≤ q'.unLen.toNat ∧
    q'.unLen.toNat ≤ q'.unMaxLen.toNat := by
  have hlt : p.unLen.toNat < 2 ^ 31 := by omega
  have hmax : p.unMaxLen.toNat < 2 ^ 31 := by omega
  have hq := readsTo_readAll hlt hmax rs
  have hq' := readsTo_readAll hlt hmax (rs ++ rs')
  obtain ⟨hqlt, hqmax⟩ := hq.lt hlt hmax
  obtain ⟨uses, huses, hbelow⟩ := hq'.accesses
  refine ⟨⟨uses, huses, fun a ha => ⟨(hbelow a ha).1, fun i hlo hhi => ?_⟩⟩, hq'.unMaxLen_eq, ?_,
    ?_⟩
  · rw [(hbelow a ha).2]
    exact ((hbelow a ha).1 i hlo hhi).trans_le hsize
  · rw [readAll_append_fst]
    exact (readsTo_readAll hqlt hqmax rs').len_le
  · have hle := hq'.le_max
    rw [max_eq_right hlen] at hle
    rw [hq'.unMaxLen_eq]
    exact hle

/-- A string whose length prefix is cut off, read with 65535 in the uninitialised local, and then a
byte. -/
theorem readAll_in_bounds_cut_off :
    let p := ((CPluto.new 16 fun _ _ => 255).setMaxLen 13).setLen 12
    let q := (p.readAll [⟨.string, 65535, []⟩, ⟨.uint8, (), 0⟩]).1
    q.unLen.toNat = 13 ∧ q.unLen.toNat ≤ q.unMaxLen.toNat :=
  ⟨by decide, (readAll_in_bounds _ (by decide) (by decide) (by decide)
    [⟨.string, (65535 : UInt16), []⟩] [⟨.uint8, (), (0 : UInt8)⟩]).2.2.2⟩

/-! ## Errors -/

/-- Every read keeps `Readable`, the block and `m_unMaxLen`. -/
theorem Readable.shr {p : CPluto} (h : p.Readable) (t : FieldType) (loc : t.Local) (d : t.Val) :
    (p.shr t loc d).1.Readable ∧ (p.shr t loc d).1.szBuffer = p.szBuffer ∧
      (p.shr t loc d).1.unMaxLen = p.unMaxLen := by
  have hreads := readsTo_shr h.len_lt h.max_lt t loc d
  obtain ⟨hlt, hmax⟩ := hreads.lt h.len_lt h.max_lt
  exact ⟨⟨h.len_pos.trans_le hreads.len_le, hlt, hmax⟩, hreads.szBuffer_eq, hreads.unMaxLen_eq⟩

/-- **An error stays.** No read clears the error index, because the cursor it may be set to is never
the first byte. -/
theorem shr_err_ne_zero {p : CPluto} (h : p.Readable) (herr : p.unDecodeErrIdx ≠ 0)
    (t : FieldType) (loc : t.Local) (d : t.Val) : (p.shr t loc d).1.unDecodeErrIdx ≠ 0 := by
  have hpos : p.unLen ≠ 0 := fun h0 => by
    have := h.len_pos
    rw [h0] at this
    exact absurd this (by decide)
  by_cases ht : t = .string
  · subst ht
    show (p.shrString loc d).1.unDecodeErrIdx ≠ 0
    rw [shrString_of_err herr]
    exact herr
  · rcases shr_fixed_cases h.len_lt ht loc d with ⟨-, heq⟩ | ⟨-, heq⟩ <;> rw [heq]
    · exact herr
    · exact hpos

end CPluto

end PlutoServer
