import PlutoServer.Pluto.Defs

/-!
# The two byte orders

Reference: `CoreBase/pluto.cpp`, lines 435-573.

`REVERSE_CONVERT` selects between two ways to turn numbers into bytes: through a cast pointer, as in
`Defs`, or most significant byte first, by shifts. The second one is modelled here. Its writers
produce the bytes of the first in reverse order (`uint16ToSz_eq`, `uint32ToSz_eq`, `uint64ToSz_eq`).

Its readers shift and add in `int`, since an `unsigned char` is promoted to it, and convert the sum
afterwards. For 16 and 32 bits this is the value of the reversed block (`szToUint16_eq`,
`szToUint32_eq`). For 64 bits it is not: four of the shift counts are as large as an `int` is wide
or larger, which the language leaves undefined, and the sum is a 32-bit number that is sign extended
(`szToUint64_eq_iff`). As it stands this variant does not compile, for two semicolons that are
missing in `float32_to_sz` and `float64_to_sz`; the model has them.
-/

namespace PlutoServer

/-- `a << k` for an `int`. For a count of 32 or more the language leaves the result open: `wide` is
what the machine makes of it. -/
def intShl (wide : Int32 → ℕ → Int32) (a : Int32) (k : ℕ) : Int32 :=
  if k < 32 then Int32.ofBitVec (a.toBitVec <<< k) else wide a k

/-- A machine that takes the count modulo 32, as x86 does. -/
def maskedShl (a : Int32) (k : ℕ) : Int32 := Int32.ofBitVec (a.toBitVec <<< (k % 32))

/-- The byte `s[i]`, promoted to `int`. -/
def promoted (s : List UInt8) (i : ℕ) : Int32 := (s.getD i 0).toUInt32.toInt32

namespace ReverseConvert

def uint16ToSz (n : UInt16) : List UInt8 :=
  [((n >>> 8) &&& 0xff).toUInt8, (n &&& 0xff).toUInt8]

def uint32ToSz (n : UInt32) : List UInt8 :=
  [((n >>> 24) &&& 0xff).toUInt8, ((n >>> 16) &&& 0xff).toUInt8, ((n >>> 8) &&& 0xff).toUInt8,
    (n &&& 0xff).toUInt8]

def uint64ToSz (n : UInt64) : List UInt8 :=
  [((n >>> 56) &&& 0xff).toUInt8, ((n >>> 48) &&& 0xff).toUInt8, ((n >>> 40) &&& 0xff).toUInt8,
    ((n >>> 32) &&& 0xff).toUInt8, ((n >>> 24) &&& 0xff).toUInt8, ((n >>> 16) &&& 0xff).toUInt8,
    ((n >>> 8) &&& 0xff).toUInt8, (n &&& 0xff).toUInt8]

variable (wide : Int32 → ℕ → Int32)

def szToUint16 (s : List UInt8) : UInt16 :=
  (intShl wide (promoted s 0) 8 + promoted s 1).toUInt32.toUInt16

def szToUint32 (s : List UInt8) : UInt32 :=
  (intShl wide (promoted s 0) 24 + intShl wide (promoted s 1) 16 + intShl wide (promoted s 2) 8 +
    promoted s 3).toUInt32

/-- The sum is converted to `uint64_t` only in the end, which extends its sign. Where it overflows,
which the language leaves undefined as well, it is taken modulo `2 ^ 32`. -/
def szToUint64 (s : List UInt8) : UInt64 :=
  (intShl wide (promoted s 0) 56 + intShl wide (promoted s 1) 48 + intShl wide (promoted s 2) 40 +
    intShl wide (promoted s 3) 32 + intShl wide (promoted s 4) 24 + intShl wide (promoted s 5) 16 +
    intShl wide (promoted s 6) 8 + promoted s 7).toInt64.toUInt64

/-- Floats are converted by way of their bit patterns, as in `Defs`. -/
def float32ToSz (n : UInt32) : List UInt8 := uint32ToSz n
def float64ToSz (n : UInt64) : List UInt8 := uint64ToSz n
def szToFloat32 (s : List UInt8) : UInt32 := szToUint32 wide s
def szToFloat64 (s : List UInt8) : UInt64 := szToUint64 wide s

/-! ## The writers -/

/-- Masking with `0xff` is what the narrowing to a byte does anyway. -/
theorem ofNat_and_255 (m : ℕ) : UInt8.ofNat (m &&& 255) = UInt8.ofNat m := by
  apply UInt8.toNat_inj.mp
  rw [UInt8.toNat_ofNat', UInt8.toNat_ofNat', show 255 = 2 ^ 8 - 1 from rfl,
    Nat.and_two_pow_sub_one_eq_mod, Nat.mod_mod]

theorem uint16ToSz_eq (n : UInt16) : uint16ToSz n = (PlutoServer.uint16ToSz n).reverse := by
  have hbyte (m : UInt16) : (m &&& 0xff).toUInt8 = UInt8.ofNat m.toNat := ofNat_and_255 m.toNat
  simp only [uint16ToSz, PlutoServer.uint16ToSz, LittleEndian.toBytes, hbyte,
    UInt16.toNat_shiftRight, Nat.shiftRight_eq_div_pow]
  rfl

theorem uint32ToSz_eq (n : UInt32) : uint32ToSz n = (PlutoServer.uint32ToSz n).reverse := by
  have hbyte (m : UInt32) : (m &&& 0xff).toUInt8 = UInt8.ofNat m.toNat := ofNat_and_255 m.toNat
  simp only [uint32ToSz, PlutoServer.uint32ToSz, LittleEndian.toBytes, hbyte,
    UInt32.toNat_shiftRight, Nat.shiftRight_eq_div_pow, Nat.div_div_eq_div_mul]
  rfl

theorem uint64ToSz_eq (n : UInt64) : uint64ToSz n = (PlutoServer.uint64ToSz n).reverse := by
  have hbyte (m : UInt64) : (m &&& 0xff).toUInt8 = UInt8.ofNat m.toNat := ofNat_and_255 m.toNat
  simp only [uint64ToSz, PlutoServer.uint64ToSz, LittleEndian.toBytes, hbyte,
    UInt64.toNat_shiftRight, Nat.shiftRight_eq_div_pow, Nat.div_div_eq_div_mul]
  rfl

/-! ## The readers -/

/-- A shift that stays inside an `int` multiplies, if the sign bit is taken as a digit. -/
theorem toNat_intShl_promoted (s : List UInt8) (i : ℕ) {k : ℕ} (hk : k ≤ 24) :
    (intShl wide (promoted s i) k).toUInt32.toNat = (s.getD i 0).toNat * 2 ^ k := by
  have hlt : (s.getD i 0).toNat * 2 ^ k < 2 ^ 32 :=
    calc (s.getD i 0).toNat * 2 ^ k < 2 ^ 8 * 2 ^ k :=
          Nat.mul_lt_mul_of_pos_right (s.getD i 0).toNat_lt (Nat.two_pow_pos k)
      _ ≤ 2 ^ 8 * 2 ^ 24 := Nat.mul_le_mul_left _ (Nat.pow_le_pow_right (by decide) hk)
  rw [intShl, if_pos (by omega)]
  show ((s.getD i 0).toUInt32.toBitVec <<< k).toNat = _
  rw [BitVec.toNat_shiftLeft, UInt32.toNat_toBitVec, UInt8.toNat_toUInt32, Nat.shiftLeft_eq,
    Nat.mod_eq_of_lt hlt]

theorem toNat_promoted (s : List UInt8) (i : ℕ) :
    (promoted s i).toUInt32.toNat = (s.getD i 0).toNat :=
  UInt8.toNat_toUInt32 _

theorem toNat_szToUint16_eq {s : List UInt8} (h : s.length = 2) :
    (szToUint16 wide s).toNat = BigEndian.ofBytes s := by
  rw [szToUint16, UInt32.toNat_toUInt16, Int32.toUInt32_add, UInt32.toNat_add,
    toNat_intShl_promoted wide s 0 (by decide), toNat_promoted]
  match s, h with
  | [a, b], _ =>
    have ha := a.toNat_lt
    have hb := b.toNat_lt
    simp only [List.getD_cons_zero, List.getD_cons_succ, BigEndian.ofBytes_cons,
      BigEndian.ofBytes_nil, List.length_cons, List.length_nil]
    omega

theorem toNat_szToUint32_eq {s : List UInt8} (h : s.length = 4) :
    (szToUint32 wide s).toNat = BigEndian.ofBytes s := by
  rw [szToUint32, Int32.toUInt32_add, UInt32.toNat_add, Int32.toUInt32_add, UInt32.toNat_add,
    Int32.toUInt32_add, UInt32.toNat_add, toNat_intShl_promoted wide s 0 (by decide),
    toNat_intShl_promoted wide s 1 (by decide), toNat_intShl_promoted wide s 2 (by decide),
    toNat_promoted]
  match s, h with
  | [a, b, c, d], _ =>
    have ha := a.toNat_lt
    have hb := b.toNat_lt
    have hc := c.toNat_lt
    have hd := d.toNat_lt
    simp only [List.getD_cons_zero, List.getD_cons_succ, BigEndian.ofBytes_cons,
      BigEndian.ofBytes_nil, List.length_cons, List.length_nil]
    omega

theorem szToUint16_eq {s : List UInt8} (h : s.length = 2) :
    szToUint16 wide s = PlutoServer.szToUint16 s.reverse := by
  apply UInt16.toNat_inj.mp
  rw [toNat_szToUint16_eq wide h, toNat_szToUint16 (by rw [List.length_reverse, h])]
  rfl

theorem szToUint32_eq {s : List UInt8} (h : s.length = 4) :
    szToUint32 wide s = PlutoServer.szToUint32 s.reverse := by
  apply UInt32.toNat_inj.mp
  rw [toNat_szToUint32_eq wide h, toNat_szToUint32 (by rw [List.length_reverse, h])]
  rfl

/-! ## The reader of 64 bits -/

/-- The shifts that are as wide as an `int` or wider, of the upper four bytes. -/
def highShifts (s : List UInt8) : Int32 :=
  intShl wide (promoted s 0) 56 + intShl wide (promoted s 1) 48 + intShl wide (promoted s 2) 40 +
    intShl wide (promoted s 3) 32

theorem promoted_drop (s : List UInt8) (k i : ℕ) : promoted (s.drop k) i = promoted s (k + i) := by
  rw [promoted, promoted, List.getD_eq_getElem?_getD, List.getElem?_drop,
    ← List.getD_eq_getElem?_getD]

/-- The sum that is converted: the lower four bytes are read as for 32 bits. -/
theorem szToUint64_eq (s : List UInt8) :
    ∃ x : Int32, szToUint64 wide s = x.toInt64.toUInt64 ∧
      x.toUInt32 = (highShifts wide s).toUInt32 + szToUint32 wide (s.drop 4) := by
  refine ⟨_, rfl, ?_⟩
  simp only [szToUint32, highShifts, promoted_drop, Int32.toUInt32_add, UInt32.add_assoc]

/-- The conversion of an `int` to 64 bits extends its sign. -/
theorem toNat_toInt64 (x : Int32) :
    x.toInt64.toUInt64.toNat =
      x.toUInt32.toNat + if x.toUInt32.toNat < 2 ^ 31 then 0 else 2 ^ 64 - 2 ^ 32 := by
  have hlt := x.toUInt32.toNat_lt
  show (BitVec.signExtend 64 x.toUInt32.toBitVec).toNat = _
  rw [BitVec.toNat_signExtend, BitVec.toNat_setWidth, BitVec.msb_eq_decide, UInt32.toNat_toBitVec,
    Nat.mod_eq_of_lt (by omega)]
  simp only [decide_eq_true_eq]
  split_ifs <;> omega

theorem eq_zero_iff {x : Int32} : x = 0 ↔ x.toUInt32.toNat = 0 :=
  ⟨fun h => by rw [h]; rfl, fun h => congrArg Int32.ofUInt32 (UInt32.toNat_inj.mp h)⟩

/-- A block of eight bytes is an upper and a lower half. -/
theorem ofBytes_eq_halves {s : List UInt8} (h : s.length = 8) :
    BigEndian.ofBytes s = BigEndian.ofBytes (s.take 4) * 2 ^ 32 + BigEndian.ofBytes (s.drop 4) ∧
      BigEndian.ofBytes (s.take 4) < 2 ^ 32 ∧ BigEndian.ofBytes (s.drop 4) < 2 ^ 32 := by
  have hsplit := BigEndian.ofBytes_append (s.take 4) (s.drop 4)
  have htake := BigEndian.ofBytes_lt (s.take 4)
  have hdrop := BigEndian.ofBytes_lt (s.drop 4)
  rw [List.take_append_drop, List.length_drop, h] at hsplit
  rw [List.length_take, h] at htake
  rw [List.length_drop, h] at hdrop
  exact ⟨hsplit, htake, hdrop⟩

/-- When the reader of 64 bits reads what is there: the wide shifts must come to nothing, and the
number must be the sign extension of its lower half. -/
theorem szToUint64_eq_iff {s : List UInt8} (h : s.length = 8) :
    (szToUint64 wide s).toNat = BigEndian.ofBytes s ↔
      highShifts wide s = 0 ∧
        (BigEndian.ofBytes s < 2 ^ 31 ∨ 2 ^ 64 - 2 ^ 31 ≤ BigEndian.ofBytes s) := by
  obtain ⟨x, heq, hx⟩ := szToUint64_eq wide s
  have hdrop : (s.drop 4).length = 4 := by rw [List.length_drop, h]
  have hlow := toNat_szToUint32_eq wide hdrop
  obtain ⟨hsplit, hhigh, hlt⟩ := ofBytes_eq_halves h
  have hwide := (highShifts wide s).toUInt32.toNat_lt
  rw [heq, toNat_toInt64, hx, UInt32.toNat_add, hlow, eq_zero_iff, hsplit]
  split_ifs <;> omega

end ReverseConvert

/-! ## Both directions -/

/-- Writing a number as `w` bytes and reading `w` bytes are inverse to each other. -/
structure Lossless {α : Type} (w : ℕ) (toSz : α → List UInt8) (ofSz : List UInt8 → α) : Prop where
  length_eq : ∀ n, (toSz n).length = w
  ofSz_toSz : ∀ n, ofSz (toSz n) = n
  toSz_ofSz : ∀ s, s.length = w → toSz (ofSz s) = s

/-- Losslessness does not depend on the order of the bytes. -/
theorem Lossless.reverse {α : Type} {w : ℕ} {toSz toSz' : α → List UInt8}
    {ofSz ofSz' : List UInt8 → α} (h : Lossless w toSz ofSz)
    (hto : ∀ n, toSz' n = (toSz n).reverse)
    (hof : ∀ s, s.length = w → ofSz' s = ofSz s.reverse) : Lossless w toSz' ofSz' where
  length_eq n := by rw [hto, List.length_reverse, h.length_eq]
  ofSz_toSz n := by
    rw [hto, hof _ (by rw [List.length_reverse, h.length_eq]), List.reverse_reverse, h.ofSz_toSz]
  toSz_ofSz s hs := by
    rw [hto, hof s hs, h.toSz_ofSz _ (by rw [List.length_reverse, hs]), List.reverse_reverse]

theorem lossless_uint16 : Lossless 2 uint16ToSz szToUint16 where
  length_eq _ := LittleEndian.length_toBytes ..
  ofSz_toSz := szToUint16_uint16ToSz
  toSz_ofSz s hs := by rw [uint16ToSz, toNat_szToUint16 hs, ← hs, LittleEndian.toBytes_ofBytes]

theorem lossless_uint32 : Lossless 4 uint32ToSz szToUint32 where
  length_eq _ := LittleEndian.length_toBytes ..
  ofSz_toSz := szToUint32_uint32ToSz
  toSz_ofSz s hs := by rw [uint32ToSz, toNat_szToUint32 hs, ← hs, LittleEndian.toBytes_ofBytes]

theorem lossless_uint64 : Lossless 8 uint64ToSz szToUint64 where
  length_eq _ := LittleEndian.length_toBytes ..
  ofSz_toSz n := by
    rw [szToUint64, uint64ToSz, LittleEndian.ofBytes_toBytes n.toNat_lt, UInt64.ofNat_toNat]
  toSz_ofSz s hs := by rw [uint64ToSz, toNat_szToUint64 hs, ← hs, LittleEndian.toBytes_ofBytes]

namespace ReverseConvert

variable (wide : Int32 → ℕ → Int32)

theorem lossless_uint16 : Lossless 2 uint16ToSz (szToUint16 wide) :=
  PlutoServer.lossless_uint16.reverse uint16ToSz_eq fun _ => szToUint16_eq wide

theorem lossless_uint32 : Lossless 4 uint32ToSz (szToUint32 wide) :=
  PlutoServer.lossless_uint32.reverse uint32ToSz_eq fun _ => szToUint32_eq wide

theorem length_uint64ToSz (n : UInt64) : (uint64ToSz n).length = 8 := rfl

theorem ofBytes_uint64ToSz (n : UInt64) : BigEndian.ofBytes (uint64ToSz n) = n.toNat := by
  rw [uint64ToSz_eq, BigEndian.ofBytes, List.reverse_reverse]
  exact LittleEndian.ofBytes_toBytes n.toNat_lt

theorem uint64ToSz_eq_iff (x : UInt64) {s : List UInt8} (h : s.length = 8) :
    uint64ToSz x = s ↔ x.toNat = BigEndian.ofBytes s := by
  refine ⟨fun hs => by rw [← hs, ofBytes_uint64ToSz], fun hx => ?_⟩
  rw [uint64ToSz_eq, PlutoServer.uint64ToSz, hx, BigEndian.ofBytes, ← h, ← List.length_reverse,
    LittleEndian.toBytes_ofBytes, List.reverse_reverse]

theorem szToUint64_uint64ToSz_iff (n : UInt64) :
    szToUint64 wide (uint64ToSz n) = n ↔
      highShifts wide (uint64ToSz n) = 0 ∧ (n.toNat < 2 ^ 31 ∨ 2 ^ 64 - 2 ^ 31 ≤ n.toNat) := by
  rw [← UInt64.toNat_inj, ← ofBytes_uint64ToSz n]
  exact szToUint64_eq_iff wide (length_uint64ToSz n)

/-- **When the byte orders are lossless.** In the default variant, and for 16 and 32 bits in the
reversed one, writing and reading are inverse to each other. For 64 bits in the reversed variant
they are, in either direction, exactly at the numbers that are the sign extension of their lower
half and whose upper bytes the wide shifts turn to nothing. This is so whatever a machine makes of
these shifts. -/
theorem conversions_lossless_iff :
    (Lossless 2 PlutoServer.uint16ToSz PlutoServer.szToUint16 ∧
      Lossless 4 PlutoServer.uint32ToSz PlutoServer.szToUint32 ∧
      Lossless 8 PlutoServer.uint64ToSz PlutoServer.szToUint64) ∧
    (Lossless 2 uint16ToSz (szToUint16 wide) ∧ Lossless 4 uint32ToSz (szToUint32 wide)) ∧
    (∀ n, szToUint64 wide (uint64ToSz n) = n ↔
      highShifts wide (uint64ToSz n) = 0 ∧ (n.toNat < 2 ^ 31 ∨ 2 ^ 64 - 2 ^ 31 ≤ n.toNat)) ∧
    ∀ s, s.length = 8 → (uint64ToSz (szToUint64 wide s) = s ↔
      highShifts wide s = 0 ∧
        (BigEndian.ofBytes s < 2 ^ 31 ∨ 2 ^ 64 - 2 ^ 31 ≤ BigEndian.ofBytes s)) := by
  refine ⟨⟨PlutoServer.lossless_uint16, PlutoServer.lossless_uint32, PlutoServer.lossless_uint64⟩,
    ⟨lossless_uint16 wide, lossless_uint32 wide⟩, szToUint64_uint64ToSz_iff wide, fun s hs => ?_⟩
  rw [uint64ToSz_eq_iff _ hs]
  exact szToUint64_eq_iff wide hs

/-- Floats fare as the integers of their width. -/
theorem floats_lossless_iff :
    Lossless 4 float32ToSz (szToFloat32 wide) ∧
    ∀ n, szToFloat64 wide (float64ToSz n) = n ↔
      highShifts wide (float64ToSz n) = 0 ∧ (n.toNat < 2 ^ 31 ∨ 2 ^ 64 - 2 ^ 31 ≤ n.toNat) :=
  ⟨lossless_uint32 wide, szToUint64_uint64ToSz_iff wide⟩

theorem intShl_masked (a : Int32) (k : ℕ) :
    intShl maskedShl a k = Int32.ofBitVec (a.toBitVec <<< (k % 32)) := by
  rw [intShl]
  split_ifs with hk
  · rw [Nat.mod_eq_of_lt hk]
  · rfl

theorem promoted_take (s : List UInt8) {k i : ℕ} (h : i < k) :
    promoted (s.take k) i = promoted s i := by
  rw [promoted, promoted, List.getD_eq_getElem?_getD, List.getElem?_take_of_lt h,
    ← List.getD_eq_getElem?_getD]

/-- Where the count is taken modulo 32, the upper four bytes are added to the lower four. -/
theorem toUInt32_highShifts_masked (s : List UInt8) :
    (highShifts maskedShl s).toUInt32 = szToUint32 maskedShl (s.take 4) := by
  -- the smallest of the wide shifts is no shift at all
  have hzero (a : Int32) : Int32.ofBitVec (a.toBitVec <<< 0) = a := by
    rw [BitVec.shiftLeft_zero]
    rfl
  rw [highShifts, szToUint32, promoted_take s (by decide), promoted_take s (by decide),
    promoted_take s (by decide), promoted_take s (by decide)]
  simp only [intShl_masked, Nat.reduceMod, hzero]

/-- On such a machine, what survives is below `2 ^ 31`. -/
theorem szToUint64_masked_iff (n : UInt64) :
    szToUint64 maskedShl (uint64ToSz n) = n ↔ n.toNat < 2 ^ 31 := by
  have htake : ((uint64ToSz n).take 4).length = 4 := rfl
  have hhigh : highShifts maskedShl (uint64ToSz n) = 0 ↔
      BigEndian.ofBytes ((uint64ToSz n).take 4) = 0 := by
    rw [eq_zero_iff, toUInt32_highShifts_masked, toNat_szToUint32_eq maskedShl htake]
  obtain ⟨hsplit, -, hlow⟩ := ofBytes_eq_halves (length_uint64ToSz n)
  have hlt := n.toNat_lt
  rw [ofBytes_uint64ToSz] at hsplit
  rw [szToUint64_uint64ToSz_iff, hhigh]
  omega

/-- The number `2 ^ 31`: its lower half is a negative `int`. -/
theorem szToUint64_not_lossless :
    uint64ToSz 0x80000000 = [0, 0, 0, 0, 0x80, 0, 0, 0] ∧
      szToUint64 maskedShl (uint64ToSz 0x80000000) = 0xffffffff80000000 ∧
      uint64ToSz (szToUint64 maskedShl [0, 0, 0, 0, 0x80, 0, 0, 0]) ≠
        [0, 0, 0, 0, 0x80, 0, 0, 0] := by
  decide

end ReverseConvert

end PlutoServer
