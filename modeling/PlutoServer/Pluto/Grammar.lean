import PlutoServer.Pluto.DecodeTheorems

/-!
# The grammar of message texts

`FieldType.Parses` and `ParsesAll` say, without reference to the reader, which bytes are a field of
a type and which are a list of fields: fixed widths least significant byte first, a string as a
16-bit length and that many bytes, a bool as one byte that means true exactly when it is 1.

`readAll_clean_iff` shows that the reader decides this grammar: reading a list of types leaves the
error index clear exactly when the bytes up to `m_unMaxLen` begin with such a list, and then it
delivers the values of that list. The two directions are `readAll_of_parses` and
`parses_of_readAll`, each an induction over the reads from the lemma about one read.
-/

namespace PlutoServer

/-- The bytes `bs` are the value `v` of type `t`. -/
def FieldType.Parses : (t : FieldType) → List UInt8 → t.Val → Prop
  | .uint8, bs, v => bs.length = 1 ∧ LittleEndian.ofBytes bs = v.toNat
  | .uint16, bs, v => bs.length = 2 ∧ LittleEndian.ofBytes bs = v.toNat
  | .uint32, bs, v => bs.length = 4 ∧ LittleEndian.ofBytes bs = v.toNat
  | .uint64, bs, v => bs.length = 8 ∧ LittleEndian.ofBytes bs = v.toNat
  | .int8, bs, v => bs.length = 1 ∧ LittleEndian.ofBytes bs = v.toUInt8.toNat
  | .int16, bs, v => bs.length = 2 ∧ LittleEndian.ofBytes bs = v.toUInt16.toNat
  | .int32, bs, v => bs.length = 4 ∧ LittleEndian.ofBytes bs = v.toUInt32.toNat
  | .int64, bs, v => bs.length = 8 ∧ LittleEndian.ofBytes bs = v.toUInt64.toNat
  | .float32, bs, v => bs.length = 4 ∧ LittleEndian.ofBytes bs = v.toNat
  | .float64, bs, v => bs.length = 8 ∧ LittleEndian.ofBytes bs = v.toNat
  | .bool, bs, v => ∃ b, bs = [b] ∧ (v = true ↔ b = 1)
  | .string, bs, v =>
    ∃ size, bs = size ++ v ∧ size.length = 2 ∧ LittleEndian.ofBytes size = v.length

/-- The bytes are the fields, one after the other, and the fields have the types of the list. -/
inductive ParsesAll : List FieldType → List UInt8 → List Field → Prop
  | nil : ParsesAll [] [] []
  | cons {t : FieldType} {bs : List UInt8} {v : t.Val} {ts : List FieldType} {rest : List UInt8}
      {vs : List Field} (head : t.Parses bs v) (tail : ParsesAll ts rest vs) :
      ParsesAll (t :: ts) (bs ++ rest) (⟨t, v⟩ :: vs)

private theorem conv_eq_iff {α β : Type} {f : α → β} {g : β → α} (hgf : ∀ a, g (f a) = a)
    (hfg : ∀ b, f (g b) = b) {a : α} {b : β} : f a = b ↔ a = g b :=
  ⟨fun h => by rw [← h, hgf], fun h => by rw [h, hfg]⟩

/-- For a fixed-width type the grammar is the width and the value that the reader loads. -/
theorem FieldType.parses_iff_load {t : FieldType} (ht : t ≠ .string) (bs : List UInt8) (v : t.Val) :
    t.Parses bs v ↔ bs.length = t.width ∧ v = t.load bs := by
  cases t with
  | string => exact absurd rfl ht
  | bool =>
    constructor
    · rintro ⟨b, rfl, hv⟩
      refine ⟨rfl, ?_⟩
      rw [Bool.eq_iff_iff, hv]
      simp [FieldType.load, szToUint8]
    · rintro ⟨hlen, rfl⟩
      obtain ⟨b, rfl⟩ := List.length_eq_one_iff.mp hlen
      exact ⟨b, rfl, by simp [FieldType.load, szToUint8]⟩
  | uint8 =>
    refine and_congr_right fun hlen => ?_
    rw [← toNat_szToUint8 hlen, UInt8.toNat_inj, eq_comm]
    rfl
  | uint16 =>
    refine and_congr_right fun hlen => ?_
    rw [← toNat_szToUint16 hlen, UInt16.toNat_inj, eq_comm]
    rfl
  | uint32 | float32 =>
    refine and_congr_right fun hlen => ?_
    rw [← toNat_szToUint32 hlen, UInt32.toNat_inj, eq_comm]
    rfl
  | uint64 | float64 =>
    refine and_congr_right fun hlen => ?_
    rw [← toNat_szToUint64 hlen, UInt64.toNat_inj, eq_comm]
    rfl
  | int8 =>
    -- the signed types are read through the unsigned ones
    refine and_congr_right fun hlen => ?_
    rw [← toNat_szToUint8 hlen, UInt8.toNat_inj, eq_comm]
    exact conv_eq_iff Int8.toInt8_toUInt8 UInt8.toUInt8_toInt8
  | int16 =>
    refine and_congr_right fun hlen => ?_
    rw [← toNat_szToUint16 hlen, UInt16.toNat_inj, eq_comm]
    exact conv_eq_iff Int16.toInt16_toUInt16 UInt16.toUInt16_toInt16
  | int32 =>
    refine and_congr_right fun hlen => ?_
    rw [← toNat_szToUint32 hlen, UInt32.toNat_inj, eq_comm]
    exact conv_eq_iff Int32.toInt32_toUInt32 UInt32.toUInt32_toInt32
  | int64 =>
    refine and_congr_right fun hlen => ?_
    rw [← toNat_szToUint64 hlen, UInt64.toNat_inj, eq_comm]
    exact conv_eq_iff Int64.toInt64_toUInt64 UInt64.toUInt64_toInt64

/-- No field is empty. -/
theorem FieldType.Parses.ne_nil {t : FieldType} {bs : List UInt8} {v : t.Val}
    (h : t.Parses bs v) : bs ≠ [] := by
  rintro rfl
  by_cases ht : t = .string
  · subst ht
    obtain ⟨size, happ, hlen, -⟩ := h
    simp [(List.append_eq_nil_iff.mp happ.symm).1] at hlen
  · have := ((FieldType.parses_iff_load ht _ _).mp h).1
    exact absurd this.symm (Nat.ne_of_gt t.width_pos)

namespace CPluto

/-- The bytes from the cursor up to `m_unMaxLen`. -/
def rest (p : CPluto) : List UInt8 :=
  p.szBuffer.slice p.unLen.toNat (p.unMaxLen.toNat - p.unLen.toNat)

/-- A run at the cursor that ends before `m_unMaxLen` is a prefix of what is left, and conversely.
-/
theorem isPrefix_rest_iff (p : CPluto) {bs : List UInt8} (hbs : bs ≠ []) :
    bs <+: p.rest ↔ p.unLen.toNat + bs.length ≤ p.unMaxLen.toNat ∧
      bs = p.szBuffer.slice p.unLen.toNat bs.length := by
  have hpos := List.length_pos_iff.mpr hbs
  constructor
  · intro h
    have hle := h.length_le
    rw [rest, ByteMem.length_slice] at hle
    refine ⟨by omega, ?_⟩
    have := List.prefix_iff_eq_take.mp h
    rwa [rest, ByteMem.take_slice _ _ hle] at this
  · rintro ⟨hle, h⟩
    rw [h, rest, ← ByteMem.take_slice p.szBuffer p.unLen.toNat
      (show bs.length ≤ p.unMaxLen.toNat - p.unLen.toNat by omega)]
    exact List.take_prefix ..

/-- What is left after an advance. -/
theorem rest_advance {p : CPluto} {n : ℕ} (h : p.unLen.toNat + n < 2 ^ 32) :
    (p.advance n).rest = p.rest.drop n := by
  rw [rest, toNat_unLen_advance h, unMaxLen_advance, szBuffer_advance, rest]
  by_cases hle : n ≤ p.unMaxLen.toNat - p.unLen.toNat
  · rw [ByteMem.drop_slice _ _ hle, Nat.sub_add_eq]
  · rw [List.drop_eq_nil_of_le (by rw [ByteMem.length_slice]; omega),
      show p.unMaxLen.toNat - (p.unLen.toNat + n) = 0 by omega, ByteMem.slice_zero]

/-! ## One read -/

/-- A read of bytes that are a field delivers that field and moves the cursor behind it. -/
theorem shr_of_parses {p : CPluto} (herr : p.unDecodeErrIdx = 0) {t : FieldType}
    {bs : List UInt8} {v : t.Val} (hbs : bs <+: p.rest) (hv : t.Parses bs v) (loc : t.Local)
    (d : t.Val) :
    ∃ q, p.shr t loc d = (q, v) ∧ q.unDecodeErrIdx = 0 ∧ q.rest = p.rest.drop bs.length ∧
      q.unLen.toNat = p.unLen.toNat + bs.length := by
  obtain ⟨hle, hslice⟩ := (p.isPrefix_rest_iff hv.ne_nil).mp hbs
  have hlt : p.unLen.toNat + bs.length < 2 ^ 32 := hle.trans_lt p.unMaxLen.toNat_lt
  by_cases ht : t = .string
  · subst ht
    obtain ⟨size, happ, hsize, hn⟩ := hv
    have hlen : bs.length = 2 + v.length := by rw [happ, List.length_append, hsize]
    -- the prefix and the string are where the cursor points
    rw [happ, List.length_append, hsize, ← ByteMem.slice_append] at hslice
    obtain ⟨hs, hstr⟩ := List.append_inj hslice (by simp [hsize])
    obtain ⟨sz, hsz⟩ : ∃ sz, szToUint16 (p.szBuffer.slice p.unLen.toNat 2) = sz := ⟨_, rfl⟩
    have hsz' : sz.toNat = v.length := by
      rw [← hsz, toNat_szToUint16 (ByteMem.length_slice ..), ← hs, hn]
    -- neither of the two checks fails
    have hcursor := toNat_unLen_advance (show p.unLen.toNat + 2 < 2 ^ 32 by omega)
    have hfit2 : ¬ p.Short 2 := by
      rw [short_iff (show p.unLen.toNat + 2 < 2 ^ 32 by omega)]
      exact Nat.not_lt.mpr (show p.unLen.toNat + 2 ≤ p.unMaxLen.toNat by omega)
    have hfit : ¬ (p.advance 2).Short sz.toUInt32 := by
      rw [short_iff (by rw [UInt16.toNat_toUInt32]; omega), UInt16.toNat_toUInt32, unMaxLen_advance]
      omega
    refine ⟨(p.advance 2).advance v.length, ?_, herr, ?_, ?_⟩
    · show p.shrString loc d = _
      rw [shrString_of_not_short herr hfit2 hsz, if_neg hfit, hsz', hcursor, ← hstr]
    · rw [rest_advance (by omega), rest_advance (by omega), List.drop_drop, hlen]
    · rw [toNat_unLen_advance (by omega), hcursor, hlen, Nat.add_assoc]
  · obtain ⟨hwidth, hload⟩ := (FieldType.parses_iff_load ht bs v).mp hv
    rw [hwidth] at hle hslice hlt ⊢
    have hfit : ¬ p.Short (UInt32.ofNat t.width) := by
      rw [short_iff (by rw [t.toNat_ofNat_width]; exact hlt), t.toNat_ofNat_width]
      exact Nat.not_lt.mpr hle
    refine ⟨p.advance t.width, ?_, herr, rest_advance hlt, toNat_unLen_advance hlt⟩
    rw [p.shr_of_ne_string ht, if_neg hfit, ← hslice, hload]

/-- A read that leaves the error index clear found a field at the cursor and delivered it. -/
theorem parses_of_shr {p : CPluto} (h : p.Readable) {t : FieldType} (loc : t.Local) (d : t.Val)
    (hclean : (p.shr t loc d).1.unDecodeErrIdx = 0) :
    p.unDecodeErrIdx = 0 ∧ ∃ bs, bs <+: p.rest ∧ t.Parses bs (p.shr t loc d).2 := by
  have herr : p.unDecodeErrIdx = 0 := by
    by_contra hne
    exact shr_err_ne_zero h hne t loc d hclean
  have hpos : p.unLen ≠ 0 := fun h0 => absurd h.len_pos (by rw [h0]; decide)
  refine ⟨herr, ?_⟩
  by_cases ht : t = .string
  · subst ht
    change (p.shrString loc d).1.unDecodeErrIdx = 0 at hclean
    change ∃ bs, bs <+: p.rest ∧ FieldType.Parses .string bs (p.shrString loc d).2
    have hlt := h.len_lt
    rcases shrString_cases h.len_lt loc d with ⟨hne, -⟩ | ⟨-, hin, heq⟩ | ⟨-, -, -, heq⟩ |
      ⟨-, -, -, heq⟩ | ⟨-, -, -, heq⟩
    · exact absurd herr hne
    · set n := LittleEndian.ofBytes (p.szBuffer.slice p.unLen.toNat 2) with hn
      have hbs : p.szBuffer.slice p.unLen.toNat 2 ++ p.szBuffer.slice (p.unLen.toNat + 2) n =
          p.szBuffer.slice p.unLen.toNat (2 + n) := ByteMem.slice_append ..
      have hparse : FieldType.Parses .string (p.szBuffer.slice p.unLen.toNat (2 + n))
          (p.szBuffer.slice (p.unLen.toNat + 2) n) :=
        ⟨p.szBuffer.slice p.unLen.toNat 2, hbs.symm, by simp, by simp [hn]⟩
      refine ⟨p.szBuffer.slice p.unLen.toNat (2 + n), ?_, by rw [heq]; exact hparse⟩
      rw [isPrefix_rest_iff p hparse.ne_nil, ByteMem.length_slice]
      exact ⟨by omega, rfl⟩
    · -- in the other outcomes the error index is a cursor
      rw [heq] at hclean
      have h0 : (p.advance 2).unLen.toNat = 0 := by
        rw [show (p.advance 2).unLen = 0 from hclean]; rfl
      rw [toNat_unLen_advance (by omega)] at h0
      omega
    · rw [heq] at hclean
      exact absurd hclean hpos
    · rw [heq] at hclean
      exact absurd hclean hpos
  · rcases shr_fixed_cases h.len_lt ht loc d with ⟨hfit, heq⟩ | ⟨-, heq⟩
    · have hparse : t.Parses (p.szBuffer.slice p.unLen.toNat t.width) (p.shr t loc d).2 := by
        rw [FieldType.parses_iff_load ht, heq]
        exact ⟨by simp, rfl⟩
      refine ⟨p.szBuffer.slice p.unLen.toNat t.width, ?_, hparse⟩
      rw [isPrefix_rest_iff p hparse.ne_nil, ByteMem.length_slice]
      exact ⟨hfit, rfl⟩
    · rw [heq] at hclean
      exact absurd hclean hpos

/-! ## A list of reads -/

/-- Reading bytes that parse delivers the fields of the parse. -/
theorem readAll_of_parses {p : CPluto} (herr : p.unDecodeErrIdx = 0)
    {rs : List ReadStep} {bs : List UInt8} {vs : List Field} (hbs : bs <+: p.rest)
    (hvs : ParsesAll (rs.map ReadStep.ty) bs vs) :
    (p.readAll rs).2 = vs ∧ (p.readAll rs).1.unDecodeErrIdx = 0 ∧
      (p.readAll rs).1.unLen.toNat = p.unLen.toNat + bs.length := by
  induction rs generalizing p bs vs with
  | nil =>
    cases hvs
    exact ⟨rfl, herr, rfl⟩
  | cons r rs ih =>
    obtain ⟨t, loc, d⟩ := r
    cases hvs with
    | @cons _ bs v _ rest vs head tail =>
      obtain ⟨q, hq, hqerr, hqrest, hqlen⟩ :=
        shr_of_parses herr ((List.prefix_append bs rest).trans hbs) head loc d
      -- what the head leaves to read begins with the bytes of the tail
      have htail : rest <+: q.rest := by
        rw [hqrest]
        obtain ⟨after, hafter⟩ := hbs
        exact ⟨after, by rw [← hafter]; simp⟩
      obtain ⟨hval, hclean, hlen⟩ := ih hqerr htail tail
      simp only [readAll, hq]
      exact ⟨by rw [hval], hclean, by rw [hlen, hqlen, List.length_append, Nat.add_assoc]⟩

/-- A list of reads that leaves the error index clear found its fields at the cursor. -/
theorem parses_of_readAll {p : CPluto} (h : p.Readable) {rs : List ReadStep}
    (hclean : (p.readAll rs).1.unDecodeErrIdx = 0) :
    p.unDecodeErrIdx = 0 ∧
      ∃ bs, bs <+: p.rest ∧ ParsesAll (rs.map ReadStep.ty) bs (p.readAll rs).2 := by
  induction rs generalizing p with
  | nil => exact ⟨hclean, [], List.nil_prefix, .nil⟩
  | cons r rs ih =>
    obtain ⟨t, loc, d⟩ := r
    obtain ⟨hread, -, -⟩ := h.shr t loc d
    obtain ⟨hqerr, bs', hbs', htail⟩ := ih hread hclean
    obtain ⟨herr, bs, hbs, hhead⟩ := parses_of_shr h loc d hqerr
    obtain ⟨q, hq, -, hqrest, -⟩ := shr_of_parses herr hbs hhead loc d
    refine ⟨herr, bs ++ bs', ?_, .cons hhead htail⟩
    rw [hq] at hbs'
    rw [hqrest] at hbs'
    obtain ⟨after, hafter⟩ := hbs'
    refine ⟨after, ?_⟩
    rw [List.append_assoc, hafter]
    exact List.prefix_iff_eq_append.mp hbs

end CPluto

open CPluto in
/-- **The decoder equals its grammar.** Reading a list of types from the start of the text leaves
the error index clear exactly when the bytes up to `m_unMaxLen` begin with a list of fields of these
types; in that case the values delivered are those of the list and the cursor is at its end. The
values of uninitialised locals do not matter. -/
theorem readAll_clean_iff (p : CPluto) (hlen : p.unLen.toNat = MSGLEN_TEXT_POS)
    (hmax : p.unMaxLen.toNat ≤ 2 ^ 31 - 1) (herr : p.unDecodeErrIdx = 0) (rs : List ReadStep) :
    let text := p.szBuffer.slice MSGLEN_TEXT_POS (p.unMaxLen.toNat - MSGLEN_TEXT_POS)
    ((p.readAll rs).1.unDecodeErrIdx = 0 ↔
      ∃ bs vs, bs <+: text ∧ ParsesAll (rs.map ReadStep.ty) bs vs) ∧
    ∀ bs vs, bs <+: text → ParsesAll (rs.map ReadStep.ty) bs vs →
      (p.readAll rs).2 = vs ∧ (p.readAll rs).1.unLen.toNat = MSGLEN_TEXT_POS + bs.length := by
  have htext : MSGLEN_TEXT_POS = 8 := rfl
  have h : p.Readable := ⟨by omega, by omega, by omega⟩
  have hrest : p.szBuffer.slice MSGLEN_TEXT_POS (p.unMaxLen.toNat - MSGLEN_TEXT_POS) = p.rest := by
    rw [rest, hlen]
  intro text
  rw [show text = p.rest from hrest]
  refine ⟨⟨fun hclean => ?_, ?_⟩, fun bs vs hbs hvs => ?_⟩
  · obtain ⟨-, bs, hbs, hvs⟩ := parses_of_readAll h hclean
    exact ⟨bs, _, hbs, hvs⟩
  · rintro ⟨bs, vs, hbs, hvs⟩
    exact (readAll_of_parses herr hbs hvs).2.1
  · obtain ⟨hval, -, hcursor⟩ := readAll_of_parses herr hbs hvs
    exact ⟨hval, by rw [hcursor, hlen]⟩

open CPluto in
/-- The five bytes `2 0 0 0 1` are a `uint32` and a `bool`. -/
theorem readAll_clean_iff_uint32_bool :
    let p := (((CPluto.new 16 fun _ _ => 0).store MSGLEN_TEXT_POS [2, 0, 0, 0, 1]).setMaxLen
      13).setLen 8
    ∃ bs vs, bs <+: p.szBuffer.slice 8 5 ∧ ParsesAll [.uint32, .bool] bs vs :=
  (readAll_clean_iff _ rfl (by decide) rfl
    [⟨.uint32, (), 0⟩, ⟨.bool, (), false⟩]).1.mp (by decide)

end PlutoServer
