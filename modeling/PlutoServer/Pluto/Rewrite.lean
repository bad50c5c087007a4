import PlutoServer.Pluto.RoundTrip
import PlutoServer.Pluto.StringTheorems

/-!
# Writing back what was read

Apart from bools, where every byte but 1 is read as false, a value has one wire image only
(`FieldType.Parses.eq_bytes`). So a body that is read as a list of fields is also what `<<` writes
for them, as far as `<<` accepts them.

The two sides do not accept the same strings. The reader takes any length that its 16-bit prefix can
hold and that ends before `m_unMaxLen`; the writer refuses strings longer than `MAX_LEN`, which is
one less than the largest prefix. `writesBack_iff` says for which bodies reading and writing are
inverse to each other.
-/

namespace PlutoServer

/-- The bytes that parse as a value are those the value is written with. -/
theorem FieldType.Parses.eq_bytes {t : FieldType} {bs : List UInt8} {v : t.Val} (ht : t ≠ .bool)
    (h : t.Parses bs v) : bs = Field.bytes ⟨t, v⟩ := by
  cases t with
  | bool => exact absurd rfl ht
  | string =>
    obtain ⟨size, rfl, hsize, hn⟩ := h
    have himage := LittleEndian.toBytes_ofBytes size
    rw [hsize, hn] at himage
    rw [Field.bytes, himage]
  | _ =>
    obtain ⟨hlen, hn⟩ := h
    have himage := LittleEndian.toBytes_ofBytes bs
    rw [hlen, hn] at himage
    exact himage.symm

theorem ParsesAll.eq_bytes {ts : List FieldType} {bs : List UInt8} {vs : List Field}
    (hbool : ∀ t ∈ ts, t ≠ .bool) (h : ParsesAll ts bs vs) : bs = vs.flatMap Field.bytes := by
  induction h with
  | nil => rfl
  | @cons t bs v ts rest vs head _ ih =>
    rw [List.flatMap_cons, ← head.eq_bytes (hbool t List.mem_cons_self),
      ← ih fun t' ht' => hbool t' (List.mem_cons_of_mem t ht')]

namespace CPluto

/-- A list of reads delivers a field of the type of each, whatever the message. -/
theorem map_fst_readAll (p : CPluto) (rs : List ReadStep) :
    (p.readAll rs).2.map Sigma.fst = rs.map ReadStep.ty := by
  induction rs generalizing p with
  | nil => rfl
  | cons r rs ih => exact congrArg (r.ty :: ·) (ih (p.shr r.ty r.loc r.dest).1)

/-- The text of a message, from behind the header up to `m_unMaxLen`. -/
def body (p : CPluto) : List UInt8 :=
  p.szBuffer.slice MSGLEN_TEXT_POS (p.unMaxLen.toNat - MSGLEN_TEXT_POS)

/-- Before the first read, what is left is the body. -/
theorem rest_eq_body {p : CPluto} (hlen : p.unLen.toNat = MSGLEN_TEXT_POS) : p.rest = p.body := by
  rw [rest, hlen, body]

variable [Abi]

/-- `<<` refuses a field: the message is as long as before. -/
def LeavesOut (q : CPluto) (f : Field) : Prop := (q.shl f).unLen = q.unLen

/-- A field that fits takes at least one byte and fewer than the cursor can count. -/
theorem leavesOut_iff (q : CPluto) (f : Field) : q.LeavesOut f ↔ ¬ f.Fits := by
  refine ⟨fun h hfits => ?_, fun h => (content_shl_of_not_fits q h).1⟩
  rw [LeavesOut] at h
  by_cases hfixed : f.IsFixed
  · have hle := hfixed.bytes_length_le
    have hpos := f.bytes_length_pos
    rw [shl_of_isFixed q hfixed, unLen_shlFixed, UInt32.add_eq_left, ← UInt32.toNat_inj,
      UInt32.toNat_ofNat', Nat.mod_eq_of_lt (by omega)] at h
    exact absurd h hpos.ne'
  · obtain ⟨t, str⟩ := f
    obtain rfl : t = .string := Decidable.not_not.mp hfixed
    have hle : str.length ≤ 65534 := hfits
    have hsum : (2 + UInt32.ofNat str.length).toNat = 2 + str.length := by
      rw [UInt32.toNat_add, UInt32.toNat_ofNat', Nat.mod_eq_of_lt (a := str.length) (by omega)]
      exact Nat.mod_eq_of_lt (show 2 + str.length < 2 ^ 32 by omega)
    rw [shl_of_string q hfits] at h
    simp only [unLen_setLen, unLen_shlFixed, unLen_resize] at h
    rw [UInt32.add_assoc, UInt32.add_eq_left, ← UInt32.toNat_inj, hsum] at h
    exact absurd h (by simp)

/-- Writing the fields behind `q` appends exactly `bs` and refuses none of them. -/
def WritesBack (q : CPluto) (fields : List Field) (bs : List UInt8) : Prop :=
  (fields.foldl shl q).content = q.content ++ bs ∧
    ∀ pre f, pre ++ [f] <+: fields → ¬ (pre.foldl shl q).LeavesOut f

/-- Unless a write goes past the capacity, the fields are accepted if they fit, and then their wire
images are what is written. -/
theorem writesBack_iff_fits {q : CPluto} {fields : List Field}
    (hin : (fields.foldl shl q).WritesInBounds) (bs : List UInt8) :
    q.WritesBack fields bs ↔ (∀ f ∈ fields, f.Fits) ∧ bs = fields.flatMap Field.bytes := by
  constructor
  · rintro ⟨hcontent, haccepts⟩
    have hfits : ∀ f ∈ fields, f.Fits := by
      intro f hf
      obtain ⟨pre, post, rfl⟩ := List.append_of_mem hf
      have hacc := haccepts pre f ⟨post, by rw [List.append_assoc, List.singleton_append]⟩
      rw [leavesOut_iff] at hacc
      exact Decidable.not_not.mp hacc
    rw [content_foldl_shl hfits hin] at hcontent
    exact ⟨hfits, (List.append_cancel_left hcontent).symm⟩
  · rintro ⟨hfits, rfl⟩
    refine ⟨content_foldl_shl hfits hin, fun pre f hpre => ?_⟩
    rw [leavesOut_iff]
    exact not_not_intro (hfits f (hpre.subset (by simp)))

/-- **When reading and writing back is the identity.** Take any message and read its body with any
types other than bool; write what was delivered behind any other message, and let no write go past
the capacity. The body is read completely without an error and written back as it was, with no field
refused, exactly when it is a list of fields of these types in which no string is longer than
`MAX_LEN`. -/
theorem writesBack_iff (p : CPluto) (hlen : p.unLen.toNat = MSGLEN_TEXT_POS)
    (herr : p.unDecodeErrIdx = 0) (rs : List ReadStep) (hbool : ∀ r ∈ rs, r.ty ≠ .bool)
    (q : CPluto) (hin : ((p.readAll rs).2.foldl shl q).WritesInBounds) :
    let r := p.readAll rs
    (r.1.unDecodeErrIdx = 0 ∧ r.1.unLen.toNat = MSGLEN_TEXT_POS + p.body.length ∧
      q.WritesBack r.2 p.body) ↔
    ∃ vs, ParsesAll (rs.map ReadStep.ty) p.body vs ∧ ∀ f ∈ vs, f.Fits := by
  intro r
  rw [writesBack_iff_fits hin]
  constructor
  · rintro ⟨-, -, hfits, hbody⟩
    refine ⟨r.2, ?_, hfits⟩
    rw [hbody, ← map_fst_readAll p rs]
    exact parsesAll_bytes hfits
  · rintro ⟨vs, hparse, hfits⟩
    obtain ⟨hval, hclean, hend⟩ :=
      readAll_of_parses herr (rest_eq_body hlen ▸ List.prefix_rfl) hparse
    rw [hlen] at hend
    rw [show r.2 = vs from hval]
    exact ⟨hclean, hend, hfits, hparse.eq_bytes (List.forall_mem_map.mpr hbool)⟩

/-- For messages below `2 ^ 31` bytes that were read completely and without an error: only a string
of 65535 bytes is not written back. -/
theorem writesBack_iff_of_clean {p : CPluto} (hlen : p.unLen.toNat = MSGLEN_TEXT_POS)
    (hmax : p.unMaxLen.toNat ≤ 2 ^ 31 - 1) {rs : List ReadStep} (hbool : ∀ r ∈ rs, r.ty ≠ .bool)
    (hclean : (p.readAll rs).1.unDecodeErrIdx = 0)
    (hend : (p.readAll rs).1.unLen = p.unMaxLen) (q : CPluto)
    (hin : ((p.readAll rs).2.foldl shl q).WritesInBounds) :
    q.WritesBack (p.readAll rs).2 p.body ↔ ∀ f ∈ (p.readAll rs).2, f.Fits := by
  have htext : MSGLEN_TEXT_POS = 8 := rfl
  have hread : p.Readable := ⟨by omega, by omega, by omega⟩
  obtain ⟨herr, bs, hbs, hparse⟩ := parses_of_readAll hread hclean
  obtain ⟨-, -, hcursor⟩ := readAll_of_parses herr hbs hparse
  -- all of the body was read
  have hall : bs = p.body := by
    rw [rest_eq_body hlen] at hbs
    refine hbs.eq_of_length ?_
    rw [body, ByteMem.length_slice]
    rw [hend] at hcursor
    omega
  rw [writesBack_iff_fits hin, and_iff_left]
  rw [← hall]
  exact hparse.eq_bytes (List.forall_mem_map.mpr hbool)

/-- A body that is one string longer than `MAX_LEN` is read, and then left out by the writer. -/
theorem long_string_left_out {p q : CPluto} (hlen : p.unLen.toNat = MSGLEN_TEXT_POS)
    (herr : p.unDecodeErrIdx = 0) {str : List UInt8} (hparse : FieldType.Parses .string p.body str)
    (hlong : ¬ Field.Fits ⟨.string, str⟩) (hq : (q.resize Abi.sizeofString).WritesInBounds)
    (loc : FieldType.Local .string) (d : FieldType.Val .string) :
    let r := p.readAll [⟨.string, loc, d⟩]
    r.1.unDecodeErrIdx = 0 ∧ r.1.unLen.toNat = MSGLEN_TEXT_POS + p.body.length ∧
      (r.2.foldl shl q).WritesInBounds ∧ (r.2.foldl shl q).unLen = q.unLen ∧
      ¬ q.WritesBack r.2 p.body := by
  intro r
  have hall : ParsesAll ([⟨.string, loc, d⟩].map ReadStep.ty) p.body [⟨.string, str⟩] := by
    rw [← List.append_nil p.body]
    exact .cons hparse .nil
  obtain ⟨hval, hclean, hend⟩ := readAll_of_parses herr (rest_eq_body hlen ▸ List.prefix_rfl) hall
  rw [hlen] at hend
  obtain ⟨reads, heq, hreads⟩ := shl_of_not_fits q hlong
  rw [show r.2 = [⟨.string, str⟩] from hval]
  refine ⟨hclean, hend, ?_, (content_shl_of_not_fits q hlong).1, ?_⟩
  · rw [List.foldl_cons, List.foldl_nil, heq]
    intro a ha hw
    rcases List.mem_append.mp ha with ha | ha
    · exact absurd hw (hreads a ha)
    · exact hq a ha hw
  · rintro ⟨-, haccepts⟩
    exact haccepts [] ⟨.string, str⟩ List.prefix_rfl ((leavesOut_iff q _).mpr hlong)

end CPluto

open CPluto in
/-- A number and a string of two bytes, read and written behind the header of another message. -/
theorem writesBack_uint32_string :
    letI := Abi.x64
    let p := (((CPluto.new 16 fun _ _ => 0).store MSGLEN_TEXT_POS
      [7, 0, 0, 0, 2, 0, 104, 105]).setMaxLen 16).setLen 8
    let q := (CPluto.new 256 fun _ _ => 205).encode 100
    q.WritesBack (p.readAll [⟨.uint32, (), 0⟩, ⟨.string, 9, []⟩]).2 p.body := by
  intro p q
  let _ := Abi.x64
  have hfits : ∀ f ∈ ([⟨.uint32, 7⟩, ⟨.string, [104, 105]⟩] : List Field), f.Fits := by decide
  have hbody : p.body = [⟨.uint32, 7⟩, ⟨.string, [104, 105]⟩].flatMap Field.bytes := by decide
  have hparse : ParsesAll [.uint32, .string] p.body [⟨.uint32, 7⟩, ⟨.string, [104, 105]⟩] := by
    rw [hbody]
    exact parsesAll_bytes hfits
  exact ((writesBack_iff p rfl rfl [⟨.uint32, (), 0⟩, ⟨.string, (9 : UInt16), []⟩] (by decide) q
    (by decide)).mpr ⟨_, hparse, hfits⟩).2.2

open CPluto in
/-- A body of 65537 bytes `FF` is a string of 65535 bytes to the reader; the writer leaves it out.
-/
theorem not_writesBack_string :
    letI := Abi.x64
    let p := ((CPluto.new 65545 fun _ _ => 255).setMaxLen 65545).setLen 8
    let q := (CPluto.new 131072 fun _ _ => 0).encode 100
    let r := p.readAll [⟨.string, 0, []⟩]
    r.1.unDecodeErrIdx = 0 ∧ r.1.unLen = p.unMaxLen ∧ (r.2.foldl shl q).WritesInBounds ∧
      (r.2.foldl shl q).unLen = q.unLen ∧ ¬ q.WritesBack r.2 p.body := by
  intro p q r
  let _ := Abi.x64
  have hlen : (p.szBuffer.slice 10 65535).length = 65535 := ByteMem.length_slice ..
  have hparse : FieldType.Parses .string p.body (p.szBuffer.slice 10 65535) := by
    refine ⟨[255, 255], (ByteMem.slice_append p.szBuffer 8 2 65535).symm, rfl, ?_⟩
    rw [hlen]
    decide
  have hlong : ¬ Field.Fits ⟨.string, p.szBuffer.slice 10 65535⟩ := by
    show ¬ (p.szBuffer.slice 10 65535).length ≤ MAX_LEN
    rw [hlen]
    decide
  obtain ⟨hclean, hend, hrest⟩ :=
    long_string_left_out (q := q) rfl rfl hparse hlong (by decide) 0 []
  have hr : r = p.readAll [⟨.string, 0, []⟩] := rfl
  rw [body, ByteMem.length_slice, Nat.add_sub_of_le (by decide)] at hend
  rw [hr]
  exact ⟨hclean, UInt32.toNat_inj.mp hend, hrest⟩

end PlutoServer
