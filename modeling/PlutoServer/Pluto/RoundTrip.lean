import PlutoServer.Pluto.EncodeTheorems
import PlutoServer.Pluto.Grammar

/-!
# Encoding and decoding

A message built with `<<` and finished by `EndPluto` carries its length and its id in the header,
and reading it with the same types gives the fields back (`readAll_finish`). The proof puts together
what is known of either side: the finished message is a header and the fields' bytes
(`content_finish`), these bytes are in the grammar (`parsesAll_bytes`), and the reader decides the
grammar.
-/

namespace PlutoServer

/-- The bytes of a field parse as that field. -/
theorem Field.parses_bytes {f : Field} (h : f.Fits) : f.1.Parses f.bytes f.2 := by
  obtain ⟨t, v⟩ := f
  cases t with
  | string =>
    have hlen : v.length ≤ CPluto.MAX_LEN := h
    refine ⟨_, rfl, LittleEndian.length_toBytes .., LittleEndian.ofBytes_toBytes ?_⟩
    simp only [CPluto.MAX_LEN] at hlen
    omega
  | bool => cases v <;> exact ⟨_, rfl, by decide⟩
  | uint8 => exact ⟨LittleEndian.length_toBytes .., LittleEndian.ofBytes_toBytes v.toNat_lt⟩
  | uint16 => exact ⟨LittleEndian.length_toBytes .., LittleEndian.ofBytes_toBytes v.toNat_lt⟩
  | uint32 | float32 =>
    exact ⟨LittleEndian.length_toBytes .., LittleEndian.ofBytes_toBytes v.toNat_lt⟩
  | uint64 | float64 =>
    exact ⟨LittleEndian.length_toBytes .., LittleEndian.ofBytes_toBytes v.toNat_lt⟩
  | int8 =>
    exact ⟨LittleEndian.length_toBytes .., LittleEndian.ofBytes_toBytes v.toUInt8.toNat_lt⟩
  | int16 =>
    exact ⟨LittleEndian.length_toBytes .., LittleEndian.ofBytes_toBytes v.toUInt16.toNat_lt⟩
  | int32 =>
    exact ⟨LittleEndian.length_toBytes .., LittleEndian.ofBytes_toBytes v.toUInt32.toNat_lt⟩
  | int64 =>
    exact ⟨LittleEndian.length_toBytes .., LittleEndian.ofBytes_toBytes v.toUInt64.toNat_lt⟩

/-- The bytes of a list of fields parse as that list. -/
theorem parsesAll_bytes {fields : List Field} (h : ∀ f ∈ fields, f.Fits) :
    ParsesAll (fields.map Sigma.fst) (fields.flatMap Field.bytes) fields := by
  induction fields with
  | nil => exact .nil
  | cons f fields ih =>
    exact .cons (Field.parses_bytes (h f List.mem_cons_self))
      (ih fun g hg => h g (List.mem_cons_of_mem f hg))

/-- A field takes as many bytes as it is written with. -/
theorem FieldType.Parses.length_eq {t : FieldType} {bs : List UInt8} {v : t.Val}
    (h : t.Parses bs v) : bs.length = (Field.bytes ⟨t, v⟩).length := by
  cases t with
  | string =>
    obtain ⟨size, rfl, hsize, -⟩ := h
    simp [Field.bytes, hsize]
  | bool =>
    obtain ⟨b, rfl, -⟩ := h
    rfl
  | _ => exact h.1.trans (LittleEndian.length_toBytes ..).symm

theorem ParsesAll.length_eq {ts : List FieldType} {bs : List UInt8} {vs : List Field}
    (h : ParsesAll ts bs vs) : bs.length = (vs.flatMap Field.bytes).length := by
  induction h with
  | nil => rfl
  | cons head _ ih =>
    rw [List.length_append, head.length_eq, ih, List.flatMap_cons, List.length_append]

namespace CPluto

/-- Undo the encryption of the text: reset the cipher and decode every byte from the text on. -/
def decryptText (cry : CBitCryto) (u : CPluto) : CPluto :=
  if u.getMsgId < MAX_CLIENT_SERVER_MSGID then
    u.store MSGLEN_TEXT_POS
      (cry.reset.decodeAll
        (u.szBuffer.slice MSGLEN_TEXT_POS (u.unLen.toNat - MSGLEN_TEXT_POS))).1
  else u

@[simp] theorem unMaxLen_decryptText (cry : CBitCryto) (u : CPluto) :
    (u.decryptText cry).unMaxLen = u.unMaxLen := by
  rw [decryptText]; split_ifs <;> rfl

@[simp] theorem unDecodeErrIdx_decryptText (cry : CBitCryto) (u : CPluto) :
    (u.decryptText cry).unDecodeErrIdx = u.unDecodeErrIdx := by
  rw [decryptText]; split_ifs <;> rfl

/-- A finished message is its header followed by the sealed bytes of its fields. -/
theorem content_finish [Abi] {cry : CBitCryto} {p : CPluto} {msgId : UInt16} {fields : List Field}
    (hfits : ∀ f ∈ fields, f.Fits) (h : (p.finish cry msgId fields).1.WritesInBounds) :
    (p.finish cry msgId fields).1.content =
      uint32ToSz (p.finish cry msgId fields).1.unLen ++ [0, 0] ++ uint16ToSz msgId ++
        sealText cry msgId (fields.flatMap Field.bytes) := by
  have hbuild := content_build hfits (h.of_suffix (suffix_endPluto cry (p.build msgId fields)))
  rw [finish, unLen_endPluto]
  exact content_endPluto cry (ByteMem.length_slice ..) hbuild

/-- The same for a message whose length does not wrap around. -/
theorem content_finish_of_lt [Abi] (cry : CBitCryto) (p : CPluto) (msgId : UInt16)
    {fields : List Field} (hfits : ∀ f ∈ fields, f.Fits)
    (hlt : MSGLEN_TEXT_POS + (fields.flatMap Field.bytes).length < 2 ^ 32) :
    (p.finish cry msgId fields).1.content =
      uint32ToSz (p.finish cry msgId fields).1.unLen ++ [0, 0] ++ uint16ToSz msgId ++
        sealText cry msgId (fields.flatMap Field.bytes) := by
  have hbuild : (p.build msgId fields).content =
      p.szBuffer.slice 0 6 ++ uint16ToSz msgId ++ fields.flatMap Field.bytes := by
    rw [build, content_foldl_shl_of_lt hfits (by rwa [toNat_unLen_encode]), content_encode]
  rw [finish, unLen_endPluto]
  exact content_endPluto cry (ByteMem.length_slice ..) hbuild

/-- What the header of such a message says. -/
theorem header_of_content {u : CPluto} {msgId : UInt16} {text : List UInt8}
    (h : u.content = uint32ToSz u.unLen ++ [0, 0] ++ uint16ToSz msgId ++ text) :
    u.unLen.toNat = 8 + text.length ∧ szToUint32 (u.szBuffer.slice 0 4) = u.unLen ∧
      u.szBuffer.slice 4 2 = [0, 0] ∧ u.getMsgId = msgId ∧
      u.szBuffer.slice 8 text.length = text := by
  have h4 : (uint32ToSz u.unLen).length = 4 := LittleEndian.length_toBytes ..
  have h2 : (uint16ToSz msgId).length = 2 := LittleEndian.length_toBytes ..
  have hlen : u.unLen.toNat = 8 + text.length := by
    rw [← length_content, h]
    simp only [List.length_append, List.length_cons, List.length_nil, h4, h2]
  obtain ⟨hL, hz, hid, ht⟩ := slice_parts (m := u.szBuffer) h4 rfl h2 (by rw [← hlen]; exact h)
  refine ⟨hlen, by rw [hL, szToUint32_uint32ToSz], hz, ?_, ht⟩
  show szToUint16 (u.szBuffer.slice 6 2) = msgId
  rw [hid, szToUint16_uint16ToSz]

theorem unDecodeErrIdx_finish [Abi] (cry : CBitCryto) (p : CPluto) (msgId : UInt16)
    (fields : List Field) :
    (p.finish cry msgId fields).1.unDecodeErrIdx = p.unDecodeErrIdx := by
  rw [finish, unDecodeErrIdx_endPluto, build, unDecodeErrIdx_foldl_shl, encode, shlUint16,
    unDecodeErrIdx_shlFixed, unDecodeErrIdx_setLen]

/-- The text of a message whose parts are known, after the encryption has been undone. -/
theorem slice_decryptText {cry cry' : CBitCryto} (hkey : cry'.pszKey = cry.pszKey) {u : CPluto}
    {msgId : UInt16} {text : List UInt8} (hmsg : u.getMsgId = msgId)
    (hlen : u.unLen.toNat = 8 + text.length)
    (htext : u.szBuffer.slice 8 text.length = sealText cry msgId text) :
    (u.decryptText cry').szBuffer.slice 8 text.length = text := by
  have hstep : CBitCryto.InStep cry.reset cry'.reset := ⟨hkey, rfl⟩
  have hn : u.unLen.toNat - MSGLEN_TEXT_POS = text.length := by
    rw [hlen]; exact Nat.add_sub_cancel_left ..
  rw [decryptText, hmsg]
  rw [sealText] at htext
  split_ifs at htext ⊢ with hclient
  · rw [szBuffer_store, hn]
    show (u.szBuffer.write 8 (cry'.reset.decodeAll (u.szBuffer.slice 8 text.length)).1).slice 8
      text.length = text
    rw [htext, hstep.decodeAll_encodeAll, ByteMem.slice_write_self]
  · exact htext

end CPluto

open CPluto in
/-- **Round trip.** Unless a write went past the capacity, a message of any fields, started with
`Encode` on a fresh object of any capacity and finished by `EndPluto`, has its length in the first
four bytes, zeros in the next two and the id behind them; and reading it with the same types, after
undoing the encryption with a cipher of the same key, delivers the fields and ends at
`m_unMaxLen` with a clear error index. -/
theorem readAll_finish [Abi] (cap : UInt32) (fresh : ℕ → ByteMem) (cry cry' : CBitCryto)
    (hkey : cry'.pszKey = cry.pszKey) (msgId : UInt16) (fields : List Field)
    (hfits : ∀ f ∈ fields, f.Fits) (rs : List ReadStep)
    (hrs : rs.map ReadStep.ty = fields.map Sigma.fst) :
    let u := ((CPluto.new cap fresh).finish cry msgId fields).1
    u.WritesInBounds → u.unLen.toNat < 2 ^ 31 →
    szToUint32 (u.szBuffer.slice 0 4) = u.unLen ∧ u.szBuffer.slice 4 2 = [0, 0] ∧
      u.getMsgId = msgId ∧ u.unMaxLen = u.unLen ∧
      let r := ((u.decryptText cry').setLen (UInt32.ofNat MSGLEN_TEXT_POS)).readAll rs
      r.2 = fields ∧ r.1.unLen = u.unMaxLen ∧ r.1.unDecodeErrIdx = 0 := by
  intro u hin _
  set text := fields.flatMap Field.bytes with htextdef
  obtain ⟨hlen, hL, hz, hmsg, ht⟩ := header_of_content (content_finish hfits hin)
  rw [← htextdef, length_sealText] at hlen ht
  have hmax : u.unMaxLen = u.unLen := by
    show (endPluto _ _).1.unMaxLen = (endPluto _ _).1.unLen
    rw [unMaxLen_endPluto, unLen_endPluto]
  refine ⟨hL, hz, hmsg, hmax, ?_⟩
  -- the text, decrypted, is what is left to read
  set q := (u.decryptText cry').setLen (UInt32.ofNat MSGLEN_TEXT_POS) with hq
  have hq8 : q.unLen.toNat = 8 := rfl
  have hqmax : q.unMaxLen = u.unLen := by rw [hq, unMaxLen_setLen, unMaxLen_decryptText, hmax]
  have hrest : q.rest = text := by
    rw [rest, hq8, hqmax, hlen, Nat.add_sub_cancel_left, hq, szBuffer_setLen]
    exact slice_decryptText hkey hmsg hlen ht
  have herr : q.unDecodeErrIdx = 0 := by
    rw [hq, unDecodeErrIdx_setLen, unDecodeErrIdx_decryptText]
    exact unDecodeErrIdx_finish cry _ msgId fields
  have hparse : ParsesAll (rs.map ReadStep.ty) text fields := hrs ▸ parsesAll_bytes hfits
  obtain ⟨hval, hclean, hend⟩ := readAll_of_parses herr (hrest ▸ List.prefix_rfl) hparse
  refine ⟨hval, ?_, hclean⟩
  rw [hmax, ← UInt32.toNat_inj, hend, hq8, hlen]

/-- An encrypted message of three fields, in a block that was not cleared. -/
theorem readAll_finish_uint8_string_bool :
    letI := Abi.x64
    let fields : List Field := [⟨.uint8, 5⟩, ⟨.string, [104, 105]⟩, ⟨.bool, true⟩]
    let u := ((CPluto.new 256 fun _ _ => 205).finish (sgMycryto 3) 7 fields).1
    (((u.decryptText (sgMycryto 0)).setLen 8).readAll
      [⟨.uint8, (), 0⟩, ⟨.string, 9, []⟩, ⟨.bool, (), false⟩]).2 = fields :=
  letI := Abi.x64
  (readAll_finish 256 (fun _ _ => 205) (sgMycryto 3) (sgMycryto 0) rfl 7
    [⟨.uint8, 5⟩, ⟨.string, [104, 105]⟩, ⟨.bool, true⟩] (by decide)
    [⟨.uint8, (), 0⟩, ⟨.string, 9, []⟩, ⟨.bool, (), false⟩] rfl (by decide)
    (by decide)).2.2.2.2.1

end PlutoServer
