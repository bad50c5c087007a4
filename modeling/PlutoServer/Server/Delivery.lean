import PlutoServer.Server.Receive

/-!
# From one server to another

A finished message is a `Frame`, and a frame that arrives alone and whole becomes one message on the
other side (`Frame.readMessage_eq`), unless its length is a multiple of 256. But `EndRecv` is told
the number of bytes after the first four, so the last four bytes of the text cannot be read any
more: `delivered_iff` shows that only messages without fields arrive as they were sent.
-/

namespace PlutoServer

/-! ## Frames -/

/-- A well-formed frame: its length is that of a message and stands in its first four bytes. -/
structure Frame where
  bytes : List UInt8
  le_length : MSGLEN_TEXT_POS ≤ bytes.length
  length_le : bytes.length ≤ MSGLEN_MAX
  head_eq : bytes.take 4 = uint32ToSz (UInt32.ofNat bytes.length)

namespace Frame

theorem eight_le (F : Frame) : 8 ≤ F.bytes.length := F.le_length

theorem le_max (F : Frame) : F.bytes.length ≤ 65000 := F.length_le

/-- The first byte of a frame is zero exactly when its length is a multiple of 256. -/
theorem headD_eq_zero_iff (F : Frame) : F.bytes.headD 0 = 0 ↔ F.bytes.length % 256 = 0 := by
  have hmax := F.le_max
  have hhead : F.bytes.headD 0 = (F.bytes.take 4).headD 0 := by cases F.bytes <;> rfl
  have hlen : (UInt32.ofNat F.bytes.length).toNat = F.bytes.length := by
    rw [UInt32.toNat_ofNat', Nat.mod_eq_of_lt (by omega)]
  rw [hhead, F.head_eq, uint32ToSz, hlen, ← UInt8.toNat_inj]
  simp [LittleEndian.toBytes]

theorem headD_eq (F : Frame) {buf : List UInt8} (htake : buf.take 4 = F.bytes.take 4) :
    buf.headD 0 = F.bytes.headD 0 := by
  have hhead (bs : List UInt8) : bs.headD 0 = (bs.take 4).headD 0 := by cases bs <;> rfl
  rw [hhead, htake, ← hhead]

/-- Any buffer that begins like a frame is accepted, whatever follows. -/
theorem accepts (F : Frame) (h256 : F.bytes.length % 256 ≠ 0) (mb : CMailBox) {buf : List UInt8}
    (hlen : 4 ≤ buf.length) (htake : buf.take 4 = F.bytes.take 4) : mb.Accepts buf := by
  have hmax := F.le_max
  refine ⟨hlen, ?_, ?_⟩
  · rw [F.headD_eq htake, Ne, F.headD_eq_zero_iff]
    exact h256
  · have hvalue : (szToUint32 (buf.take 4)).toNat = F.bytes.length := by
      rw [htake, F.head_eq, szToUint32_uint32ToSz, UInt32.toNat_ofNat',
        Nat.mod_eq_of_lt (by omega)]
    rw [CMailBox.checkHeadSize, hvalue, if_neg (Nat.not_lt.mpr F.le_length), if_neg]
    rintro ⟨-, hgt⟩
    exact absurd F.length_le (Nat.not_le.mpr hgt)

/-- A frame that is all there is in the input becomes one message. -/
theorem readMessage_eq (F : Frame) (h256 : F.bytes.length % 256 ≠ 0) {mb : CMailBox}
    (hmb : mb.pPluto = none) (fresh : ℕ → ByteMem) :
    mb.readMessage F.bytes fresh =
      ⟨0, [], none, some (received F.bytes fresh), false, some (written F.bytes fresh), 1⟩ := by
  have hmin := F.eight_le
  have hacc := F.accepts h256 mb (by omega) rfl
  rcases CMailBox.readMessage_cases hmb F.bytes fresh with
    ⟨hshort | hzero, -⟩ | ⟨-, -, hnot, -⟩ | ⟨-, hfour, -⟩ | ⟨-, -, h⟩
  · omega
  · exact absurd hzero hacc.head_ne
  · exact absurd hacc hnot
  · omega
  · exact h

theorem block_received (F : Frame) (fresh : ℕ → ByteMem) :
    (received F.bytes fresh).block = F.bytes := by
  have hmin := F.eight_le
  have hmax := F.le_max
  rw [PlutoServer.block_received (by omega), Nat.mod_eq_of_lt (by omega), List.take_length]

/-- A frame that arrives alone and whole is queued. -/
theorem recvMsgs_readStep (F : Frame) (h256 : F.bytes.length % 256 ≠ 0) {s : CServerBase} {bev : ℕ}
    {mb : CMailBox} (h : s.Serves bev mb) (hinput : (s.bevs bev).input = [])
    (fresh : ℕ → ByteMem) :
    (s.readStep (bev, F.bytes, fresh)).recvMsgs = s.recvMsgs ++ [received F.bytes fresh] := by
  have hread := F.readMessage_eq h256 h.pPluto fresh
  rw [CServerBase.readStep_of_serves h, hinput, List.nil_append]
  simp only [hread, Option.toList_some]

end Frame

/-! ## Delivery -/

section Delivery

variable [Abi] {msgId : UInt16} {fields : List Field}

open CPluto

/-- A finished message between servers: the header and the bytes of the fields. -/
theorem content_finish_server (cap : UInt32) (fresh : ℕ → ByteMem) (cry : CBitCryto)
    (hid : MAX_CLIENT_SERVER_MSGID ≤ msgId)
    (hlen : MSGLEN_TEXT_POS + (fields.flatMap Field.bytes).length ≤ MSGLEN_MAX) :
    ((CPluto.new cap fresh).finish cry msgId fields).1.content =
      uint32ToSz (UInt32.ofNat (8 + (fields.flatMap Field.bytes).length)) ++ [0, 0] ++
        uint16ToSz msgId ++ fields.flatMap Field.bytes := by
  set text := fields.flatMap Field.bytes with htext
  have hmax : MSGLEN_MAX = 65000 := rfl
  have hpos : MSGLEN_TEXT_POS = 8 := rfl
  -- no string is too long for its length prefix if the whole message fits
  have hfits (f : Field) (hf : f ∈ fields) : f.Fits := by
    refine Field.fits_of_length_le ?_
    have hle : f.bytes.length ≤ text.length :=
      (List.sublist_flatten_of_mem (List.mem_map_of_mem hf)).length_le
    omega
  have hcontent := content_finish_of_lt cry (CPluto.new cap fresh) msgId hfits
    (by rw [← htext]; omega)
  have hseal : sealText cry msgId text = text := by
    rw [sealText, if_neg (UInt16.not_lt.mpr hid)]
  rw [← htext, hseal] at hcontent
  have hunLen := (header_of_content hcontent).1
  rw [hcontent, ← hunLen, UInt32.ofNat_toNat]

/-- A finished message between servers is a frame, with the id where `GetMsgId` looks for it. -/
theorem exists_frame_finish (cap : UInt32) (fresh : ℕ → ByteMem) (cry : CBitCryto)
    (hid : MAX_CLIENT_SERVER_MSGID ≤ msgId)
    (hlen : MSGLEN_TEXT_POS + (fields.flatMap Field.bytes).length ≤ MSGLEN_MAX) :
    ∃ F : Frame, F.bytes = ((CPluto.new cap fresh).finish cry msgId fields).1.content ∧
      F.bytes.length = 8 + (fields.flatMap Field.bytes).length ∧
      ∀ fresh', (received F.bytes fresh').getMsgId = msgId := by
  have hcontent := content_finish_server cap fresh cry hid hlen
  generalize ((CPluto.new cap fresh).finish cry msgId fields).1.content = bytes at hcontent ⊢
  generalize fields.flatMap Field.bytes = text at hcontent hlen ⊢
  have h4 : (uint32ToSz (UInt32.ofNat (8 + text.length))).length = 4 :=
    LittleEndian.length_toBytes ..
  have h2 : (uint16ToSz msgId).length = 2 := LittleEndian.length_toBytes ..
  have hlength : bytes.length = 8 + text.length := by
    rw [hcontent]
    simp only [List.length_append, List.length_cons, List.length_nil, h4, h2]
  have hhead : bytes.take 4 = uint32ToSz (UInt32.ofNat bytes.length) := by
    rw [hlength, hcontent, List.append_assoc, List.append_assoc, List.take_left' h4]
  have hmin : MSGLEN_TEXT_POS ≤ bytes.length := hlength ▸ Nat.le_add_right ..
  have hmax : bytes.length ≤ MSGLEN_MAX := hlength ▸ hlen
  refine ⟨⟨bytes, hmin, hmax, hhead⟩, rfl, hlength, ?_⟩
  intro fresh'
  have hslice := (slice_received (by omega) fresh').trans hcontent
  rw [hlength] at hslice
  obtain ⟨-, -, hidAt, -⟩ := slice_parts h4 rfl h2 hslice
  show szToUint16 ((received bytes fresh').szBuffer.slice 6 2) = msgId
  rw [hidAt, szToUint16_uint16ToSz]

omit [Abi] in
/-- What can be read from a received message: the bytes of the buffer after the header, without the
last four. -/
theorem length_readAll_received {buf : List UInt8} {fresh : ℕ → ByteMem} (hlen : 8 ≤ buf.length)
    (hlt : buf.length < 2 ^ 31) {rs : List ReadStep}
    (hclean : (((received buf fresh).setLen 8).readAll rs).1.unDecodeErrIdx = 0) :
    ((((received buf fresh).setLen 8).readAll rs).2.flatMap Field.bytes).length ≤
      buf.length - 12 := by
  set q := (received buf fresh).setLen 8 with hq
  have hq8 : q.unLen.toNat = 8 := rfl
  have hqmax : q.unMaxLen.toNat = buf.length - 4 := by
    show (UInt32.ofNat (buf.length - 4)).toNat = buf.length - 4
    rw [UInt32.toNat_ofNat', Nat.mod_eq_of_lt (by omega)]
  have hread : q.Readable := ⟨by omega, by omega, by omega⟩
  obtain ⟨-, bs, hbs, hparse⟩ := parses_of_readAll hread hclean
  have hle := hbs.length_le
  rw [rest, ByteMem.length_slice, hq8, hqmax] at hle
  rw [← hparse.length_eq]
  omega

/-- **Delivery between servers.** A message with an id of the servers, finished by one of them,
arrives alone and whole at an idle connection of another one. Exactly one message is queued, with
the sent id and readable as the sent fields, if and only if there are no fields. -/
theorem delivered_iff {s : CServerBase} {bev : ℕ} {mb : CMailBox} (h : s.Serves bev mb)
    (hinput : (s.bevs bev).input = []) (cap : UInt32) (fresh fresh' : ℕ → ByteMem)
    (cry : CBitCryto) (msgId : UInt16) (hid : MAX_CLIENT_SERVER_MSGID ≤ msgId) (fields : List Field)
    (hlen : MSGLEN_TEXT_POS + (fields.flatMap Field.bytes).length ≤ MSGLEN_MAX)
    (h256 : (MSGLEN_TEXT_POS + (fields.flatMap Field.bytes).length) % 256 ≠ 0)
    (rs : List ReadStep) (hrs : rs.map ReadStep.ty = fields.map Sigma.fst) :
    let u := ((CPluto.new cap fresh).finish cry msgId fields).1
    (∃ m, (s.readStep (bev, u.content, fresh')).recvMsgs = s.recvMsgs ++ [m] ∧
        m.getMsgId = msgId ∧
        let r := (m.setLen (UInt32.ofNat PLUTO_FILED_BEGIN_POS)).readAll rs
        r.2 = fields ∧ r.1.unDecodeErrIdx = 0) ↔
      fields = [] := by
  intro u
  obtain ⟨F, hF, hlength, hmsg⟩ := exists_frame_finish cap fresh cry hid hlen
  rw [show u.content = F.bytes from hF.symm]
  have hrecv := F.recvMsgs_readStep (by rw [hlength]; exact h256) h hinput fresh'
  have hmax := F.le_max
  set text := fields.flatMap Field.bytes with htext
  set m := received F.bytes fresh' with hm
  constructor
  · rintro ⟨m', hm', -, hval, hclean⟩
    obtain rfl : m' = m := by simpa using hm'.symm.trans hrecv
    -- the values read fit into what is left without the last four bytes
    have hle := length_readAll_received (by omega) (by omega) hclean
    rw [show ((m.setLen 8).readAll rs).2 = fields from hval, ← htext, hlength] at hle
    have hempty : text.length = 0 := by omega
    cases fields with
    | nil => rfl
    | cons f fields =>
      have hf := f.bytes_length_pos
      rw [htext, List.flatMap_cons, List.length_append] at hempty
      omega
  · intro hnil
    subst hnil
    obtain rfl : rs = [] := List.map_eq_nil_iff.mp hrs
    exact ⟨m, hrecv, hmsg fresh', rfl, rfl⟩

end Delivery

/-- A message without fields arrives at a server's first client. -/
theorem delivered_iff_no_fields :
    letI := Abi.x64
    let s := (CServerBase.new.handleNewConnection 5 "" 0).1
    let u := ((CPluto.new 256 fun _ _ => 205).finish (sgMycryto 0) 101 []).1
    ∃ m, (s.readStep (0, u.content, fun _ _ => 205)).recvMsgs = s.recvMsgs ++ [m] ∧
      m.getMsgId = 101 ∧
      let r := (m.setLen (UInt32.ofNat PLUTO_FILED_BEGIN_POS)).readAll []
      r.2 = [] ∧ r.1.unDecodeErrIdx = 0 :=
  letI := Abi.x64
  have ⟨⟨_, hserves⟩, hconn⟩ := CServerBase.serves_firstClient 5 "" 0
  (delivered_iff hserves (congrArg Prod.fst hconn) 256 (fun _ _ => 205) (fun _ _ => 205)
    (sgMycryto 0) 101 (by decide) [] (by decide) (by decide) [] rfl).mpr rfl

/-- A message with one `int32_t` does not: the read of the field goes past `m_unMaxLen`. -/
theorem not_delivered_int32 :
    letI := Abi.x64
    let fields : List Field := [⟨.int32, 1⟩]
    let s := (CServerBase.new.handleNewConnection 5 "" 0).1
    let u := ((CPluto.new 256 fun _ _ => 205).finish (sgMycryto 0) 101 fields).1
    u.content.length = 12 ∧
      ¬ ∃ m, (s.readStep (0, u.content, fun _ _ => 205)).recvMsgs = s.recvMsgs ++ [m] ∧
        m.getMsgId = 101 ∧
        let r := (m.setLen (UInt32.ofNat PLUTO_FILED_BEGIN_POS)).readAll [⟨.int32, 0, 0⟩]
        r.2 = fields ∧ r.1.unDecodeErrIdx = 0 := by
  intro fields s u
  have herr : (s.readStep (0, u.content, fun _ _ => 205)).recvMsgs.map (fun m =>
      ((m.setLen 8).readAll [⟨.int32, 0, 0⟩]).1.unDecodeErrIdx) = [8] := by decide
  refine ⟨by decide, ?_⟩
  rintro ⟨m, hm, -, -, hclean⟩
  rw [hm] at herr
  exact absurd (hclean.symm.trans (List.cons.inj herr).1) (by decide)

end PlutoServer
