import PlutoServer.Common.Interleaving
import PlutoServer.Pluto.EncodeTheorems

/-!
# A message is an append-only list of bytes

`AppendList` is what a `CPluto` is for: a list of bytes that `Encode` starts, `<<` extends and
`EndPluto` seals. The object implements it with a block that is exchanged as it grows and with a
cipher that all messages share. `Refines` relates the two; the six bytes before the id are not
compared until `EndPluto` has written them.

`run_session_frame` says that messages of fixed-width fields refine the list and stay inside their
blocks, whatever was done with the object before and whatever is done with other objects meanwhile.
-/

namespace PlutoServer

open Runs Interleaving

/-- The calls that build a message. -/
inductive PlutoOp where
  | encode (msgId : UInt16)
  | shl (f : Field)
  | endPluto

/-- A call on an object, with the shared cipher. -/
def PlutoOp.act [Abi] (cry : CBitCryto) (u : CPluto) : PlutoOp → CPluto × CBitCryto
  | .encode msgId => (u.encode msgId, cry)
  | .shl f => (u.shl f, cry)
  | .endPluto => PlutoServer.endPluto cry u

/-- What a call does to the object. -/
def PlutoOp.step [Abi] (cry : CBitCryto) (u : CPluto) (op : PlutoOp) : CPluto := (op.act cry u).1

/-- The calls of one message. -/
def session (msgId : UInt16) (fields : List Field) : List PlutoOp :=
  .encode msgId :: (fields.map .shl ++ [.endPluto])

/-! ## The abstract message -/

namespace AppendList

/-- `EndPluto` on a list of bytes. -/
def endPluto (cry : CBitCryto) (l : List UInt8) : List UInt8 :=
  let id := (l.drop 6).take 2
  uint32ToSz (UInt32.ofNat l.length) ++ [0, 0] ++ id ++ sealText cry (szToUint16 id) (l.drop 8)

/-- The calls on a list of bytes. -/
def step (cry : CBitCryto) (l : List UInt8) : PlutoOp → List UInt8
  | .encode msgId => List.replicate 6 0 ++ uint16ToSz msgId
  | .shl f => l ++ f.bytes
  | .endPluto => endPluto cry l

end AppendList

/-- The finished message as a list of bytes. -/
def frame (msgId : UInt16) (fields : List Field) : List UInt8 :=
  run (AppendList.step (sgMycryto 0)) [] (session msgId fields)

namespace CPluto

/-! ## The cipher is reset before it is used -/

/-- The bytes that the loop of `EndPluto` writes depend on the key and the index only. -/
theorem cryptLoop_fst_congr {cry cry' : CBitCryto} (h : CBitCryto.InStep cry cry') (i n : ℕ)
    (u : CPluto) : (cryptLoop i n u cry').1 = (cryptLoop i n u cry).1 := by
  induction n generalizing i u cry cry' with
  | zero => rfl
  | succ n ih =>
    obtain ⟨hbyte, hnext⟩ := h.next
    simp only [cryptLoop, CBitCryto.encode_fst, CBitCryto.encode_snd, hbyte]
    exact ih hnext _ _

theorem endPluto_fst_unused (cry : CBitCryto) (u : CPluto) :
    (endPluto cry u).1 = (endPluto cry.unused u).1 := by
  simp only [endPluto]
  split_ifs
  · exact (cryptLoop_fst_congr cry.inStep_reset_unused ..).symm
  · rfl

theorem unused_endPluto (cry : CBitCryto) (u : CPluto) :
    (endPluto cry u).2.unused = cry.unused := by
  simp only [endPluto]
  split_ifs
  · obtain ⟨uses, h, -⟩ := cryptLoop_eq MSGLEN_TEXT_POS (u.unLen.toNat - MSGLEN_TEXT_POS)
      (u.endHead.touch (MSGLEN_HEAD + MSGLEN_RESERVED) MSGLEN_MSGID) cry.reset
    exact (congrArg (fun r => CBitCryto.unused r.2) h).trans (CBitCryto.unused_encodeAll ..)
  · rfl

theorem act_fst_unused [Abi] (cry : CBitCryto) (u : CPluto) (op : PlutoOp) :
    (op.act cry u).1 = op.step cry.unused u := by
  cases op with
  | encode msgId => rfl
  | shl f => rfl
  | endPluto => exact endPluto_fst_unused cry u

theorem unused_act [Abi] (cry : CBitCryto) (u : CPluto) (op : PlutoOp) :
    (op.act cry u).2.unused = cry.unused := by
  cases op with
  | encode msgId => rfl
  | shl f => rfl
  | endPluto => exact unused_endPluto cry u

/-! ## Room

The size rule of `Resize` makes room for any message of at most `HIGH_SIZE` bytes. -/

theorem toNat_newSize (n : UInt32) :
    (newSize n).toNat =
      if n.toNat ≤ MIDDLE_SIZE.toNat then MIDDLE_SIZE.toNat else HIGH_SIZE.toNat := by
  by_cases hle : n.toNat ≤ MIDDLE_SIZE.toNat
  · rw [if_pos hle, newSize]
    split_ifs with hlow hbig
    · rfl
    · rw [gt_iff_lt, UInt32.lt_iff_toNat_lt] at hbig
      omega
    · rw [UInt32.lt_iff_toNat_lt] at hlow
      omega
  · have hlow : ¬ n < MIDDLE_SIZE := by
      rw [UInt32.lt_iff_toNat_lt]
      omega
    have hbig : n > MIDDLE_SIZE := by
      rw [gt_iff_lt, UInt32.lt_iff_toNat_lt]
      omega
    rw [if_neg hle, newSize, if_neg hlow, if_pos hbig]

theorem le_newSize {n : ℕ} (h : n ≤ HIGH_SIZE.toNat) :
    n ≤ (newSize (UInt32.ofNat n * RESIZE_TIMES)).toNat := by
  have hhigh : HIGH_SIZE.toNat = 65536 := rfl
  have hdouble : (UInt32.ofNat n * RESIZE_TIMES).toNat = n * 2 := by
    rw [UInt32.toNat_mul, UInt32.toNat_ofNat', show RESIZE_TIMES.toNat = 2 from rfl]
    omega
  rw [toNat_newSize, hdouble]
  split_ifs with hmiddle
  · omega
  · exact h

theorem middle_le_newSize (n : UInt32) : MIDDLE_SIZE.toNat ≤ (newSize n).toNat := by
  rw [toNat_newSize]
  split_ifs
  · exact le_rfl
  · decide

/-- `Resize` never leaves a block too small for the header. -/
theorem header_le_resize {p : CPluto} (h : MSGLEN_TEXT_POS ≤ p.unBufferSize.toNat) (n : UInt32) :
    MSGLEN_TEXT_POS ≤ (p.resize n).unBufferSize.toNat := by
  rcases p.resize_cases n with ⟨-, hr⟩ | ⟨-, hr⟩ <;> rw [hr]
  · exact h
  · exact le_trans (by decide) (middle_le_newSize ((p.unLen + n) * RESIZE_TIMES))

@[simp] theorem unBufferSize_shlFixed (p : CPluto) (size : UInt32) (sz : List UInt8) :
    (p.shlFixed size sz).unBufferSize = (p.resize size).unBufferSize := rfl

/-- The room that `Resize` makes. -/
theorem le_resize {p : CPluto} {n : UInt32} (h : p.unLen.toNat + n.toNat ≤ HIGH_SIZE.toNat) :
    p.unLen.toNat + n.toNat ≤ (p.resize n).unBufferSize.toNat := by
  have hhigh : HIGH_SIZE.toNat = 65536 := rfl
  have hsum : (p.unLen + n).toNat = p.unLen.toNat + n.toNat := by
    rw [UInt32.toNat_add, Nat.mod_eq_of_lt (by omega)]
  rcases p.resize_cases n with ⟨hfit, hr⟩ | ⟨-, hr⟩ <;> rw [hr]
  · rwa [UInt32.le_iff_toNat_le, hsum] at hfit
  · have hnew := le_newSize h
    rwa [← hsum, UInt32.ofNat_toNat, hsum] at hnew

/-! ## Staying inside the block -/

/-- The cursor and every write so far are inside the block, and the block holds a header. -/
structure Sound (u : CPluto) : Prop where
  header_le : MSGLEN_TEXT_POS ≤ u.unBufferSize.toNat
  len_le : u.unLen.toNat ≤ u.unBufferSize.toNat
  writes : u.WritesInBounds

theorem WritesInBounds.store {p : CPluto} (h : p.WritesInBounds) {off : ℕ} {bs : List UInt8}
    (hle : off + bs.length ≤ p.unBufferSize.toNat) : (p.store off bs).WritesInBounds := by
  intro a ha hw
  rcases List.mem_cons.mp ha with rfl | ha
  · exact (Access.below_iff _ _).mpr (Or.inr hle)
  · exact h a ha hw

/-- A reallocation writes the old content into the new block. -/
theorem WritesInBounds.resize {p : CPluto} (h : p.WritesInBounds) {n : UInt32}
    (hle : p.unLen.toNat ≤ (p.resize n).unBufferSize.toNat) : (p.resize n).WritesInBounds := by
  rcases p.resize_cases n with ⟨-, hr⟩ | ⟨-, hr⟩ <;> rw [hr] at hle ⊢
  · exact h
  · intro a ha hw
    rcases List.mem_cons.mp ha with rfl | ha
    · refine (Access.below_iff _ _).mpr (Or.inr ?_)
      rw [Access.off, Access.len, Nat.zero_add]
      exact hle
    rcases List.mem_cons.mp ha with rfl | ha
    · exact absurd hw id
    · exact h a ha hw

theorem Sound.shlFixed {p : CPluto} (h : p.Sound) {size : UInt32} {sz : List UInt8}
    (hsize : size.toNat = sz.length) (hle : p.unLen.toNat + sz.length ≤ HIGH_SIZE.toNat) :
    (p.shlFixed size sz).Sound := by
  have hroom : p.unLen.toNat + sz.length ≤ (p.resize size).unBufferSize.toNat := by
    rw [← hsize] at hle ⊢
    exact le_resize hle
  have hhigh : HIGH_SIZE.toNat = 65536 := rfl
  refine ⟨header_le_resize h.header_le size, ?_, ?_⟩
  · rw [unLen_shlFixed, UInt32.toNat_add, hsize, Nat.mod_eq_of_lt (by omega)]
    exact hroom
  · exact (h.writes.resize (by omega)).store (by rwa [unLen_resize])

/-- `Encode` needs no more than room for a header. -/
theorem Sound.encode {p : CPluto} (hcap : MSGLEN_TEXT_POS ≤ p.unBufferSize.toNat)
    (h : p.WritesInBounds) (msgId : UInt16) : (p.encode msgId).Sound := by
  have h6 : 6 ≤ p.unBufferSize.toNat := le_trans (by decide) hcap
  have hlen : (p.setLen (UInt32.ofNat (MSGLEN_HEAD + MSGLEN_RESERVED))).Sound := ⟨hcap, h6, h⟩
  refine hlen.shlFixed (LittleEndian.length_toBytes ..).symm ?_
  rw [uint16ToSz, LittleEndian.length_toBytes, unLen_setLen]
  decide

theorem Sound.shl [Abi] {p : CPluto} (h : p.Sound) {f : Field} (hf : f.IsFixed)
    (hle : p.unLen.toNat + f.bytes.length ≤ MSGLEN_MAX) : (p.shl f).Sound := by
  have h8 := hf.bytes_length_le
  rw [shl_of_isFixed p hf]
  refine h.shlFixed ?_ (le_trans hle (by decide))
  rw [UInt32.toNat_ofNat', Nat.mod_eq_of_lt (by omega)]

theorem Sound.endPluto {u : CPluto} (h : u.Sound) (cry : CBitCryto) :
    (PlutoServer.endPluto cry u).1.Sound := by
  obtain ⟨m, uses, heq, huses⟩ := endPluto_eq cry u
  have hmax : max 8 u.unLen.toNat ≤ u.unBufferSize.toNat := max_le h.header_le h.len_le
  rw [heq]
  refine ⟨h.header_le, h.len_le, fun a ha hw => ?_⟩
  rcases List.mem_append.mp ha with ha | ha
  · obtain ⟨hcap, hbelow⟩ := huses a ha
    intro i hlo hhi
    have := hbelow i hlo hhi
    omega
  · exact h.writes a ha hw

/-- No call leaves a block too small for the header. -/
theorem header_le_step [Abi] {u : CPluto} (h : MSGLEN_TEXT_POS ≤ u.unBufferSize.toNat)
    (cry : CBitCryto) (op : PlutoOp) : MSGLEN_TEXT_POS ≤ (op.step cry u).unBufferSize.toNat := by
  cases op with
  | encode msgId =>
    rw [PlutoOp.step, PlutoOp.act, CPluto.encode, shlUint16, unBufferSize_shlFixed]
    exact header_le_resize (by rwa [unBufferSize_setLen]) _
  | endPluto => rwa [PlutoOp.step, PlutoOp.act, unBufferSize_endPluto]
  | shl f =>
    show MSGLEN_TEXT_POS ≤ (u.shl f).unBufferSize.toNat
    rcases u.shl_cases f with heq | ⟨str, q, rfl, heq⟩ | ⟨reads, heq⟩ <;> rw [heq]
    · rw [unBufferSize_shlFixed]
      exact header_le_resize h _
    · rw [unBufferSize_setLen, unBufferSize_store, unBufferSize_shlFixed]
      exact header_le_resize (header_le_resize h _) _
    · exact header_le_resize h _

/-! ## Refinement -/

/-- The content of `u` is the list `l`, except for the six bytes that `EndPluto` will write. -/
structure Refines (u : CPluto) (l : List UInt8) : Prop where
  header_le : MSGLEN_TEXT_POS ≤ l.length
  length_eq : u.content.length = l.length
  drop_eq : u.content.drop 6 = l.drop 6

theorem Refines.encode (p : CPluto) (msgId : UInt16) :
    Refines (p.encode msgId) (List.replicate 6 0 ++ uint16ToSz msgId) := by
  have hid : (uint16ToSz msgId).length = 2 := LittleEndian.length_toBytes ..
  refine ⟨?_, ?_, ?_⟩
  · rw [List.length_append, hid, List.length_replicate]
    decide
  · rw [content_encode, List.length_append, List.length_append, ByteMem.length_slice,
      List.length_replicate]
  · rw [content_encode, List.drop_left' (ByteMem.length_slice ..),
      List.drop_left' List.length_replicate]

theorem Refines.shl [Abi] {u : CPluto} {l : List UInt8} (h : Refines u l) {f : Field}
    (hfits : f.Fits) (hw : (u.shl f).WritesInBounds) : Refines (u.shl f) (l ++ f.bytes) := by
  have h6 : 6 ≤ l.length := le_trans (by decide) h.header_le
  rw [← h.length_eq] at h6
  refine ⟨?_, ?_, ?_⟩
  · rw [List.length_append]
    exact Nat.le_add_right_of_le h.header_le
  · rw [content_shl hfits hw, List.length_append, List.length_append, h.length_eq]
  · rw [content_shl hfits hw, List.drop_append_of_le_length h6, h.drop_eq,
      List.drop_append_of_le_length (h.length_eq ▸ h6)]

/-- After `EndPluto` nothing of the block's former content is left in the message. -/
theorem Refines.content_endPluto {u : CPluto} {l : List UInt8} (h : Refines u l)
    (cry : CBitCryto) : (endPluto cry u).1.content = AppendList.endPluto cry l := by
  set id := (l.drop 6).take 2 with hid
  have htext : MSGLEN_TEXT_POS = 8 := rfl
  have hle := h.header_le
  have hidlen : id.length = 2 := by
    rw [hid, List.length_take, List.length_drop]
    omega
  have hidsz : uint16ToSz (szToUint16 id) = id := by
    rw [uint16ToSz, toNat_szToUint16 hidlen, ← hidlen, LittleEndian.toBytes_ofBytes]
  have hcontent : u.content = u.content.take 6 ++ uint16ToSz (szToUint16 id) ++ l.drop 8 := by
    conv_lhs => rw [← List.take_append_drop 6 u.content, h.drop_eq,
      ← List.take_append_drop 2 (l.drop 6), List.drop_drop]
    rw [hidsz, List.append_assoc]
  have hlen : u.unLen = UInt32.ofNat l.length := by
    rw [← h.length_eq, length_content, UInt32.ofNat_toNat]
  have hpre : (u.content.take 6).length = 6 := by
    rw [List.length_take, h.length_eq]
    omega
  rw [PlutoServer.content_endPluto cry hpre hcontent, hlen, hidsz]
  rfl

theorem Refines.endPluto {u : CPluto} {l : List UInt8} (h : Refines u l) (cry : CBitCryto) :
    Refines (endPluto cry u).1 (AppendList.endPluto cry l) := by
  have hcontent := h.content_endPluto cry
  refine ⟨?_, congrArg _ hcontent, congrArg _ hcontent⟩
  rw [← hcontent, length_content, unLen_endPluto, ← length_content, h.length_eq]
  exact h.header_le

/-! ## One message -/

/-- The calls of a message of fixed-width fields that stays within `MSGLEN_MAX`. -/
def Within (u : CPluto) : PlutoOp → Prop
  | .shl f => f.IsFixed ∧ u.unLen.toNat + f.bytes.length ≤ MSGLEN_MAX
  | _ => True

/-- One call keeps the object sound and in step with the list. -/
theorem step_refines [Abi] {cry : CBitCryto} {u : CPluto} {l : List UInt8} {op : PlutoOp}
    (h : u.Sound ∧ Refines u l) (hop : u.Within op) :
    (op.step cry u).Sound ∧ Refines (op.step cry u) (AppendList.step cry l op) := by
  obtain ⟨hs, hr⟩ := h
  cases op with
  | encode msgId => exact ⟨Sound.encode hs.header_le hs.writes msgId, Refines.encode u msgId⟩
  | shl f =>
    have hs' := hs.shl hop.1 hop.2
    exact ⟨hs', hr.shl hop.1.fits hs'.writes⟩
  | endPluto => exact ⟨hs.endPluto cry, hr.endPluto cry⟩

/-- The length after a field that fits. -/
theorem unLen_shl [Abi] {u : CPluto} (h : u.Sound) {f : Field} (hf : f.IsFixed)
    (hle : u.unLen.toNat + f.bytes.length ≤ MSGLEN_MAX) :
    (u.shl f).unLen.toNat = u.unLen.toNat + f.bytes.length := by
  have hcontent := congrArg List.length (content_shl hf.fits (h.shl hf hle).writes)
  simpa using hcontent

/-- The calls after `Encode` stay within `MSGLEN_MAX` if the whole message does. -/
theorem guarded_fields [Abi] (cry : CBitCryto) {u : CPluto} (hs : u.Sound) {fields : List Field}
    (hfixed : ∀ f ∈ fields, f.IsFixed)
    (hlen : u.unLen.toNat + (fields.flatMap Field.bytes).length ≤ MSGLEN_MAX) :
    Guarded (fun u op => PlutoOp.step cry u op) Within u (fields.map .shl ++ [.endPluto]) := by
  induction fields generalizing u with
  | nil => exact ⟨trivial, trivial⟩
  | cons f fields ih =>
    rw [List.flatMap_cons, List.length_append] at hlen
    have hf := hfixed f List.mem_cons_self
    have hle : u.unLen.toNat + f.bytes.length ≤ MSGLEN_MAX := by omega
    refine ⟨⟨hf, hle⟩, ih (hs.shl hf hle) (fun g hg => hfixed g (List.mem_cons_of_mem f hg)) ?_⟩
    have hnext := unLen_shl hs hf hle
    show (u.shl f).unLen.toNat + _ ≤ _
    omega

section Session

variable [Abi] {cry : CBitCryto} {u : CPluto} {msgId : UInt16} {fields : List Field}

/-- After each call of a message the object is sound and in step with the list. -/
theorem session_refines (cry : CBitCryto) (hcap : MSGLEN_TEXT_POS ≤ u.unBufferSize.toNat)
    (hw : u.WritesInBounds) (hfixed : ∀ f ∈ fields, f.IsFixed)
    (hlen : MSGLEN_TEXT_POS + (fields.flatMap Field.bytes).length ≤ MSGLEN_MAX)
    {pre : List PlutoOp} (hpre : pre <+: session msgId fields) (hne : pre ≠ []) :
    (run (PlutoOp.step cry) u pre).Sound ∧
      Refines (run (PlutoOp.step cry) u pre) (run (AppendList.step cry) [] pre) := by
  obtain ⟨op, pre, rfl⟩ := List.exists_cons_of_ne_nil hne
  obtain ⟨rfl, htail⟩ := List.cons_prefix_cons.mp hpre
  have hs := Sound.encode hcap hw msgId
  have hguard := (guarded_fields cry hs hfixed (by rwa [toNat_unLen_encode])).of_isPrefix htail
  exact hguard.simulates (R := fun u l => u.Sound ∧ Refines u l)
    (fun _ _ _ h hop => step_refines h hop) ⟨hs, Refines.encode u msgId⟩

/-- The finished message is the list. -/
theorem content_session (hcap : MSGLEN_TEXT_POS ≤ u.unBufferSize.toNat) (hw : u.WritesInBounds)
    (hfixed : ∀ f ∈ fields, f.IsFixed)
    (hlen : MSGLEN_TEXT_POS + (fields.flatMap Field.bytes).length ≤ MSGLEN_MAX) :
    (run (PlutoOp.step cry) u (session msgId fields)).content =
      run (AppendList.step cry) [] (session msgId fields) := by
  set calls : List PlutoOp := .encode msgId :: fields.map .shl with hcalls
  have hsplit : session msgId fields = calls ++ [.endPluto] := rfl
  have hprefix : calls <+: session msgId fields := hsplit ▸ List.prefix_append ..
  obtain ⟨-, hr⟩ := session_refines cry hcap hw hfixed hlen hprefix (List.cons_ne_nil _ _)
  rw [hsplit, run_append, run_append]
  exact hr.content_endPluto cry

end Session

end CPluto

/-! ## Many messages -/

/-- Fresh objects of the given capacities and the shared cipher at `nIdx`. -/
def plutoSystem {ι : Type} (caps : ι → UInt32) (fresh : ι → ℕ → ByteMem) (nIdx : ℕ) :
    System ι CPluto CBitCryto where
  objs i := CPluto.new (caps i) (fresh i)
  shared := sgMycryto nIdx

/-- A call on one of the objects. -/
def plutoStep [Abi] {ι : Type} [DecidableEq ι] :
    System ι CPluto CBitCryto → ι × PlutoOp → System ι CPluto CBitCryto :=
  Interleaving.step fun cry u op => op.act cry u

/-- Other objects have no part in what happens to an object, since `EndPluto` resets the cipher. -/
theorem plutoStep_objs [Abi] {ι : Type} [DecidableEq ι] (s : System ι CPluto CBitCryto)
    (ops : List (ι × PlutoOp)) (k : ι) :
    (run plutoStep s ops).objs k =
      run (PlutoOp.step s.shared.unused) (s.objs k) (opsOf k ops) :=
  run_objs CBitCryto.unused PlutoOp.step CPluto.act_fst_unused CPluto.unused_act s ops k

open CPluto in
/-- **Append-buffer refinement.** Take objects of any capacities that hold a header, any calls on
them, and then calls among which those on `k` are the calls of one message of fixed-width fields no
longer than `MSGLEN_MAX`. Unless a write on `k` had gone past its capacity before, the cursor and
all writes of `k` stay inside the block after every call, its content is the append-only list, which
a reallocation keeps, and the finished message is `frame msgId fields`. So it is the same for any
two objects. -/
theorem run_session_frame [Abi] {ι : Type} [DecidableEq ι] (caps : ι → UInt32)
    (hcaps : ∀ i, MSGLEN_TEXT_POS ≤ (caps i).toNat) (fresh : ι → ℕ → ByteMem) (nIdx : ℕ)
    (hist : List (ι × PlutoOp)) (msgId : UInt16) (fields : List Field)
    (hfixed : ∀ f ∈ fields, f.IsFixed)
    (hlen : MSGLEN_TEXT_POS + (fields.flatMap Field.bytes).length ≤ MSGLEN_MAX)
    (ops : List (ι × PlutoOp)) (k : ι) :
    let s := run plutoStep (plutoSystem caps fresh nIdx) hist
    (s.objs k).WritesInBounds → opsOf k ops = session msgId fields →
    (∀ pre, pre <+: ops → opsOf k pre ≠ [] →
      let u := (run plutoStep s pre).objs k
      u.unLen ≤ u.unBufferSize ∧ u.WritesInBounds ∧
        Refines u (run (AppendList.step (sgMycryto 0)) [] (opsOf k pre)) ∧
        ∀ n, (u.resize n).content = u.content) ∧
    ((run plutoStep s ops).objs k).content = frame msgId fields ∧
    ∀ k', (s.objs k').WritesInBounds → opsOf k' ops = session msgId fields →
      ((run plutoStep s ops).objs k').content = ((run plutoStep s ops).objs k).content := by
  intro s hw hops
  -- whatever went before, `EndPluto` starts from the same cipher
  have hunused : s.shared.unused = sgMycryto 0 :=
    view_run CBitCryto.unused CPluto.unused_act (plutoSystem caps fresh nIdx) hist
  -- and every block still has room for a header, since `Resize` never shrinks it below that
  have hcap (i : ι) : MSGLEN_TEXT_POS ≤ (s.objs i).unBufferSize.toNat := by
    have hobj := plutoStep_objs (plutoSystem caps fresh nIdx) hist i
    rw [show s.objs i = _ from hobj]
    exact run_inv (P := fun u : CPluto => MSGLEN_TEXT_POS ≤ u.unBufferSize.toNat) _
      (fun u op h => header_le_step h _ op) (hcaps i)
  have hframe (i : ι) (hw : (s.objs i).WritesInBounds) (hops : opsOf i ops = session msgId fields) :
      ((run plutoStep s ops).objs i).content = frame msgId fields := by
    rw [plutoStep_objs, hops, hunused]
    exact content_session (hcap i) hw hfixed hlen
  refine ⟨fun pre hpre hne => ?_, hframe k hw hops, fun k' hw' hops' => ?_⟩
  · have hpre' : opsOf k pre <+: session msgId fields := hops ▸ opsOf_isPrefix k hpre
    obtain ⟨hs, hr⟩ := session_refines (sgMycryto 0) (hcap k) hw hfixed hlen hpre' hne
    rw [plutoStep_objs, hunused]
    exact ⟨UInt32.le_iff_toNat_le.mpr hs.len_le, hs.writes, hr, content_resize _⟩
  · rw [hframe k hw hops, hframe k' hw' hops']

/-- A message in a used object of eight bytes and the same message in a larger fresh one, with their
calls interleaved. -/
theorem run_session_frame_interleaved :
    letI := Abi.x64
    let s := run plutoStep (plutoSystem (fun b : Bool => if b then 8 else 256) (fun _ _ _ => 205) 3)
      [(true, .encode 9), (true, .endPluto)]
    let ops := [(true, .encode 7), (false, .encode 7), (false, .shl ⟨.bool, true⟩),
      (true, .shl ⟨.bool, true⟩), (true, .endPluto), (false, .endPluto)]
    ((run plutoStep s ops).objs true).content = ((run plutoStep s ops).objs false).content :=
  letI := Abi.x64
  (run_session_frame (fun b : Bool => if b then 8 else 256) (by decide) (fun _ _ _ => 205) 3
    [(true, .encode 9), (true, .endPluto)] 7 [⟨.bool, true⟩] (by decide) (by decide)
    [(true, .encode 7), (false, .encode 7), (false, .shl ⟨.bool, true⟩),
      (true, .shl ⟨.bool, true⟩), (true, .endPluto), (false, .endPluto)] false
    (by decide) rfl).2.2 true (by decide) rfl

end PlutoServer
