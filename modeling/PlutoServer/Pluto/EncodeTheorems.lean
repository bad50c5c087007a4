import PlutoServer.Pluto.Encode

/-!
# The bytes of a built message

What `<<` does to the bytes before the cursor is said once for the fixed-width overloads
(`content_shlFixed`) and once for all twelve (`content_shl`): as long as no write goes past the
capacity, the bytes of the field are added at the end and nothing before them changes. A
reallocation keeps these bytes whatever the new block contained (`content_resize`).

`content_endPluto` is the same for `EndPluto`, in terms of the list of bytes it finds.
-/

namespace PlutoServer

/-! ## The wire image of a field -/

/-- The bytes that a field takes on the wire. -/
def Field.bytes : Field → List UInt8
  | ⟨.uint8, v⟩ => LittleEndian.toBytes 1 v.toNat
  | ⟨.uint16, v⟩ => LittleEndian.toBytes 2 v.toNat
  | ⟨.uint32, v⟩ => LittleEndian.toBytes 4 v.toNat
  | ⟨.uint64, v⟩ => LittleEndian.toBytes 8 v.toNat
  | ⟨.int8, v⟩ => LittleEndian.toBytes 1 v.toUInt8.toNat
  | ⟨.int16, v⟩ => LittleEndian.toBytes 2 v.toUInt16.toNat
  | ⟨.int32, v⟩ => LittleEndian.toBytes 4 v.toUInt32.toNat
  | ⟨.int64, v⟩ => LittleEndian.toBytes 8 v.toUInt64.toNat
  | ⟨.float32, v⟩ => LittleEndian.toBytes 4 v.toNat
  | ⟨.float64, v⟩ => LittleEndian.toBytes 8 v.toNat
  | ⟨.bool, v⟩ => [if v then 1 else 0]
  | ⟨.string, v⟩ => LittleEndian.toBytes 2 v.length ++ v

/-- A string is refused when it is longer than `MAX_LEN`; every other field fits. -/
def Field.Fits : Field → Prop
  | ⟨.string, v⟩ => v.length ≤ CPluto.MAX_LEN
  | _ => True

instance : DecidablePred Field.Fits
  | ⟨.string, v⟩ => inferInstanceAs (Decidable (v.length ≤ CPluto.MAX_LEN))
  | ⟨.uint8, _⟩ | ⟨.uint16, _⟩ | ⟨.uint32, _⟩ | ⟨.uint64, _⟩ | ⟨.int8, _⟩ | ⟨.int16, _⟩
  | ⟨.int32, _⟩ | ⟨.int64, _⟩ | ⟨.float32, _⟩ | ⟨.float64, _⟩ | ⟨.bool, _⟩ =>
    inferInstanceAs (Decidable True)

/-- A string that takes no more bytes than a length can count fits. -/
theorem Field.fits_of_length_le {f : Field} (h : f.bytes.length ≤ 65536) : f.Fits := by
  obtain ⟨t, v⟩ := f
  cases t with
  | string =>
    have hlen : 2 + v.length ≤ 65536 := by simpa [Field.bytes] using h
    show v.length ≤ 65534
    omega
  | _ => trivial

/-- Every field takes at least one byte. -/
theorem Field.bytes_length_pos (f : Field) : 0 < f.bytes.length := by
  obtain ⟨t, v⟩ := f
  cases t <;> simp [Field.bytes]

/-- The fields of fixed width. -/
def Field.IsFixed (f : Field) : Prop := f.1 ≠ .string

instance : DecidablePred Field.IsFixed := fun f => inferInstanceAs (Decidable (f.1 ≠ .string))

theorem Field.IsFixed.fits {f : Field} (h : f.IsFixed) : f.Fits := by
  obtain ⟨t, v⟩ := f
  cases t with
  | string => exact absurd rfl h
  | _ => trivial

/-- A field of fixed width takes at most eight bytes. -/
theorem Field.IsFixed.bytes_length_le {f : Field} (h : f.IsFixed) : f.bytes.length ≤ 8 := by
  obtain ⟨t, v⟩ := f
  cases t with
  | string => exact absurd rfl h
  | _ => simp [Field.bytes]

namespace CPluto

/-! ## Growing the buffer -/

/-- A reallocation moves the bytes before the cursor over, whatever the new block contained. -/
@[simp] theorem content_realloc (p : CPluto) (cap : UInt32) :
    (p.realloc cap).content = p.content := by
  have h := ByteMem.slice_write_self (p.fresh 0) 0 p.content
  rwa [length_content] at h

/-- `Resize` either leaves the object alone or exchanges the block. -/
theorem resize_cases (p : CPluto) (n : UInt32) :
    (p.unLen + n ≤ p.unBufferSize ∧ p.resize n = p) ∨
      (¬ p.unLen + n ≤ p.unBufferSize ∧
        p.resize n = p.realloc (newSize ((p.unLen + n) * RESIZE_TIMES))) := by
  by_cases h : p.unLen + n ≤ p.unBufferSize
  · exact Or.inl ⟨h, by rw [resize, if_pos h]⟩
  · exact Or.inr ⟨h, by rw [resize, if_neg h]⟩

@[simp] theorem content_resize (p : CPluto) (n : UInt32) : (p.resize n).content = p.content := by
  rcases p.resize_cases n with ⟨-, h⟩ | ⟨-, h⟩ <;> simp [h]

@[simp] theorem unLen_resize (p : CPluto) (n : UInt32) : (p.resize n).unLen = p.unLen := by
  rcases p.resize_cases n with ⟨-, h⟩ | ⟨-, h⟩ <;> rw [h]; rfl

@[simp] theorem unDecodeErrIdx_resize (p : CPluto) (n : UInt32) :
    (p.resize n).unDecodeErrIdx = p.unDecodeErrIdx := by
  rcases p.resize_cases n with ⟨-, h⟩ | ⟨-, h⟩ <;> rw [h]; rfl

theorem suffix_resize (p : CPluto) (n : UInt32) : p.accesses <:+ (p.resize n).accesses := by
  rcases p.resize_cases n with ⟨-, h⟩ | ⟨-, h⟩
  · simp only [h, List.suffix_rfl]
  · rw [h]
    exact (List.suffix_cons ..).trans (List.suffix_cons ..)

/-! ## One field -/

theorem suffix_store (p : CPluto) (off : ℕ) (bs : List UInt8) :
    p.accesses <:+ (p.store off bs).accesses :=
  List.suffix_cons ..

@[simp] theorem unLen_shlFixed (p : CPluto) (size : UInt32) (sz : List UInt8) :
    (p.shlFixed size sz).unLen = p.unLen + size := by
  simp [shlFixed]

@[simp] theorem unDecodeErrIdx_shlFixed (p : CPluto) (size : UInt32) (sz : List UInt8) :
    (p.shlFixed size sz).unDecodeErrIdx = p.unDecodeErrIdx := by
  simp [shlFixed]

theorem suffix_shlFixed (p : CPluto) (size : UInt32) (sz : List UInt8) :
    p.accesses <:+ (p.shlFixed size sz).accesses :=
  (p.suffix_resize size).trans (suffix_store _ _ sz)

/-- Storing at the cursor and advancing it by what was stored appends to the content. -/
theorem content_append (p : CPluto) {size : UInt32} {sz : List UInt8}
    (hsize : size.toNat = sz.length) (hlen : p.unLen.toNat + sz.length < 2 ^ 32) :
    ((p.store p.unLen.toNat sz).setLen (p.unLen + size)).content = p.content ++ sz := by
  have hsum : (p.unLen + size).toNat = p.unLen.toNat + sz.length := by
    rw [UInt32.toNat_add, hsize, Nat.mod_eq_of_lt hlen]
  have h := ByteMem.slice_write_end p.szBuffer 0 p.unLen.toNat sz
  rw [Nat.zero_add] at h
  rwa [content, setLen, hsum]

theorem content_shlFixed (p : CPluto) {size : UInt32} {sz : List UInt8}
    (hsize : size.toNat = sz.length) (hlen : p.unLen.toNat + sz.length < 2 ^ 32) :
    (p.shlFixed size sz).content = p.content ++ sz := by
  rw [← p.content_resize size]
  exact content_append _ hsize (by rwa [unLen_resize])

/-- The store of a fixed-width `<<`, as it is found in the record of accesses. -/
theorem le_of_shlFixed_inBounds {p : CPluto} {size : UInt32} {sz : List UInt8}
    (h : (p.shlFixed size sz).WritesInBounds) (hpos : 0 < sz.length) :
    p.unLen.toNat + sz.length ≤ (p.resize size).unBufferSize.toNat := by
  have hw := h (.write (p.resize size).unLen.toNat sz.length (p.resize size).unBufferSize.toNat)
    List.mem_cons_self trivial
  rw [Access.InBounds, Access.below_iff, unLen_resize] at hw
  simp only [Access.len, Access.off, Access.cap] at hw
  omega

/-- A fixed-width `<<` stores the bytes of the field. -/
theorem shl_of_isFixed [Abi] (p : CPluto) {f : Field} (h : f.IsFixed) :
    p.shl f = p.shlFixed (UInt32.ofNat f.bytes.length) f.bytes := by
  obtain ⟨t, v⟩ := f
  cases t with
  | string => exact absurd rfl h
  | uint8 =>
    simp [shl, shlUint8, uint8ToSz, Field.bytes, LittleEndian.toBytes]
  | int8 =>
    simp [shl, shlInt8, shlUint8, uint8ToSz, Field.bytes, LittleEndian.toBytes]
  | _ =>
    simp [shl, shlUint16, shlUint32, shlUint64, shlInt16, shlInt32, shlInt64, shlFloat32,
      shlFloat64, shlBool, uint8ToSz, uint16ToSz, uint32ToSz, uint64ToSz, float32ToSz,
      float64ToSz, Field.bytes]

/-- A string that fits is appended as its length and then its bytes. -/
theorem shl_of_string [Abi] (p : CPluto) {str : List UInt8} (h : str.length ≤ MAX_LEN) :
    p.shl ⟨.string, str⟩ =
      let q := (p.resize Abi.sizeofString).shlFixed 2 (LittleEndian.toBytes 2 str.length)
      (q.store q.unLen.toNat str).setLen (q.unLen + UInt32.ofNat str.length) := by
  have hsize : (UInt16.ofNat str.length).toNat = str.length := by
    rw [UInt16.toNat_ofNat', Nat.mod_eq_of_lt (by simp only [MAX_LEN] at h; omega)]
  simp only [shl, shlString, if_neg (Nat.not_lt.mpr h), shlUint16, uint16ToSz, hsize]
  rfl

/-- `PrintHex` only reads. -/
theorem printHex_eq (p : CPluto) (off n : ℕ) :
    ∃ reads, p.printHex off n = { p with accesses := reads ++ p.accesses } ∧
      ∀ a ∈ reads, ¬ a.IsWrite := by
  rw [printHex]
  generalize List.range (n / 16 + 1) = rows
  induction rows generalizing p with
  | nil => exact ⟨[], rfl, by simp⟩
  | cons i rows ih =>
    obtain ⟨reads, h, hreads⟩ := ih
      (if i = n / 16 + 1 - 1 then p.printHex16 (off + i * 16) (n % 16)
        else p.printHex16 (off + i * 16) 16)
    rw [List.foldl_cons, h]
    split_ifs with hlast
    · exact ⟨reads ++ [.read (off + i * 16) (n % 16) p.unBufferSize.toNat],
        by simp [printHex16, touch], by simpa [Access.IsWrite, or_imp, forall_and] using hreads⟩
    · exact ⟨reads ++ [.read (off + i * 16) 16 p.unBufferSize.toNat],
        by simp [printHex16, touch], by simpa [Access.IsWrite, or_imp, forall_and] using hreads⟩

/-- A string that does not fit leaves the message as it is, up to a reallocation. -/
theorem shl_of_not_fits [Abi] (p : CPluto) {f : Field} (h : ¬ f.Fits) :
    ∃ reads, p.shl f = { p.resize Abi.sizeofString with
        bEncodeErr := false
        accesses := reads ++ (p.resize Abi.sizeofString).accesses } ∧
      ∀ a ∈ reads, ¬ a.IsWrite := by
  obtain ⟨t, v⟩ := f
  cases t with
  | string =>
    obtain ⟨reads, heq, hreads⟩ :=
      ((p.resize Abi.sizeofString).setEncodeErr false).printHex_eq
        (p.resize Abi.sizeofString).unLen.toNat PRINT_LEN
    refine ⟨reads, ?_, hreads⟩
    rw [shl, shlString, if_pos (Nat.lt_of_not_le h), heq]
    rfl
  | _ => exact absurd trivial h

/-- The outcomes of `<<`: the bytes of a fixed-width field, a string with its length, or nothing. -/
theorem shl_cases [Abi] (p : CPluto) (f : Field) :
    p.shl f = p.shlFixed (UInt32.ofNat f.bytes.length) f.bytes ∨
    (∃ str q, q = (p.resize Abi.sizeofString).shlFixed 2 (LittleEndian.toBytes 2 str.length) ∧
      p.shl f = (q.store q.unLen.toNat str).setLen (q.unLen + UInt32.ofNat str.length)) ∨
    ∃ reads, p.shl f = { p.resize Abi.sizeofString with
      bEncodeErr := false
      accesses := reads ++ (p.resize Abi.sizeofString).accesses } := by
  by_cases hfits : f.Fits
  · by_cases hfixed : f.IsFixed
    · exact Or.inl (shl_of_isFixed p hfixed)
    · obtain ⟨t, str⟩ := f
      obtain rfl : t = .string := Decidable.not_not.mp hfixed
      exact Or.inr (Or.inl ⟨str, _, rfl, shl_of_string p hfits⟩)
  · obtain ⟨reads, heq, -⟩ := shl_of_not_fits p hfits
    exact Or.inr (Or.inr ⟨reads, heq⟩)

theorem suffix_shl [Abi] (p : CPluto) (f : Field) : p.accesses <:+ (p.shl f).accesses := by
  rcases p.shl_cases f with heq | ⟨str, q, rfl, heq⟩ | ⟨reads, heq⟩ <;> rw [heq]
  · exact p.suffix_shlFixed _ _
  · rw [accesses_setLen]
    exact ((p.suffix_resize _).trans (suffix_shlFixed _ _ _)).trans (suffix_store _ _ str)
  · exact (p.suffix_resize _).trans (List.suffix_append ..)

theorem unDecodeErrIdx_shl [Abi] (p : CPluto) (f : Field) :
    (p.shl f).unDecodeErrIdx = p.unDecodeErrIdx := by
  rcases p.shl_cases f with heq | ⟨str, q, rfl, heq⟩ | ⟨reads, heq⟩ <;> rw [heq]
  · exact p.unDecodeErrIdx_shlFixed _ _
  · rw [unDecodeErrIdx_setLen, unDecodeErrIdx_store, unDecodeErrIdx_shlFixed,
      unDecodeErrIdx_resize]
  · exact p.unDecodeErrIdx_resize _

/-- **Appending a field.** As long as the length does not wrap around, `<<` adds the bytes of the
field behind the cursor and keeps everything before it. -/
theorem content_shl_of_lt [Abi] {p : CPluto} {f : Field} (hfits : f.Fits)
    (hlt : p.unLen.toNat + f.bytes.length < 2 ^ 32) :
    (p.shl f).content = p.content ++ f.bytes := by
  by_cases hfixed : f.IsFixed
  · rw [shl_of_isFixed p hfixed]
    refine content_shlFixed p ?_ hlt
    rw [UInt32.toNat_ofNat', Nat.mod_eq_of_lt (by omega)]
  · obtain ⟨t, str⟩ := f
    obtain rfl : t = .string := Decidable.not_not.mp hfixed
    rw [show (Field.bytes ⟨.string, str⟩).length = 2 + str.length by simp [Field.bytes]] at hlt
    rw [shl_of_string p hfits]
    set q := (p.resize Abi.sizeofString).shlFixed 2 (LittleEndian.toBytes 2 str.length) with hq
    have hcontent : q.content = p.content ++ LittleEndian.toBytes 2 str.length := by
      rw [hq, content_shlFixed _ (by simp) (by simp; omega), content_resize]
    have hqlen : q.unLen.toNat = p.unLen.toNat + 2 := by
      simpa using congrArg List.length hcontent
    show ((q.store q.unLen.toNat str).setLen (q.unLen + UInt32.ofNat str.length)).content = _
    rw [content_append q ?_ (by omega), hcontent, List.append_assoc]
    · rfl
    · rw [UInt32.toNat_ofNat', Nat.mod_eq_of_lt (by omega)]

/-- A length cannot wrap around without a write past the capacity. -/
theorem lt_of_shl_inBounds [Abi] {p : CPluto} {f : Field} (hfits : f.Fits)
    (h : (p.shl f).WritesInBounds) : p.unLen.toNat + f.bytes.length < 2 ^ 32 := by
  by_cases hfixed : f.IsFixed
  · rw [shl_of_isFixed p hfixed] at h
    have hcap := le_of_shlFixed_inBounds h f.bytes_length_pos
    have hlt := (p.resize (UInt32.ofNat f.bytes.length)).unBufferSize.toNat_lt
    omega
  · obtain ⟨t, str⟩ := f
    obtain rfl : t = .string := Decidable.not_not.mp hfixed
    rw [shl_of_string p hfits] at h
    rw [show (Field.bytes ⟨.string, str⟩).length = 2 + str.length by simp [Field.bytes]]
    set q := (p.resize Abi.sizeofString).shlFixed 2 (LittleEndian.toBytes 2 str.length) with hq
    have hcap := le_of_shlFixed_inBounds (h.of_suffix (suffix_store q q.unLen.toNat str)) (by simp)
    have hlt := ((p.resize Abi.sizeofString).resize 2).unBufferSize.toNat_lt
    rw [LittleEndian.length_toBytes, unLen_resize] at hcap
    have hqlen : q.unLen.toNat = p.unLen.toNat + 2 := by
      rw [hq, unLen_shlFixed, unLen_resize, UInt32.toNat_add]
      exact Nat.mod_eq_of_lt (by show p.unLen.toNat + 2 < 2 ^ 32; omega)
    -- `Resize` makes no room for the bytes of the string; that they are in bounds is `h`
    have hwrite := h (.write q.unLen.toNat str.length q.unBufferSize.toNat)
      List.mem_cons_self trivial
    rw [Access.InBounds, Access.below_iff] at hwrite
    simp only [Access.len, Access.off, Access.cap] at hwrite
    have hqlt := q.unBufferSize.toNat_lt
    omega

/-- Unless a write went past the capacity, `<<` appends the bytes of the field. -/
theorem content_shl [Abi] {p : CPluto} {f : Field} (hfits : f.Fits)
    (h : (p.shl f).WritesInBounds) : (p.shl f).content = p.content ++ f.bytes :=
  content_shl_of_lt hfits (lt_of_shl_inBounds hfits h)

/-! ## Building a message -/

theorem suffix_foldl_shl [Abi] (p : CPluto) (fields : List Field) :
    p.accesses <:+ (fields.foldl shl p).accesses := by
  induction fields generalizing p with
  | nil => exact List.suffix_rfl
  | cons f fields ih => exact (p.suffix_shl f).trans (ih (p.shl f))

theorem unDecodeErrIdx_foldl_shl [Abi] (p : CPluto) (fields : List Field) :
    (fields.foldl shl p).unDecodeErrIdx = p.unDecodeErrIdx := by
  induction fields generalizing p with
  | nil => rfl
  | cons f fields ih => rw [List.foldl_cons, ih, unDecodeErrIdx_shl]

/-- The fields of a list are appended one after the other. -/
theorem content_foldl_shl_of_lt [Abi] {p : CPluto} {fields : List Field}
    (hfits : ∀ f ∈ fields, f.Fits)
    (hlt : p.unLen.toNat + (fields.flatMap Field.bytes).length < 2 ^ 32) :
    (fields.foldl shl p).content = p.content ++ fields.flatMap Field.bytes := by
  induction fields generalizing p with
  | nil => simp
  | cons f fields ih =>
    rw [List.flatMap_cons, List.length_append] at hlt
    have hf := content_shl_of_lt (p := p) (hfits f List.mem_cons_self) (by omega)
    have hlen : (p.shl f).unLen.toNat = p.unLen.toNat + f.bytes.length := by
      simpa using congrArg List.length hf
    rw [List.foldl_cons, ih (fun g hg => hfits g (List.mem_cons_of_mem f hg)) (by omega), hf,
      List.flatMap_cons, List.append_assoc]

/-- The same for lists that stay inside the capacity. -/
theorem content_foldl_shl [Abi] {p : CPluto} {fields : List Field} (hfits : ∀ f ∈ fields, f.Fits)
    (h : (fields.foldl shl p).WritesInBounds) :
    (fields.foldl shl p).content = p.content ++ fields.flatMap Field.bytes := by
  induction fields generalizing p with
  | nil => simp
  | cons f fields ih =>
    have hf : (p.shl f).WritesInBounds := h.of_suffix ((p.shl f).suffix_foldl_shl fields)
    rw [List.foldl_cons, ih (fun g hg => hfits g (List.mem_cons_of_mem f hg)) h,
      content_shl (hfits f List.mem_cons_self) hf, List.flatMap_cons, List.append_assoc]

theorem toNat_unLen_encode (p : CPluto) (msgId : UInt16) :
    (p.encode msgId).unLen.toNat = MSGLEN_TEXT_POS := by
  rw [encode, shlUint16, unLen_shlFixed, unLen_setLen]
  rfl

/-- `Encode` sets the cursor behind the header; the bytes before the id are still what they were. -/
theorem content_encode (p : CPluto) (msgId : UInt16) :
    (p.encode msgId).content = p.szBuffer.slice 0 6 ++ uint16ToSz msgId :=
  content_shlFixed _ rfl (by simp [uint16ToSz, MSGLEN_HEAD, MSGLEN_RESERVED])

/-- The content of a message before `EndPluto`: six bytes of whatever was there, the id, the text.
-/
theorem content_build [Abi] {p : CPluto} {msgId : UInt16} {fields : List Field}
    (hfits : ∀ f ∈ fields, f.Fits) (h : (p.build msgId fields).WritesInBounds) :
    (p.build msgId fields).content =
      p.szBuffer.slice 0 6 ++ uint16ToSz msgId ++ fields.flatMap Field.bytes := by
  rw [build, content_foldl_shl hfits h, content_encode]

/-! ## Finishing a message -/

/-- The loop of `EndPluto` replaces the bytes it runs over by their encryption and touches no other
byte. -/
theorem cryptLoop_eq (i n : ℕ) (u : CPluto) (cry : CBitCryto) :
    ∃ uses, cryptLoop i n u cry =
        ({ u with
            szBuffer := u.szBuffer.write i (cry.encodeAll (u.szBuffer.slice i n)).1
            accesses := uses ++ u.accesses },
          (cry.encodeAll (u.szBuffer.slice i n)).2) ∧
      ∀ a ∈ uses, a.cap = u.unBufferSize.toNat ∧ a.Below (i + n) := by
  induction n generalizing i u cry with
  | zero =>
    refine ⟨[], ?_, by simp⟩
    have hnil : u.szBuffer.write i [] = u.szBuffer := by
      funext k
      simp [ByteMem.write]
    simp [cryptLoop, CBitCryto.encodeAll, hnil]
  | succ n ih =>
    obtain ⟨uses, h, huses⟩ :=
      ih (i + 1) ((u.touch i 1).store i [(cry.encode (u.szBuffer i)).1])
        (cry.encode (u.szBuffer i)).2
    -- the bytes that are left are still those of `u`
    have htail : (u.szBuffer.write i [(cry.encode (u.szBuffer i)).1]).slice (i + 1) n =
        u.szBuffer.slice (i + 1) n :=
      ByteMem.slice_write_of_disjoint _ _ (Or.inr (by simp))
    have hwrite := ByteMem.write_cons u.szBuffer i (cry.encode (u.szBuffer i)).1
      ((cry.encode (u.szBuffer i)).2.encodeAll (u.szBuffer.slice (i + 1) n)).1
    refine ⟨uses ++ [.write i 1 u.unBufferSize.toNat, .read i 1 u.unBufferSize.toNat], ?_, ?_⟩
    · rw [cryptLoop, h, ByteMem.slice_succ]
      simp only [szBuffer_store, szBuffer_touch, htail, CBitCryto.encodeAll, hwrite]
      simp [store, touch]
    · intro a ha
      simp only [List.mem_append, List.mem_cons, List.not_mem_nil, or_false] at ha
      rcases ha with ha | rfl | rfl
      · refine ⟨(huses a ha).1, ?_⟩
        rw [show i + (n + 1) = i + 1 + n by omega]
        exact (huses a ha).2
      · exact ⟨rfl, (Access.below_iff _ _).mpr (Or.inr (by simp [Access.off, Access.len]))⟩
      · exact ⟨rfl, (Access.below_iff _ _).mpr (Or.inr (by simp [Access.off, Access.len]))⟩

/-- `EndPluto` changes the block and `m_unMaxLen` only, inside the header and the text. -/
theorem endPluto_eq (cry : CBitCryto) (u : CPluto) :
    ∃ m uses, (endPluto cry u).1 =
        { u with szBuffer := m, unMaxLen := u.unLen, accesses := uses ++ u.accesses } ∧
      ∀ a ∈ uses, a.cap = u.unBufferSize.toNat ∧ a.Below (max 8 u.unLen.toNat) := by
  set v := u.endHead.touch (MSGLEN_HEAD + MSGLEN_RESERVED) MSGLEN_MSGID with hv
  set head : List Access := [.read 6 2 u.unBufferSize.toNat, .write 5 1 u.unBufferSize.toNat,
    .write 4 1 u.unBufferSize.toNat, .write 0 4 u.unBufferSize.toNat] with hhead
  have hveq : v = { u with
      szBuffer := v.szBuffer, unMaxLen := u.unLen, accesses := head ++ u.accesses } := rfl
  -- a message shorter than its header still gets the whole header
  have hin : ∀ a ∈ head, a.cap = u.unBufferSize.toNat ∧ a.Below (max 8 u.unLen.toNat) := by
    intro a ha
    rw [Access.below_iff]
    simp only [hhead, List.mem_cons, List.not_mem_nil, or_false] at ha
    rcases ha with rfl | rfl | rfl | rfl <;>
      exact ⟨rfl, Or.inr (by simp only [Access.off, Access.len]; omega)⟩
  rw [endPluto]
  split_ifs with hid
  · obtain ⟨uses, h, huses⟩ :=
      cryptLoop_eq MSGLEN_TEXT_POS (v.unLen.toNat - MSGLEN_TEXT_POS) v cry.reset
    refine ⟨_, uses ++ head, by rw [h, hveq, List.append_assoc], ?_⟩
    intro a ha
    rcases List.mem_append.mp ha with ha | ha
    · refine ⟨(huses a ha).1, fun i hlo hhi => ?_⟩
      have hi := (huses a ha).2 i hlo hhi
      have htext : MSGLEN_TEXT_POS = 8 := rfl
      have hlen : v.unLen = u.unLen := rfl
      rw [htext, hlen] at hi
      omega
    · exact hin a ha
  · exact ⟨v.szBuffer, head, hveq, hin⟩

@[simp] theorem unLen_endPluto (cry : CBitCryto) (u : CPluto) :
    (endPluto cry u).1.unLen = u.unLen := by
  obtain ⟨m, uses, h, -⟩ := endPluto_eq cry u
  rw [h]

@[simp] theorem unMaxLen_endPluto (cry : CBitCryto) (u : CPluto) :
    (endPluto cry u).1.unMaxLen = u.unLen := by
  obtain ⟨m, uses, h, -⟩ := endPluto_eq cry u
  rw [h]

@[simp] theorem unBufferSize_endPluto (cry : CBitCryto) (u : CPluto) :
    (endPluto cry u).1.unBufferSize = u.unBufferSize := by
  obtain ⟨m, uses, h, -⟩ := endPluto_eq cry u
  rw [h]

@[simp] theorem unDecodeErrIdx_endPluto (cry : CBitCryto) (u : CPluto) :
    (endPluto cry u).1.unDecodeErrIdx = u.unDecodeErrIdx := by
  obtain ⟨m, uses, h, -⟩ := endPluto_eq cry u
  rw [h]

theorem suffix_endPluto (cry : CBitCryto) (u : CPluto) :
    u.accesses <:+ (endPluto cry u).1.accesses := by
  obtain ⟨m, uses, h, -⟩ := endPluto_eq cry u
  rw [h]
  exact List.suffix_append ..

/-- The block after the header has been filled in. -/
theorem slice_endHead (u : CPluto) (n : ℕ) :
    u.endHead.szBuffer.slice 0 (8 + n) =
      uint32ToSz u.unLen ++ [0, 0] ++ u.szBuffer.slice 6 2 ++ u.szBuffer.slice 8 n := by
  have hlen : (uint32ToSz u.unLen).length = 4 := LittleEndian.length_toBytes ..
  set m := ((u.szBuffer.write 0 (uint32ToSz u.unLen)).write 4 [0]).write 5 [0] with hm
  have h04 : m.slice 0 4 = uint32ToSz u.unLen := by
    rw [hm, ByteMem.slice_write_of_disjoint _ _ (Or.inl (by omega)),
      ByteMem.slice_write_of_disjoint _ _ (Or.inl (by omega))]
    rw [← hlen, ByteMem.slice_write_self]
  have h42 : m.slice 4 2 = [0, 0] := by
    simp [hm, ByteMem.slice, List.range', ByteMem.write]
  have hrest : m.slice 6 (2 + n) = u.szBuffer.slice 6 (2 + n) := by
    rw [hm, ByteMem.slice_write_of_disjoint _ _ (Or.inr (by simp)),
      ByteMem.slice_write_of_disjoint _ _ (Or.inr (by simp)),
      ByteMem.slice_write_of_disjoint _ _ (Or.inr (by omega))]
  show m.slice 0 (8 + n) = _
  rw [show 8 + n = 4 + (2 + (2 + n)) by omega, ← ByteMem.slice_append, ← ByteMem.slice_append,
    h04, h42, hrest, ← ByteMem.slice_append]
  simp only [List.append_assoc]

end CPluto

/-- The parts of a message: length, reserved bytes, id and text. -/
theorem slice_parts {m : ByteMem} {a b c d : List UInt8} (ha : a.length = 4) (hb : b.length = 2)
    (hc : c.length = 2) (h : m.slice 0 (8 + d.length) = a ++ b ++ c ++ d) :
    m.slice 0 4 = a ∧ m.slice 4 2 = b ∧ m.slice 6 2 = c ∧ m.slice 8 d.length = d := by
  rw [show 8 + d.length = 4 + (2 + (2 + d.length)) by omega, ← ByteMem.slice_append,
    ← ByteMem.slice_append, ← ByteMem.slice_append, List.append_assoc, List.append_assoc] at h
  obtain ⟨h1, h⟩ := List.append_inj h (by simp [ha])
  obtain ⟨h2, h⟩ := List.append_inj h (by simp [hb])
  obtain ⟨h3, h4⟩ := List.append_inj h (by simp [hc])
  exact ⟨h1, h2, h3, h4⟩

/-- The text of a message as `EndPluto` leaves it: encrypted from the start of the key if the
message goes between client and server. -/
def sealText (cry : CBitCryto) (msgId : UInt16) (text : List UInt8) : List UInt8 :=
  if msgId < MAX_CLIENT_SERVER_MSGID then (cry.reset.encodeAll text).1 else text

@[simp] theorem length_sealText (cry : CBitCryto) (msgId : UInt16) (text : List UInt8) :
    (sealText cry msgId text).length = text.length := by
  rw [sealText]
  split_ifs <;> simp

open CPluto in
/-- **Finishing a message.** `EndPluto` puts the length and two zero bytes in front of the id and
seals the text. -/
theorem content_endPluto (cry : CBitCryto) {u : CPluto} {msgId : UInt16} {pre text : List UInt8}
    (hpre : pre.length = 6) (h : u.content = pre ++ uint16ToSz msgId ++ text) :
    (endPluto cry u).1.content =
      uint32ToSz u.unLen ++ [0, 0] ++ uint16ToSz msgId ++ sealText cry msgId text := by
  have hid : (uint16ToSz msgId).length = 2 := LittleEndian.length_toBytes ..
  have hlen : u.unLen.toNat = 8 + text.length := by
    rw [← length_content, h, List.length_append, List.length_append, hpre, hid]
  -- the id and the text are where the content says they are
  obtain ⟨-, -, hidAt, htextAt⟩ := slice_parts (m := u.szBuffer) (a := pre.take 4)
    (b := pre.drop 4) (by simp [hpre]) (by simp [hpre]) hid
    (by rw [List.take_append_drop, ← h, content, hlen])
  have hhead := u.slice_endHead text.length
  rw [hidAt, htextAt] at hhead
  obtain ⟨-, -, hmsgAt, -⟩ := slice_parts (LittleEndian.length_toBytes ..) rfl hid hhead
  have hmsg : u.endHead.getMsgId = msgId := by
    show szToUint16 (u.endHead.szBuffer.slice 6 2) = msgId
    rw [hmsgAt, szToUint16_uint16ToSz]
  have hcontent : (endPluto cry u).1.content =
      (endPluto cry u).1.szBuffer.slice 0 (8 + text.length) := by
    rw [content, unLen_endPluto, hlen]
  rw [hcontent, endPluto, sealText]
  have hmsg' : (u.endHead.touch (MSGLEN_HEAD + MSGLEN_RESERVED) MSGLEN_MSGID).getMsgId = msgId :=
    hmsg
  simp only [hmsg']
  split_ifs with hclient
  · -- the loop replaces exactly the text
    set v := u.endHead.touch (MSGLEN_HEAD + MSGLEN_RESERVED) MSGLEN_MSGID with hv
    obtain ⟨uses, hloop, -⟩ :=
      cryptLoop_eq MSGLEN_TEXT_POS (v.unLen.toNat - MSGLEN_TEXT_POS) v cry.reset
    have hn : v.unLen.toNat - MSGLEN_TEXT_POS = text.length := by
      show u.unLen.toNat - 8 = text.length
      omega
    have hsplit : v.szBuffer.slice 0 8 ++ v.szBuffer.slice 8 text.length =
        (uint32ToSz u.unLen ++ [0, 0] ++ uint16ToSz msgId) ++ text := by
      rw [ByteMem.slice_append v.szBuffer 0 8]
      exact hhead
    obtain ⟨h08, h8⟩ := List.append_inj' hsplit (by simp)
    have hend := ByteMem.slice_write_end v.szBuffer 0 8 (cry.reset.encodeAll text).1
    rw [CBitCryto.length_encodeAll, Nat.zero_add, h08] at hend
    rw [hloop, hn]
    show (v.szBuffer.write 8 (cry.reset.encodeAll (v.szBuffer.slice 8 text.length)).1).slice 0
      (8 + text.length) = _
    rw [h8, hend]
  · exact hhead

end PlutoServer
