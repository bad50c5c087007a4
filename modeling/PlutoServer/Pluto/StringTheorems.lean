import PlutoServer.Pluto.AppendBuffer

/-!
# Growing the buffer, and strings

`Resize` picks the new capacity from two fixed sizes, so it makes room exactly for what ends below
the larger of them (`resize_makesRoom_iff`). `operator<<` for strings asks it for the room of a
string object, `sizeof(str)`, and then copies the bytes of the string, or prints 48 bytes from the
cursor on if the string is too long. Whether that stays inside the block is decided by the capacity
after `Resize`, which `grownSize` computes from the state before it (`shlString_inside_iff`).

A string that is too long is left out without a trace in the error flag, since the default argument
of `SetEncodeErr` clears the flag (`build_reports_iff`).
-/

namespace PlutoServer

namespace CPluto

/-! ## Uses of the block between two states -/

/-- Every use of the block between `p` and `q` was inside the block. -/
def TouchesInside (p q : CPluto) : Prop :=
  ∃ uses, q.accesses = uses ++ p.accesses ∧ ∀ a ∈ uses, a.InBounds

theorem touchesInside_iff {p q : CPluto} {uses : List Access}
    (h : q.accesses = uses ++ p.accesses) : p.TouchesInside q ↔ ∀ a ∈ uses, a.InBounds := by
  refine ⟨fun ⟨uses', h', hin⟩ => ?_, fun hin => ⟨uses, h, hin⟩⟩
  rw [h] at h'
  rwa [List.append_cancel_right h']

/-- The uses of two calls are those of the first and those of the second. -/
theorem touchesInside_trans_iff {p q r : CPluto} (hpq : p.accesses <:+ q.accesses)
    (hqr : q.accesses <:+ r.accesses) :
    p.TouchesInside r ↔ p.TouchesInside q ∧ q.TouchesInside r := by
  obtain ⟨uses, huses⟩ := hpq
  obtain ⟨uses', huses'⟩ := hqr
  have hall : r.accesses = (uses' ++ uses) ++ p.accesses := by
    rw [List.append_assoc, huses, huses']
  rw [touchesInside_iff hall, touchesInside_iff huses.symm, touchesInside_iff huses'.symm,
    List.forall_mem_append]
  exact and_comm

theorem touchesInside_store_iff (p : CPluto) (off : ℕ) (bs : List UInt8) :
    p.TouchesInside (p.store off bs) ↔
      bs.length = 0 ∨ off + bs.length ≤ p.unBufferSize.toNat := by
  have huses : (p.store off bs).accesses =
      [.write off bs.length p.unBufferSize.toNat] ++ p.accesses := rfl
  rw [touchesInside_iff huses, List.forall_mem_singleton, Access.InBounds, Access.below_iff]
  rfl

/-! ## Resize -/

/-- The capacity after `Resize(n)`, in natural numbers. -/
def grownSize (len n cap : ℕ) : ℕ :=
  if len + n ≤ cap then cap
  else if 2 * (len + n) ≤ MIDDLE_SIZE.toNat then MIDDLE_SIZE.toNat
  else HIGH_SIZE.toNat

/-- The sum and its double do not wrap, so the capacity is the one computed in natural numbers. -/
theorem toNat_unBufferSize_resize {p : CPluto} {n : UInt32}
    (hn : 2 * (p.unLen.toNat + n.toNat) < 2 ^ 32) :
    (p.resize n).unBufferSize.toNat =
      grownSize p.unLen.toNat n.toNat p.unBufferSize.toNat := by
  have hsum : (p.unLen + n).toNat = p.unLen.toNat + n.toNat := by
    rw [UInt32.toNat_add, Nat.mod_eq_of_lt (by omega)]
  have hdouble : ((p.unLen + n) * RESIZE_TIMES).toNat = 2 * (p.unLen.toNat + n.toNat) := by
    rw [UInt32.toNat_mul, hsum, show RESIZE_TIMES.toNat = 2 from rfl, Nat.mul_comm,
      Nat.mod_eq_of_lt hn]
  rcases p.resize_cases n with ⟨hfit, hr⟩ | ⟨hfit, hr⟩ <;>
    rw [UInt32.le_iff_toNat_le, hsum] at hfit
  · rw [hr, grownSize, if_pos hfit]
  · rw [hr, grownSize, if_neg hfit, ← hdouble]
    exact toNat_newSize _

/-- The only uses of the block are the two sides of the copy. -/
theorem touchesInside_resize_iff {p : CPluto} (hlen : p.unLen.toNat ≤ p.unBufferSize.toNat)
    (n : UInt32) :
    p.TouchesInside (p.resize n) ↔ p.unLen.toNat ≤ (p.resize n).unBufferSize.toNat := by
  rcases p.resize_cases n with ⟨-, hr⟩ | ⟨-, hr⟩ <;> rw [hr]
  · exact iff_of_true ⟨[], rfl, by simp⟩ hlen
  · have huses : (p.realloc (newSize ((p.unLen + n) * RESIZE_TIMES))).accesses =
        [.write 0 p.unLen.toNat (newSize ((p.unLen + n) * RESIZE_TIMES)).toNat,
          .read 0 p.unLen.toNat p.unBufferSize.toNat] ++ p.accesses := rfl
    rw [touchesInside_iff huses, List.forall_mem_cons, List.forall_mem_singleton, Access.InBounds,
      Access.below_iff, Access.InBounds, Access.below_iff]
    simp only [Access.len, Access.off, Access.cap]
    show _ ↔ p.unLen.toNat ≤ (newSize ((p.unLen + n) * RESIZE_TIMES)).toNat
    omega

/-- **When `Resize` makes room and never shrinks.** The new capacity has room for the `n` bytes, is
not smaller than the old one and holds what was copied, exactly when the `n` bytes end inside the
old block or below the larger of the two sizes that `Resize` knows. -/
theorem resize_makesRoom_iff (p : CPluto) (n : UInt32)
    (hlen : p.unLen.toNat ≤ p.unBufferSize.toNat)
    (hn : 2 * (p.unLen.toNat + n.toNat) < 2 ^ 32) :
    let q := p.resize n
    (p.unLen.toNat + n.toNat ≤ q.unBufferSize.toNat ∧
      p.unBufferSize.toNat ≤ q.unBufferSize.toNat ∧ q.unLen = p.unLen ∧ q.content = p.content ∧
      p.TouchesInside q) ↔
    p.unLen.toNat + n.toNat ≤ max p.unBufferSize.toNat HIGH_SIZE.toNat := by
  intro q
  have hcap := toNat_unBufferSize_resize hn
  have hmid : MIDDLE_SIZE.toNat = 4096 := rfl
  have hhigh : HIGH_SIZE.toNat = 65536 := rfl
  rw [touchesInside_resize_iff hlen, hcap]
  simp only [q, unLen_resize, content_resize, true_and]
  rw [grownSize]
  split_ifs <;> omega

/-- A message of 200 bytes in a block of 256, and 100 bytes to come. -/
theorem resize_makesRoom_of_300 :
    let p := (CPluto.new 256 fun _ _ => 0).setLen 200
    let q := p.resize 100
    200 + 100 ≤ q.unBufferSize.toNat ∧ q.content = p.content := by
  intro p q
  have h := (resize_makesRoom_iff p 100 (by decide) (by decide)).mpr (by decide)
  exact ⟨h.1, h.2.2.2.1⟩

/-- A message of 70000 bytes, as a trusted client may send it, has its cursor at 69996. If it is
extended by eight bytes, it is copied into a block of 65536. -/
theorem resize_shrinks :
    let p := (CPluto.new 70000 fun _ _ => 0).setLen 69996
    (p.resize 8).unBufferSize.toNat = 65536 ∧ ¬ p.TouchesInside (p.resize 8) := by
  intro p
  have hcap : (p.resize 8).unBufferSize.toNat = 65536 := by decide
  refine ⟨hcap, ?_⟩
  rw [touchesInside_resize_iff (by decide), hcap]
  decide

/-! ## Strings -/

/-- The capacity never falls below the cursor as long as it is at most the larger size. -/
theorem le_grownSize {len cap : ℕ} (n : ℕ) (hlen : len ≤ cap) (hcap : cap ≤ HIGH_SIZE.toNat) :
    len ≤ grownSize len n cap ∧ grownSize len n cap ≤ HIGH_SIZE.toNat := by
  have hmid : MIDDLE_SIZE.toNat = 4096 := rfl
  have hhigh : HIGH_SIZE.toNat = 65536 := rfl
  rw [grownSize]
  split_ifs <;> omega

/-- A fixed-width `<<` is inside the block if what it stores is. -/
theorem touchesInside_shlFixed_iff {p : CPluto} (hlen : p.unLen.toNat ≤ p.unBufferSize.toNat)
    (size : UInt32) {sz : List UInt8} (hsz : 0 < sz.length) :
    p.TouchesInside (p.shlFixed size sz) ↔
      p.unLen.toNat + sz.length ≤ (p.resize size).unBufferSize.toNat := by
  have hstore := (p.resize size).touchesInside_store_iff (p.resize size).unLen.toNat sz
  have hresize := touchesInside_resize_iff hlen size
  rw [unLen_resize] at hstore
  have htrans := touchesInside_trans_iff (p.suffix_resize size)
    (suffix_store (p.resize size) (p.resize size).unLen.toNat sz)
  rw [unLen_resize, hstore, hresize] at htrans
  show p.TouchesInside ((p.resize size).store (p.resize size).unLen.toNat sz) ↔ _
  rw [unLen_resize, htrans]
  omega

/-- The dump of a string that is too long reads `PRINT_LEN` bytes. -/
theorem touchesInside_printHex_iff (p : CPluto) (off : ℕ) :
    p.TouchesInside (p.printHex off PRINT_LEN) ↔ off + PRINT_LEN ≤ p.unBufferSize.toNat := by
  have huses : (p.printHex off PRINT_LEN).accesses =
      [.read (off + 3 * 16) 0 p.unBufferSize.toNat, .read (off + 2 * 16) 16 p.unBufferSize.toNat,
        .read (off + 1 * 16) 16 p.unBufferSize.toNat,
        .read (off + 0 * 16) 16 p.unBufferSize.toNat] ++ p.accesses := rfl
  rw [touchesInside_iff huses]
  simp only [List.forall_mem_cons, List.not_mem_nil, false_imp_iff, implies_true, and_true,
    Access.InBounds, Access.below_iff, Access.len, Access.off, Access.cap, PRINT_LEN]
  omega

variable [Abi]

/-- The room that a string needs, from the state before the call: for its length and its bytes, or,
if it is too long, for the bytes that are printed from the cursor on. -/
def StringRoom (p : CPluto) (str : List UInt8) : Prop :=
  let len := p.unLen.toNat
  let cap := grownSize len Abi.sizeofString.toNat p.unBufferSize.toNat
  if str.length ≤ MAX_LEN then len + 2 + str.length ≤ grownSize len 2 cap
  else len + PRINT_LEN ≤ cap

instance (p : CPluto) (str : List UInt8) : Decidable (p.StringRoom str) := by
  unfold StringRoom
  infer_instance

section

variable {p : CPluto} {str : List UInt8}
  (hresize : p.TouchesInside (p.resize Abi.sizeofString))
  (hlen : p.unLen.toNat ≤ (p.resize Abi.sizeofString).unBufferSize.toNat)

include hresize hlen

/-- The refusing path. -/
theorem shlString_inside_iff_of_lt (hlong : MAX_LEN < str.length) :
    (p.TouchesInside (p.shlString str) ∧
      (p.shlString str).unLen.toNat ≤ (p.shlString str).unBufferSize.toNat) ↔
    p.unLen.toNat + PRINT_LEN ≤ (p.resize Abi.sizeofString).unBufferSize.toNat := by
  have heq : p.shlString str = ((p.resize Abi.sizeofString).setEncodeErr false).printHex
      (p.resize Abi.sizeofString).unLen.toNat PRINT_LEN := by
    rw [shlString, if_pos hlong]
  obtain ⟨reads, hreads, -⟩ := ((p.resize Abi.sizeofString).setEncodeErr false).printHex_eq
    p.unLen.toNat PRINT_LEN
  have hprint := ((p.resize Abi.sizeofString).setEncodeErr false).touchesInside_printHex_iff
    p.unLen.toNat
  rw [unLen_resize] at heq
  rw [hreads] at heq hprint
  have htrans := touchesInside_trans_iff (r := p.shlString str) (p.suffix_resize Abi.sizeofString)
    (by rw [heq]; exact List.suffix_append ..)
  have hlast : p.TouchesInside (p.shlString str) ↔
      p.unLen.toNat + PRINT_LEN ≤ (p.resize Abi.sizeofString).unBufferSize.toNat := by
    rw [htrans, and_iff_right hresize, heq]
    exact hprint
  rw [hlast]
  refine and_iff_left ?_
  rw [heq]
  exact (congrArg UInt32.toNat (p.unLen_resize Abi.sizeofString)).trans_le hlen

/-- The accepting path. -/
theorem shlString_inside_iff_of_le (hshort : str.length ≤ MAX_LEN)
    (hlt : p.unLen.toNat + 2 + str.length < 2 ^ 32) :
    (p.TouchesInside (p.shlString str) ∧
      (p.shlString str).unLen.toNat ≤ (p.shlString str).unBufferSize.toNat) ↔
    p.unLen.toNat + 2 + str.length ≤
      ((p.resize Abi.sizeofString).resize 2).unBufferSize.toNat := by
  have heq := p.shl_of_string hshort
  generalize hq : (p.resize Abi.sizeofString).shlFixed 2 (LittleEndian.toBytes 2 str.length) = q
    at heq
  change p.shlString str = (q.store q.unLen.toNat str).setLen (q.unLen + UInt32.ofNat str.length)
    at heq
  have hqcap : q.unBufferSize = ((p.resize Abi.sizeofString).resize 2).unBufferSize := by
    rw [← hq, unBufferSize_shlFixed]
  have hqlen : q.unLen.toNat = p.unLen.toNat + 2 := by
    rw [← hq, unLen_shlFixed, unLen_resize, UInt32.toNat_add]
    exact Nat.mod_eq_of_lt (show p.unLen.toNat + 2 < 2 ^ 32 by omega)
  have hsum : (q.unLen + UInt32.ofNat str.length).toNat = p.unLen.toNat + 2 + str.length := by
    rw [UInt32.toNat_add, UInt32.toNat_ofNat', hqlen, Nat.mod_eq_of_lt (a := str.length) (by omega),
      Nat.mod_eq_of_lt hlt]
  -- the length prefix, then the bytes
  have hsize := touchesInside_shlFixed_iff (p := p.resize Abi.sizeofString)
    (by rw [unLen_resize]; exact hlen) 2
    (show 0 < (LittleEndian.toBytes 2 str.length).length by simp)
  have hbytes := q.touchesInside_store_iff q.unLen.toNat str
  have hpq : (p.resize Abi.sizeofString).accesses <:+ q.accesses := by
    rw [← hq]
    exact suffix_shlFixed ..
  rw [hq, LittleEndian.length_toBytes, unLen_resize, ← hqcap] at hsize
  have htrans := touchesInside_trans_iff (p.suffix_resize Abi.sizeofString)
    (hpq.trans (suffix_store q q.unLen.toNat str))
  rw [touchesInside_trans_iff hpq (suffix_store q q.unLen.toNat str), and_iff_right hresize, hsize,
    hbytes, hqlen] at htrans
  rw [heq, ← hqcap]
  show p.TouchesInside (q.store q.unLen.toNat str) ∧
    (q.unLen + UInt32.ofNat str.length).toNat ≤ q.unBufferSize.toNat ↔ _
  rw [hsum, hqlen, htrans]
  omega

end

/-- **When a string write stays inside the buffer.** Whatever the string object takes on the
platform, up to 40 bytes. -/
theorem shlString_inside_iff (hsizeof : Abi.sizeofString.toNat ≤ 40) (p : CPluto)
    (str : List UInt8) (hlen : p.unLen.toNat ≤ p.unBufferSize.toNat)
    (hcap : p.unBufferSize.toNat ≤ 65536)
    (hstr : p.unLen.toNat + 2 + str.length ≤ 65536 ∨ MAX_LEN < str.length) :
    (p.TouchesInside (p.shlString str) ∧
      (p.shlString str).unLen.toNat ≤ (p.shlString str).unBufferSize.toNat) ↔
    p.StringRoom str := by
  have hgrown := toNat_unBufferSize_resize
    (show 2 * (p.unLen.toNat + Abi.sizeofString.toNat) < 2 ^ 32 by omega)
  have hfit := (le_grownSize Abi.sizeofString.toNat hlen hcap).1
  rw [← hgrown] at hfit
  have hresize := (touchesInside_resize_iff hlen Abi.sizeofString).mpr hfit
  rw [StringRoom, ← hgrown]
  by_cases hshort : str.length ≤ MAX_LEN
  · have hgrown2 := toNat_unBufferSize_resize (p := p.resize Abi.sizeofString) (n := 2)
      (by rw [unLen_resize]; show 2 * (p.unLen.toNat + 2) < 2 ^ 32; omega)
    rw [unLen_resize] at hgrown2
    rw [shlString_inside_iff_of_le hresize hfit hshort (by omega), hgrown2, if_pos hshort]
    rfl
  · rw [shlString_inside_iff_of_lt hresize hfit (by omega), if_neg hshort]

end CPluto

/-- On a 64-bit platform a string of 50 bytes behind 240 in a block of 256 makes the block grow, and
then there is room. -/
theorem shlString_inside_of_292 :
    letI := Abi.x64
    let p := (CPluto.new 256 fun _ _ => 0).setLen 240
    p.TouchesInside (p.shlString (List.replicate 50 65)) := by
  intro p
  let _ := Abi.x64
  exact ((CPluto.shlString_inside_iff (by decide) p (List.replicate 50 65) (by decide) (by decide)
    (by decide)).mpr (by decide)).1

/-- A string of 100 bytes behind 200 in a block of 256: there is room for a string object of 32
bytes, so the block stays, and the bytes are copied past its end. -/
theorem shlString_not_inside :
    letI := Abi.x64
    let p := (CPluto.new 256 fun _ _ => 0).setLen 200
    let q := p.shlString (List.replicate 100 65)
    ¬ p.TouchesInside q ∧ q.unLen.toNat = 302 ∧ q.unBufferSize.toNat = 256 := by
  intro p q
  have huses : q.accesses = [.write 202 100 256, .write 200 2 256] ++ p.accesses := by decide
  refine ⟨?_, by decide, by decide⟩
  rw [CPluto.touchesInside_iff huses]
  decide

/-! ## Strings that are left out -/

namespace CPluto

@[simp] theorem bEncodeErr_store (p : CPluto) (off : ℕ) (bs : List UInt8) :
    (p.store off bs).bEncodeErr = p.bEncodeErr := rfl

@[simp] theorem bEncodeErr_setLen (p : CPluto) (len : UInt32) :
    (p.setLen len).bEncodeErr = p.bEncodeErr := rfl

@[simp] theorem bEncodeErr_resize (p : CPluto) (n : UInt32) :
    (p.resize n).bEncodeErr = p.bEncodeErr := by
  rcases p.resize_cases n with ⟨-, h⟩ | ⟨-, h⟩ <;> rw [h]; rfl

@[simp] theorem bEncodeErr_shlFixed (p : CPluto) (size : UInt32) (sz : List UInt8) :
    (p.shlFixed size sz).bEncodeErr = p.bEncodeErr :=
  p.bEncodeErr_resize size

variable [Abi]

/-- No `<<` raises the flag: a field that fits leaves it, and a string that does not clears it. -/
theorem bEncodeErr_shl {p : CPluto} (h : p.bEncodeErr = false) (f : Field) :
    (p.shl f).bEncodeErr = false := by
  rcases p.shl_cases f with heq | ⟨str, q, rfl, heq⟩ | ⟨reads, heq⟩ <;> rw [heq]
  · rw [bEncodeErr_shlFixed, h]
  · rw [bEncodeErr_setLen, bEncodeErr_store, bEncodeErr_shlFixed, bEncodeErr_resize, h]

theorem bEncodeErr_build (cap : UInt32) (fresh : ℕ → ByteMem) (msgId : UInt16)
    (fields : List Field) : ((CPluto.new cap fresh).build msgId fields).bEncodeErr = false := by
  have hencode : ((CPluto.new cap fresh).encode msgId).bEncodeErr = false :=
    bEncodeErr_shlFixed ..
  rw [build]
  generalize (CPluto.new cap fresh).encode msgId = p at hencode
  induction fields generalizing p with
  | nil => exact hencode
  | cons f fields ih => exact ih (p.shl f) (bEncodeErr_shl hencode f)

/-- A refused `<<` leaves cursor and content. -/
theorem content_shl_of_not_fits (p : CPluto) {f : Field} (h : ¬ f.Fits) :
    (p.shl f).unLen = p.unLen ∧ (p.shl f).content = p.content := by
  obtain ⟨reads, heq, -⟩ := shl_of_not_fits p h
  rw [heq]
  exact ⟨p.unLen_resize _, p.content_resize _⟩

/-- **Dropped fields are not reported.** Each `<<` that refuses a string leaves the message as it
was; but the error flag tells whether there was one only if there was none. -/
theorem build_reports_iff (cap : UInt32) (fresh : ℕ → ByteMem) (msgId : UInt16)
    (fields : List Field) :
    (∀ pre f, pre ++ [f] <+: fields → ¬ f.Fits →
      let q := (CPluto.new cap fresh).build msgId pre
      (q.shl f).unLen = q.unLen ∧ (q.shl f).content = q.content) ∧
    ((((CPluto.new cap fresh).build msgId fields).bEncodeErr = true ↔ ∃ f ∈ fields, ¬ f.Fits) ↔
      ∀ f ∈ fields, f.Fits) := by
  refine ⟨fun pre f _ hf => content_shl_of_not_fits _ hf, ?_⟩
  rw [bEncodeErr_build]
  constructor
  · intro hiff f hf
    by_contra hlong
    exact absurd (hiff.mpr ⟨f, hf, hlong⟩) Bool.false_ne_true
  · intro hfits
    exact iff_of_false Bool.false_ne_true fun ⟨f, hf, hlong⟩ => hlong (hfits f hf)

end CPluto

/-- One string of 65535 bytes is left out, and the flag stays down. -/
theorem build_not_reported :
    letI := Abi.x64
    let f : Field := ⟨.string, List.replicate 65535 0⟩
    ¬ f.Fits ∧ ((CPluto.new 256 fun _ _ => 0).build 100 [f]).bEncodeErr = false := by
  intro f
  let _ := Abi.x64
  refine ⟨?_, CPluto.bEncodeErr_build ..⟩
  show ¬ (List.replicate 65535 (0 : UInt8)).length ≤ CPluto.MAX_LEN
  rw [List.length_replicate]
  decide

end PlutoServer
