import PlutoServer.Common.ByteMem
import Mathlib.Data.Int.Notation
import Mathlib.Data.List.Basic
import Mathlib.Logic.Function.Iterate
import Mathlib.Tactic.Common

/-!
# The stream cipher

Reference: `CoreBase/bitcryto.cpp`, `CoreBase/bitcryto.h`.

`CBitCryto` adds a repeating key to a stream of bytes. `Encode` adds modulo 256 on unsigned shorts,
`Decode` subtracts on signed ones and corrects a negative difference. The two are inverse to each
other on streams of any length (`decodeAll_encodeAll`, `encodeAll_decodeAll`). Either moves along
the key by one place a byte whatever the bytes are (`encodeAll_snd`, `decodeAll_snd`), so two
ciphers that start in step stay in step and a stream may be cut anywhere (`stream_in_step`). The
ghost field `accesses` records every use of the key.
-/

namespace PlutoServer

/-- `CBitCryto`: the key and the index of its next byte. -/
structure CBitCryto where
  pszKey : List UInt8
  nIdx : ℕ
  /-- Ghost: the accesses to the key, the latest first. -/
  accesses : List Access
deriving DecidableEq, Repr

namespace CBitCryto

/-- `m_nKeySize`, fixed by the constructor as the number of key bytes it copies. -/
def nKeySize (cry : CBitCryto) : ℕ := cry.pszKey.length

/-- `CBitCryto::Reset`. -/
def reset (cry : CBitCryto) : CBitCryto := { cry with nIdx := 0 }

/-- The start of `Encode` and of `Decode`: an index that has run off the key is wrapped. -/
def wrap (cry : CBitCryto) : CBitCryto :=
  if cry.nIdx ≥ cry.nKeySize then { cry with nIdx := 0 } else cry

/-- `m_pszKey[m_nIdx]` and `++m_nIdx`, after the wrap. -/
def nextKey (cry : CBitCryto) : UInt8 × CBitCryto :=
  let cry := cry.wrap
  (cry.pszKey.getD cry.nIdx 0,
    { cry with
      nIdx := cry.nIdx + 1
      accesses := .read cry.nIdx 1 cry.nKeySize :: cry.accesses })

/-- `CBitCryto::Encode`: `(k + c) & 0xff`. -/
def encode (cry : CBitCryto) (c : UInt8) : UInt8 × CBitCryto :=
  let r := cry.nextKey
  let k : ℕ := r.1.toNat
  (UInt8.ofNat ((k + c.toNat) &&& 0xff), r.2)

/-- `CBitCryto::Decode`: `c - k` as a signed short, plus 256 when negative. -/
def decode (cry : CBitCryto) (c : UInt8) : UInt8 × CBitCryto :=
  let r := cry.nextKey
  let k : ℤ := r.1.toNat
  let c2 : ℤ := c.toNat - k
  let c2 := if c2 < 0 then c2 + 256 else c2
  (UInt8.ofNat c2.toNat, r.2)

/-- The cipher after one call. -/
def next (cry : CBitCryto) : CBitCryto := cry.nextKey.2

/-- Both directions move along the key in the same way. -/
@[simp] theorem encode_snd (cry : CBitCryto) (c : UInt8) : (cry.encode c).2 = cry.next := rfl

@[simp] theorem decode_snd (cry : CBitCryto) (c : UInt8) : (cry.decode c).2 = cry.next := rfl

theorem encode_fst (cry : CBitCryto) (c : UInt8) : (cry.encode c).1 = cry.nextKey.1 + c := by
  have hmask : (cry.nextKey.1.toNat + c.toNat) &&& 0xff =
      (cry.nextKey.1.toNat + c.toNat) % 2 ^ 8 := Nat.and_two_pow_sub_one_eq_mod _ 8
  apply UInt8.toNat_inj.mp
  simp only [encode, hmask, UInt8.toNat_ofNat', UInt8.toNat_add, Nat.mod_mod]

theorem decode_fst (cry : CBitCryto) (c : UInt8) : (cry.decode c).1 = c - cry.nextKey.1 := by
  have hk : cry.nextKey.1.toNat < 256 := cry.nextKey.1.toNat_lt
  have hc : c.toNat < 256 := c.toNat_lt
  apply UInt8.toNat_inj.mp
  simp only [decode, UInt8.toNat_ofNat', UInt8.toNat_sub]
  split <;> omega

/-- Decoding one byte undoes encoding it at the same place of the key. -/
theorem decode_encode (cry : CBitCryto) (c : UInt8) :
    (cry.decode (cry.encode c).1).1 = c := by
  rw [decode_fst, encode_fst, UInt8.add_comm, UInt8.add_sub_cancel]

/-- Encoding one byte undoes decoding it at the same place of the key. -/
theorem encode_decode (cry : CBitCryto) (c : UInt8) :
    (cry.encode (cry.decode c).1).1 = c := by
  rw [encode_fst, decode_fst, UInt8.add_comm, UInt8.sub_add_cancel]

/-- Encode a run of bytes, one call a byte. -/
def encodeAll : CBitCryto → List UInt8 → List UInt8 × CBitCryto
  | cry, [] => ([], cry)
  | cry, c :: cs =>
    let rest := encodeAll (cry.encode c).2 cs
    ((cry.encode c).1 :: rest.1, rest.2)

/-- Decode a run of bytes, one call a byte. -/
def decodeAll : CBitCryto → List UInt8 → List UInt8 × CBitCryto
  | cry, [] => ([], cry)
  | cry, c :: cs =>
    let rest := decodeAll (cry.decode c).2 cs
    ((cry.decode c).1 :: rest.1, rest.2)

@[simp] theorem length_encodeAll (cry : CBitCryto) (cs : List UInt8) :
    (cry.encodeAll cs).1.length = cs.length := by
  induction cs generalizing cry with
  | nil => rfl
  | cons c cs ih => simp only [encodeAll, List.length_cons, ih]

/-- Decoding undoes encoding from the same place of the key, for a run of any length. -/
theorem decodeAll_encodeAll (cry : CBitCryto) (cs : List UInt8) :
    (cry.decodeAll (cry.encodeAll cs).1).1 = cs := by
  induction cs generalizing cry with
  | nil => rfl
  | cons c cs ih =>
    simp only [encodeAll, decodeAll, decode_encode, encode_snd, decode_snd, ih]

/-- Encoding undoes decoding from the same place of the key, for a run of any length. -/
theorem encodeAll_decodeAll (cry : CBitCryto) (cs : List UInt8) :
    (cry.encodeAll (cry.decodeAll cs).1).1 = cs := by
  induction cs generalizing cry with
  | nil => rfl
  | cons c cs ih =>
    simp only [encodeAll, decodeAll, encode_decode, encode_snd, decode_snd, ih]

/-! ## In step -/

/-- A run moves along the key by one place a byte. -/
theorem encodeAll_snd (cry : CBitCryto) (cs : List UInt8) :
    (cry.encodeAll cs).2 = next^[cs.length] cry := by
  induction cs generalizing cry with
  | nil => rfl
  | cons c cs ih => rw [encodeAll, ih, encode_snd, List.length_cons, Function.iterate_succ_apply]

@[simp] theorem length_decodeAll (cry : CBitCryto) (cs : List UInt8) :
    (cry.decodeAll cs).1.length = cs.length := by
  induction cs generalizing cry with
  | nil => rfl
  | cons c cs ih => simp only [decodeAll, List.length_cons, ih]

theorem decodeAll_snd (cry : CBitCryto) (cs : List UInt8) :
    (cry.decodeAll cs).2 = next^[cs.length] cry := by
  induction cs generalizing cry with
  | nil => rfl
  | cons c cs ih => rw [decodeAll, ih, decode_snd, List.length_cons, Function.iterate_succ_apply]

/-- The same key at the same place. -/
structure InStep (cry cry' : CBitCryto) : Prop where
  pszKey_eq : cry'.pszKey = cry.pszKey
  nIdx_eq : cry'.nIdx = cry.nIdx

section InStep

variable {cry cry' : CBitCryto}

theorem InStep.next (h : InStep cry cry') :
    cry'.nextKey.1 = cry.nextKey.1 ∧ InStep cry.next cry'.next := by
  obtain ⟨hkey, hidx⟩ := h
  have hsize : cry'.nKeySize = cry.nKeySize := by rw [nKeySize, hkey, nKeySize]
  have hwrap : InStep cry.wrap cry'.wrap := by
    rw [wrap, wrap, hidx, hsize]
    split_ifs
    · exact ⟨hkey, rfl⟩
    · exact ⟨hkey, hidx⟩
  constructor
  · show cry'.wrap.pszKey.getD cry'.wrap.nIdx 0 = cry.wrap.pszKey.getD cry.wrap.nIdx 0
    rw [hwrap.pszKey_eq, hwrap.nIdx_eq]
  · exact ⟨hwrap.pszKey_eq, congrArg (· + 1) hwrap.nIdx_eq⟩

theorem InStep.encodeAll (h : InStep cry cry') (cs : List UInt8) :
    (cry'.encodeAll cs).1 = (cry.encodeAll cs).1 ∧
      InStep (cry.encodeAll cs).2 (cry'.encodeAll cs).2 := by
  induction cs generalizing cry cry' with
  | nil => exact ⟨rfl, h⟩
  | cons c cs ih =>
    obtain ⟨hbyte, hnext⟩ := h.next
    obtain ⟨hrest, hstep⟩ := ih hnext
    simp only [CBitCryto.encodeAll, encode_fst, encode_snd, hbyte, hrest]
    exact ⟨trivial, hstep⟩

theorem InStep.decodeAll (h : InStep cry cry') (cs : List UInt8) :
    (cry'.decodeAll cs).1 = (cry.decodeAll cs).1 ∧
      InStep (cry.decodeAll cs).2 (cry'.decodeAll cs).2 := by
  induction cs generalizing cry cry' with
  | nil => exact ⟨rfl, h⟩
  | cons c cs ih =>
    obtain ⟨hbyte, hnext⟩ := h.next
    obtain ⟨hrest, hstep⟩ := ih hnext
    simp only [CBitCryto.decodeAll, decode_fst, decode_snd, hbyte, hrest]
    exact ⟨trivial, hstep⟩

/-- What one cipher encodes, another one in step decodes. -/
theorem InStep.decodeAll_encodeAll (h : InStep cry cry') (cs : List UInt8) :
    (cry'.decodeAll (cry.encodeAll cs).1).1 = cs := by
  rw [(h.decodeAll _).1, CBitCryto.decodeAll_encodeAll]

end InStep

/-- The wrap changes the index only. -/
theorem wrap_frame (cry : CBitCryto) :
    cry.wrap.pszKey = cry.pszKey ∧ cry.wrap.accesses = cry.accesses := by
  rw [wrap]
  split_ifs
  · exact ⟨rfl, rfl⟩
  · exact ⟨rfl, rfl⟩

theorem pszKey_next (cry : CBitCryto) : cry.next.pszKey = cry.pszKey := cry.wrap_frame.1

/-- The cipher as it was made. -/
def unused (cry : CBitCryto) : CBitCryto := ⟨cry.pszKey, 0, []⟩

/-- The key is never changed. -/
theorem unused_encodeAll (cry : CBitCryto) (cs : List UInt8) :
    (cry.encodeAll cs).2.unused = cry.unused := by
  induction cs generalizing cry with
  | nil => rfl
  | cons c cs ih => rw [encodeAll, ih, encode_snd, unused, pszKey_next, unused]

theorem inStep_reset_unused (cry : CBitCryto) : InStep cry.reset cry.unused.reset := ⟨rfl, rfl⟩

/-! ## Accesses -/

/-- The wrap comes before the access, so the access is inside any key that has a byte. -/
theorem nIdx_wrap_lt {cry : CBitCryto} (hkey : cry.pszKey ≠ []) :
    cry.wrap.nIdx < cry.nKeySize := by
  have hpos : 0 < cry.nKeySize := List.length_pos_iff.mpr hkey
  rw [wrap]
  split_ifs with hoff
  · exact hpos
  · exact Nat.lt_of_not_ge hoff

theorem accesses_next (cry : CBitCryto) :
    cry.next.accesses = .read cry.wrap.nIdx 1 cry.nKeySize :: cry.accesses := by
  show .read cry.wrap.nIdx 1 cry.wrap.pszKey.length :: cry.wrap.accesses = _
  rw [cry.wrap_frame.1, cry.wrap_frame.2, nKeySize]

/-- So many calls make so many accesses, each to a byte of the key. -/
theorem accesses_iterate_next {cry : CBitCryto} (hkey : cry.pszKey ≠ []) (n : ℕ) :
    ∃ new, (next^[n] cry).accesses = new ++ cry.accesses ∧ new.length = n ∧
      ∀ a ∈ new, ∃ i < cry.nKeySize, a = .read i 1 cry.nKeySize := by
  induction n generalizing cry with
  | zero => exact ⟨[], rfl, rfl, by simp⟩
  | succ n ih =>
    have hkey' : cry.next.pszKey ≠ [] := by rwa [pszKey_next]
    have hsize : cry.next.nKeySize = cry.nKeySize := by rw [nKeySize, pszKey_next, nKeySize]
    obtain ⟨new, hnew, hlen, hin⟩ := ih hkey'
    rw [hsize] at hin
    refine ⟨new ++ [.read cry.wrap.nIdx 1 cry.nKeySize], ?_, ?_, fun a ha => ?_⟩
    · rw [Function.iterate_succ_apply, hnew, accesses_next, List.append_assoc,
        List.singleton_append]
    · rw [List.length_append, hlen, List.length_singleton]
    · rcases List.mem_append.mp ha with ha | ha
      · exact hin a ha
      · exact ⟨_, nIdx_wrap_lt hkey, List.mem_singleton.mp ha⟩

/-! ## Pieces -/

theorem encodeAll_append (cry : CBitCryto) (cs ds : List UInt8) :
    cry.encodeAll (cs ++ ds) =
      ((cry.encodeAll cs).1 ++ ((cry.encodeAll cs).2.encodeAll ds).1,
        ((cry.encodeAll cs).2.encodeAll ds).2) := by
  induction cs generalizing cry with
  | nil => rfl
  | cons c cs ih => simp only [List.cons_append, encodeAll, ih]

theorem decodeAll_append (cry : CBitCryto) (cs ds : List UInt8) :
    cry.decodeAll (cs ++ ds) =
      ((cry.decodeAll cs).1 ++ ((cry.decodeAll cs).2.decodeAll ds).1,
        ((cry.decodeAll cs).2.decodeAll ds).2) := by
  induction cs generalizing cry with
  | nil => rfl
  | cons c cs ih => simp only [List.cons_append, decodeAll, ih]

/-- Process pieces one after the other with `run`, without a `Reset` between them. -/
def pieces (run : CBitCryto → List UInt8 → List UInt8 × CBitCryto) :
    CBitCryto → List (List UInt8) → List UInt8 × CBitCryto
  | cry, [] => ([], cry)
  | cry, s :: ss =>
    let rest := pieces run (run cry s).2 ss
    ((run cry s).1 ++ rest.1, rest.2)

/-- Where a run over an append is the run over its parts, the cuts make no difference. -/
theorem pieces_eq {run : CBitCryto → List UInt8 → List UInt8 × CBitCryto}
    (hnil : ∀ cry, run cry [] = ([], cry))
    (happend : ∀ cry s t, run cry (s ++ t) =
      ((run cry s).1 ++ (run (run cry s).2 t).1, (run (run cry s).2 t).2))
    (cry : CBitCryto) (ss : List (List UInt8)) : pieces run cry ss = run cry ss.flatten := by
  induction ss generalizing cry with
  | nil => exact (hnil cry).symm
  | cons s ss ih => rw [pieces, ih, List.flatten_cons, happend]

/-- **The cipher is a bijection that stays in step.** Let two ciphers have the same key, which is
not empty, and stand at the same index. What one of them encodes the other decodes, and conversely;
both then stand at the same index again; each byte makes one access to the key, at an index inside
it; and it makes no difference how the stream is cut into pieces. -/
theorem stream_in_step (enc dec : CBitCryto) (hkey : enc.pszKey ≠ [])
    (hsame : dec.pszKey = enc.pszKey) (hidx : dec.nIdx = enc.nIdx) (s : List UInt8) :
    (dec.decodeAll (enc.encodeAll s).1).1 = s ∧
    (enc.encodeAll (dec.decodeAll s).1).1 = s ∧
    (dec.decodeAll (enc.encodeAll s).1).2.nIdx = (enc.encodeAll s).2.nIdx ∧
    (enc.encodeAll (dec.decodeAll s).1).2.nIdx = (dec.decodeAll s).2.nIdx ∧
    (∃ new, (enc.encodeAll s).2.accesses = new ++ enc.accesses ∧ new.length = s.length ∧
      ∀ a ∈ new, ∃ i < enc.nKeySize, a = .read i 1 enc.nKeySize) ∧
    (∃ new, (dec.decodeAll s).2.accesses = new ++ dec.accesses ∧ new.length = s.length ∧
      ∀ a ∈ new, ∃ i < dec.nKeySize, a = .read i 1 dec.nKeySize) ∧
    ∀ ss : List (List UInt8), ss.flatten = s →
      pieces encodeAll enc ss = enc.encodeAll s ∧ pieces decodeAll dec ss = dec.decodeAll s := by
  have hstep : InStep enc dec := ⟨hsame, hidx⟩
  have hkey' : dec.pszKey ≠ [] := by rwa [hsame]
  refine ⟨hstep.decodeAll_encodeAll s, ?_, ?_, ?_, ?_, ?_, ?_⟩
  · rw [(hstep.decodeAll s).1, encodeAll_decodeAll]
  · have h := (hstep.decodeAll (enc.encodeAll s).1).2.nIdx_eq
    rwa [decodeAll_snd enc, length_encodeAll, ← encodeAll_snd] at h
  · have h := (hstep.encodeAll (dec.decodeAll s).1).2.nIdx_eq
    rw [encodeAll_snd dec, length_decodeAll, ← decodeAll_snd] at h
    exact h.symm
  · rw [encodeAll_snd]
    exact accesses_iterate_next hkey s.length
  · rw [decodeAll_snd]
    exact accesses_iterate_next hkey' s.length
  · rintro ss rfl
    exact ⟨pieces_eq (fun _ => rfl) encodeAll_append enc ss,
      pieces_eq (fun _ => rfl) decodeAll_append dec ss⟩

/-- A key of two bytes, from an index past its end, and a stream cut after its first byte. -/
theorem stream_in_step_of_past_end :
    let cry : CBitCryto := ⟨[200, 3], 7, []⟩
    (cry.decodeAll (cry.encodeAll [100, 0, 255]).1).1 = [100, 0, 255] ∧
      (∀ a ∈ (cry.encodeAll [100, 0, 255]).2.accesses, a.InBounds) ∧
      pieces encodeAll cry [[100], [0, 255]] = cry.encodeAll [100, 0, 255] := by
  intro cry
  have h := stream_in_step cry cry (by decide) rfl rfl [100, 0, 255]
  exact ⟨h.1, by decide, (h.2.2.2.2.2.2 [[100], [0, 255]] rfl).1⟩

end CBitCryto

/-- `sg_mycryto_key`. -/
def sgMycrytoKey : List UInt8 :=
  [15, 180, 213, 37, 40, 98, 85, 7, 152, 223, 48, 168, 71, 102, 191, 194]

/-- `sg_mycryto`, the cipher shared by all messages, at the index `nIdx` of its key. -/
def sgMycryto (nIdx : ℕ) : CBitCryto := ⟨sgMycrytoKey, nIdx, []⟩

end PlutoServer
