import Mathlib.Data.List.TakeWhile
import Mathlib.Data.Nat.Digits.Lemmas
import PlutoServer.Tinyxml2.Strings

/-!
# Entities and character references

Reference: `StrPair::GetStr`, `XMLUtil::GetCharacterRef`, `XMLUtil::ConvertUTF32ToUTF8` and
`XMLPrinter::PrintString` in `CoreBase/tinyxml2.cpp`.

`getStr_chunks` says what is read of a string made of plain bytes, the five entities and references
to characters, decimal or hexadecimal: the plain bytes, and the UTF-8 encoding of each character. A
reference may have zeros in front, and hexadecimal digits of either case.
And since `PrintString` escapes every `&`, what it prints is read back as it was
(`getStr_printString`).
-/

namespace PlutoServer.Tinyxml2

namespace StrPair

variable {flags : StrFlags}

/-! ## What is read -/

/-- The loop goes over the string in turns that each write the value of what they read. -/
inductive Reads (flags : StrFlags) : List UInt8 → List UInt8 → Prop where
  | nil : Reads flags [] []
  | write {t v s v' : List UInt8} (ht : t ≠ [])
      (hturn : turn flags (t ++ s) = some (.write t.length v)) (hs : Reads flags s v') :
      Reads flags (t ++ s) (v ++ v')

theorem Reads.decodeFrom_eq {s v : List UInt8} (h : Reads flags s v) (raw out : List UInt8) :
    decodeFrom flags raw s 0 out = some (out ++ v) := by
  induction h generalizing out with
  | nil => rw [decodeFrom, List.append_nil]
  | @write t v s v' ht hturn _ ih =>
    obtain ⟨b, t, rfl⟩ := List.exists_cons_of_ne_nil ht
    rw [List.cons_append] at hturn ⊢
    rw [decodeFrom, hturn]
    dsimp only
    rw [List.length_cons, Nat.add_sub_cancel, decodeFrom_skip, List.drop_left, ih,
      List.append_assoc]

/-- With one flag set, and no zero in it, the value is what the string reads. -/
theorem Reads.getStr_eq {s v : List UInt8} (h : Reads flags s v)
    (hflags : flags ≠ {}) (hcollapse : flags.collapseWhitespace = false) (hzero : 0 ∉ v) :
    getStr ⟨s, flags⟩ = some v := by
  have htake : v.takeWhile (· ≠ 0) = v := by
    rw [List.takeWhile_eq_self_iff]
    intro b hb
    exact decide_eq_true fun hb' => hzero (hb' ▸ hb)
  rw [getStr, if_neg hflags, decode, h.decodeFrom_eq, Option.map_some, List.nil_append]
  dsimp only
  rw [htake, hcollapse]
  rfl

/-- A byte that is neither a `&` nor a CR reads as itself, unless a CR follows. -/
theorem turn_byte {b : UInt8} {s : List UInt8} (hamp : flags.needsEntityProcessing = false ∨ b ≠ 38)
    (hcr : b ≠ CR) (hs : s.head? ≠ some CR) : turn flags (b :: s) = some (.write 1 [b]) := by
  rw [turn, if_neg fun h => hcr h.2]
  by_cases hlf : flags.needsNewlineNormalization ∧ b = LF
  · rw [if_pos hlf, if_neg hs, hlf.2]
  · rw [if_neg hlf, if_neg]
    rintro ⟨hentity, hb⟩
    exact hamp.elim (fun hfalse => by rw [hfalse] at hentity; cases hentity) fun hne => hne hb

/-- Without entities to process, a string without CR reads as itself. -/
theorem reads_self (hentity : flags.needsEntityProcessing = false) {s : List UInt8} (hcr : CR ∉ s) :
    Reads flags s s := by
  induction s with
  | nil => exact .nil
  | cons b s ih =>
    rw [List.mem_cons, not_or] at hcr
    refine .write (List.cons_ne_nil b []) (turn_byte (.inl hentity) (Ne.symm hcr.1) ?_) (ih hcr.2)
    exact fun hhead => hcr.2 (List.mem_of_mem_head? hhead)

end StrPair

/-! ## Character references -/

namespace XMLUtil

/-- The bytes behind the first are those of UTF-8. -/
theorem trail_eq (i : UInt32) :
    ((i ||| 0x80) &&& 0xbf).toUInt8 = UInt8.ofNat (i.toNat % 64 + 128) := by
  have hbyte : ∀ n < 256, (UInt8.ofNat n ||| 0x80) &&& 0xbf = UInt8.ofNat (n % 64 + 128) := by
    decide +kernel
  have hi : i.toUInt8 = UInt8.ofNat (i.toNat % 256) := by
    apply UInt8.toNat_inj.mp
    rw [UInt32.toNat_toUInt8, UInt8.toNat_ofNat']
    omega
  rw [UInt32.toUInt8_and, UInt32.toUInt8_or, hi, show (0x80 : UInt32).toUInt8 = 0x80 from rfl,
    show (0xbf : UInt32).toUInt8 = 0xbf from rfl, hbyte _ (Nat.mod_lt _ (by decide)),
    Nat.mod_mod_of_dvd _ (by decide)]

/-- The first byte, where `mark` is `FIRST_BYTE_MARK` of the length. -/
theorem lead_eq {mark : ℕ} {bits : ℕ} (i : UInt32) (hi : i.toNat < 2 ^ bits)
    (hmark : ∀ n < 2 ^ bits, UInt8.ofNat n ||| UInt8.ofNat mark = UInt8.ofNat (n + mark))
    (hbits : bits ≤ 8) : (i ||| UInt32.ofNat mark).toUInt8 = UInt8.ofNat (i.toNat + mark) := by
  have hle : 2 ^ bits ≤ 2 ^ 8 := Nat.pow_le_pow_right (by decide) hbits
  have hbyte : i.toUInt8 = UInt8.ofNat i.toNat := by
    apply UInt8.toNat_inj.mp
    rw [UInt32.toNat_toUInt8, UInt8.toNat_ofNat']
  have hm : (UInt32.ofNat mark).toUInt8 = UInt8.ofNat mark := by
    apply UInt8.toNat_inj.mp
    rw [UInt32.toNat_toUInt8, UInt8.toNat_ofNat', UInt32.toNat_ofNat']
    omega
  rw [UInt32.toUInt8_or, hbyte, hm, hmark _ hi]

/-- For the characters of Unicode `ConvertUTF32ToUTF8` is UTF-8. -/
theorem convertUTF32ToUTF8_eq (c : Char) :
    convertUTF32ToUTF8 c.val = String.utf8EncodeChar c := by
  have hlt : c.val.toNat < 0x110000 := by
    rcases c.valid with hlow | ⟨-, hhigh⟩
    · exact hlow.trans (by decide)
    · exact hhigh
  have hshift (i : UInt32) : (i >>> 6).toNat = i.toNat / 64 := by
    rw [UInt32.toNat_shiftRight]
    exact Nat.shiftRight_eq_div_pow ..
  set v := c.val with hv
  have hone : (v ||| 0).toUInt8 = UInt8.ofNat v.toNat := by
    apply UInt8.toNat_inj.mp
    rw [UInt32.or_zero, UInt32.toNat_toUInt8, UInt8.toNat_ofNat']
  rw [convertUTF32ToUTF8, String.utf8EncodeChar]
  have hle (n : ℕ) : v.toNat ≤ n ↔ v.toNat < n + 1 := Nat.lt_succ_iff.symm
  simp only [UInt32.lt_iff_toNat_lt, trail_eq, hshift, ← hv, hone, hle, UInt32.toNat_ofNat,
    Nat.reduceAdd, Nat.reducePow, Nat.reduceMod]
  by_cases h1 : v.toNat < 0x80
  · simp only [if_pos h1]
  by_cases h2 : v.toNat < 0x800
  · have hlead := lead_eq (v >>> 6) (show (v >>> 6).toNat < 2 ^ 5 by rw [hshift]; omega)
      (show ∀ n < 2 ^ 5, UInt8.ofNat n ||| UInt8.ofNat 0xc0 = UInt8.ofNat (n + 0xc0) by decide)
      (by decide)
    simp only [if_neg h1, if_pos h2]
    rw [show (0xc0 : UInt32) = UInt32.ofNat 0xc0 from rfl, hlead, hshift,
      Nat.mod_eq_of_lt (show v.toNat / 64 < 32 by omega)]
  by_cases h3 : v.toNat < 0x10000
  · have hlead := lead_eq (v >>> 6 >>> 6)
      (show (v >>> 6 >>> 6).toNat < 2 ^ 4 by rw [hshift, hshift]; omega)
      (show ∀ n < 2 ^ 4, UInt8.ofNat n ||| UInt8.ofNat 0xe0 = UInt8.ofNat (n + 0xe0) by decide)
      (by decide)
    simp only [if_neg h1, if_neg h2, if_pos h3]
    rw [show (0xe0 : UInt32) = UInt32.ofNat 0xe0 from rfl, hlead, hshift, hshift,
      Nat.div_div_eq_div_mul, Nat.mod_eq_of_lt (show v.toNat / 4096 < 16 by omega)]
  · have hlead := lead_eq (v >>> 6 >>> 6 >>> 6)
      (show (v >>> 6 >>> 6 >>> 6).toNat < 2 ^ 3 by rw [hshift, hshift, hshift]; omega)
      (show ∀ n < 2 ^ 3, UInt8.ofNat n ||| UInt8.ofNat 0xf0 = UInt8.ofNat (n + 0xf0) by decide)
      (by decide)
    simp only [if_neg h1, if_neg h2, if_neg h3, if_pos (show v.toNat < 0x200000 by omega)]
    rw [show (0xf0 : UInt32) = UInt32.ofNat 0xf0 from rfl, hlead, hshift, hshift, hshift,
      Nat.mod_eq_of_lt (show v.toNat / 262144 < 8 by omega)]
    simp only [Nat.div_div_eq_div_mul, Nat.reduceMul]

/-! ### Digits

`char d` is a digit that is written in a reference, and `num d` its value. -/

section Digits

variable {δ : Type*} {digit : UInt8 → Option UInt32} {char : δ → UInt8} {num : δ → ℕ}
  {stop : UInt8}

/-- The loop of `GetCharacterRef` adds up the digits, from the last to the first. -/
theorem refValue_digits (hdigit : ∀ d, digit (char d) = some (UInt32.ofNat (num d)))
    (hstop : ∀ d, char d ≠ stop) (base : ℕ) (ds : List δ) (rest : List UInt8) (mult ucs : UInt32) :
    refValue digit (UInt32.ofNat base) stop (ds.map char ++ stop :: rest) mult ucs =
      some (ucs + mult * UInt32.ofNat (Nat.ofDigits base (ds.map num))) := by
  induction ds generalizing mult ucs with
  | nil =>
    rw [List.map_nil, List.map_nil, List.nil_append, refValue, if_pos rfl, Nat.ofDigits_nil]
    simp
  | cons d ds ih =>
    rw [List.map_cons, List.map_cons, List.cons_append, refValue, if_neg (hstop d), hdigit d]
    dsimp only
    rw [ih, Nat.ofDigits_cons, UInt32.ofNat_add, UInt32.ofNat_mul, UInt32.mul_add,
      UInt32.mul_assoc, UInt32.add_assoc]

/-- A reference that begins with `pre`, up to the first zero: there is none in front of the rest. -/
theorem takeWhile_reference (hzero : ∀ d, char d ≠ 0) (pre : List UInt8) (hpre : 0 ∉ pre)
    (ds : List δ) (s : List UInt8) :
    (pre ++ ds.map char ++ [59] ++ s).takeWhile (· ≠ 0) =
      pre ++ (ds.map char ++ 59 :: s.takeWhile (· ≠ 0)) := by
  have hall : ∀ b ∈ pre ++ ds.map char ++ [59], decide (b ≠ 0) = true := by
    intro b hb
    refine decide_eq_true fun hb' => ?_
    rw [hb', List.append_assoc, List.mem_append, List.mem_append, List.mem_map] at hb
    rcases hb with hb | ⟨d, -, hd⟩ | hb
    · exact hpre hb
    · exact hzero d hd
    · exact absurd hb (by decide)
  rw [List.takeWhile_append_of_pos hall]
  simp

/-- `strchr` finds the semicolon behind the digits, and the loop reads them up to `stop`. -/
theorem read_reference (hdigit : ∀ d, digit (char d) = some (UInt32.ofNat (num d)))
    (hstop : ∀ d, char d ≠ stop) (hsemi : ∀ d, char d ≠ 59) (base : ℕ) (pre : List UInt8)
    (ds : List δ) (s : List UInt8) {start : ℕ} (hstart : (pre ++ [stop]).length = start) :
    ((pre ++ [stop] ++ (ds.map char ++ 59 :: s)).drop start).findIdx? (· = 59) = some ds.length ∧
      refValue digit (UInt32.ofNat base) stop
          ((pre ++ [stop] ++ (ds.map char ++ 59 :: s)).take (start + ds.length)).reverse 1 0 =
        some (UInt32.ofNat (Nat.ofDigits base (ds.map num).reverse)) := by
  subst hstart
  constructor
  · have hnone : (ds.map char).findIdx? (· = 59) = none := by
      rw [List.findIdx?_eq_none_iff]
      intro b hb
      obtain ⟨d, -, rfl⟩ := List.mem_map.mp hb
      exact decide_eq_false (hsemi d)
    rw [List.drop_left, List.findIdx?_append, hnone]
    simp [List.findIdx?_cons]
  · rw [← List.append_assoc, List.take_left' (by rw [List.length_append, List.length_map]),
      List.reverse_append, List.reverse_append, List.reverse_singleton, List.singleton_append,
      ← List.map_reverse, ← List.map_reverse, refValue_digits hdigit hstop, UInt32.one_mul,
      UInt32.zero_add]

end Digits

end XMLUtil

/-- How a decimal digit is written. -/
def decChar (d : Fin 10) : UInt8 := UInt8.ofNat (48 + d)

/-- A hexadecimal digit, which is written in upper or in lower case. -/
structure HexDigit where
  val : Fin 16
  upper : Bool
deriving DecidableEq, Repr

/-- How it is written. -/
def HexDigit.char (d : HexDigit) : UInt8 :=
  UInt8.ofNat (if d.val < 10 then 48 + d.val else if d.upper then 55 + d.val else 87 + d.val)

theorem decChar_spec : ∀ d, XMLUtil.decDigit (decChar d) = some (UInt32.ofNat d) ∧
    decChar d ≠ 35 ∧ decChar d ≠ 120 ∧ decChar d ≠ 59 ∧ decChar d ≠ 0 := by
  decide

theorem HexDigit.char_spec (d : HexDigit) :
    XMLUtil.hexDigit d.char = some (UInt32.ofNat d.val) ∧ d.char ≠ 120 ∧ d.char ≠ 59 ∧
      d.char ≠ 0 := by
  have hall : ∀ (val : Fin 16) (upper : Bool),
      XMLUtil.hexDigit (char ⟨val, upper⟩) = some (UInt32.ofNat val) ∧ char ⟨val, upper⟩ ≠ 120 ∧
        char ⟨val, upper⟩ ≠ 59 ∧ char ⟨val, upper⟩ ≠ 0 := by
    decide
  exact hall d.val d.upper

/-- A part of a string: a byte, an entity, or a reference to a character by its digits. -/
inductive Chunk where
  | byte (b : UInt8)
  | entity (e : Entity)
  | decimal (digits : List (Fin 10)) (c : Char)
  | hexadecimal (digits : List HexDigit) (c : Char)
deriving DecidableEq, Repr

namespace Chunk

/-- How the part is written. -/
def text : Chunk → List UInt8
  | byte b => [b]
  | entity e => 38 :: e.pattern ++ [59]
  | decimal digits _ => [38, 35] ++ digits.map decChar ++ [59]
  | hexadecimal digits _ => [38, 35, 120] ++ digits.map HexDigit.char ++ [59]

/-- What it stands for. -/
def value : Chunk → List UInt8
  | byte b => [b]
  | entity e => [e.value]
  | decimal _ c => String.utf8EncodeChar c
  | hexadecimal _ c => String.utf8EncodeChar c

/-- The part can stand in a string: the byte is none with a meaning of its own, the entity is one of
the five, and the digits are those of the character, which is not the zero. There may be zeros in
front of them. -/
def Valid : Chunk → Prop
  | byte b => b ≠ 0 ∧ b ≠ 38 ∧ b ≠ CR
  | entity e => e ∈ entities
  | decimal digits c => Nat.ofDigits 10 (digits.map Fin.val).reverse = c.toNat ∧ c.toNat ≠ 0
  | hexadecimal digits c =>
    Nat.ofDigits 16 (digits.map (·.val.val)).reverse = c.toNat ∧ c.toNat ≠ 0

instance : DecidablePred Valid
  | byte b => inferInstanceAs (Decidable (b ≠ 0 ∧ b ≠ 38 ∧ b ≠ CR))
  | entity e => inferInstanceAs (Decidable (e ∈ entities))
  | decimal _ _ => inferInstanceAs (Decidable (_ ∧ _))
  | hexadecimal _ _ => inferInstanceAs (Decidable (_ ∧ _))

/-- No part begins with a CR. -/
theorem Valid.text_head {c : Chunk} (h : c.Valid) (s : List UInt8) :
    ∃ b t, c.text ++ s = b :: t ∧ b ≠ CR := by
  cases c with
  | byte b => exact ⟨b, s, rfl, h.2.2⟩
  | entity e => exact ⟨38, _, rfl, by decide⟩
  | decimal digits c => exact ⟨38, _, rfl, by decide⟩
  | hexadecimal digits c => exact ⟨38, _, rfl, by decide⟩

theorem Valid.zero_not_mem_value {c : Chunk} (h : c.Valid) : 0 ∉ c.value := by
  have hbyte {n : ℕ} (hn : n % 256 ≠ 0) : (0 : UInt8) ≠ UInt8.ofNat n := by
    intro heq
    have hzero := congrArg UInt8.toNat heq
    rw [UInt8.toNat_ofNat'] at hzero
    exact hn hzero.symm
  have hchar (c : Char) (hc : c.toNat ≠ 0) : 0 ∉ String.utf8EncodeChar c := by
    have hc' : c.val.toNat ≠ 0 := hc
    rw [String.utf8EncodeChar]
    split_ifs
    · rw [List.mem_singleton]
      exact hbyte (by omega)
    · simp only [List.mem_cons, List.not_mem_nil, or_false, not_or]
      exact ⟨hbyte (by omega), hbyte (by omega)⟩
    · simp only [List.mem_cons, List.not_mem_nil, or_false, not_or]
      exact ⟨hbyte (by omega), hbyte (by omega), hbyte (by omega)⟩
    · simp only [List.mem_cons, List.not_mem_nil, or_false, not_or]
      exact ⟨hbyte (by omega), hbyte (by omega), hbyte (by omega), hbyte (by omega)⟩
  cases c with
  | byte b => exact fun hmem => h.1 (List.mem_singleton.mp hmem).symm
  | entity e =>
    have hentity : ∀ e ∈ entities, (0 : UInt8) ∉ [e.value] := by decide
    exact hentity e h
  | decimal digits c => exact hchar c h.2
  | hexadecimal digits c => exact hchar c h.2

variable {flags : StrFlags}

theorem turn_entity (hflags : flags.needsEntityProcessing) {e : Entity} (he : e ∈ entities)
    (s : List UInt8) :
    StrPair.turn flags ((entity e).text ++ s) = some (.write (entity e).text.length [e.value]) := by
  have hfind : entities.find? (fun e' => (e'.pattern ++ [59]).isPrefixOf (e.pattern ++ [59] ++ s)) =
      some e := by
    simp only [entities, List.mem_cons, List.not_mem_nil, or_false] at he
    rcases he with rfl | rfl | rfl | rfl | rfl <;> rfl
  have hsharp : (e.pattern ++ [59] ++ s).head? ≠ some 35 := by
    simp only [entities, List.mem_cons, List.not_mem_nil, or_false] at he
    rcases he with rfl | rfl | rfl | rfl | rfl <;>
      exact fun h => absurd (Option.some.inj h) (by decide)
  show StrPair.turn flags (38 :: (e.pattern ++ [59] ++ s)) = _
  rw [StrPair.turn, if_neg fun h => absurd h.2 (by decide), if_neg fun h => absurd h.2 (by decide),
    if_pos ⟨hflags, rfl⟩, if_neg hsharp, hfind]
  simp [text]

theorem turn_ref (hflags : flags.needsEntityProcessing) {t value : List UInt8} {n : ℕ}
    (h : XMLUtil.getCharacterRef (38 :: 35 :: t) = some (n, value)) :
    StrPair.turn flags (38 :: 35 :: t) = some (.write n value) := by
  rw [StrPair.turn, if_neg fun h => absurd h.2 (by decide), if_neg fun h => absurd h.2 (by decide),
    if_pos ⟨hflags, rfl⟩, if_pos List.head?_cons, h]
  rfl

theorem getCharacterRef_decimal {digits : List (Fin 10)} {c : Char}
    (hc : Nat.ofDigits 10 (digits.map Fin.val).reverse = c.toNat) (s : List UInt8) :
    XMLUtil.getCharacterRef ((decimal digits c).text ++ s) =
      some ((decimal digits c).text.length, String.utf8EncodeChar c) := by
  have htext : ((decimal digits c).text ++ s).takeWhile (· ≠ 0) =
      [38] ++ [35] ++ (digits.map decChar ++ 59 :: s.takeWhile (· ≠ 0)) :=
    XMLUtil.takeWhile_reference (fun d => (decChar_spec d).2.2.2.2) [38, 35] (by decide) digits s
  obtain ⟨hfind, hvalue⟩ := XMLUtil.read_reference (fun d => (decChar_spec d).1)
    (fun d => (decChar_spec d).2.1) (fun d => (decChar_spec d).2.2.2.1) 10 [38] digits
    (s.takeWhile (· ≠ 0)) (show _ = 2 from rfl)
  have hlen : (decimal digits c).text.length = 2 + digits.length + 1 := by
    simp [text]
    omega
  -- the third byte is a digit or the semicolon, not an `x`
  obtain ⟨b, hthird, hx⟩ : ∃ b,
      ([38] ++ [35] ++ (digits.map decChar ++ 59 :: s.takeWhile (· ≠ 0)))[2]? = some b ∧
        b ≠ 120 := by
    cases digits with
    | nil => exact ⟨59, rfl, by decide⟩
    | cons d digits => exact ⟨decChar d, rfl, (decChar_spec d).2.2.1⟩
  rw [XMLUtil.getCharacterRef, htext, hlen]
  simp only [hthird, if_neg hx, hfind]
  rw [show (10 : UInt32) = UInt32.ofNat 10 from rfl, hvalue, Option.map_some, hc,
    show UInt32.ofNat c.toNat = c.val from UInt32.ofNat_toNat, XMLUtil.convertUTF32ToUTF8_eq]

theorem getCharacterRef_hexadecimal {digits : List HexDigit} {c : Char}
    (hc : Nat.ofDigits 16 (digits.map (·.val.val)).reverse = c.toNat) (s : List UInt8) :
    XMLUtil.getCharacterRef ((hexadecimal digits c).text ++ s) =
      some ((hexadecimal digits c).text.length, String.utf8EncodeChar c) := by
  have htext : ((hexadecimal digits c).text ++ s).takeWhile (· ≠ 0) =
      [38, 35] ++ [120] ++ (digits.map HexDigit.char ++ 59 :: s.takeWhile (· ≠ 0)) :=
    XMLUtil.takeWhile_reference (fun d => (HexDigit.char_spec d).2.2.2) [38, 35, 120] (by decide)
      digits s
  obtain ⟨hfind, hvalue⟩ := XMLUtil.read_reference (fun d => (HexDigit.char_spec d).1)
    (fun d => (HexDigit.char_spec d).2.1) (fun d => (HexDigit.char_spec d).2.2.1) 16 [38, 35] digits
    (s.takeWhile (· ≠ 0)) (show _ = 3 from rfl)
  have hlen : (hexadecimal digits c).text.length = 3 + digits.length + 1 := by
    simp [text]
    omega
  have hthird :
      ([38, 35] ++ [120] ++ (digits.map HexDigit.char ++ 59 :: s.takeWhile (· ≠ 0)))[2]? =
        some 120 := rfl
  rw [XMLUtil.getCharacterRef, htext, hlen]
  simp only [hthird, if_true, hfind]
  rw [show (16 : UInt32) = UInt32.ofNat 16 from rfl, hvalue, Option.map_some, hc,
    show UInt32.ofNat c.toNat = c.val from UInt32.ofNat_toNat, XMLUtil.convertUTF32ToUTF8_eq]

/-- The loop reads a part in one turn. -/
theorem Valid.turn_eq (hflags : flags.needsEntityProcessing) {c : Chunk} (h : c.Valid)
    {s : List UInt8} (hs : s.head? ≠ some CR) :
    StrPair.turn flags (c.text ++ s) = some (.write c.text.length c.value) := by
  cases c with
  | byte b => exact StrPair.turn_byte (.inr h.2.1) h.2.2 hs
  | entity e => exact turn_entity hflags h s
  | decimal digits c => exact turn_ref hflags (getCharacterRef_decimal h.1 s)
  | hexadecimal digits c => exact turn_ref hflags (getCharacterRef_hexadecimal h.1 s)

theorem reads_chunks (hflags : flags.needsEntityProcessing) {cs : List Chunk}
    (h : ∀ c ∈ cs, c.Valid) : StrPair.Reads flags (cs.flatMap text) (cs.flatMap value) := by
  induction cs with
  | nil => exact .nil
  | cons c cs ih =>
    have hc := h c List.mem_cons_self
    have hcs : ∀ c ∈ cs, c.Valid := fun c' hc' => h c' (List.mem_cons_of_mem c hc')
    have hne : c.text ≠ [] := by
      obtain ⟨b, t, heq, -⟩ := hc.text_head []
      rw [← List.append_nil c.text, heq]
      exact List.cons_ne_nil b t
    have hhead : (cs.flatMap text).head? ≠ some CR := by
      cases cs with
      | nil => exact fun hnone => by cases hnone
      | cons c' cs =>
        obtain ⟨b, t, heq, hb⟩ := (hcs c' List.mem_cons_self).text_head (cs.flatMap text)
        rw [List.flatMap_cons, heq]
        exact fun hsome => hb (Option.some.inj hsome)
    rw [List.flatMap_cons, List.flatMap_cons]
    exact .write hne (hc.turn_eq hflags hhead) (ih hcs)

end Chunk

namespace StrPair

/-- **References.** The text or attribute value that is made of plain bytes, of the five entities,
and of decimal and hexadecimal references to characters other than the zero is read as these bytes,
the characters of the entities, and the UTF-8 encodings of the characters referred to. -/
theorem getStr_chunks {cs : List Chunk} (h : ∀ c ∈ cs, c.Valid) :
    getStr ⟨cs.flatMap Chunk.text, .TEXT_ELEMENT⟩ = some (cs.flatMap Chunk.value) := by
  refine (Chunk.reads_chunks rfl h).getStr_eq (by decide) rfl fun hzero => ?_
  obtain ⟨c, hc, hmem⟩ := List.mem_flatMap.mp hzero
  exact (h c hc).zero_not_mem_value hmem

/-- `a&lt;&#065;&#x4E2d;`. -/
theorem getStr_chunks_two_references :
    getStr ⟨[97, 38, 108, 116, 59, 38, 35, 48, 54, 53, 59, 38, 35, 120, 52, 69, 50, 100, 59],
      .TEXT_ELEMENT⟩ = some [97, 60, 65, 0xe4, 0xb8, 0xad] := by
  have hvalid : ∀ c ∈ ([.byte 97, .entity ⟨[108, 116], 60⟩, .decimal [0, 6, 5] 'A',
      .hexadecimal [⟨4, false⟩, ⟨14, true⟩, ⟨2, false⟩, ⟨13, false⟩] '中'] : List Chunk),
      c.Valid := by
    decide
  exact getStr_chunks hvalid

end StrPair

/-! ## What is printed -/

/-- The part that `PrintString` prints for a byte. -/
def escape (restricted : Bool) (b : UInt8) : List UInt8 :=
  if entityFlag restricted b then entityText b else [b]

theorem printRun_eq (restricted : Bool) (run q : List UInt8) :
    printRun restricted run q = run ++ q.flatMap (escape restricted) := by
  induction q generalizing run with
  | nil => rw [printRun, List.flatMap_nil, List.append_nil]
  | cons b q ih =>
    rw [printRun, List.flatMap_cons, escape]
    split_ifs
    · rw [ih, List.nil_append, List.append_assoc]
    · rw [ih, List.append_assoc]

/-- Each byte is printed as a part of a string that stands for it. -/
theorem escape_eq (restricted : Bool) {b : UInt8} (hzero : b ≠ 0) (hcr : b ≠ CR) :
    ∃ c : Chunk, c.Valid ∧ c.text = escape restricted b ∧ c.value = [b] := by
  by_cases hflag : entityFlag restricted b
  · obtain ⟨e, he, hb⟩ : ∃ e ∈ entities, e.value = b := by
      cases restricted with
      | false => simpa [entityFlag] using hflag
      | true =>
        simp only [entityFlag, if_true, Bool.or_eq_true, beq_iff_eq] at hflag
        rcases hflag with (rfl | rfl) | rfl <;> decide
    refine ⟨.entity e, he, ?_, by rw [Chunk.value, hb]⟩
    rw [escape, if_pos hflag, ← hb, Chunk.text]
    simp only [entities, List.mem_cons, List.not_mem_nil, or_false] at he
    rcases he with rfl | rfl | rfl | rfl | rfl <;> rfl
  · refine ⟨.byte b, ⟨hzero, ?_, hcr⟩, ?_, rfl⟩
    · rintro rfl
      cases restricted <;> exact hflag (by decide)
    · rw [escape, if_neg hflag, Chunk.text]

/-- **What is printed is read back.** A string without zeros and CRs that is printed with entities
is read as it was, as a text or as the value of an attribute. -/
theorem getStr_printString (restricted : Bool) {s : List UInt8} (hzero : 0 ∉ s) (hcr : CR ∉ s) :
    StrPair.getStr ⟨printString true restricted s, .TEXT_ELEMENT⟩ = some s := by
  obtain ⟨cs, hvalid, htext, hvalue⟩ : ∃ cs : List Chunk, (∀ c ∈ cs, c.Valid) ∧
      cs.flatMap Chunk.text = s.flatMap (escape restricted) ∧ cs.flatMap Chunk.value = s := by
    induction s with
    | nil => exact ⟨[], by simp, rfl, rfl⟩
    | cons b s ih =>
      rw [List.mem_cons, not_or] at hzero hcr
      obtain ⟨c, hc, htext, hvalue⟩ := escape_eq restricted (Ne.symm hzero.1) (Ne.symm hcr.1)
      obtain ⟨cs, hcs, htexts, hvalues⟩ := ih hzero.2 hcr.2
      refine ⟨c :: cs, List.forall_mem_cons.mpr ⟨hc, hcs⟩, ?_, ?_⟩
      · rw [List.flatMap_cons, List.flatMap_cons, htext, htexts]
      · rw [List.flatMap_cons, hvalue, hvalues, List.singleton_append]
  have hreads : StrPair.Reads .TEXT_ELEMENT _ _ := Chunk.reads_chunks rfl hvalid
  rw [htext, hvalue, ← List.nil_append (s.flatMap _), ← printRun_eq] at hreads
  exact hreads.getStr_eq (by decide) rfl hzero

end PlutoServer.Tinyxml2
