import PlutoServer.Common.ByteMem

/-!
# Strings of a document

Reference: `StrPair`, `XMLUtil` and `XMLPrinter::PrintString` in `CoreBase/tinyxml2.h` and
`CoreBase/tinyxml2.cpp`.

The parser stores a string as a segment of its buffer. When the string is read, `GetStr` rewrites
the segment in place: line ends become LF, entities and character references the bytes they stand
for. It reads through one pointer and writes through another, and `getStrLoop_eq` says that this
computes `decode`, a function of the segment alone, and touches nothing outside.

`decode` has two surprises. A `&#` that begins no character reference makes `GetCharacterRef` return
`NULL`, which the loop then reads through; so a string has no value here unless all its references
are in order. And a `&` that begins no entity is not copied: both pointers pass over a byte, and
what is kept is the byte under the write pointer.

`Entities` says what is read of strings that are in order.
-/

namespace PlutoServer.Tinyxml2

/-! ## Characters -/

def LF : UInt8 := 0x0a

def CR : UInt8 := 0x0d

/-- `isspace` in the C locale. -/
def isspace (b : UInt8) : Bool := b == 32 || (9 ≤ b && b ≤ 13)

/-- `isalpha` in the C locale. -/
def isalpha (b : UInt8) : Bool := (65 ≤ b && b ≤ 90) || (97 ≤ b && b ≤ 122)

def isdigit (b : UInt8) : Bool := 48 ≤ b && b ≤ 57

namespace XMLUtil

def isUTF8Continuation (b : UInt8) : Bool := b &&& 0x80 != 0

def isWhiteSpace (b : UInt8) : Bool := !isUTF8Continuation b && isspace b

/-- Letters, bytes of other scripts, `:` and `_`. -/
def isNameStartChar (b : UInt8) : Bool :=
  (if b < 128 then isalpha b else true) || b == 58 || b == 95

/-- These, digits, `.` and `-`. -/
def isNameChar (b : UInt8) : Bool := isNameStartChar b || isdigit b || b == 46 || b == 45

def skipWhiteSpace (p : List UInt8) : List UInt8 := p.dropWhile isWhiteSpace

/-- The text behind a byte order mark, and whether there was one. -/
def readBOM : List UInt8 → List UInt8 × Bool
  | 0xef :: 0xbb :: 0xbf :: p => (p, true)
  | p => (p, false)

/-- The bytes of a character. -/
def convertUTF32ToUTF8 (input : UInt32) : List UInt8 :=
  let trail (input : UInt32) : UInt8 := ((input ||| 0x80) &&& 0xbf).toUInt8
  if input < 0x80 then [(input ||| 0x00).toUInt8]
  else if input < 0x800 then [(input >>> 6 ||| 0xc0).toUInt8, trail input]
  else if input < 0x10000 then
    [(input >>> 6 >>> 6 ||| 0xe0).toUInt8, trail (input >>> 6), trail input]
  else if input < 0x200000 then
    [(input >>> 6 >>> 6 >>> 6 ||| 0xf0).toUInt8, trail (input >>> 6 >>> 6), trail (input >>> 6),
      trail input]
  else []

/-- The value of a decimal digit. -/
def decDigit (b : UInt8) : Option UInt32 := if isdigit b then some (b - 48).toUInt32 else none

/-- The value of a hexadecimal digit. -/
def hexDigit (b : UInt8) : Option UInt32 :=
  if isdigit b then some (b - 48).toUInt32
  else if 97 ≤ b && b ≤ 102 then some (b - 97 + 10).toUInt32
  else if 65 ≤ b && b ≤ 70 then some (b - 65 + 10).toUInt32
  else none

/-- The loop of `GetCharacterRef`, which goes backwards from the semicolon until it meets `stop`.
`unsigned long` has 32 bits in the builds of the servers. -/
def refValue (digit : UInt8 → Option UInt32) (base : UInt32) (stop : UInt8) :
    List UInt8 → (mult ucs : UInt32) → Option UInt32
  -- not reached: `stop` is in front of the digits
  | [], _, _ => none
  | b :: q, mult, ucs =>
    if b = stop then some ucs
    else
      match digit b with
      | none => none
      | some d => refValue digit base stop q (mult * base) (ucs + mult * d)

/-- `XMLUtil::GetCharacterRef` on a text that begins with `&#`: how far the pointer is moved, and
the bytes of the character. There is nothing if it returns `NULL`. -/
def getCharacterRef (text : List UInt8) : Option (ℕ × List UInt8) :=
  -- neither `strchr` nor the checks of `*(p+2)` and `*(p+3)` go past a zero
  let p := text.takeWhile (· ≠ 0)
  match p[2]? with
  | none => some (1, [])
  | some b =>
    let hex := b = 120
    -- `strchr( q, ';' )`, from behind the `x` or the `#`
    let start := if hex then 3 else 2
    match (p.drop start).findIdx? (· = 59) with
    | none => none
    | some i =>
      let delta := start + i
      let digits := (p.take delta).reverse
      let ucs := if hex then refValue hexDigit 16 120 digits 1 0
        else refValue decDigit 10 35 digits 1 0
      ucs.map fun ucs => (delta + 1, convertUTF32ToUTF8 ucs)

end XMLUtil

/-- `Entity`: a name and the character it stands for. -/
structure Entity where
  pattern : List UInt8
  value : UInt8
deriving DecidableEq, Repr

/-- The table `entities`: `quot`, `amp`, `apos`, `lt` and `gt`. -/
def entities : List Entity :=
  [⟨[113, 117, 111, 116], 34⟩, ⟨[97, 109, 112], 38⟩, ⟨[97, 112, 111, 115], 39⟩, ⟨[108, 116], 60⟩,
    ⟨[103, 116], 62⟩]

/-! ## Segments -/

/-- The flags of a `StrPair` that say what is still to be done with it. -/
structure StrFlags where
  needsEntityProcessing : Bool := false
  needsNewlineNormalization : Bool := false
  collapseWhitespace : Bool := false
deriving DecidableEq, Repr

namespace StrFlags

def TEXT_ELEMENT : StrFlags := ⟨true, true, false⟩

def TEXT_ELEMENT_LEAVE_ENTITIES : StrFlags := ⟨false, true, false⟩

def ATTRIBUTE_VALUE : StrFlags := ⟨true, true, false⟩

def ATTRIBUTE_VALUE_LEAVE_ENTITIES : StrFlags := ⟨false, true, false⟩

def COMMENT : StrFlags := ⟨false, true, false⟩

end StrFlags

/-- `StrPair`: the bytes from `_start` to `_end`. -/
structure StrPair where
  str : List UInt8
  flags : StrFlags
deriving DecidableEq, Repr

namespace StrPair

/-- `StrPair::ParseText`: the segment in front of the end tag, and the text behind it. -/
def parseText (endTag : List UInt8) : List UInt8 → Option (List UInt8 × List UInt8)
  | [] => none
  | b :: p =>
    if endTag.isPrefixOf (b :: p) then some ([], (b :: p).drop endTag.length)
    else (parseText endTag p).map fun r => (b :: r.1, r.2)

/-- `StrPair::ParseName`: a name, and the text behind it. -/
def parseName : List UInt8 → Option (List UInt8 × List UInt8)
  | [] => none
  | b :: p =>
    if XMLUtil.isNameStartChar b then
      some (b :: p.takeWhile XMLUtil.isNameChar, p.dropWhile XMLUtil.isNameChar)
    else none

/-- What one turn of the loop of `GetStr` does: it moves the read pointer and writes some bytes, or
it moves both pointers over a byte. -/
inductive Turn where
  | write (n : ℕ) (value : List UInt8)
  | pass
deriving DecidableEq, Repr

/-- One turn of the loop of `GetStr`, with the text at the read pointer. There is none if the
pointer becomes `NULL`. -/
def turn (flags : StrFlags) : List UInt8 → Option Turn
  -- not reached: `p < _end`
  | [] => some .pass
  | b :: p =>
    if flags.needsNewlineNormalization ∧ b = CR then
      some (.write (if p.head? = some LF then 2 else 1) [LF])
    else if flags.needsNewlineNormalization ∧ b = LF then
      some (.write (if p.head? = some CR then 2 else 1) [LF])
    else if flags.needsEntityProcessing ∧ b = 38 then
      if p.head? = some 35 then
        (XMLUtil.getCharacterRef (b :: p)).map fun r => .write r.1 r.2
      else
        match entities.find? fun e => (e.pattern ++ [59]).isPrefixOf p with
        | some e => some (.write (e.pattern.length + 2) [e.value])
        | none => some .pass
    else some (.write 1 [b])

/-- The loop of `GetStr` on the buffer, from `p` up to `stop`, where `GetStr` has put a zero: the
buffer afterwards, and where the write pointer is. -/
def getStrLoop (flags : StrFlags) (stop : ℕ) : ℕ → ByteMem → (p q : ℕ) → Option (ByteMem × ℕ)
  | 0, m, p, q => if p < stop then none else some (m, q)
  | fuel + 1, m, p, q =>
    if p < stop then
      match turn flags (m.slice p (stop - p)) with
      | none => none
      | some (.write n value) =>
        getStrLoop flags stop fuel (m.write q value) (p + n) (q + value.length)
      | some .pass => getStrLoop flags stop fuel m (p + 1) (q + 1)
    else some (m, q)

/-- What the loop makes of the segment `raw`, of which `p` is still to be read and `skip` bytes of
that have been dealt with. -/
def decodeFrom (flags : StrFlags) (raw : List UInt8) :
    (p : List UInt8) → (skip : ℕ) → (out : List UInt8) → Option (List UInt8)
  | [], _, out => some out
  | _ :: p, skip + 1, out => decodeFrom flags raw p skip out
  | b :: p, 0, out =>
    match turn flags (b :: p) with
    | none => none
    | some (.write n value) => decodeFrom flags raw p (n - 1) (out ++ value)
    -- the byte under the write pointer is still that of the segment
    | some .pass => decodeFrom flags raw p 0 (out ++ [raw.getD out.length 0])

/-- The bytes that the loop of `GetStr` leaves of a segment. -/
def decode (flags : StrFlags) (raw : List UInt8) : Option (List UInt8) :=
  decodeFrom flags raw raw 0 []

/-- The loop of `CollapseWhitespace`: a run of white space becomes one space, and none at the end.
-/
def collapseFrom (pending : Bool) : List UInt8 → List UInt8
  | [] => []
  | b :: p =>
    if XMLUtil.isWhiteSpace b then collapseFrom true p
    else if pending then 32 :: b :: collapseFrom false p
    else b :: collapseFrom false p

/-- `StrPair::CollapseWhitespace`. -/
def collapse (s : List UInt8) : List UInt8 := collapseFrom false (XMLUtil.skipWhiteSpace s)

/-- `StrPair::GetStr`, up to the first zero. -/
def getStr (s : StrPair) : Option (List UInt8) :=
  if s.flags = {} then some s.str
  else
    (decode s.flags s.str).map fun out =>
      let value := out.takeWhile (· ≠ 0)
      if s.flags.collapseWhitespace then collapse value else value

end StrPair

/-- The text of the entity for a character. -/
def entityText (b : UInt8) : List UInt8 :=
  match entities.find? fun e => e.value = b with
  | some e => 38 :: e.pattern ++ [59]
  | none => []

/-- The tables `_entityFlag` and `_restrictedEntityFlag`. -/
def entityFlag (restricted : Bool) (b : UInt8) : Bool :=
  if restricted then b == 38 || b == 60 || b == 62 else entities.any fun e => e.value == b

/-- The loop of `XMLPrinter::PrintString`. The bytes of `run` have been passed over and not printed.
-/
def printRun (restricted : Bool) : (run : List UInt8) → List UInt8 → List UInt8
  | run, [] => run
  | run, b :: q =>
    if entityFlag restricted b then run ++ entityText b ++ printRun restricted [] q
    else printRun restricted (run ++ [b]) q

/-- `XMLPrinter::PrintString`. -/
def printString (processEntities restricted : Bool) (p : List UInt8) : List UInt8 :=
  if processEntities then printRun restricted [] p else p

/-! ## The loop in place -/

namespace XMLUtil

theorem length_convertUTF32ToUTF8_le (input : UInt32) :
    (convertUTF32ToUTF8 input).length ≤ 4 := by
  unfold convertUTF32ToUTF8
  split_ifs <;> simp

/-- A character reference is at least as long as its character, and does not reach past the string.
-/
theorem getCharacterRef_spec {p value : List UInt8} {n : ℕ}
    (hp : [38, 35].isPrefixOf p) (h : getCharacterRef p = some (n, value)) :
    value.length ≤ n ∧ 0 < n ∧ n ≤ p.length := by
  obtain ⟨p, rfl⟩ := List.isPrefixOf_iff_prefix.mp hp
  have htake : ([38, 35] ++ p).takeWhile (· ≠ 0) = [38, 35] ++ p.takeWhile (· ≠ 0) := rfl
  have hshort : (p.takeWhile (· ≠ 0)).length ≤ p.length := (List.takeWhile_prefix _).length_le
  rw [getCharacterRef, htake] at h
  generalize p.takeWhile (· ≠ 0) = q at h hshort
  rw [List.length_append]
  dsimp only at h
  split at h
  · cases h
    exact ⟨Nat.zero_le 1, Nat.one_pos, Nat.le_add_right_of_le (by decide)⟩
  · rename_i b hb
    split at h
    · cases h
    · rename_i i hi
      obtain ⟨ucs, hucs, heq⟩ := Option.map_eq_some_iff.mp h
      cases heq
      have hlt := (List.findIdx?_eq_some_iff_getElem.mp hi).1
      have hle := length_convertUTF32ToUTF8_le ucs
      rw [List.length_drop, List.length_append] at hlt
      refine ⟨?_, Nat.succ_pos _, by omega⟩
      -- without a digit the reference has three bytes, and the character is the zero
      by_cases hdelta : (if b = 120 then 3 else 2) + i = 2
      · have hhex : b ≠ 120 := by
          intro hhex
          rw [if_pos hhex] at hdelta
          omega
        rw [if_neg hhex, hdelta] at hucs
        cases hucs
        rw [hdelta]
        decide
      · have : 2 ≤ if b = 120 then 3 else 2 := by split_ifs <;> decide
        omega

end XMLUtil

namespace StrPair

variable {flags : StrFlags}

/-- A turn of the loop writes no more than it reads. -/
theorem turn_write_spec {b : UInt8} {p value : List UInt8} {n : ℕ}
    (h : turn flags (b :: p) = some (.write n value)) :
    value.length ≤ n ∧ 0 < n ∧ n ≤ (b :: p).length := by
  have hline (c : UInt8) : 1 ≤ (if p.head? = some c then 2 else 1) ∧
      (if p.head? = some c then 2 else 1) ≤ (b :: p).length := by
    cases p with
    | nil => simp
    | cons => split_ifs <;> simp
  rw [turn] at h
  split at h
  · cases h
    exact ⟨(hline LF).1, (hline LF).1, (hline LF).2⟩
  split at h
  · cases h
    exact ⟨(hline CR).1, (hline CR).1, (hline CR).2⟩
  split at h
  · rename_i hamp
    split at h
    · rename_i hsharp
      obtain ⟨r, hr, heq⟩ := Option.map_eq_some_iff.mp h
      cases heq
      refine XMLUtil.getCharacterRef_spec ?_ hr
      obtain ⟨p, rfl⟩ := List.head?_eq_some_iff.mp hsharp
      rw [hamp.2]
      simp [List.isPrefixOf]
    · split at h
      · rename_i e he
        cases h
        have hfound : (e.pattern ++ [59]).isPrefixOf p :=
          List.find?_some (p := fun e : Entity => (e.pattern ++ [59]).isPrefixOf p) he
        have hlen := (List.isPrefixOf_iff_prefix.mp hfound).length_le
        simp only [List.length_append, List.length_cons, List.length_nil] at hlen ⊢
        omega
      · cases h
  · cases h
    simp

theorem decodeFrom_skip (raw p out : List UInt8) (n : ℕ) :
    decodeFrom flags raw p n out = decodeFrom flags raw (p.drop n) 0 out := by
  induction p generalizing n with
  | nil =>
    rw [List.drop_nil, decodeFrom, decodeFrom]
  | cons b p ih =>
    cases n with
    | zero => rfl
    | succ n => rw [decodeFrom, ih, List.drop_succ_cons]

/-- What the loop leaves of the segment from `start` to `stop` of the buffer `m`, if it makes
`result` of it: these bytes at the start of the segment, with the write pointer behind them, and the
rest of the buffer as it was. -/
def Leaves (m : ByteMem) (start stop : ℕ) :
    (result : Option (List UInt8)) → (loop : Option (ByteMem × ℕ)) → Prop
  | none, loop => loop = none
  | some out, loop => ∃ m', loop = some (m', start + out.length) ∧
      m'.slice start out.length = out ∧ start + out.length ≤ stop ∧
      ∀ i, i < start ∨ stop ≤ i → m' i = m i

/-- The loop has come to the write pointer `q`: the segment is unchanged from there on, and so is
what is in front of the segment. -/
structure Untouched (m₀ : ByteMem) (start q : ℕ) (m : ByteMem) : Prop where
  after : ∀ i, q ≤ i → m i = m₀ i
  before : ∀ i, i < start → m i = m₀ i

variable {m₀ m : ByteMem} {start stop p q : ℕ}

theorem leaves_of_done (hq : start ≤ q) (hqp : q ≤ stop) (h : Untouched m₀ start q m) :
    Leaves m₀ start stop (some (m.slice start (q - start))) (some (m, q)) := by
  refine ⟨m, ?_, ?_, ?_, fun i hi => hi.elim (h.before i) fun hi => h.after i (by omega)⟩
  · rw [ByteMem.length_slice, Nat.add_sub_cancel' hq]
  · rw [ByteMem.length_slice]
  · rw [ByteMem.length_slice]
    omega

/-- The loop, from a point where the write pointer is not past the read pointer. -/
theorem getStrLoop_spec (fuel : ℕ) (hq : start ≤ q) (hqp : q ≤ p) (hp : p ≤ stop)
    (hfuel : stop - p ≤ fuel) (h : Untouched m₀ start q m) {raw : List UInt8}
    (hraw : m₀.slice start (stop - start) = raw) :
    Leaves m₀ start stop
      (decodeFrom flags raw (raw.drop (p - start)) 0 (m.slice start (q - start)))
      (getStrLoop flags stop fuel m p q) := by
  have hlen : raw.length = stop - start := by rw [← hraw, ByteMem.length_slice]
  have hdone (hle : stop ≤ p) : raw.drop (p - start) = [] :=
    List.drop_eq_nil_iff.mpr (by omega)
  induction fuel generalizing m p q with
  | zero =>
    rw [hdone (by omega), decodeFrom, getStrLoop, if_neg (by omega)]
    exact leaves_of_done hq (by omega) h
  | succ fuel ih =>
    by_cases hlt : p < stop
    · have htext : m.slice p (stop - p) = raw.drop (p - start) := by
        rw [← hraw, ByteMem.drop_slice _ _ (by omega), show start + (p - start) = p by omega,
          show stop - start - (p - start) = stop - p by omega]
        exact ByteMem.slice_congr fun i hi _ => h.after i (by omega)
      obtain ⟨b, rest, hrest⟩ : ∃ b rest, raw.drop (p - start) = b :: rest := by
        rw [← List.ne_nil_iff_exists_cons, ← List.length_pos_iff, List.length_drop]
        omega
      -- what is left of the segment after `n` more bytes
      have hdrop (n : ℕ) : (b :: rest).drop n = raw.drop (p + n - start) := by
        rw [← hrest, List.drop_drop]
        congr 1
        omega
      rw [getStrLoop, if_pos hlt, htext, hrest, decodeFrom]
      cases hturn : turn flags (b :: rest) with
      | none => exact rfl
      | some t =>
        cases t with
        | write n value =>
          obtain ⟨hvalue, hpos, hn⟩ := turn_write_spec hturn
          rw [← hrest, List.length_drop, hlen] at hn
          have hout : m.slice start (q - start) ++ value =
              (m.write q value).slice start (q + value.length - start) := by
            have hend := ByteMem.slice_write_end m start (q - start) value
            rw [Nat.add_sub_cancel' hq] at hend
            rw [← hend]
            congr 1
            omega
          have hskip : rest.drop (n - 1) = raw.drop (p + n - start) := by
            obtain ⟨k, rfl⟩ : ∃ k, n = k + 1 := ⟨n - 1, by omega⟩
            exact hdrop (k + 1)
          dsimp only
          rw [decodeFrom_skip, hskip, hout]
          refine ih (by omega) (by omega) (by omega) (by omega) ⟨fun i hi => ?_, fun i hi => ?_⟩
            (fun hle => List.drop_eq_nil_iff.mpr (by omega))
          · rw [ByteMem.write_apply_of_ge m value hi, h.after i (by omega)]
          · rw [ByteMem.write_apply_of_lt m value (by omega), h.before i hi]
        | pass =>
          have hbyte : raw.getD (q - start) 0 = m q := by
            have hlt' : q - start < (m₀.slice start (stop - start)).length := by
              rw [ByteMem.length_slice]
              omega
            rw [← hraw, List.getD_eq_getElem?_getD, List.getElem?_eq_getElem hlt', Option.getD_some,
              ByteMem.getElem_slice, Nat.add_sub_cancel' hq, h.after q (Nat.le_refl q)]
          have hout : m.slice start (q - start) ++ [m q] = m.slice start (q + 1 - start) := by
            have happend := ByteMem.slice_append m start (q - start) 1
            rw [Nat.add_sub_cancel' hq, ByteMem.slice_succ, ByteMem.slice_zero] at happend
            rw [happend]
            congr 1
            omega
          dsimp only
          rw [ByteMem.length_slice, hbyte, hout, show rest = raw.drop (p + 1 - start) from hdrop 1]
          exact ih (by omega) (by omega) (by omega) (by omega)
            ⟨fun i hi => h.after i (by omega), h.before⟩
            (fun hle => List.drop_eq_nil_iff.mpr (by omega))
    · rw [hdone (by omega), decodeFrom, getStrLoop, if_neg hlt]
      exact leaves_of_done hq (by omega) h

/-- The whole loop, on a segment with the bytes `raw`. -/
theorem leaves_getStrLoop (hle : start ≤ stop) {raw : List UInt8}
    (hraw : m.slice start (stop - start) = raw) :
    Leaves m start stop (decode flags raw)
      (getStrLoop flags stop (stop - start) m start start) := by
  have huntouched : Untouched m start start m := ⟨fun _ _ => rfl, fun _ _ => rfl⟩
  have hspec : Leaves m start stop _ (getStrLoop flags stop (stop - start) m start start) :=
    getStrLoop_spec _ (Nat.le_refl start) (Nat.le_refl start) hle (Nat.le_refl _) huntouched hraw
  rwa [Nat.sub_self, List.drop_zero, ByteMem.slice_zero] at hspec

/-- **The loop of `GetStr`.** On a segment of any buffer, the loop ends after at most as many turns
as there are bytes, and leaves the bytes of `decode` at the start of the segment, and the rest of
the buffer as it was. The exception is a `&#` that begins no reference, such as `&#xg;`: there is
then no `decode`, and the loop reads through the `NULL` that `GetCharacterRef` returns. -/
theorem getStrLoop_eq (flags : StrFlags) (m : ByteMem) (start n : ℕ) :
    Leaves m start (start + n) (decode flags (m.slice start n))
      (getStrLoop flags (start + n) n m start start) := by
  have hloop : Leaves m start (start + n) (decode flags (m.slice start (start + n - start)))
      (getStrLoop flags (start + n) (start + n - start) m start start) :=
    leaves_getStrLoop (Nat.le_add_right start n) rfl
  rwa [Nat.add_sub_cancel_left] at hloop

end StrPair

end PlutoServer.Tinyxml2
