import PlutoServer.Common.Runs
import PlutoServer.Pluto.DecodeTheorems

/-!
# What a failed read leaves behind

A read that does not fit sets the error index and returns to the caller, who goes on reading. Three
things may be expected of it, and each of them holds for some of the readers only:

* the call changes nothing but the error index (`shr_failsCleanly_iff`): the signed readers assign
  their uninitialised local, and the string reader has moved over a length prefix;
* no later read does anything (`readAll_final_iff`): only the string reader looks at the index, so
  after a wide read that fails a narrower one may still fit;
* what is decoded does not depend on the uninitialised locals (`readAll_independent_iff`).

The last two are stated in the 32-bit arithmetic of the code, for every cursor and length.
-/

open Runs

namespace PlutoServer

namespace CPluto

/-- The cursor stays under an advance only if that is over no bytes. -/
theorem unLen_advance_eq_iff {p : CPluto} {n : ℕ} (hn : n < 2 ^ 32) :
    (p.advance n).unLen = p.unLen ↔ n = 0 := by
  show p.unLen + UInt32.ofNat n = p.unLen ↔ n = 0
  rw [UInt32.add_eq_left, ← UInt32.toNat_inj, UInt32.toNat_ofNat', Nat.mod_eq_of_lt hn]
  rfl

/-! ## One failed read -/

/-- The value of type `t` at the cursor ends before `m_unMaxLen`. -/
def FitsAt (p : CPluto) : FieldType → Prop
  | .string =>
    p.unLen.toNat + 2 + LittleEndian.ofBytes (p.szBuffer.slice p.unLen.toNat 2) ≤ p.unMaxLen.toNat
  | t => p.unLen.toNat + t.width ≤ p.unMaxLen.toNat

theorem fitsAt_iff (p : CPluto) {t : FieldType} (ht : t ≠ .string) :
    p.FitsAt t ↔ p.unLen.toNat + t.width ≤ p.unMaxLen.toNat := by
  cases t <;> first | exact Iff.rfl | exact absurd rfl ht

/-- The call has set the error index to the cursor it began at and changed nothing else, neither in
the object nor at the destination. -/
def FailsCleanly (p : CPluto) (t : FieldType) (loc : t.Local) (d : t.Val) : Prop :=
  { (p.shr t loc d).1 with accesses := p.accesses } = p.fail ∧ (p.shr t loc d).2 = d

/-- When a read that does not fit fails cleanly. What the destination gets from a fixed-width read
is what it holds; and a string lacks even its length prefix, with an uninitialised length that does
not fit either, or that is 0 with an empty destination. -/
def LeavesAlone (p : CPluto) : (t : FieldType) → t.Local → t.Val → Prop
  | .string, unSize, d =>
    p.unMaxLen.toNat < p.unLen.toNat + 2 ∧
      (p.unMaxLen.toNat < p.unLen.toNat + unSize.toNat ∨ unSize = 0 ∧ d = [])
  | t, loc, d => t.onFail loc d = d

theorem leavesAlone_iff (p : CPluto) {t : FieldType} (ht : t ≠ .string) (loc : t.Local)
    (d : t.Val) : p.LeavesAlone t loc d ↔ t.onFail loc d = d := by
  cases t <;> first | exact Iff.rfl | exact absurd rfl ht

theorem toNat_eq_zero_iff (n : UInt16) : n.toNat = 0 ↔ n = 0 := by
  rw [← UInt16.toNat_inj, UInt16.toNat_zero]

/-- The string reader that has lost its length prefix and takes the local for the length. -/
theorem advance_failsCleanly_iff (p : CPluto) (unSize : UInt16) (d : List UInt8) :
    ({ p.fail.advance unSize.toNat with accesses := p.accesses } = p.fail ∧
      p.szBuffer.slice p.unLen.toNat unSize.toNat = d) ↔ unSize = 0 ∧ d = [] := by
  constructor
  · rintro ⟨hq, rfl⟩
    have hlen := congrArg CPluto.unLen hq
    change (p.fail.advance unSize.toNat).unLen = p.fail.unLen at hlen
    rw [unLen_advance_eq_iff (by have := unSize.toNat_lt; omega)] at hlen
    rw [hlen]
    exact ⟨(toNat_eq_zero_iff unSize).mp hlen, rfl⟩
  · rintro ⟨rfl, rfl⟩
    have hlen : p.unLen + UInt32.ofNat 0 = p.unLen := UInt32.add_eq_left.mpr rfl
    refine ⟨?_, rfl⟩
    show { p.fail with unLen := p.unLen + UInt32.ofNat 0 } = p.fail
    rw [hlen]
    rfl

/-- **When a failed read changes nothing but the error index.** -/
theorem shr_failsCleanly_iff (p : CPluto) (hlen : p.unLen.toNat ≤ p.unMaxLen.toNat)
    (hmax : p.unMaxLen.toNat ≤ 2 ^ 31 - 1) (herr : p.unDecodeErrIdx = 0) (t : FieldType)
    (loc : t.Local) (d : t.Val) (hfit : ¬ p.FitsAt t) :
    p.FailsCleanly t loc d ↔ p.LeavesAlone t loc d := by
  have hlt : p.unLen.toNat < 2 ^ 31 := by omega
  by_cases ht : t = .string
  · subst ht
    show ({ (p.shrString loc d).1 with accesses := p.accesses } = p.fail ∧
      (p.shrString loc d).2 = d) ↔ p.unMaxLen.toNat < p.unLen.toNat + 2 ∧
      (p.unMaxLen.toNat < p.unLen.toNat + loc.toNat ∨ loc = 0 ∧ d = [])
    rcases shrString_cases hlt loc d with ⟨hne, -⟩ | ⟨-, hin, -⟩ | ⟨-, hin, -, heq⟩ |
      ⟨-, hshort, hin, heq⟩ | ⟨-, hshort, hover, heq⟩
    · exact absurd herr hne
    · exact absurd hin hfit
    · -- the prefix was there: the cursor has moved over it
      rw [heq]
      refine ⟨fun ⟨hq, _⟩ => ?_, fun ⟨hshort, _⟩ => absurd hin (by omega)⟩
      have hmoved := congrArg CPluto.unLen hq
      change (p.advance 2).unLen = p.unLen at hmoved
      exact absurd ((unLen_advance_eq_iff (by decide)).mp hmoved) (by decide)
    · rw [heq]
      refine (p.advance_failsCleanly_iff loc d).trans ⟨fun h => ⟨hshort, Or.inr h⟩, ?_⟩
      rintro ⟨-, hover | h⟩
      · omega
      · exact h
    · rw [heq]
      exact ⟨fun _ => ⟨hshort, Or.inl hover⟩, fun _ => ⟨rfl, rfl⟩⟩
  · rw [fitsAt_iff p ht, Nat.not_le] at hfit
    have hwidth := t.toNat_ofNat_width
    have hle := t.width_le
    have hshort : p.Short (UInt32.ofNat t.width) := by
      rw [short_iff (by omega), hwidth]
      exact hfit
    rw [leavesAlone_iff p ht, FailsCleanly, p.shr_of_ne_string ht, if_pos hshort]
    exact and_iff_right rfl

/-- A value of four bytes, unsigned, where two are left. -/
theorem shr_failsCleanly_uint32 :
    (((CPluto.new 16 fun _ _ => 255).setMaxLen 14).setLen 12).FailsCleanly .uint32 () 9 :=
  (shr_failsCleanly_iff _ (by decide) (by decide) rfl .uint32 () (9 : UInt32)
    (by rw [fitsAt_iff _ (by decide)]; decide)).mpr rfl

/-- At the end of a message the signed reader puts its local, here 7, into the destination, and a
string of 255 bytes announced by the last two bytes of a message moves the cursor. -/
theorem shr_not_failsCleanly :
    let p := ((CPluto.new 16 fun _ i => if i = 12 then 255 else 0).setMaxLen 14).setLen 14
    ¬ p.FitsAt .int8 ∧ ¬ p.FailsCleanly .int8 7 0 ∧
      ¬ (p.setLen 12).FitsAt .string ∧ ¬ (p.setLen 12).FailsCleanly .string 0 [] := by
  refine ⟨by rw [fitsAt_iff _ (by decide)]; decide, fun h => ?_, ?_, fun h => ?_⟩
  · exact absurd h.2 (by decide)
  · show ¬ (_ ≤ _)
    decide
  · exact absurd (congrArg CPluto.unLen h.1) (by decide)

/-! ## A run of reads after a failure -/

/-- The read of a value of type `t` fails: it sets the error index. -/
def Fails (p : CPluto) : FieldType → Prop
  | .string =>
    p.unDecodeErrIdx = 0 ∧ (p.Short 2 ∨
      (p.advance 2).Short (szToUint16 (p.szBuffer.slice p.unLen.toNat 2)).toUInt32)
  | t => p.Short (UInt32.ofNat t.width)

instance (p : CPluto) (t : FieldType) : Decidable (p.Fails t) := by
  cases t <;> (unfold Fails; infer_instance)

/-- When a read has no effect that the caller can see: no bytes are consumed, the destination and
the error index stay. A fixed-width read does not fit, at the cursor that the error index already
holds, and the destination holds what it gets. A string read finds the error index set; or the
index was set to a cursor of 0, as if nothing had failed, and the string cannot be read. -/
def Refuses (p : CPluto) : (t : FieldType) → t.Local → t.Val → Prop
  | .string, unSize, d =>
    p.unDecodeErrIdx ≠ 0 ∨
      p.unLen = 0 ∧ p.Short 2 ∧ (p.Short unSize.toUInt32 ∨ unSize = 0 ∧ d = [])
  | t, loc, d => p.Short (UInt32.ofNat t.width) ∧ p.unLen = p.unDecodeErrIdx ∧ t.onFail loc d = d

theorem refuses_iff_of_ne_string (p : CPluto) {t : FieldType} (ht : t ≠ .string) (loc : t.Local)
    (d : t.Val) :
    p.Refuses t loc d ↔
      p.Short (UInt32.ofNat t.width) ∧ p.unLen = p.unDecodeErrIdx ∧ t.onFail loc d = d := by
  cases t <;> first | exact Iff.rfl | exact absurd rfl ht

/-- A string read that finds its length prefix moves the cursor, whatever the length says. -/
theorem unLen_shrString_ne {p : CPluto} (herr : p.unDecodeErrIdx = 0) (h2 : ¬ p.Short 2)
    (unSize : UInt16) (d : List UInt8) : (p.shrString unSize d).1.unLen ≠ p.unLen := by
  obtain ⟨sz, hsz⟩ : ∃ sz, szToUint16 (p.szBuffer.slice p.unLen.toNat 2) = sz := ⟨_, rfl⟩
  rw [shrString_of_not_short herr h2 hsz]
  by_cases hin : (p.advance 2).Short sz.toUInt32
  · rw [if_pos hin]
    intro hlen
    exact absurd ((unLen_advance_eq_iff (by decide)).mp hlen) (by decide)
  · rw [if_neg hin]
    intro hlen
    -- a prefix and at most 65535 bytes do not take the cursor once around
    change p.unLen + UInt32.ofNat 2 + UInt32.ofNat sz.toNat = p.unLen at hlen
    have hlt := sz.toNat_lt
    rw [UInt32.add_assoc, UInt32.add_eq_left, ← UInt32.toNat_inj, UInt32.toNat_add,
      UInt32.toNat_ofNat', UInt32.toNat_ofNat', UInt32.toNat_zero] at hlen
    omega

/-- **What a read needs to have no visible effect.** -/
theorem shr_refused_iff (p : CPluto) (t : FieldType) (loc : t.Local) (d : t.Val) :
    ((p.shr t loc d).1.unLen = p.unLen ∧ (p.shr t loc d).2 = d ∧
      (p.shr t loc d).1.unDecodeErrIdx = p.unDecodeErrIdx) ↔ p.Refuses t loc d := by
  by_cases ht : t = .string
  · subst ht
    show ((p.shrString loc d).1.unLen = p.unLen ∧ (p.shrString loc d).2 = d ∧
      (p.shrString loc d).1.unDecodeErrIdx = p.unDecodeErrIdx) ↔
      (p.unDecodeErrIdx ≠ 0 ∨ p.unLen = 0 ∧ p.Short 2 ∧ (p.Short loc.toUInt32 ∨ loc = 0 ∧ d = []))
    by_cases herr : p.unDecodeErrIdx = 0
    swap
    · rw [shrString_of_err herr]
      exact ⟨fun _ => Or.inl herr, fun _ => ⟨rfl, rfl, rfl⟩⟩
    rw [or_iff_right (not_not_intro herr)]
    by_cases h2 : p.Short 2
    swap
    · exact ⟨fun h => absurd h.1 (unLen_shrString_ne herr h2 loc d), fun h => absurd h.2.1 h2⟩
    rw [shrString_of_short herr h2]
    by_cases hin : p.Short loc.toUInt32
    · rw [if_pos hin, herr]
      exact ⟨fun h => ⟨h.2.2, h2, Or.inl hin⟩, fun h => ⟨rfl, rfl, h.1⟩⟩
    · rw [if_neg hin, herr]
      constructor
      · rintro ⟨hlen, rfl, hidx⟩
        have h0 := (unLen_advance_eq_iff (by have := loc.toNat_lt; omega)).mp hlen
        exact ⟨hidx, h2, Or.inr ⟨(toNat_eq_zero_iff loc).mp h0, by rw [h0]; rfl⟩⟩
      · rintro ⟨hidx, -, hover | ⟨rfl, rfl⟩⟩
        · exact absurd hover hin
        · exact ⟨UInt32.add_eq_left.mpr rfl, rfl, hidx⟩
  · rw [refuses_iff_of_ne_string p ht, p.shr_of_ne_string ht]
    by_cases hshort : p.Short (UInt32.ofNat t.width)
    · rw [if_pos hshort]
      exact ⟨fun ⟨_, hv, hidx⟩ => ⟨hshort, hidx, hv⟩, fun ⟨_, hidx, hv⟩ => ⟨rfl, hv, hidx⟩⟩
    · rw [if_neg hshort]
      refine ⟨fun ⟨hlen, _⟩ => ?_, fun ⟨h, _⟩ => absurd h hshort⟩
      have hpos := t.width_pos
      have hle := t.width_le
      exact absurd ((unLen_advance_eq_iff (by omega)).mp hlen) (by omega)

end CPluto

/-- A message that is being read, and the error index that the first failed read left. -/
structure Decoding where
  pluto : CPluto
  failedAt : Option UInt32

namespace Decoding

def read (s : Decoding) (r : ReadStep) : Decoding :=
  let q := (s.pluto.shr r.ty r.loc r.dest).1
  ⟨q, s.failedAt.or (if s.pluto.Fails r.ty then some q.unDecodeErrIdx else none)⟩

theorem run_read_pluto (s : Decoding) (rs : List ReadStep) :
    (run read s rs).pluto = (s.pluto.readAll rs).1 := by
  induction rs generalizing s with
  | nil => rfl
  | cons r rs ih => exact ih (s.read r)

/-- After a failure the read consumes nothing and delivers nothing, and the error index is still the
one of the first failure. -/
def Final (s : Decoding) (r : ReadStep) : Prop :=
  ∀ e ∈ s.failedAt,
    (s.pluto.shr r.ty r.loc r.dest).1.unLen = s.pluto.unLen ∧
    (s.pluto.shr r.ty r.loc r.dest).2 = r.dest ∧
    (s.pluto.shr r.ty r.loc r.dest).1.unDecodeErrIdx = e

/-- After a failure the read is one that has no visible effect. -/
def Stuck (s : Decoding) (r : ReadStep) : Prop :=
  s.failedAt ≠ none → s.pluto.Refuses r.ty r.loc r.dest

/-- The error index is the one of the first failure. -/
def Kept (s : Decoding) : Prop := ∀ e ∈ s.failedAt, s.pluto.unDecodeErrIdx = e

theorem Kept.read {s : Decoding} (h : s.Kept) {r : ReadStep} (hr : s.Final r) :
    (s.read r).Kept := by
  obtain ⟨p, failedAt⟩ := s
  cases failedAt with
  | some e =>
    intro e' he'
    obtain rfl : e = e' := Option.some.inj he'
    exact (hr e rfl).2.2
  | none =>
    intro e' he'
    change e' ∈ if p.Fails r.ty then some (p.shr r.ty r.loc r.dest).1.unDecodeErrIdx
      else none at he'
    rw [Option.mem_ite_none_right] at he'
    exact Option.some.inj he'.2

theorem final_iff_stuck {s : Decoding} (h : s.Kept) (r : ReadStep) : s.Final r ↔ s.Stuck r := by
  obtain ⟨p, failedAt⟩ := s
  cases failedAt with
  | none => exact ⟨fun _ hne => absurd rfl hne, fun _ e he => absurd he nofun⟩
  | some e =>
    have hidx : p.unDecodeErrIdx = e := h e rfl
    have hiff := p.shr_refused_iff r.ty r.loc r.dest
    rw [hidx] at hiff
    constructor
    · intro hfinal _
      exact hiff.mp (hfinal e rfl)
    · intro hstuck e' he'
      obtain rfl : e = e' := Option.some.inj he'
      exact hiff.mpr (hstuck (Option.some_ne_none e))

end Decoding

/-- **When the first decode error is final.** From any message, at any cursor: no read after the
first failed one consumes bytes, delivers a value or changes the error index, exactly when each of
them is one of the reads that `CPluto.Refuses` describes. -/
theorem readAll_final_iff (p : CPluto) (rs : List ReadStep) :
    Guarded Decoding.read Decoding.Final ⟨p, none⟩ rs ↔
      Guarded Decoding.read Decoding.Stuck ⟨p, none⟩ rs :=
  guarded_congr (fun _ _ h hr => Decoding.Kept.read h hr)
    (fun _ r h => Decoding.final_iff_stuck h r) (fun _ he => absurd he nofun)

/-- One byte is left: a read of two bytes fails, and the read of one byte after it is served. -/
theorem readAll_not_final :
    let p := ((CPluto.new 16 fun _ _ => 65).setMaxLen 9).setLen 8
    p.Fails .uint16 ∧
    ¬ Guarded Decoding.read Decoding.Final ⟨p, none⟩ [⟨.uint16, (), 0⟩, ⟨.uint8, (), 0⟩] ∧
    (p.readAll [⟨.uint16, (), 0⟩, ⟨.uint8, (), 0⟩]).1.unLen = 9 ∧
    (p.readAll [⟨.uint16, (), 0⟩, ⟨.uint8, (), 0⟩]).2 =
      [⟨.uint16, (0 : UInt16)⟩, ⟨.uint8, (65 : UInt8)⟩] := by
  refine ⟨by decide, fun h => ?_, by decide, by decide⟩
  exact absurd (h.2.1 8 (by decide)).1 (by decide)

/-! ## Uninitialised locals -/

/-- The readers that go through a local `n2`. -/
def FieldType.isSigned : FieldType → Bool
  | .int8 | .int16 | .int32 | .int64 => true
  | _ => false

theorem FieldType.onFail_of_not_signed {t : FieldType} (ht : ¬ t.isSigned) (loc loc' : t.Local)
    (d : t.Val) : t.onFail loc d = t.onFail loc' d := by
  cases t <;> first | rfl | exact absurd rfl ht

theorem FieldType.exists_onFail_ne {t : FieldType} (ht : t.isSigned) (d : t.Val) :
    ∃ loc loc', t.onFail loc d ≠ t.onFail loc' d := by
  cases t with
  | int8 => exact ⟨(0 : UInt8), (1 : UInt8), show (0 : UInt8).toInt8 ≠ (1 : UInt8).toInt8 by decide⟩
  | int16 =>
    exact ⟨(0 : UInt16), (1 : UInt16), show (0 : UInt16).toInt16 ≠ (1 : UInt16).toInt16 by decide⟩
  | int32 =>
    exact ⟨(0 : UInt32), (1 : UInt32), show (0 : UInt32).toInt32 ≠ (1 : UInt32).toInt32 by decide⟩
  | int64 =>
    exact ⟨(0 : UInt64), (1 : UInt64), show (0 : UInt64).toInt64 ≠ (1 : UInt64).toInt64 by decide⟩
  | _ => exact absurd ht (by decide)

/-- The destination of a read, with the type that selects the reader. -/
def ReadStep.target (r : ReadStep) : Field := ⟨r.ty, r.dest⟩

namespace CPluto

/-- What the readers look at. -/
structure SameView (p p' : CPluto) : Prop where
  szBuffer_eq : p.szBuffer = p'.szBuffer
  unLen_eq : p.unLen = p'.unLen
  unMaxLen_eq : p.unMaxLen = p'.unMaxLen
  err_eq : p.unDecodeErrIdx = p'.unDecodeErrIdx

namespace SameView

variable {p p' q : CPluto}

theorem refl (p : CPluto) : p.SameView p := ⟨rfl, rfl, rfl, rfl⟩

theorem symm (h : p.SameView p') : p'.SameView p :=
  ⟨h.szBuffer_eq.symm, h.unLen_eq.symm, h.unMaxLen_eq.symm, h.err_eq.symm⟩

theorem trans (h : p.SameView p') (h' : p'.SameView q) : p.SameView q :=
  ⟨h.szBuffer_eq.trans h'.szBuffer_eq, h.unLen_eq.trans h'.unLen_eq,
    h.unMaxLen_eq.trans h'.unMaxLen_eq, h.err_eq.trans h'.err_eq⟩

theorem short_iff (h : p.SameView p') (n : UInt32) : p.Short n ↔ p'.Short n := by
  rw [Short, Short, h.unLen_eq, h.unMaxLen_eq]

theorem slice_eq (h : p.SameView p') (n : ℕ) :
    p.szBuffer.slice p.unLen.toNat n = p'.szBuffer.slice p'.unLen.toNat n := by
  rw [h.szBuffer_eq, h.unLen_eq]

theorem fail (h : p.SameView p') : p.fail.SameView p'.fail :=
  ⟨h.szBuffer_eq, h.unLen_eq, h.unMaxLen_eq, h.unLen_eq⟩

theorem advance (h : p.SameView p') (n : ℕ) : (p.advance n).SameView (p'.advance n) :=
  ⟨h.szBuffer_eq, congrArg (· + UInt32.ofNat n) h.unLen_eq, h.unMaxLen_eq, h.err_eq⟩

/-- The test that every reader makes has the same outcome, and so has the read. -/
theorem of_ite_short {α : Type} (h : p.SameView p') {n : UInt32} {k : ℕ}
    (load : List UInt8 → α) {d : α} {r r' : CPluto × α}
    (hr : r = if p.Short n then (p.fail, d)
      else (p.advance k, load (p.szBuffer.slice p.unLen.toNat k)))
    (hr' : r' = if p'.Short n then (p'.fail, d)
      else (p'.advance k, load (p'.szBuffer.slice p'.unLen.toNat k))) :
    r.1.SameView r'.1 ∧ r.2 = r'.2 := by
  by_cases hshort : p.Short n
  · rw [hr, hr', if_pos hshort, if_pos ((h.short_iff n).mp hshort)]
    exact ⟨h.fail, rfl⟩
  · rw [hr, hr', if_neg hshort, if_neg (mt (h.short_iff n).mpr hshort), h.slice_eq]
    exact ⟨h.advance k, rfl⟩

/-- A read with one local cannot tell the two objects apart. -/
theorem shr (h : p.SameView p') (t : FieldType) (loc : t.Local) (d : t.Val) :
    (p.shr t loc d).1.SameView (p'.shr t loc d).1 ∧ (p.shr t loc d).2 = (p'.shr t loc d).2 := by
  by_cases ht : t = .string
  swap
  · exact h.of_ite_short t.load (p.shr_of_ne_string ht loc d) (p'.shr_of_ne_string ht loc d)
  subst ht
  show (p.shrString loc d).1.SameView (p'.shrString loc d).1 ∧
    (p.shrString loc d).2 = (p'.shrString loc d).2
  by_cases herr : p.unDecodeErrIdx = 0
  · have herr' : p'.unDecodeErrIdx = 0 := h.err_eq.symm.trans herr
    obtain ⟨⟨q, sz⟩, hq⟩ : ∃ r, p.shrUint16 loc = r := ⟨_, rfl⟩
    obtain ⟨⟨q', sz'⟩, hq'⟩ : ∃ r, p'.shrUint16 loc = r := ⟨_, rfl⟩
    obtain ⟨hview, hsz⟩ := h.of_ite_short szToUint16
      (hq.symm.trans (p.shrFixed_eq 2 szToUint16 loc))
      (hq'.symm.trans (p'.shrFixed_eq 2 szToUint16 loc))
    obtain rfl : sz = sz' := hsz
    exact hview.of_ite_short id (shrString_eq herr hq d) (shrString_eq herr' hq' d)
  · have herr' : p'.unDecodeErrIdx ≠ 0 := by
      rw [← h.err_eq]
      exact herr
    rw [shrString_of_err herr, shrString_of_err herr']
    exact ⟨h, rfl⟩

end SameView

/-- The read shows the caller its uninitialised local: a signed read that does not fit; or a string
read, with no error before it, that lacks its length prefix, where the local decides whether an
empty string replaces what the destination holds, or how many bytes are taken. -/
def Leaks (p : CPluto) : (t : FieldType) → t.Val → Prop
  | .string, d =>
    p.unDecodeErrIdx = 0 ∧ p.Short 2 ∧
      (¬ p.Short 0 ∧ d ≠ [] ∨ ∃ unSize : UInt16, unSize ≠ 0 ∧ ¬ p.Short unSize.toUInt32)
  | t, _ => t.isSigned ∧ p.Short (UInt32.ofNat t.width)

theorem leaks_iff_of_ne_string (p : CPluto) {t : FieldType} (ht : t ≠ .string) (d : t.Val) :
    p.Leaks t d ↔ t.isSigned ∧ p.Short (UInt32.ofNat t.width) := by
  cases t <;> first | exact Iff.rfl | exact absurd rfl ht

/-- A string read without its prefix that does not leak leaves all as it was, for every local. -/
theorem shrString_of_not_leaks {p : CPluto} (herr : p.unDecodeErrIdx = 0) (h2 : p.Short 2)
    {d : List UInt8} (h : ¬ p.Leaks .string d) (unSize : UInt16) :
    (p.shrString unSize d).1.SameView p.fail ∧ (p.shrString unSize d).2 = d := by
  rw [shrString_of_short herr h2]
  by_cases hin : p.Short unSize.toUInt32
  · rw [if_pos hin]
    exact ⟨.refl _, rfl⟩
  · -- only the length 0 can fit, and the destination is empty already
    have h0 : unSize = 0 := by
      by_contra hne
      exact h ⟨herr, h2, Or.inr ⟨unSize, hne, hin⟩⟩
    subst h0
    have hd : d = [] := by
      by_contra hne
      exact h ⟨herr, h2, Or.inl ⟨hin, hne⟩⟩
    subst hd
    rw [if_neg hin]
    exact ⟨⟨rfl, UInt32.add_eq_left.mpr rfl, rfl, rfl⟩, rfl⟩

/-- A read that does not leak gives the same for any two locals. -/
theorem shr_of_not_leaks {p : CPluto} {t : FieldType} {d : t.Val} (h : ¬ p.Leaks t d)
    (loc loc' : t.Local) :
    (p.shr t loc d).1.SameView (p.shr t loc' d).1 ∧ (p.shr t loc d).2 = (p.shr t loc' d).2 := by
  by_cases ht : t = .string
  · subst ht
    show (p.shrString loc d).1.SameView (p.shrString loc' d).1 ∧
      (p.shrString loc d).2 = (p.shrString loc' d).2
    by_cases herr : p.unDecodeErrIdx = 0
    swap
    · rw [shrString_of_err herr, shrString_of_err herr]
      exact ⟨.refl p, rfl⟩
    by_cases h2 : p.Short 2
    · obtain ⟨hview, hv⟩ := shrString_of_not_leaks herr h2 h loc
      obtain ⟨hview', hv'⟩ := shrString_of_not_leaks herr h2 h loc'
      exact ⟨hview.trans hview'.symm, hv.trans hv'.symm⟩
    · -- the prefix replaces the local
      rw [shrString_of_not_short herr h2 rfl loc d, shrString_of_not_short herr h2 rfl loc' d]
      exact ⟨.refl _, rfl⟩
  · rw [leaks_iff_of_ne_string p ht] at h
    rw [p.shr_of_ne_string ht, p.shr_of_ne_string ht]
    by_cases hshort : p.Short (UInt32.ofNat t.width)
    · rw [if_pos hshort, if_pos hshort]
      exact ⟨.refl _, FieldType.onFail_of_not_signed (fun hs => h ⟨hs, hshort⟩) loc loc' d⟩
    · rw [if_neg hshort, if_neg hshort]
      exact ⟨.refl _, rfl⟩

/-- A read that leaks has two locals after which cursor or destination differ. -/
theorem exists_shr_ne_of_leaks {p : CPluto} {t : FieldType} {d : t.Val} (h : p.Leaks t d) :
    ∃ loc loc', (p.shr t loc d).1.unLen = (p.shr t loc' d).1.unLen →
      (p.shr t loc d).2 ≠ (p.shr t loc' d).2 := by
  by_cases ht : t = .string
  · subst ht
    obtain ⟨herr, h2, hleak⟩ := h
    show ∃ loc loc' : UInt16, (p.shrString loc d).1.unLen = (p.shrString loc' d).1.unLen →
      (p.shrString loc d).2 ≠ (p.shrString loc' d).2
    rcases hleak with ⟨h0, hd⟩ | ⟨unSize, hne, hin⟩
    · -- a local of 0 empties the destination, and a local of 1 does not
      refine ⟨0, 1, fun _ => ?_⟩
      rw [shrString_of_short herr h2, shrString_of_short herr h2,
        if_neg (show ¬ p.Short (0 : UInt16).toUInt32 from h0)]
      by_cases h1 : p.Short (1 : UInt16).toUInt32
      · rw [if_pos h1]
        exact hd.symm
      · rw [if_neg h1]
        exact (List.cons_ne_nil _ _).symm
    · -- a local that fits moves the cursor, and a local of 0 does not
      refine ⟨unSize, 0, fun hlen => absurd hlen ?_⟩
      have hstay : (p.shrString 0 d).1.unLen = p.unLen := by
        rw [shrString_of_short herr h2]
        by_cases h0 : p.Short (0 : UInt16).toUInt32
        · rw [if_pos h0]
          rfl
        · rw [if_neg h0]
          exact UInt32.add_eq_left.mpr rfl
      rw [hstay, shrString_of_short herr h2, if_neg hin]
      have hlt := unSize.toNat_lt
      exact fun hlen => hne
        ((toNat_eq_zero_iff unSize).mp ((unLen_advance_eq_iff (by omega)).mp hlen))
  · obtain ⟨hs, hshort⟩ := (leaks_iff_of_ne_string p ht d).mp h
    obtain ⟨loc, loc', hne⟩ := FieldType.exists_onFail_ne hs d
    refine ⟨loc, loc', fun _ => ?_⟩
    rw [p.shr_of_ne_string ht, p.shr_of_ne_string ht, if_pos hshort, if_pos hshort]
    exact hne

/-- Two ways of reading into the same destinations, with other uninitialised locals, end with the
same cursor, error index and destinations. -/
def Independent (p : CPluto) (targets : List Field) : Prop :=
  ∀ rs rs' : List ReadStep, rs.map ReadStep.target = targets → rs'.map ReadStep.target = targets →
    (p.readAll rs).1.unLen = (p.readAll rs').1.unLen ∧
    (p.readAll rs).1.unDecodeErrIdx = (p.readAll rs').1.unDecodeErrIdx ∧
    (p.readAll rs).2 = (p.readAll rs').2

/-- No read leaks, in the state that the reads before it leave. -/
def NoLeak : CPluto → List Field → Prop
  | _, [] => True
  | p, f :: fs => ¬ p.Leaks f.1 f.2 ∧ ∀ loc, NoLeak (p.shr f.1 loc f.2).1 fs

/-- Without a leak two objects that look the same stay so, whatever the locals. -/
theorem NoLeak.sameView {p p' : CPluto} {rs rs' : List ReadStep}
    (h : p.NoLeak (rs.map ReadStep.target)) (hview : p.SameView p')
    (htarget : rs.map ReadStep.target = rs'.map ReadStep.target) :
    (p.readAll rs).1.SameView (p'.readAll rs').1 ∧ (p.readAll rs).2 = (p'.readAll rs').2 := by
  induction rs generalizing p p' rs' with
  | nil =>
    rw [List.map_eq_nil_iff.mp htarget.symm]
    exact ⟨hview, rfl⟩
  | cons r rs ih =>
    obtain ⟨r', rs'', rfl, hr, hrs⟩ := List.map_eq_cons_iff.mp htarget.symm
    obtain ⟨t, loc, d⟩ := r
    obtain ⟨t', loc', d'⟩ := r'
    obtain ⟨rfl, hd⟩ := Sigma.mk.inj hr
    obtain rfl := eq_of_heq hd
    obtain ⟨hleak, hrest⟩ := h
    -- change the local in the first object, then the object
    obtain ⟨hloc, hvloc⟩ := shr_of_not_leaks hleak loc loc'
    obtain ⟨hobj, hvobj⟩ := hview.shr t' loc' d'
    obtain ⟨hend, hvs⟩ := ih (hrest loc) (hloc.trans hobj) hrs.symm
    exact ⟨hend, congrArg₂ (fun v vs => (⟨t', v⟩ :: vs : List Field)) (hvloc.trans hvobj) hvs⟩

theorem NoLeak.of_isPrefix {p : CPluto} {pre targets : List Field} (h : p.NoLeak targets)
    (hpre : pre <+: targets) : p.NoLeak pre := by
  induction pre generalizing p targets with
  | nil => trivial
  | cons f pre ih =>
    obtain ⟨post, rfl⟩ := hpre
    exact ⟨h.1, fun loc => ih (h.2 loc) (List.prefix_append pre post)⟩

/-- One read that is independent of its local does not leak it. -/
theorem not_leaks_of_independent {p : CPluto} {f : Field} (h : p.Independent [f]) :
    ¬ p.Leaks f.1 f.2 := by
  intro hleak
  obtain ⟨loc, loc', hne⟩ := exists_shr_ne_of_leaks hleak
  obtain ⟨hlen, -, hv⟩ := h [⟨f.1, loc, f.2⟩] [⟨f.1, loc', f.2⟩] rfl rfl
  exact hne hlen (eq_of_heq (Sigma.mk.inj (List.cons.inj hv).1).2)

/-- The reads after the first are independent of their locals, whatever its local was. -/
theorem Independent.tail {p : CPluto} {f : Field} {fs : List Field} (h : p.Independent (f :: fs))
    (loc : f.1.Local) : (p.shr f.1 loc f.2).1.Independent fs := by
  intro rs rs' hrs hrs'
  obtain ⟨hlen, hidx, hvs⟩ := h (⟨f.1, loc, f.2⟩ :: rs) (⟨f.1, loc, f.2⟩ :: rs')
    (congrArg (f :: ·) hrs) (congrArg (f :: ·) hrs')
  exact ⟨hlen, hidx, (List.cons.inj hvs).2⟩

end CPluto

/-- **When decoding does not depend on uninitialised memory.** After every number of reads the
locals have had no influence on cursor, error index and destinations, exactly when no read leaks
one. -/
theorem readAll_independent_iff (p : CPluto) (targets : List Field) :
    (∀ pre, pre <+: targets → p.Independent pre) ↔ p.NoLeak targets := by
  constructor
  · intro h
    induction targets generalizing p with
    | nil => trivial
    | cons f fs ih =>
      refine ⟨CPluto.not_leaks_of_independent (h [f] ⟨fs, rfl⟩), fun loc => ?_⟩
      apply ih
      intro pre hpre
      exact (h (f :: pre) (List.cons_prefix_cons.mpr ⟨rfl, hpre⟩)).tail loc
  · intro h pre hpre rs rs' hrs hrs'
    have hpre' := h.of_isPrefix hpre
    rw [← hrs] at hpre'
    obtain ⟨hview, hvs⟩ := hpre'.sameView (.refl p) (hrs.trans hrs'.symm)
    exact ⟨hview.unLen_eq, hview.err_eq, hvs⟩

/-- A message that is read to its end, and then a signed byte: the caller gets what the stack held.
-/
theorem readAll_not_independent :
    let p := ((CPluto.new 16 fun _ _ => 0).setMaxLen 12).setLen 12
    ¬ p.Independent [⟨.int8, 0⟩] := by
  intro p h
  obtain ⟨-, -, hv⟩ := h [⟨.int8, (1 : UInt8), 0⟩] [⟨.int8, (2 : UInt8), 0⟩] rfl rfl
  exact absurd hv (by decide)

end PlutoServer
