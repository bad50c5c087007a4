import Mathlib.Data.List.Basic
import Mathlib.Tactic.Common

/-!
# Byte memory

A heap block is addressed by offsets from its base. `ByteMem` is the memory seen from there: every
offset reads as some byte, those past the end of the block included, so that a program's reads and
writes are total and their bounds are a separate matter, recorded as `Access`es.

`slice` reads a run of bytes and `write` stores one. A program that only ever writes what it later
reads is described by three laws: `slice_write_self`, `slice_write_of_disjoint` and `slice_append`.
-/

/-- The bytes at the offsets from a block's base. -/
abbrev ByteMem : Type := ℕ → UInt8

namespace ByteMem

/-- The `n` bytes from offset `off` on. -/
def slice (m : ByteMem) (off n : ℕ) : List UInt8 := (List.range' off n).map m

/-- Store the bytes `bs` from offset `off` on. -/
def write (m : ByteMem) (off : ℕ) (bs : List UInt8) : ByteMem :=
  fun i => if off ≤ i then (bs[i - off]?).getD (m i) else m i

/-! ## Reading runs of bytes -/

@[simp] theorem length_slice (m : ByteMem) (off n : ℕ) : (m.slice off n).length = n := by
  simp [slice]

@[simp] theorem slice_zero (m : ByteMem) (off : ℕ) : m.slice off 0 = [] := rfl

theorem slice_succ (m : ByteMem) (off n : ℕ) :
    m.slice off (n + 1) = m off :: m.slice (off + 1) n := rfl

/-- Adjacent runs read as one run. -/
theorem slice_append (m : ByteMem) (off a b : ℕ) :
    m.slice off a ++ m.slice (off + a) b = m.slice off (a + b) := by
  rw [slice, slice, slice, ← List.map_append, List.range'_append_1]

theorem getElem_slice (m : ByteMem) (off n i : ℕ) (h : i < (m.slice off n).length) :
    (m.slice off n)[i] = m (off + i) := by
  simp [slice]

/-- Two memories that agree on a range read the same there. -/
theorem slice_congr {m m' : ByteMem} {off n : ℕ}
    (h : ∀ i, off ≤ i → i < off + n → m i = m' i) : m.slice off n = m'.slice off n := by
  refine List.map_congr_left fun i hi => ?_
  rw [List.mem_range'_1] at hi
  exact h i hi.1 hi.2

theorem take_slice (m : ByteMem) (off : ℕ) {a n : ℕ} (h : a ≤ n) :
    (m.slice off n).take a = m.slice off a := by
  obtain ⟨b, rfl⟩ := Nat.exists_eq_add_of_le h
  rw [← slice_append, List.take_left' (length_slice m off a)]

theorem drop_slice (m : ByteMem) (off : ℕ) {a n : ℕ} (h : a ≤ n) :
    (m.slice off n).drop a = m.slice (off + a) (n - a) := by
  obtain ⟨b, rfl⟩ := Nat.exists_eq_add_of_le h
  rw [← slice_append, List.drop_left' (length_slice m off a), Nat.add_sub_cancel_left]

/-! ## Reading back what was written -/

theorem write_apply_of_lt (m : ByteMem) {off i : ℕ} (bs : List UInt8) (h : i < off) :
    m.write off bs i = m i := by
  rw [write, if_neg (by omega)]

theorem write_apply_of_ge (m : ByteMem) {off i : ℕ} (bs : List UInt8)
    (h : off + bs.length ≤ i) : m.write off bs i = m i := by
  rw [write, if_pos (by omega), List.getElem?_eq_none (by omega), Option.getD_none]

/-- A run just written reads back as it was written. -/
@[simp] theorem slice_write_self (m : ByteMem) (off : ℕ) (bs : List UInt8) :
    (m.write off bs).slice off bs.length = bs := by
  apply List.ext_getElem (by simp)
  intro i hi hi'
  rw [getElem_slice, write, if_pos (by omega), Nat.add_sub_cancel_left,
    List.getElem?_eq_getElem hi', Option.getD_some]

/-- A write changes no byte outside its range. -/
theorem slice_write_of_disjoint (m : ByteMem) {off a n : ℕ} (bs : List UInt8)
    (h : a + n ≤ off ∨ off + bs.length ≤ a) : (m.write off bs).slice a n = m.slice a n := by
  refine slice_congr fun i hlo hhi => ?_
  rcases h with h | h
  · exact write_apply_of_lt m bs (by omega)
  · exact write_apply_of_ge m bs (by omega)

/-- Storing a run is storing its first byte and then the rest behind it. -/
theorem write_cons (m : ByteMem) (off : ℕ) (b : UInt8) (bs : List UInt8) :
    m.write off (b :: bs) = (m.write off [b]).write (off + 1) bs := by
  funext i
  rcases Nat.lt_trichotomy i off with h | rfl | h
  · simp [write, show ¬ off ≤ i by omega, show ¬ off + 1 ≤ i by omega]
  · simp [write, show ¬ i + 1 ≤ i by omega]
  · obtain ⟨k, rfl⟩ : ∃ k, i = off + 1 + k := ⟨i - off - 1, by omega⟩
    simp [write, show off + 1 + k - off = k + 1 by omega, show off ≤ off + 1 + k by omega]

/-- Writing at the end of a run extends the run. -/
theorem slice_write_end (m : ByteMem) (off n : ℕ) (bs : List UInt8) :
    (m.write (off + n) bs).slice off (n + bs.length) = m.slice off n ++ bs := by
  rw [← slice_append, slice_write_self, slice_write_of_disjoint m bs (Or.inl (Nat.le_refl _))]

end ByteMem

/-- One use of a block: a read or a write of `len` bytes from `off` on, at a moment when the block
was `cap` bytes long. -/
inductive Access where
  | read (off len cap : ℕ)
  | write (off len cap : ℕ)
deriving DecidableEq, Repr

namespace Access

def off : Access → ℕ
  | read off _ _ | write off _ _ => off

def len : Access → ℕ
  | read _ len _ | write _ len _ => len

def cap : Access → ℕ
  | read _ _ cap | write _ _ cap => cap

def IsWrite : Access → Prop
  | read .. => False
  | write .. => True

instance : DecidablePred IsWrite
  | read .. => inferInstanceAs (Decidable False)
  | write .. => inferInstanceAs (Decidable True)

/-- Every byte touched lies below `bound`. -/
def Below (a : Access) (bound : ℕ) : Prop :=
  ∀ i, a.off ≤ i → i < a.off + a.len → i < bound

/-- Every byte touched lies inside the block. -/
def InBounds (a : Access) : Prop := a.Below a.cap

theorem below_iff (a : Access) (bound : ℕ) :
    a.Below bound ↔ a.len = 0 ∨ a.off + a.len ≤ bound := by
  constructor
  · intro h
    rcases Nat.eq_zero_or_pos a.len with h0 | hpos
    · exact Or.inl h0
    · have := h (a.off + a.len - 1) (by omega) (by omega)
      omega
  · rintro h i hlo hhi
    omega

instance (a : Access) (bound : ℕ) : Decidable (a.Below bound) :=
  decidable_of_iff _ (a.below_iff bound).symm

instance : DecidablePred InBounds := fun a => inferInstanceAs (Decidable (a.Below a.cap))

end Access
