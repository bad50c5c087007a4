import Mathlib.Data.List.TakeWhile
import PlutoServer.Common.ByteMem

/-!
# C strings in a byte memory

A C string is given by the address of its first byte, and ends in front of the first zero. `text`
reads it from a block whose last byte is at `size`, and `HasText` says which string is at an address
without naming the block.
-/

namespace ByteMem

/-- The string at `p`, read up to `size` at most. -/
def text (m : ByteMem) (size p : ℕ) : List UInt8 := (m.slice p (size - p)).takeWhile (· ≠ 0)

/-- At `p` there is the string `t`, with the zero behind it. -/
structure HasText (m : ByteMem) (p : ℕ) (t : List UInt8) : Prop where
  slice_eq : m.slice p t.length = t
  zero : m (p + t.length) = 0
  zero_notMem : 0 ∉ t

@[simp] theorem write_apply_self (m : ByteMem) (off : ℕ) (b : UInt8) : m.write off [b] off = b := by
  rw [write, if_pos (Nat.le_refl off), Nat.sub_self, List.getElem?_cons_zero, Option.getD_some]

theorem write_apply_of_ne (m : ByteMem) {off i : ℕ} {b : UInt8} (h : i ≠ off) :
    m.write off [b] i = m i := by
  rcases Nat.lt_or_gt_of_ne h with hlt | hgt
  · exact write_apply_of_lt m [b] hlt
  · exact write_apply_of_ge m [b] hgt

variable {m m' : ByteMem} {p size : ℕ} {b : UInt8} {t u v : List UInt8}

theorem ne_zero_of_mem (h : 0 ∉ t) : ∀ b ∈ t, decide (b ≠ 0) = true := by
  intro b hb
  rw [decide_eq_true_iff]
  rintro rfl
  exact h hb

theorem hasText_nil_iff : m.HasText p [] ↔ m p = 0 :=
  ⟨fun h => h.zero, fun h => ⟨rfl, h, List.not_mem_nil⟩⟩

theorem hasText_cons_iff : m.HasText p (b :: t) ↔ m p = b ∧ b ≠ 0 ∧ m.HasText (p + 1) t := by
  have hshift : p + (t.length + 1) = p + 1 + t.length := by omega
  constructor
  · rintro ⟨heq, hzero, hnot⟩
    rw [List.length_cons, slice_succ, List.cons.injEq] at heq
    rw [List.length_cons, hshift] at hzero
    rw [List.mem_cons, not_or] at hnot
    exact ⟨heq.1, fun hb => hnot.1 hb.symm, heq.2, hzero, hnot.2⟩
  · rintro ⟨rfl, hb, heq, hzero, hnot⟩
    refine ⟨?_, ?_, ?_⟩
    · rw [List.length_cons, slice_succ, heq]
    · rw [List.length_cons, hshift, hzero]
    · rw [List.mem_cons, not_or]
      exact ⟨fun h => hb h.symm, hnot⟩

/-- What is left of a string further on. -/
theorem HasText.drop (h : m.HasText p (u ++ v)) : m.HasText (p + u.length) v := by
  induction u generalizing p with
  | nil => exact h
  | cons b u ih =>
    have := ih (hasText_cons_iff.mp h).2.2
    rwa [show p + 1 + u.length = p + (b :: u).length by rw [List.length_cons]; omega] at this

/-- The first byte of a string, or the zero behind an empty one. -/
theorem HasText.head (h : m.HasText p t) : m p = t.headD 0 := by
  cases t with
  | nil => exact hasText_nil_iff.mp h
  | cons b t => exact (hasText_cons_iff.mp h).1

theorem HasText.slice_left (h : m.HasText p (u ++ v)) : m.slice p u.length = u := by
  have heq := h.slice_eq
  rw [List.length_append, ← slice_append] at heq
  exact List.append_inj_left heq (length_slice m p u.length)

theorem HasText.congr (h : m.HasText p t) (heq : ∀ i, p ≤ i → i ≤ p + t.length → m i = m' i) :
    m'.HasText p t where
  slice_eq := by
    rw [← slice_congr fun i hlo hhi => heq i hlo (Nat.le_of_lt hhi), h.slice_eq]
  zero := by rw [← heq _ (Nat.le_add_right p _) (Nat.le_refl _), h.zero]
  zero_notMem := h.zero_notMem

/-- The string is read back from a block that it fits in. -/
theorem HasText.text_eq (h : m.HasText p t) (hsize : p + t.length ≤ size) : m.text size p = t := by
  obtain ⟨k, rfl⟩ := Nat.exists_eq_add_of_le hsize
  rw [text, show p + t.length + k - p = t.length + k by omega, ← slice_append, h.slice_eq,
    List.takeWhile_append_of_pos (ne_zero_of_mem h.zero_notMem)]
  cases k with
  | zero => rw [slice_zero, List.takeWhile_nil, List.append_nil]
  | succ k =>
    rw [slice_succ, h.zero, List.takeWhile_cons_of_neg (by decide), List.append_nil]

/-- Bytes with a zero behind them are a string up to the first zero. -/
theorem hasText_takeWhile (h : m.slice p t.length = t) (hzero : m (p + t.length) = 0) :
    m.HasText p (t.takeWhile (· ≠ 0)) := by
  induction t generalizing p with
  | nil => exact hasText_nil_iff.mpr hzero
  | cons b t ih =>
    rw [List.length_cons, slice_succ, List.cons.injEq] at h
    by_cases hb : b = 0
    · rw [List.takeWhile_cons_of_neg (by simp [hb]), hasText_nil_iff, h.1, hb]
    · rw [List.takeWhile_cons_of_pos (by simp [hb]), hasText_cons_iff]
      refine ⟨h.1, hb, ih h.2 ?_⟩
      rwa [List.length_cons, show p + (t.length + 1) = p + 1 + t.length by omega] at hzero

end ByteMem
