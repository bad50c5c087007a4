import Mathlib.Tactic.Common

/-!
# Functions with fuel

A recursion that is not structural is given a number of steps, and an answer of its own for running
out of them. `Fuelled` says that an answer which is not that one stays the same with more steps;
then there is one answer for all amounts that suffice (`Fuelled.unique`).
-/

/-- With one more step, `f` gives the same answer, unless it ran `out` of steps. -/
def Fuelled {α : Type*} (out : α → Prop) (f : ℕ → α) : Prop := ∀ n, ¬ out (f n) → f (n + 1) = f n

namespace Fuelled

variable {α : Type*} {out : α → Prop} {f : ℕ → α}

theorem eq_of_le (h : Fuelled out f) {n m : ℕ} (hle : n ≤ m) (hn : ¬ out (f n)) : f m = f n := by
  induction hle with
  | refl => rfl
  | step _ ih => rw [h _ (by rwa [ih]), ih]

/-- Two amounts that suffice give the same answer. -/
theorem unique (h : Fuelled out f) {n m : ℕ} (hn : ¬ out (f n)) (hm : ¬ out (f m)) : f n = f m := by
  rcases Nat.le_total n m with hle | hle
  · exact (h.eq_of_le hle hn).symm
  · exact h.eq_of_le hle hm

end Fuelled
