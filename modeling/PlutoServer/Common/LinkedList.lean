import Mathlib.Data.List.Nodup

/-!
# Linked lists in memory

`Linked next o l` says that the list reached from the pointer `o` by following `next` to its end is
`l`. Such a list is determined by the pointer (`Linked.det`), does not start at a node that is its
own successor (`Linked.not_of_self_loop`), and depends only on the links of its own nodes
(`Linked.congr`).
-/

/-- Following `next` from `o` visits the nodes of `l` and then stops. -/
inductive Linked {α : Type*} (next : α → Option α) : Option α → List α → Prop
  | nil : Linked next none []
  | cons {a : α} {l : List α} : Linked next (next a) l → Linked next (some a) (a :: l)

namespace Linked

variable {α : Type*} {next next' : α → Option α} {o : Option α} {a : α} {l l' : List α}

theorem none_iff : Linked next none l ↔ l = [] := by
  refine ⟨fun h => ?_, fun h => h ▸ .nil⟩
  cases h with
  | nil => rfl

theorem some_iff : Linked next (some a) l ↔ ∃ l', l = a :: l' ∧ Linked next (next a) l' := by
  refine ⟨fun h => ?_, ?_⟩
  · cases h with
    | cons h => exact ⟨_, rfl, h⟩
  · rintro ⟨l', rfl, h⟩
    exact .cons h

/-- A pointer is the start of at most one list. -/
theorem det (h : Linked next o l) (h' : Linked next o l') : l = l' := by
  induction h generalizing l' with
  | nil => exact (none_iff.mp h').symm
  | cons _ ih =>
    obtain ⟨l'', rfl, htail⟩ := some_iff.mp h'
    rw [ih htail]

/-- No list starts at a node that is its own successor. -/
theorem not_of_self_loop (hloop : next a = some a) : ¬ Linked next (some a) l := by
  intro h
  obtain ⟨l', rfl, htail⟩ := some_iff.mp h
  rw [hloop] at htail
  have heq := congrArg List.length (h.det htail)
  rw [List.length_cons] at heq
  omega

/-- Only the links of the list's own nodes matter. -/
theorem congr (h : Linked next o l) (hnext : ∀ a ∈ l, next' a = next a) : Linked next' o l := by
  induction h with
  | nil => exact .nil
  | @cons a l htail ih =>
    have ha := hnext a List.mem_cons_self
    exact .cons (ha ▸ ih fun b hb => hnext b (List.mem_cons_of_mem a hb))

end Linked
