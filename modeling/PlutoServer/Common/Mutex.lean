import Mathlib.Logic.Function.Basic
import Mathlib.Tactic.Common

/-!
# Critical sections

Threads share a resource that a mutex protects. A thread inside the critical section makes a claim
about the resource; the others make none. `Protected` says that exactly the owner of the mutex is
inside and that its claim is true. It is kept when a thread takes the mutex (`acquire`), changes the
resource while it has it (`change`) and gives it back (`release`), and by steps that leave its claim
as it is (`stay`); and it leaves no room for two threads inside (`unique`).
-/

namespace Mutex

variable {τ σ : Type*}

/-- What a thread relies on: nothing outside the critical section, a property of the resource
inside. -/
abbrev Claim (σ : Type*) := Option (σ → Prop)

/-- Exactly the owner of the mutex is inside, and its claim is true of the resource. -/
structure Protected (owner : Option τ) (resource : σ) (claims : τ → Claim σ) : Prop where
  outside : ∀ t, claims t = none → owner ≠ some t
  inside : ∀ t claim, claims t = some claim → owner = some t ∧ claim resource

namespace Protected

variable {owner : Option τ} {r : σ} {claims : τ → Claim σ}

theorem of_forall_none (hclaims : ∀ t, claims t = none) : Protected none r claims where
  outside t _ := (Option.some_ne_none t).symm
  inside t claim h := absurd (h.symm.trans (hclaims t)) (Option.some_ne_none claim)

/-- No two threads are inside. -/
theorem unique (h : Protected owner r claims) {t t' : τ} {claim claim' : σ → Prop}
    (ht : claims t = some claim) (ht' : claims t' = some claim') : t = t' :=
  Option.some.inj ((h.inside t claim ht).1.symm.trans (h.inside t' claim' ht').1)

/-- While a thread is inside, every other one is outside. -/
theorem other (h : Protected owner r claims) {t t' : τ} {claim : σ → Prop}
    (ht : claims t = some claim) (hne : t' ≠ t) : claims t' = none := by
  cases ht' : claims t' with
  | none => rfl
  | some claim' => exact absurd (h.unique ht' ht) hne

variable [DecidableEq τ]

/-- A step that leaves the mutex, the resource and the claim of the thread as they are. -/
theorem stay (h : Protected owner r claims) {t : τ} {claim : Claim σ} (ht : claims t = claim) :
    Protected owner r (Function.update claims t claim) := by
  rw [← ht, Function.update_eq_self]
  exact h

/-- A thread takes the free mutex. -/
theorem acquire (h : Protected none r claims) (t : τ) {claim : σ → Prop} (hclaim : claim r) :
    Protected (some t) r (Function.update claims t (some claim)) := by
  have hnone (t' : τ) : claims t' = none := by
    cases ht' : claims t' with
    | none => rfl
    | some claim' => exact absurd (h.inside t' claim' ht').1.symm (Option.some_ne_none t')
  refine ⟨fun t' ht' => ?_, fun t' claim' ht' => ?_⟩
  · intro heq
    rw [Option.some.inj heq, Function.update_self] at ht'
    exact Option.some_ne_none claim ht'
  · by_cases hne : t' = t
    · subst hne
      rw [Function.update_self] at ht'
      exact ⟨rfl, Option.some.inj ht' ▸ hclaim⟩
    · rw [Function.update_of_ne hne, hnone] at ht'
      exact absurd ht'.symm (Option.some_ne_none claim')

/-- The owner goes on inside and may change the resource. -/
theorem change (h : Protected owner r claims) {t : τ} {claim claim' : σ → Prop}
    (ht : claims t = some claim) {r' : σ} (hclaim : claim' r') :
    Protected owner r' (Function.update claims t (some claim')) := by
  refine ⟨fun t' ht' => ?_, fun t' claim'' ht' => ?_⟩
  · by_cases hne : t' = t
    · rw [hne, Function.update_self] at ht'
      exact absurd ht' (Option.some_ne_none claim')
    · rw [Function.update_of_ne hne] at ht'
      exact h.outside t' ht'
  · by_cases hne : t' = t
    · subst hne
      rw [Function.update_self] at ht'
      exact ⟨(h.inside t' claim ht).1, Option.some.inj ht' ▸ hclaim⟩
    · rw [Function.update_of_ne hne, h.other ht hne] at ht'
      exact absurd ht'.symm (Option.some_ne_none claim'')

/-- The owner gives the mutex back. -/
theorem release (h : Protected owner r claims) {t : τ} {claim : σ → Prop}
    (ht : claims t = some claim) : Protected none r (Function.update claims t none) := by
  refine of_forall_none fun t' => ?_
  by_cases hne : t' = t
  · rw [hne, Function.update_self]
  · rw [Function.update_of_ne hne, h.other ht hne]

end Protected

end Mutex
