import Mathlib.Tactic.Common

/-!
# Segments of a memory

Several objects share a memory, and each has a segment of it for itself. `Segments` says where the
segment of an object begins and ends, and when the object stands for a value; that is a matter of
the contents of its segment. In a `Row` the segments follow each other. What is done to one object
inside its segment leaves all the others as they were (`Row.set`).
-/

/-- The memory has changed at most from `a` up to `b`. -/
def ChangesOnly {α : Type*} (m m' : ℕ → α) (a b : ℕ) : Prop := ∀ i, i < a ∨ b ≤ i → m' i = m i

namespace ChangesOnly

variable {α : Type*} {m m' m'' : ℕ → α} {a a' b b' : ℕ}

theorem refl (m : ℕ → α) (a b : ℕ) : ChangesOnly m m a b := fun _ _ => rfl

theorem trans (h : ChangesOnly m m' a b) (h' : ChangesOnly m' m'' a b) : ChangesOnly m m'' a b :=
  fun i hi => (h' i hi).trans (h i hi)

theorem mono (h : ChangesOnly m m' a b) (ha : a' ≤ a) (hb : b ≤ b') : ChangesOnly m m' a' b' :=
  fun i hi => h i (by omega)

end ChangesOnly

/-- Objects that stand for values by the contents of a segment of the memory. -/
structure Segments (α κ β : Type*) where
  first : κ → ℕ
  last : κ → ℕ
  Stands : (ℕ → α) → κ → β → Prop
  first_le_last : ∀ {m c v}, Stands m c v → first c ≤ last c
  congr : ∀ {m m' c v}, Stands m c v → (∀ i, first c ≤ i → i ≤ last c → m i = m' i) → Stands m' c v

namespace Segments

variable {α κ β : Type*} (S : Segments α κ β)

/-- Objects whose segments follow each other between two addresses, and the values they stand for.
-/
inductive Row (m : ℕ → α) : ℕ → List κ → List β → ℕ → Prop where
  | nil {a b : ℕ} (hle : a ≤ b) : Row m a [] [] b
  | cons {a b : ℕ} {c : κ} {v : β} {cs : List κ} {vs : List β} (hfirst : a ≤ S.first c)
      (hc : S.Stands m c v) (hcs : Row m (S.last c + 1) cs vs b) : Row m a (c :: cs) (v :: vs) b

namespace Row

variable {S} {m m' : ℕ → α} {a a' b b' d : ℕ} {c c' : κ} {v : β} {cs ds : List κ} {vs ws : List β}

theorem le (h : S.Row m a cs vs b) : a ≤ b := by
  induction h with
  | nil hle => exact hle
  | cons hfirst hc _ ih =>
    have := S.first_le_last hc
    omega

/-- A row fits between addresses that are further apart. -/
theorem mono (h : S.Row m a cs vs b) (ha : a' ≤ a) (hb : b ≤ b') : S.Row m a' cs vs b' := by
  induction h generalizing a' with
  | nil hle => exact .nil (by omega)
  | cons hfirst hc _ ih => exact .cons (by omega) hc (ih (Nat.le_refl _) hb)

theorem append (h : S.Row m a cs vs b) (h' : S.Row m b ds ws d) :
    S.Row m a (cs ++ ds) (vs ++ ws) d := by
  induction h with
  | nil hle => exact h'.mono hle (Nat.le_refl d)
  | cons hfirst hc _ ih => exact .cons hfirst hc (ih h')

/-- A row stays as it is while the memory between its ends does. -/
theorem frame (h : S.Row m a cs vs b) {x y : ℕ} (hch : ChangesOnly m m' x y)
    (hout : y ≤ a ∨ b ≤ x) : S.Row m' a cs vs b := by
  induction h with
  | nil hle => exact .nil hle
  | cons hfirst hc hcs ih =>
    have hle := S.first_le_last hc
    have hlast := hcs.le
    exact .cons hfirst (S.congr hc fun i hlo hhi => (hch i (by omega)).symm) (ih (by omega))

theorem length_eq (h : S.Row m a cs vs b) : cs.length = vs.length := by
  induction h with
  | nil => rfl
  | cons _ _ _ ih => rw [List.length_cons, List.length_cons, ih]

theorem head (h : S.Row m a (c :: cs) (v :: vs) b) :
    S.Stands m c v ∧ a ≤ S.first c ∧ S.last c < b := by
  cases h with
  | cons hfirst hc hcs => exact ⟨hc, hfirst, hcs.le⟩

/-- Each object stands for its value and lies between the ends. -/
theorem get (h : S.Row m a cs vs b) {i : ℕ} (hc : cs[i]? = some c) :
    ∃ v, vs[i]? = some v ∧ S.Stands m c v ∧ a ≤ S.first c ∧ S.last c < b := by
  induction h generalizing i with
  | nil => cases hc
  | @cons a b c₀ v₀ cs vs hfirst hc₀ hcs ih =>
    cases i with
    | zero =>
      obtain rfl := Option.some.inj hc
      exact ⟨v₀, rfl, hc₀, hfirst, hcs.le⟩
    | succ i =>
      obtain ⟨v, hv, hstands, hlo, hhi⟩ := ih hc
      have hle := S.first_le_last hc₀
      exact ⟨v, hv, hstands, by omega, hhi⟩

/-- What is done to one object inside its segment, so that it still stands for its value, leaves a
row. -/
theorem set (h : S.Row m a cs vs b) {i : ℕ} (hc : cs[i]? = some c) (hv : vs[i]? = some v)
    (hnew : S.Stands m' c' v) (hfirst' : S.first c ≤ S.first c') (hlast' : S.last c' = S.last c)
    (hch : ChangesOnly m m' (S.first c) (S.last c + 1)) : S.Row m' a (cs.set i c') vs b := by
  induction h generalizing i with
  | nil => cases hc
  | @cons a b c₀ v₀ cs vs hfirst hc₀ hcs ih =>
    cases i with
    | zero =>
      obtain rfl := Option.some.inj hc
      obtain rfl := Option.some.inj hv
      refine .cons (by omega) hnew ?_
      rw [hlast']
      exact hcs.frame hch (Or.inl (Nat.le_refl _))
    | succ i =>
      obtain ⟨-, -, -, hlo, -⟩ := hcs.get hc
      refine .cons hfirst ?_ (ih hc hv)
      exact S.congr hc₀ fun j _ hj => (hch j (Or.inl (by omega))).symm

end Row

end Segments
