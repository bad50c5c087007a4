import Mathlib.Logic.Relation
import Mathlib.Order.WellFounded
import Mathlib.Data.Set.Basic
import Mathlib.Data.List.Nodup

/-!
# Forests

A forest is given by the relation between a node and its parent. `rooted_moved_iff` says when a
forest stays one while a node gets another parent, and `below_without` what is below a node after a
set of nodes is gone with all that is below it.
-/

namespace PlutoServer

open Relation

variable {α : Type*} {r r' : α → α → Prop}

/-- From every node the way up ends at a root. -/
def Rooted (r : α → α → Prop) : Prop := WellFounded fun p x => r x p

/-- A node and all that is below it. -/
def below (r : α → α → Prop) (a : α) : Set α := {x | ReflTransGen r x a}

theorem mem_below_self (a : α) : a ∈ below r a := ReflTransGen.refl

theorem mem_below_of_child {x p a : α} (h : r x p) (hp : p ∈ below r a) : x ∈ below r a :=
  ReflTransGen.head h hp

theorem below_subset {x p : α} (h : r x p) : below r x ⊆ below r p := fun _ hy =>
  ReflTransGen.tail hy h

theorem below_of_leaf {a : α} (h : ∀ x, ¬ r x a) : below r a = {a} := by
  ext x
  constructor
  · intro hx
    rcases ReflTransGen.cases_tail hx with heq | ⟨y, -, hy⟩
    · exact heq.symm
    · exact absurd hy (h y)
  · rintro rfl
    exact mem_below_self x

theorem Rooted.mono (h : Rooted r) (hsub : ∀ x p, r' x p → r x p) : Rooted r' :=
  Subrelation.wf (fun {p x} hx => hsub x p hx) h

/-- No node is above its parent. -/
theorem Rooted.not_mem_below (h : Rooted r) {x p : α} (hx : r x p) : p ∉ below r x := by
  intro hbelow
  have hcycle : TransGen r p p := TransGen.tail' hbelow hx
  exact (WellFounded.transGen h).irrefl.irrefl p (transGen_swap.mpr hcycle)

/-- The way up to a node does not use the parent of the node. -/
theorem below_congr {a : α} (h : ∀ x p, x ≠ a → r x p → r' x p) : below r a ⊆ below r' a := by
  intro x hx
  induction hx using ReflTransGen.head_induction_on with
  | refl => exact mem_below_self a
  | @head y z hyz _ ih =>
    by_cases hya : y = a
    · exact hya ▸ mem_below_self y
    · exact mem_below_of_child (h y z hya hyz) ih

/-- The relation after `x` gets `p` for its parent. -/
def moved (r : α → α → Prop) (x p : α) : α → α → Prop := fun y q =>
  y = x ∧ q = p ∨ y ≠ x ∧ r y q

/-- A node may get a parent that is not below it. -/
theorem rooted_moved_iff (h : Rooted r) {x p : α} : Rooted (moved r x p) ↔ p ∉ below r x := by
  constructor
  · intro h' hbelow
    refine h'.not_mem_below (Or.inl ⟨rfl, rfl⟩) (below_congr (fun y q hy hr => ?_) hbelow)
    exact Or.inr ⟨hy, hr⟩
  · intro hnot
    have hwf : WellFounded fun q y => r y q := h
    -- a node that is not below `x` keeps its way up
    have hacc : ∀ y, y ∉ below r x → Acc (fun q y => moved r x p y q) y := by
      intro y
      induction y using hwf.induction with
      | _ y ih =>
        intro hy
        refine Acc.intro y fun q hq => ?_
        rcases hq with ⟨rfl, -⟩ | ⟨-, hq⟩
        · exact absurd (mem_below_self y) hy
        · exact ih q hq fun hbelow => hy (mem_below_of_child hq hbelow)
    refine ⟨fun y => ?_⟩
    induction y using hwf.induction with
    | _ y ih =>
      refine Acc.intro y fun q hq => ?_
      rcases hq with ⟨-, rfl⟩ | ⟨-, hq⟩
      · exact hacc q hnot
      · exact ih q hq

/-- What is below a node after the nodes of `R` are gone, with all that is below them. -/
theorem below_without {R : Set α} {a : α} (hr : ∀ x p, r' x p ↔ r x p ∧ x ∉ R)
    (hR : ∀ x p, r x p → p ∈ R → x ∈ R) : below r' a = insert a (below r a \ R) := by
  ext x
  rw [Set.mem_insert_iff]
  constructor
  · intro hx
    induction hx using ReflTransGen.head_induction_on with
    | refl => exact Or.inl rfl
    | @head y z hyz _ ih =>
      obtain ⟨hyz, hy⟩ := (hr y z).mp hyz
      refine Or.inr ⟨mem_below_of_child hyz ?_, hy⟩
      exact ih.elim (fun h => h ▸ mem_below_self z) And.left
  · rintro (rfl | ⟨hx, hxR⟩)
    · exact mem_below_self x
    · induction hx using ReflTransGen.head_induction_on with
      | refl => exact mem_below_self a
      | @head y z hyz _ ih =>
        exact mem_below_of_child ((hr y z).mpr ⟨hyz, hxR⟩) (ih fun hz => hxR (hR y z hyz hz))

/-! ## Lists of children -/

/-- The relation that lists of children stand for. -/
def ChildOf (children : α → List α) : α → α → Prop := fun x p => x ∈ children p

open Classical in
/-- Whether a node is not in `R`. -/
noncomputable def outside (R : Set α) (x : α) : Bool := decide (x ∉ R)

open Classical in
theorem outside_iff {R : Set α} {x : α} : outside R x = true ↔ x ∉ R := decide_eq_true_iff

/-- The lists without the nodes of `R`, which have no children any more. -/
noncomputable def removed (children : α → List α) (R : Set α) : α → List α := fun p =>
  if outside R p then (children p).filter (outside R) else []

variable {children : α → List α} {R S : Set α}

theorem removed_of_mem {p : α} (hp : p ∈ R) : removed children R p = [] :=
  if_neg fun h => outside_iff.mp h hp

theorem removed_of_not_mem {p : α} (hp : p ∉ R) :
    removed children R p = (children p).filter (outside R) :=
  if_pos (outside_iff.mpr hp)

theorem mem_removed_iff (hR : ∀ x p, ChildOf children x p → p ∈ R → x ∈ R) {x p : α} :
    x ∈ removed children R p ↔ x ∈ children p ∧ x ∉ R := by
  by_cases hp : p ∈ R
  · rw [removed_of_mem hp]
    exact iff_of_false List.not_mem_nil fun h => h.2 (hR x p h.1 hp)
  · rw [removed_of_not_mem hp, List.mem_filter, outside_iff]

theorem removed_empty : removed children ∅ = children := by
  funext p
  rw [removed_of_not_mem (Set.notMem_empty p), List.filter_eq_self]
  exact fun x _ => outside_iff.mpr (Set.notMem_empty x)

theorem removed_removed : removed (removed children R) S = removed children (R ∪ S) := by
  funext p
  by_cases hS : p ∈ S
  · rw [removed_of_mem hS, removed_of_mem (Set.mem_union_right R hS)]
  · rw [removed_of_not_mem hS]
    by_cases hR : p ∈ R
    · rw [removed_of_mem hR, removed_of_mem (Set.mem_union_left S hR), List.filter_nil]
    · rw [removed_of_not_mem hR, removed_of_not_mem fun h => h.elim hR hS, List.filter_filter]
      refine List.filter_congr fun x _ => Bool.eq_iff_iff.mpr ?_
      rw [Bool.and_eq_true, outside_iff, outside_iff, outside_iff, Set.mem_union, not_or, and_comm]

theorem removed_erase_of_mem [DecidableEq α] (hnd : ∀ p, (children p).Nodup) {a : α} (ha : a ∈ R) :
    removed (fun p => (children p).erase a) R = removed children R := by
  funext p
  by_cases hp : p ∈ R
  · rw [removed_of_mem hp, removed_of_mem hp]
  · rw [removed_of_not_mem hp, removed_of_not_mem hp, (hnd p).erase_eq_filter, List.filter_filter]
    refine List.filter_congr fun x _ => Bool.eq_iff_iff.mpr ?_
    rw [Bool.and_eq_true, outside_iff, bne_iff_ne, and_iff_left_iff_imp]
    rintro hx rfl
    exact hx ha

/-- To remove a node and all below it, one may remove all below it, then the node itself. -/
theorem erase_removed_below [DecidableEq α] (hnd : ∀ p, (children p).Nodup) (a : α) :
    (fun p => (removed children (below (ChildOf children) a \ {a}) p).erase a) =
      removed children (below (ChildOf children) a) := by
  funext p
  by_cases hpa : p = a
  · subst hpa
    rw [removed_of_mem (mem_below_self p), removed_of_not_mem fun h => h.2 rfl,
      ((hnd p).filter _).erase_eq_filter, List.filter_filter, List.filter_eq_nil_iff]
    intro x hx h
    rw [Bool.and_eq_true, bne_iff_ne, outside_iff] at h
    exact h.2 ⟨mem_below_of_child (r := ChildOf children) hx (mem_below_self p), h.1⟩
  · by_cases hp : p ∈ below (ChildOf children) a
    · have hp' : p ∈ below (ChildOf children) a \ {a} := ⟨hp, hpa⟩
      rw [removed_of_mem hp, removed_of_mem hp', List.erase_nil]
    · rw [removed_of_not_mem hp, removed_of_not_mem fun h => hp h.1,
        ((hnd p).filter _).erase_eq_filter, List.filter_filter]
      refine List.filter_congr fun x _ => Bool.eq_iff_iff.mpr ?_
      rw [Bool.and_eq_true, outside_iff, outside_iff, bne_iff_ne]
      refine ⟨fun h hx => h.2 ⟨hx, h.1⟩, fun h => ⟨?_, fun hx => h hx.1⟩⟩
      rintro rfl
      exact h (mem_below_self x)

end PlutoServer
