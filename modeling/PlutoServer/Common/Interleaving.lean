import PlutoServer.Common.Runs
import Mathlib.Logic.Function.Basic

/-!
# Objects that share a resource

Each step of a run is an operation on one of many objects. If an object is only changed by its own
operations, and these do to it what they would do if it were alone, then what happens to it in an
interleaved run is what its own operations do (`run_view`).

`System` is the case of objects with a resource that all of them use. There it is enough that an
operation looks at the resource only through a view that no operation changes (`run_objs`).
-/

namespace Interleaving

open Runs

variable {ι O G L V : Type*}

/-- The objects and the resource they share. -/
structure System (ι O G : Type*) where
  objs : ι → O
  shared : G

/-- The operations on the object `i`, in order. -/
def opsOf [DecidableEq ι] (i : ι) (ls : List (ι × L)) : List L :=
  ls.filterMap fun l => if l.1 = i then some l.2 else none

section

variable [DecidableEq ι]

@[simp] theorem opsOf_nil (i : ι) : opsOf i ([] : List (ι × L)) = [] := rfl

theorem opsOf_cons_self (i : ι) (l : L) (ls : List (ι × L)) :
    opsOf i ((i, l) :: ls) = l :: opsOf i ls := by
  simp [opsOf]

theorem opsOf_cons_of_ne {i j : ι} (h : j ≠ i) (l : L) (ls : List (ι × L)) :
    opsOf i ((j, l) :: ls) = opsOf i ls := by
  simp [opsOf, h]

theorem opsOf_append (i : ι) (ls ls' : List (ι × L)) :
    opsOf i (ls ++ ls') = opsOf i ls ++ opsOf i ls' :=
  List.filterMap_append

theorem count_opsOf [DecidableEq L] (i : ι) (l : L) (ls : List (ι × L)) :
    (opsOf i ls).count l = ls.count (i, l) := by
  induction ls with
  | nil => rfl
  | cons x ls ih =>
    obtain ⟨j, l'⟩ := x
    by_cases hj : j = i
    · subst hj
      rw [opsOf_cons_self, List.count_cons, List.count_cons, ih]
      simp
    · rw [opsOf_cons_of_ne hj, List.count_cons, ih]
      simp [hj]

/-- Two logs with the same operations on each object, in the same order, have the same entries. -/
theorem perm_of_opsOf_eq {ls ls' : List (ι × L)} (h : ∀ i, opsOf i ls = opsOf i ls') :
    ls.Perm ls' := by
  classical
  rw [List.perm_iff_count]
  rintro ⟨i, l⟩
  rw [← count_opsOf, ← count_opsOf, h i]

theorem opsOf_isPrefix (i : ι) {pre ls : List (ι × L)} (h : pre <+: ls) :
    opsOf i pre <+: opsOf i ls :=
  h.filterMap _

/-- **Projection.** What is seen of one object in an interleaved run is what its own operations
do. -/
theorem run_view {S : Type*} {step : S → ι × L → S} (Inv : S → Prop) (view : S → O)
    {own : O → L → O} {i : ι} (hinv : ∀ s l, Inv s → Inv (step s l))
    (hself : ∀ s l, Inv s → view (step s (i, l)) = own (view s) l)
    (hother : ∀ s j l, Inv s → j ≠ i → view (step s (j, l)) = view s) {s : S} (h0 : Inv s)
    (ls : List (ι × L)) : view (run step s ls) = run own (view s) (opsOf i ls) := by
  induction ls generalizing s with
  | nil => rfl
  | cons l ls ih =>
    obtain ⟨j, l⟩ := l
    rw [run_cons, ih (hinv s _ h0)]
    by_cases hj : j = i
    · subst hj
      rw [opsOf_cons_self, run_cons, hself s l h0]
    · rw [opsOf_cons_of_ne hj, hother s j l h0 hj]

/-- One operation on one object. -/
def step (act : G → O → L → O × G) (s : System ι O G) (l : ι × L) : System ι O G where
  objs := Function.update s.objs l.1 (act s.shared (s.objs l.1) l.2).1
  shared := (act s.shared (s.objs l.1) l.2).2

theorem step_objs_self (act : G → O → L → O × G) (s : System ι O G) (i : ι) (l : L) :
    (step act s (i, l)).objs i = (act s.shared (s.objs i) l).1 :=
  Function.update_self ..

theorem step_objs_of_ne (act : G → O → L → O × G) (s : System ι O G) {i j : ι} (h : j ≠ i) (l : L) :
    (step act s (j, l)).objs i = s.objs i :=
  Function.update_of_ne h.symm ..

/-- In an interleaved run each object goes through its own operations. -/
theorem run_objs {act : G → O → L → O × G} (view : G → V) (own : V → O → L → O)
    (hact : ∀ g o l, (act g o l).1 = own (view g) o l)
    (hview : ∀ g o l, view (act g o l).2 = view g) (s : System ι O G) (ls : List (ι × L)) (i : ι) :
    (run (step act) s ls).objs i = run (own (view s.shared)) (s.objs i) (opsOf i ls) := by
  refine run_view (fun t => view t.shared = view s.shared) (fun t => t.objs i)
    (fun t l ht => (hview ..).trans ht) (fun t l ht => ?_)
    (fun t j l _ hj => step_objs_of_ne act t hj l) rfl ls
  rw [step_objs_self, hact, ht]

/-- The view of the shared resource is the same all along a run. -/
theorem view_run {act : G → O → L → O × G} (view : G → V)
    (hview : ∀ g o l, view (act g o l).2 = view g) (s : System ι O G) (ls : List (ι × L)) :
    view (run (step act) s ls).shared = view s.shared := by
  induction ls generalizing s with
  | nil => rfl
  | cons l ls ih => rw [run_cons, ih]; exact hview ..

end

end Interleaving
