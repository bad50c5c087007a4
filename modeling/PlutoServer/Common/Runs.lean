import Mathlib.Data.List.Basic
import Mathlib.Tactic.Common

/-!
# Runs of a labelled state machine

A machine takes a step for each label it is given. `run` is the state after a list of labels,
`Guarded` says that every step of a run met a condition on the state it started from and on its
label, and `Always` that a property held at the start and after every step.

The induction rules are `run_inv` and `Guarded.inv`, which carry an invariant along a run,
`Guarded.always`, which states it for every state the run passes through, `Guarded.always_iff`, for
a condition that is also necessary, `Guarded.simulates`, which carries a relation along two runs
with the same labels, and `exists_run_refines`, for a machine whose steps are runs of a more
abstract one.
-/

namespace Runs

variable {S L : Type*} {step : S → L → S} {ok : S → L → Prop} {P : S → Prop}

/-- The state after taking a step for each label. -/
def run (step : S → L → S) (s : S) (ls : List L) : S := ls.foldl step s

@[simp] theorem run_nil (s : S) : run step s [] = s := rfl

@[simp] theorem run_cons (s : S) (l : L) (ls : List L) :
    run step s (l :: ls) = run step (step s l) ls := rfl

theorem run_append (s : S) (ls ls' : List L) :
    run step s (ls ++ ls') = run step (run step s ls) ls' :=
  List.foldl_append

/-- What every step preserves holds at the end of a run. -/
theorem run_inv {s : S} (ls : List L) (hstep : ∀ s l, P s → P (step s l)) (h0 : P s) :
    P (run step s ls) := by
  induction ls generalizing s with
  | nil => exact h0
  | cons l ls ih => exact ih (hstep s l h0)

/-- Every step of the run meets `ok` in the state it is taken from. -/
def Guarded (step : S → L → S) (ok : S → L → Prop) : S → List L → Prop
  | _, [] => True
  | s, l :: ls => ok s l ∧ Guarded step ok (step s l) ls

instance Guarded.decidable [∀ s l, Decidable (ok s l)] :
    ∀ (s : S) (ls : List L), Decidable (Guarded step ok s ls)
  | _, [] => inferInstanceAs (Decidable True)
  | s, l :: ls =>
    have := Guarded.decidable (step s l) ls
    inferInstanceAs (Decidable (ok s l ∧ Guarded step ok (step s l) ls))

/-- A condition on the labels alone. -/
theorem guarded_of_forall {s : S} {ls : List L} (h : ∀ s, ∀ l ∈ ls, ok s l) :
    Guarded step ok s ls := by
  induction ls generalizing s with
  | nil => trivial
  | cons l ls ih =>
    exact ⟨h s l List.mem_cons_self, ih fun s l' hl' => h s l' (List.mem_cons_of_mem l hl')⟩

theorem guarded_iff_forall {ok : L → Prop} {s : S} {ls : List L} :
    Guarded step (fun _ l => ok l) s ls ↔ ∀ l ∈ ls, ok l := by
  induction ls generalizing s with
  | nil => simp [Guarded]
  | cons l ls ih => simp only [Guarded, ih, List.forall_mem_cons]

theorem guarded_append {s : S} {ls ls' : List L} :
    Guarded step ok s (ls ++ ls') ↔
      Guarded step ok s ls ∧ Guarded step ok (run step s ls) ls' := by
  induction ls generalizing s with
  | nil => simp [Guarded]
  | cons l ls ih => simp only [List.cons_append, Guarded, run_cons, ih, and_assoc]

/-- Two conditions that agree wherever a run that meets the first of them goes. -/
theorem guarded_congr {ok' : S → L → Prop} {s : S} {ls : List L}
    (hstep : ∀ s l, P s → ok s l → P (step s l)) (hiff : ∀ s l, P s → (ok s l ↔ ok' s l))
    (h0 : P s) : Guarded step ok s ls ↔ Guarded step ok' s ls := by
  induction ls generalizing s with
  | nil => exact Iff.rfl
  | cons l ls ih =>
    simp only [Guarded]
    rw [← hiff s l h0]
    exact and_congr_right fun hok => ih (hstep s l h0 hok)

theorem Guarded.and {ok' : S → L → Prop} {s : S} {ls : List L} (h : Guarded step ok s ls)
    (h' : Guarded step ok' s ls) : Guarded step (fun s l => ok s l ∧ ok' s l) s ls := by
  induction ls generalizing s with
  | nil => trivial
  | cons l ls ih => exact ⟨⟨h.1, h'.1⟩, ih h.2 h'.2⟩

/-- A part of a guarded run, taken from its start, is guarded. -/
theorem Guarded.of_isPrefix {s : S} {pre ls : List L} (h : Guarded step ok s ls)
    (hpre : pre <+: ls) : Guarded step ok s pre := by
  obtain ⟨post, rfl⟩ := hpre
  exact (guarded_append.mp h).1

/-- What every guarded step preserves holds at the end of a guarded run. -/
theorem Guarded.inv {s : S} {ls : List L} (h : Guarded step ok s ls)
    (hstep : ∀ s l, P s → ok s l → P (step s l)) (h0 : P s) : P (run step s ls) := by
  induction ls generalizing s with
  | nil => exact h0
  | cons l ls ih => exact ih h.2 (hstep s l h0 h.1)

/-- `P` holds in the first state of the run and after each of its steps. -/
def Always (step : S → L → S) (P : S → Prop) (s : S) (ls : List L) : Prop :=
  ∀ pre, pre <+: ls → P (run step s pre)

theorem always_cons {s : S} {l : L} {ls : List L} :
    Always step P s (l :: ls) ↔ P s ∧ Always step P (step s l) ls := by
  refine ⟨fun h => ⟨h [] List.nil_prefix, fun pre hpre => ?_⟩, fun ⟨h0, h⟩ pre hpre => ?_⟩
  · exact h (l :: pre) (List.cons_prefix_cons.mpr ⟨rfl, hpre⟩)
  · cases pre with
    | nil => exact h0
    | cons l' pre =>
      obtain ⟨rfl, htail⟩ := List.cons_prefix_cons.mp hpre
      exact h pre htail

/-- What every guarded step preserves holds all along a guarded run. -/
theorem Guarded.always {s : S} {ls : List L} (h : Guarded step ok s ls)
    (hstep : ∀ s l, P s → ok s l → P (step s l)) (h0 : P s) : Always step P s ls :=
  fun _ hpre => (h.of_isPrefix hpre).inv hstep h0

/-- If each step keeps `P` exactly when it meets `ok`, then `P` holds all along a run exactly when
every step meets `ok`. -/
theorem Guarded.always_iff {base : S → L → Prop} {s : S} {ls : List L}
    (h : Guarded step base s ls) (Inv : S → Prop) (hinv : ∀ s l, Inv s → base s l → Inv (step s l))
    (hstep : ∀ s l, Inv s → base s l → P s → (P (step s l) ↔ ok s l)) (hI : Inv s) (h0 : P s) :
    Always step P s ls ↔ Guarded step ok s ls := by
  induction ls generalizing s with
  | nil => exact ⟨fun _ => trivial, fun _ pre hpre => by rw [List.prefix_nil.mp hpre]; exact h0⟩
  | cons l ls ih =>
    have hiff := hstep s l hI h.1 h0
    rw [always_cons]
    constructor
    · rintro ⟨-, hal⟩
      have hP : P (step s l) := hal [] List.nil_prefix
      exact ⟨hiff.mp hP, (ih h.2 (hinv s l hI h.1) hP).mp hal⟩
    · rintro ⟨hok, hguard⟩
      exact ⟨h0, (ih h.2 (hinv s l hI h.1) (hiff.mpr hok)).mpr hguard⟩

/-- A relation that every guarded step preserves, as the other machine takes its step for the same
label, holds at the end of both runs. -/
theorem Guarded.simulates {T : Type*} {step' : T → L → T} {R : S → T → Prop} {s : S} {t : T}
    {ls : List L} (h : Guarded step ok s ls)
    (hstep : ∀ s t l, R s t → ok s l → R (step s l) (step' t l)) (h0 : R s t) :
    R (run step s ls) (run step' t ls) := by
  induction ls generalizing s t with
  | nil => exact h0
  | cons l ls ih => exact ih h.2 (hstep s t l h0 h.1)

/-- If each step of a machine is, on the abstract states, a run of another machine, so is a whole
run; and it is a guarded one if this is so for each guarded step. -/
theorem exists_run_refines {T L' : Type*} {step' : T → L' → T} {ok' : T → L' → Prop} (abs : S → T)
    (hinv : ∀ s l, P s → P (step s l))
    (hstep : ∀ s l, P s → ∃ ls', abs (step s l) = run step' (abs s) ls' ∧
      (ok s l → Guarded step' ok' (abs s) ls')) {s : S} (h0 : P s) (ls : List L) :
    ∃ ls', abs (run step s ls) = run step' (abs s) ls' ∧
      (Guarded step ok s ls → Guarded step' ok' (abs s) ls') := by
  induction ls generalizing s with
  | nil => exact ⟨[], rfl, fun _ => trivial⟩
  | cons l ls ih =>
    obtain ⟨first, hfirst, hok⟩ := hstep s l h0
    obtain ⟨rest, hrest, hguard⟩ := ih (hinv s l h0)
    refine ⟨first ++ rest, ?_, fun h => guarded_append.mpr ⟨hok h.1, ?_⟩⟩
    · rw [run_cons, hrest, hfirst, run_append]
    · rw [← hfirst]
      exact hguard h.2

end Runs
