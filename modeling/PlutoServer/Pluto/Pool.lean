import PlutoServer.Common.LinkedList
import PlutoServer.Common.Runs
import Mathlib.Data.Finset.Basic

/-!
# The pool of message objects

Reference: `CoreBase/pluto.cpp`, lines 41-64 and 418-433, `CoreBase/memory_pool.h`.

With `PLUTO_POOL_` the memory of message objects comes from a free list threaded through the blocks
themselves. The list is as it should be as long as nothing is given back (`Safe.step`);
`operator delete` links the block to itself, and no list ends there (`not_safe_operatorDelete`).
`always_safe_iff` puts the two together.
-/

namespace PlutoServer

open Runs

/-- The pool. Blocks are numbered in the order in which `new char[]` returned them. Both operators
hold `m_mLock` from beginning to end, so each is one step. -/
structure MemPool where
  memPool : Option ℕ
  /-- `m_pNext` of each block, that is, the first word of the block. -/
  pNext : ℕ → Option ℕ
  /-- Ghost: how many blocks `expandMemoryPool` has obtained. -/
  obtained : ℕ
  /-- Ghost: the blocks returned by `operator new` and not given back since. -/
  live : Finset ℕ

namespace MemPool

/-- The pool before the first message. New blocks contain anything. -/
def init (pNext : ℕ → Option ℕ) : MemPool := ⟨none, pNext, 0, ∅⟩

/-! ## The operators -/

def EXPAND_SIZE : ℕ := 32

/-- The loop of `expandMemoryPool`: `n` times, obtain a block and link it behind `runner`. -/
def expandLoop : ℕ → MemPool → ℕ → MemPool × ℕ
  | 0, s, runner => (s, runner)
  | n + 1, s, runner =>
    expandLoop n
      { s with
        pNext := Function.update s.pNext runner (some s.obtained)
        obtained := s.obtained + 1 }
      s.obtained

/-- `CPluto::expandMemoryPool`. -/
def expandMemoryPool (s : MemPool) : MemPool :=
  let runner := s.obtained
  let s := { s with obtained := s.obtained + 1, memPool := some runner }
  let (s, runner) := expandLoop EXPAND_SIZE s runner
  { s with pNext := Function.update s.pNext runner none }

/-- `CPluto::operator new`, with the block it returns. -/
def operatorNew (s : MemPool) : MemPool × Option ℕ :=
  let s := if s.memPool = none then s.expandMemoryPool else s
  match s.memPool with
  | none => (s, none) -- does not happen: `expandMemoryPool` has set it
  | some head => ({ s with memPool := s.pNext head, live := insert head s.live }, some head)

/-- `CPluto::operator delete`. -/
def operatorDelete (s : MemPool) (p : ℕ) : MemPool :=
  { s with
    pNext := Function.update s.pNext p (some p)
    memPool := some p
    live := s.live.erase p }

/-! ## Runs -/

/-- What is done with pooled objects. The object in a block uses all of it, the place of `m_pNext`
included. -/
inductive Op where
  | new
  | delete (p : ℕ)
  | use (p : ℕ) (word : Option ℕ)

def step (s : MemPool) : Op → MemPool
  | .new => s.operatorNew.1
  | .delete p => s.operatorDelete p
  | .use p word => { s with pNext := Function.update s.pNext p word }

/-- Only live blocks are given back or used. -/
def Valid (s : MemPool) : Op → Prop
  | .new => True
  | .delete p => p ∈ s.live
  | .use p _ => p ∈ s.live

instance (s : MemPool) : DecidablePred s.Valid
  | .new => inferInstanceAs (Decidable True)
  | .delete p => inferInstanceAs (Decidable (p ∈ s.live))
  | .use p _ => inferInstanceAs (Decidable (p ∈ s.live))

/-- `operator new` returns a block, and none that is live. -/
def NewNotLive (s : MemPool) : Op → Prop
  | .new => ∃ p ∈ s.operatorNew.2, p ∉ s.live
  | _ => True

instance (s : MemPool) : DecidablePred s.NewNotLive
  | .new => inferInstanceAs (Decidable (∃ p ∈ s.operatorNew.2, p ∉ s.live))
  | .delete _ => inferInstanceAs (Decidable True)
  | .use _ _ => inferInstanceAs (Decidable True)

/-- The free list ends, has no cycle and no live block, and together with the live blocks it has all
blocks there are. -/
def Safe (s : MemPool) : Prop :=
  ∃ free, Linked s.pNext s.memPool free ∧ free.Nodup ∧ (∀ p ∈ free, p ∉ s.live) ∧
    ∀ p, p ∈ free ∨ p ∈ s.live ↔ p < s.obtained

theorem safe_init (pNext : ℕ → Option ℕ) : (init pNext).Safe :=
  ⟨[], .nil, List.nodup_nil, by simp, by simp [init]⟩

/-! ## Expansion -/

theorem expandLoop_eq (n : ℕ) (s : MemPool) (runner : ℕ) (h : s.obtained = runner + 1) :
    expandLoop n s runner =
      ({ s with
          pNext := fun p => if runner ≤ p ∧ p < runner + n then some (p + 1) else s.pNext p
          obtained := s.obtained + n },
        runner + n) := by
  induction n generalizing s runner with
  | zero =>
    have hnone (p : ℕ) : ¬ (runner ≤ p ∧ p < runner) := by omega
    simp [expandLoop, hnone]
  | succ n ih =>
    rw [expandLoop, ih _ _ (by rw [h])]
    have hnext : (fun p => if s.obtained ≤ p ∧ p < s.obtained + n then some (p + 1)
          else Function.update s.pNext runner (some s.obtained) p) =
        fun p => if runner ≤ p ∧ p < runner + (n + 1) then some (p + 1) else s.pNext p := by
      funext p
      rw [h]
      -- before the runner, the runner itself, which this turn links, and after it
      rcases Nat.lt_trichotomy p runner with hlt | rfl | hgt
      · rw [if_neg (by omega), if_neg (by omega), Function.update_of_ne (by omega)]
      · rw [if_neg (by omega), if_pos (by omega), Function.update_self]
      · rw [Function.update_of_ne (by omega)]
        by_cases hp : p < runner + (n + 1)
        · rw [if_pos (by omega), if_pos (by omega)]
        · rw [if_neg (by omega), if_neg (by omega)]
    simp only [hnext, Prod.mk.injEq, MemPool.mk.injEq, true_and, and_true]
    omega

/-- Consecutive blocks, each linked to the one after it. -/
theorem linked_range {pNext : ℕ → Option ℕ} {k n : ℕ}
    (hnext : ∀ p, k ≤ p → p < k + n → pNext p = some (p + 1)) (hend : pNext (k + n) = none) :
    Linked pNext (some k) (List.range' k (n + 1)) := by
  induction n generalizing k with
  | zero => exact .cons (by rw [← Nat.add_zero k, hend]; exact .nil)
  | succ n ih =>
    rw [List.range'_succ]
    refine .cons ?_
    rw [hnext k le_rfl (by omega)]
    exact ih (fun p hlo hhi => hnext p (by omega) (by omega)) (by rw [← hend]; congr 1; omega)

/-- What `expandMemoryPool` does, in one step. -/
theorem expandMemoryPool_eq (s : MemPool) :
    s.expandMemoryPool =
      { s with
        memPool := some s.obtained
        pNext := Function.update
          (fun p => if s.obtained ≤ p ∧ p < s.obtained + EXPAND_SIZE then some (p + 1)
            else s.pNext p) (s.obtained + EXPAND_SIZE) none
        obtained := s.obtained + 1 + EXPAND_SIZE } := by
  simp only [expandMemoryPool, expandLoop_eq EXPAND_SIZE
    { s with obtained := s.obtained + 1, memPool := some s.obtained } s.obtained rfl]

theorem memPool_expandMemoryPool (s : MemPool) :
    s.expandMemoryPool.memPool = some s.obtained :=
  congrArg MemPool.memPool s.expandMemoryPool_eq

theorem pNext_expandMemoryPool (s : MemPool) :
    s.expandMemoryPool.pNext = Function.update
      (fun p => if s.obtained ≤ p ∧ p < s.obtained + EXPAND_SIZE then some (p + 1)
        else s.pNext p) (s.obtained + EXPAND_SIZE) none :=
  congrArg MemPool.pNext s.expandMemoryPool_eq

theorem live_expandMemoryPool (s : MemPool) : s.expandMemoryPool.live = s.live := by
  rw [expandMemoryPool_eq]

theorem linked_expandMemoryPool (s : MemPool) :
    Linked s.expandMemoryPool.pNext s.expandMemoryPool.memPool
      (List.range' s.obtained (EXPAND_SIZE + 1)) := by
  rw [memPool_expandMemoryPool, pNext_expandMemoryPool]
  refine linked_range (fun p hlo hhi => ?_) (Function.update_self ..)
  exact (Function.update_of_ne (Nat.ne_of_lt hhi) ..).trans (if_pos ⟨hlo, hhi⟩)

/-- Expansion of an empty pool puts the new blocks into the free list. -/
theorem Safe.expand {s : MemPool} (h : s.Safe) (hempty : s.memPool = none) :
    s.expandMemoryPool.Safe := by
  obtain ⟨free, hlinked, -, -, hall⟩ := h
  rw [hempty, Linked.none_iff] at hlinked
  subst hlinked
  have hlive (p : ℕ) : p ∈ s.expandMemoryPool.live ↔ p < s.obtained := by
    rw [live_expandMemoryPool]
    simpa using hall p
  have hobtained : s.expandMemoryPool.obtained = s.obtained + 1 + EXPAND_SIZE :=
    congrArg MemPool.obtained s.expandMemoryPool_eq
  refine ⟨List.range' s.obtained (EXPAND_SIZE + 1), s.linked_expandMemoryPool, List.nodup_range',
    ?_, ?_⟩
  · intro p hp
    rw [hlive]
    have := (List.mem_range'_1.mp hp).1
    omega
  · intro p
    rw [hlive, List.mem_range'_1, hobtained]
    omega

/-! ## Safe steps -/

/-- `operator new` takes the first block of the free list of the pool, expanded if it was empty. -/
theorem operatorNew_cases {s : MemPool} (h : s.Safe) :
    ∃ (t : MemPool) (head : ℕ) (free : List ℕ), t.Safe ∧ t.live = s.live ∧ t.memPool = some head ∧
      Linked t.pNext (some head) (head :: free) ∧
      s.operatorNew =
        ({ t with memPool := t.pNext head, live := insert head t.live }, some head) := by
  set t := if s.memPool = none then s.expandMemoryPool else s with ht
  have hsafe : t.Safe := by
    rw [ht]
    split_ifs with hempty
    · exact h.expand hempty
    · exact h
  have hlive : t.live = s.live := by
    rw [ht]
    split_ifs with hempty
    · exact s.live_expandMemoryPool
    · rfl
  obtain ⟨head, hhead⟩ : ∃ head, t.memPool = some head := by
    rw [ht]
    split_ifs with hempty
    · exact ⟨s.obtained, s.memPool_expandMemoryPool⟩
    · exact Option.ne_none_iff_exists'.mp hempty
  obtain ⟨l, hl, -⟩ := id hsafe
  rw [hhead] at hl
  obtain ⟨free, rfl, -⟩ := Linked.some_iff.mp hl
  refine ⟨t, head, free, hsafe, hlive, hhead, hl, ?_⟩
  rw [operatorNew, ← ht]
  simp only [hhead]

theorem Safe.operatorNew {s : MemPool} (h : s.Safe) : s.operatorNew.1.Safe := by
  obtain ⟨t, head, free, ⟨l, hl, hnodup, hdisj, hall⟩, -, hhead, hfree, heq⟩ := operatorNew_cases h
  rw [hhead] at hl
  obtain rfl := hl.det hfree
  obtain ⟨hnot, hrest⟩ := List.nodup_cons.mp hnodup
  obtain ⟨l, hcons, htail⟩ := Linked.some_iff.mp hfree
  obtain ⟨-, rfl⟩ := List.cons_eq_cons.mp hcons
  rw [heq]
  refine ⟨free, htail, hrest, fun p hp => ?_, fun p => ?_⟩
  · rw [Finset.mem_insert, not_or]
    exact ⟨fun hph => hnot (hph ▸ hp), hdisj p (List.mem_cons_of_mem head hp)⟩
  · rw [← hall p, Finset.mem_insert, List.mem_cons]
    tauto

theorem Safe.newNotLive {s : MemPool} (h : s.Safe) : s.NewNotLive .new := by
  obtain ⟨t, head, free, ⟨l, hl, -, hdisj, -⟩, hlive, hhead, hfree, heq⟩ := operatorNew_cases h
  rw [hhead] at hl
  obtain rfl := hl.det hfree
  refine ⟨head, by rw [heq]; rfl, ?_⟩
  rw [← hlive]
  exact hdisj head List.mem_cons_self

/-- Using a live block does not touch the free list. -/
theorem Safe.use {s : MemPool} (h : s.Safe) {p : ℕ} (hp : p ∈ s.live) (word : Option ℕ) :
    (s.step (.use p word)).Safe := by
  obtain ⟨free, hl, hnodup, hdisj, hall⟩ := h
  refine ⟨free, hl.congr fun q hq => Function.update_of_ne ?_ .., hnodup, hdisj, hall⟩
  rintro rfl
  exact hdisj q hq hp

/-- The block given back is linked to itself, so the free list does not end. -/
theorem not_safe_operatorDelete (s : MemPool) (p : ℕ) : ¬ (s.operatorDelete p).Safe := by
  rintro ⟨free, hl, -⟩
  exact Linked.not_of_self_loop (Function.update_self ..) hl

theorem Safe.step {s : MemPool} (h : s.Safe) {op : Op} (hvalid : s.Valid op)
    (hop : ∀ p, op ≠ .delete p) : (s.step op).Safe ∧ s.NewNotLive op := by
  cases op with
  | new => exact ⟨h.operatorNew, h.newNotLive⟩
  | delete p => exact absurd rfl (hop p)
  | use p word => exact ⟨h.use hvalid word, trivial⟩

/-! ## Whole runs -/

/-- A run in which nothing is given back is safe from end to end. -/
theorem always_safe_of_no_delete {s : MemPool} (h : s.Safe) {ops : List Op}
    (hvalid : Guarded step Valid s ops) (hops : ∀ p, .delete p ∉ ops) :
    Always step Safe s ops ∧ Guarded step NewNotLive s ops := by
  induction ops generalizing s with
  | nil => exact ⟨fun pre hpre => List.prefix_nil.mp hpre ▸ h, trivial⟩
  | cons op ops ih =>
    obtain ⟨hstep, hnew⟩ := h.step hvalid.1 fun p hp => hops p (hp ▸ List.mem_cons_self)
    obtain ⟨halways, hnews⟩ := ih hstep hvalid.2 fun p hp => hops p (List.mem_cons_of_mem op hp)
    exact ⟨always_cons.mpr ⟨h, halways⟩, hnew, hnews⟩

/-- **The pool is safe exactly until something is given back.** In a run of `operator new`,
`operator delete` and uses of live blocks, every state is safe and `operator new` never returns a
live block if and only if the run has no `operator delete`. -/
theorem always_safe_iff (pNext : ℕ → Option ℕ) (ops : List Op)
    (hvalid : Guarded step Valid (init pNext) ops) :
    Always step Safe (init pNext) ops ∧ Guarded step NewNotLive (init pNext) ops ↔
      ∀ p, .delete p ∉ ops := by
  refine ⟨fun ⟨halways, _⟩ p hp => ?_, always_safe_of_no_delete (safe_init pNext) hvalid⟩
  obtain ⟨pre, post, rfl⟩ := List.append_of_mem hp
  have hsafe := halways (pre ++ [.delete p]) ⟨post, by simp⟩
  rw [run_append] at hsafe
  exact not_safe_operatorDelete _ p hsafe

/-- Two messages and a write to the first of them. -/
theorem always_safe_iff_new_new_use :
    Always step Safe (init fun _ => none) [.new, .new, .use 0 (some 7)] :=
  ((always_safe_iff (fun _ => none) [.new, .new, .use 0 (some 7)] (by decide)).mpr
    (by simp)).1

/-- One message is given back, and the next two get the same block. -/
theorem new_delete_new_new_aliases :
    let ops : List Op := [.new, .delete 0, .new, .new]
    Guarded step Valid (init fun _ => none) ops ∧
      ¬ Guarded step NewNotLive (init fun _ => none) ops := by
  decide

end MemPool

end PlutoServer
