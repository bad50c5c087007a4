import Mathlib.Data.List.Nodup

/-!
# Doubly linked lists in memory

`Chained next l` says that each node of `l` is linked with the one behind it, and the last one with
nothing. In a doubly linked list this holds for `next`, and for `prev` in the other direction
(`DoublyLinked`). Such a list depends only on the links of its own nodes (`DoublyLinked.congr`), and
`DoublyLinked.remove` and `DoublyLinked.insert` are the two changes of it, with the links that have
to be changed for them.
-/

variable {α : Type*}

/-- The nodes of `l` are linked in the order of `l`. -/
def Chained (next : α → Option α) : List α → Prop
  | [] => True
  | a :: l => next a = l.head? ∧ Chained next l

namespace Chained

variable {next next' : α → Option α} {l pre post : List α} {a : α}

theorem congr (h : Chained next l) (hnext : ∀ a ∈ l, next' a = next a) : Chained next' l := by
  induction l with
  | nil => trivial
  | cons a l ih =>
    obtain ⟨ha, hl⟩ := List.forall_mem_cons.mp hnext
    exact ⟨ha.trans h.1, ih h.2 hl⟩

theorem next_eq (h : Chained next (pre ++ a :: post)) : next a = post.head? := by
  induction pre with
  | nil => exact h.1
  | cons b pre ih => exact ih h.2

theorem suffix (h : Chained next (pre ++ post)) : Chained next post := by
  induction pre with
  | nil => exact h
  | cons b pre ih => exact ih h.2

/-- What comes behind `pre` is replaced. Only the last node of `pre` is linked with it. -/
theorem replace [DecidableEq α] {tail tail' : List α} (h : Chained next (pre ++ tail))
    (hnd : pre.Nodup) (htail : Chained next' tail')
    (hnext : ∀ b ∈ pre, next' b = if pre.getLast? = some b then tail'.head? else next b) :
    Chained next' (pre ++ tail') := by
  induction pre with
  | nil => exact htail
  | cons b pre ih =>
    obtain ⟨hb, hpre⟩ := List.forall_mem_cons.mp hnext
    obtain ⟨hmem, hnd'⟩ := List.nodup_cons.mp hnd
    cases pre with
    | nil => exact ⟨by rw [hb, List.getLast?_singleton, if_pos rfl]; rfl, htail⟩
    | cons c pre =>
      rw [List.getLast?_cons_cons] at hb hpre
      refine ⟨?_, ih h.2 hnd' hpre⟩
      rw [hb, if_neg fun hlast => hmem (List.mem_of_getLast? hlast), h.1]
      rfl

end Chained

/-- The nodes of `l` are linked in both directions. -/
structure DoublyLinked (next prev : α → Option α) (l : List α) : Prop where
  nodup : l.Nodup
  next : Chained next l
  prev : Chained prev l.reverse

namespace DoublyLinked

variable {next prev next' prev' : α → Option α} {l pre post : List α} {a : α}

theorem nil : DoublyLinked next prev [] := ⟨List.nodup_nil, trivial, trivial⟩

/-- Only the links of the list's own nodes matter. -/
theorem congr (h : DoublyLinked next prev l) (hnext : ∀ a ∈ l, next' a = next a)
    (hprev : ∀ a ∈ l, prev' a = prev a) : DoublyLinked next' prev' l where
  nodup := h.nodup
  next := h.next.congr hnext
  prev := h.prev.congr fun a ha => hprev a (List.mem_reverse.mp ha)

theorem next_eq (h : DoublyLinked next prev (pre ++ a :: post)) : next a = post.head? :=
  h.next.next_eq

theorem prev_eq (h : DoublyLinked next prev (pre ++ a :: post)) : prev a = pre.getLast? := by
  have hprev := h.prev
  rw [List.reverse_append, List.reverse_cons, List.append_assoc, List.singleton_append] at hprev
  rw [hprev.next_eq, List.head?_reverse]

theorem next_ne_self (h : DoublyLinked next prev l) (ha : a ∈ l) : next a ≠ some a := by
  obtain ⟨pre, post, rfl⟩ := List.append_of_mem ha
  rw [h.next_eq]
  intro hhead
  exact (List.nodup_cons.mp (List.nodup_append.mp h.nodup).2.1).1 (List.mem_of_mem_head? hhead)

variable [DecidableEq α]

/-- The part between `pre` and `post` is replaced. -/
theorem replace {mid : List α} (mid' : List α)
    (h : DoublyLinked next prev (pre ++ (mid ++ post))) (hnd : (pre ++ (mid' ++ post)).Nodup)
    (hmid : ∀ tail, Chained next' tail → tail.head? = post.head? → Chained next' (mid' ++ tail))
    (hmid' : ∀ tail, Chained prev' tail → tail.head? = pre.getLast? →
      Chained prev' (mid'.reverse ++ tail))
    (hnext : ∀ b ∈ pre ++ post, next' b =
      if pre.getLast? = some b then (mid' ++ post).head? else next b)
    (hprev : ∀ b ∈ pre ++ post, prev' b =
      if post.head? = some b then (pre ++ mid').getLast? else prev b) :
    DoublyLinked next' prev' (pre ++ (mid' ++ post)) := by
  have hrev := h.prev
  rw [List.reverse_append, List.reverse_append, List.append_assoc] at hrev
  obtain ⟨hpre, hmidpost, hdisj⟩ := List.nodup_append.mp hnd
  have hpost : post.Nodup := (List.nodup_append.mp hmidpost).2.1
  -- the links inside of the two parts are as they were
  have hnext' : Chained next' post := by
    refine h.next.suffix.suffix.congr fun b hb => ?_
    rw [hnext b (List.mem_append_right _ hb), if_neg]
    exact fun hlast => hdisj b (List.mem_of_getLast? hlast) b (List.mem_append_right _ hb) rfl
  have hprev' : Chained prev' pre.reverse := by
    refine hrev.suffix.suffix.congr fun b hb => ?_
    have hb' := List.mem_reverse.mp hb
    rw [hprev b (List.mem_append_left _ hb'), if_neg]
    exact fun hhead => hdisj b hb' b (List.mem_append_right _ (List.mem_of_mem_head? hhead)) rfl
  refine ⟨hnd, h.next.replace hpre (hmid post hnext' rfl) fun b hb => ?_, ?_⟩
  · exact hnext b (List.mem_append_left _ hb)
  · rw [List.reverse_append, List.reverse_append, List.append_assoc]
    refine hrev.replace (List.nodup_reverse.mpr hpost)
      (hmid' _ hprev' List.head?_reverse) fun b hb => ?_
    rw [hprev b (List.mem_append_right _ (List.mem_reverse.mp hb)), List.getLast?_reverse,
      ← List.reverse_append, List.head?_reverse]

/-- A node is taken out of the list, and the ones around it are linked with each other. -/
theorem remove (h : DoublyLinked next prev (pre ++ a :: post))
    (hnext : ∀ b ∈ pre ++ post, next' b = if pre.getLast? = some b then post.head? else next b)
    (hprev : ∀ b ∈ pre ++ post, prev' b = if post.head? = some b then pre.getLast? else prev b) :
    DoublyLinked next' prev' (pre ++ post) := by
  have hnd : (pre ++ post).Nodup := h.nodup.sublist (by simp)
  rw [← List.singleton_append] at h
  exact h.replace [] hnd (fun _ h _ => h) (fun _ h _ => h) hnext
    (by rwa [List.append_nil])

/-- A node is put between two parts of the list. -/
theorem insert (h : DoublyLinked next prev (pre ++ post)) (ha : a ∉ pre ++ post)
    (hnexta : next' a = post.head?) (hpreva : prev' a = pre.getLast?)
    (hnext : ∀ b ∈ pre ++ post, next' b = if pre.getLast? = some b then some a else next b)
    (hprev : ∀ b ∈ pre ++ post, prev' b = if post.head? = some b then some a else prev b) :
    DoublyLinked next' prev' (pre ++ a :: post) := by
  have hnd : (pre ++ ([a] ++ post)).Nodup :=
    List.nodup_middle.mpr (List.nodup_cons.mpr ⟨ha, h.nodup⟩)
  rw [← List.nil_append post] at h
  refine h.replace [a] hnd (fun tail h htail => ⟨hnexta.trans htail.symm, h⟩)
    (fun tail h htail => ⟨hpreva.trans htail.symm, h⟩) hnext ?_
  rwa [List.getLast?_append, List.getLast?_singleton]

end DoublyLinked
