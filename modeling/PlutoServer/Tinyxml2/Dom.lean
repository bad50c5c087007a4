import PlutoServer.Common.DoublyLinked
import Mathlib.Logic.Function.Basic

/-!
# The nodes of a document in memory

Reference: `XMLNode::Unlink`, `InsertEndChild`, `InsertFirstChild` and `InsertAfterChild` in
`CoreBase/tinyxml2.cpp`.

The children of a node form a doubly linked list, with pointers to its ends in the node.
`Represents` says that the pointers are those of the lists `children`, and a theorem for each
function says what the lists are afterwards. Two calls of `InsertAfterChild` break them
(`Misplaced`). A node that is to go behind itself becomes its own neighbour, and with the last
child, which is to go behind the last but one, where it is already, the function goes through
`NULL`. So do all three with a node that has neither a parent nor a pool, as a document (`adopt`).
-/

namespace PlutoServer.Tinyxml2

open Function

/-- The pools of a document, from which the other nodes come. -/
inductive MemPool
  | element
  | text
  | comment
deriving DecidableEq, Repr

/-- The pointers of the nodes. -/
structure Dom (α : Type*) where
  document : α → α
  parent : α → Option α
  firstChild : α → Option α
  lastChild : α → Option α
  prev : α → Option α
  next : α → Option α
  memPool : α → Option MemPool

namespace Dom

variable {α : Type*} [DecidableEq α]

/-! ## The functions -/

/-- A write of `v` to a field of the node at `p`, unless `p` is `NULL`. -/
def store (field : α → Option α) (p v : Option α) : α → Option α :=
  fun x => if p = some x then v else field x

@[simp] theorem store_none (field : α → Option α) (v : Option α) : store field none v = field :=
  funext fun _ => if_neg (by simp)

@[simp] theorem store_some (field : α → Option α) (a : α) (v : Option α) :
    store field (some a) v = update field a v := by
  funext x
  rw [store, update_apply]
  simp [eq_comm]

/-- `XMLNode::Unlink`. -/
def unlink (d : Dom α) (this child : α) : Dom α :=
  let firstChild := if d.firstChild this = some child then
    update d.firstChild this (d.next child) else d.firstChild
  let lastChild := if d.lastChild this = some child then
    update d.lastChild this (d.prev child) else d.lastChild
  let next := store d.next (d.prev child) (d.next child)
  let prev := store d.prev (next child) (d.prev child)
  { d with
    firstChild := firstChild
    lastChild := lastChild
    next := next
    prev := prev
    parent := update d.parent child none }

/-- A node that has a parent is taken from it. -/
def detach (d : Dom α) (node : α) : Dom α :=
  match d.parent node with
  | some p => d.unlink p node
  | none => d

/-- What the insertions begin with: a node that has a parent is taken from it, and `SetTracked` is
called on the pool of one that has none. There is no result where that goes through `NULL`. -/
def adopt (d : Dom α) (addThis : α) : Option (Dom α) :=
  match d.parent addThis with
  | some p => some (d.unlink p addThis)
  | none => (d.memPool addThis).map fun _ => d

/-- What `InsertEndChild` and `InsertFirstChild` share: the pointers afterwards, where `link` puts
the node in its place, and what is returned. -/
def insertChild (link : Dom α → Dom α) (d : Dom α) (this addThis : α) :
    Option (Dom α × Option α) :=
  if d.document addThis ≠ d.document this then some (d, none)
  else (d.adopt addThis).map fun d =>
    ({ link d with parent := update d.parent addThis (some this) }, some addThis)

/-- The place at the end of the list. -/
def linkLast (this addThis : α) (d : Dom α) : Dom α :=
  match d.lastChild this with
  | some l =>
    { d with
      next := update (update d.next l (some addThis)) addThis none
      prev := update d.prev addThis (some l)
      lastChild := update d.lastChild this (some addThis) }
  | none =>
    { d with
      lastChild := update d.lastChild this (some addThis)
      firstChild := update d.firstChild this (some addThis)
      prev := update d.prev addThis none
      next := update d.next addThis none }

/-- The place at the front of the list. -/
def linkFirst (this addThis : α) (d : Dom α) : Dom α :=
  match d.firstChild this with
  | some f =>
    { d with
      prev := update (update d.prev f (some addThis)) addThis none
      next := update d.next addThis (some f)
      firstChild := update d.firstChild this (some addThis) }
  | none =>
    { d with
      lastChild := update d.lastChild this (some addThis)
      firstChild := update d.firstChild this (some addThis)
      prev := update d.prev addThis none
      next := update d.next addThis none }

/-- `XMLNode::InsertEndChild`. -/
def insertEndChild (d : Dom α) (this addThis : α) : Option (Dom α × Option α) :=
  d.insertChild (linkLast this addThis) this addThis

/-- `XMLNode::InsertFirstChild`. -/
def insertFirstChild (d : Dom α) (this addThis : α) : Option (Dom α × Option α) :=
  d.insertChild (linkFirst this addThis) this addThis

/-- `XMLNode::InsertAfterChild`. -/
def insertAfterChild (d : Dom α) (this afterThis addThis : α) : Option (Dom α × Option α) :=
  if d.document addThis ≠ d.document this then some (d, none)
  else if d.parent afterThis ≠ some this then some (d, none)
  else if d.next afterThis = none then d.insertEndChild this addThis
  else
    (d.adopt addThis).bind fun d =>
      let prev := update d.prev addThis (some afterThis)
      let next := update d.next addThis (d.next afterThis)
      match next afterThis with
      | none => none
      | some n =>
        some ({ d with
          prev := update prev n (some addThis)
          next := update next afterThis (some addThis)
          parent := update d.parent addThis (some this) }, some addThis)

/-- A node has a parent or a pool. -/
def Adoptable (d : Dom α) (x : α) : Prop := d.parent x ≠ none ∨ d.memPool x ≠ none

theorem adopt_eq_some {d : Dom α} {x : α} (h : d.Adoptable x) : d.adopt x = some (d.detach x) := by
  rw [adopt, detach]
  cases hparent : d.parent x with
  | some p => rfl
  | none =>
    obtain ⟨pool, hpool⟩ := Option.ne_none_iff_exists'.mp (h.resolve_left (absurd hparent))
    rw [hpool]
    rfl

theorem adopt_eq_none {d : Dom α} {x : α} (h : ¬ d.Adoptable x) : d.adopt x = none := by
  rw [Adoptable, not_or, not_not, not_not] at h
  rw [adopt, h.1, h.2]
  rfl

/-! ## The lists -/

/-- The pointers are those of the lists of children. -/
structure Represents (d : Dom α) (children : α → List α) : Prop where
  parent_iff (p x : α) : x ∈ children p ↔ d.parent x = some p
  first (p : α) : d.firstChild p = (children p).head?
  last (p : α) : d.lastChild p = (children p).getLast?
  linked (p : α) : DoublyLinked d.next d.prev (children p)

variable {d : Dom α} {children : α → List α} {this child addThis afterThis : α}

omit [DecidableEq α] in
/-- A node is in one list at most. -/
theorem Represents.unique (h : d.Represents children) {p q x : α} (hp : x ∈ children p)
    (hq : x ∈ children q) : p = q := by
  rw [h.parent_iff] at hp hq
  exact Option.some.inj (hp.symm.trans hq)

omit [DecidableEq α] in
/-- The neighbours of a node are in its list. -/
theorem Represents.neighbour_mem (h : d.Represents children) {p x y : α} (hx : x ∈ children p)
    (hy : d.prev x = some y ∨ d.next x = some y) : y ∈ children p := by
  obtain ⟨pre, post, heq⟩ := List.append_of_mem hx
  have hlinked := h.linked p
  rw [heq] at hlinked ⊢
  rw [hlinked.prev_eq, hlinked.next_eq] at hy
  rcases hy with hprev | hnext
  · exact List.mem_append_left _ (List.mem_of_getLast? hprev)
  · exact List.mem_append_right _ (List.mem_cons_of_mem _ (List.mem_of_mem_head? hnext))

/-- The lists without a node. -/
def without (children : α → List α) (x : α) : α → List α := fun p => (children p).erase x

/-- The node that is unlinked is in none of the lists any more. -/
theorem Represents.unlink (h : d.Represents children) (hchild : d.parent child = some this) :
    (d.unlink this child).Represents (without children child) := by
  obtain ⟨pre, post, heq⟩ := List.append_of_mem ((h.parent_iff this child).mpr hchild)
  have hlinked := h.linked this
  rw [heq] at hlinked
  have hnext : d.next child = post.head? := hlinked.next_eq
  have hprev : d.prev child = pre.getLast? := hlinked.prev_eq
  have hstore : store d.next (d.prev child) (d.next child) child = d.next child := ite_self ..
  have hother : ∀ p, p ≠ this → child ∉ children p := by
    intro p hp hmem
    rw [h.parent_iff, hchild] at hmem
    exact hp (Option.some.inj hmem).symm
  have hnot : child ∉ pre ∧ child ∉ post := by
    have hnd := List.nodup_middle.mp hlinked.nodup
    have hmem := (List.nodup_cons.mp hnd).1
    exact ⟨fun h => hmem (List.mem_append_left _ h), fun h => hmem (List.mem_append_right _ h)⟩
  have hthis : without children child this = pre ++ post := by
    rw [without, heq, List.erase_append_right _ hnot.1, List.erase_cons_head]
  have helse : ∀ p, p ≠ this → without children child p = children p := fun p hp =>
    List.erase_of_not_mem (hother p hp)
  refine ⟨fun p x => ?_, fun p => ?_, fun p => ?_, fun p => ?_⟩
  · show _ ↔ update d.parent child none x = some p
    by_cases hx : x = child
    · subst hx
      rw [update_self]
      exact iff_of_false ((h.linked p).nodup.not_mem_erase) (by simp)
    · rw [update_of_ne hx, without, List.mem_erase_of_ne hx, h.parent_iff]
  · show (if d.firstChild this = some child then update d.firstChild this (d.next child)
      else d.firstChild) p = _
    by_cases hp : p = this
    · subst hp
      rw [hthis, h.first, heq, hnext]
      cases pre with
      | nil => rw [List.nil_append, List.head?_cons, if_pos rfl, update_self, List.nil_append]
      | cons b pre =>
        have hb : b ≠ child := fun hb => hnot.1 (hb ▸ List.mem_cons_self)
        rw [List.cons_append, List.head?_cons, if_neg fun hhead => hb (Option.some.inj hhead),
          h.first, heq]
        rfl
    · rw [helse p hp, ← h.first]
      split_ifs
      · rw [update_of_ne hp]
      · rfl
  · show (if d.lastChild this = some child then update d.lastChild this (d.prev child)
      else d.lastChild) p = _
    by_cases hp : p = this
    · subst hp
      rw [hthis, h.last, heq, hprev]
      rcases List.eq_nil_or_concat post with rfl | ⟨post, b, rfl⟩
      · rw [List.getLast?_concat, if_pos rfl, update_self, List.append_nil]
      · have hb : b ≠ child := fun hb => hnot.2 (by simp [hb])
        have hlast (l : List α) : (l ++ post.concat b).getLast? = some b := by
          rw [List.concat_eq_append, ← List.append_assoc, List.getLast?_concat]
        have hlast' : (pre ++ child :: post.concat b).getLast? = some b := by
          rw [← List.singleton_append, ← List.append_assoc]
          exact hlast _
        rw [hlast', if_neg fun hlast => hb (Option.some.inj hlast), h.last, heq, hlast', hlast]
    · rw [helse p hp, ← h.last]
      split_ifs
      · rw [update_of_ne hp]
      · rfl
  · show DoublyLinked (store d.next (d.prev child) (d.next child))
      (store d.prev (store d.next (d.prev child) (d.next child) child) (d.prev child)) _
    rw [hstore, hnext, hprev]
    by_cases hp : p = this
    · subst hp
      rw [hthis]
      exact hlinked.remove (fun b _ => rfl) (fun b _ => rfl)
    · rw [helse p hp]
      have hdisj : ∀ x ∈ children p, x ∉ pre ++ post := by
        intro x hx hmem
        refine hp (h.unique hx ?_)
        rw [heq]
        exact (List.mem_append.mp hmem).elim (List.mem_append_left _) fun h =>
          List.mem_append_right _ (List.mem_cons_of_mem _ h)
      refine (h.linked p).congr (fun x hx => ?_) fun x hx => ?_
      · exact if_neg fun hlast =>
          hdisj x hx (List.mem_append_left _ (List.mem_of_getLast? hlast))
      · exact if_neg fun hhead =>
          hdisj x hx (List.mem_append_right _ (List.mem_of_mem_head? hhead))

theorem Represents.detach (h : d.Represents children) (x : α) :
    (d.detach x).Represents (without children x) ∧ (d.detach x).parent x = none := by
  rw [Dom.detach]
  cases hparent : d.parent x with
  | none =>
    have hnot : ∀ p, x ∉ children p := by
      intro p hmem
      rw [h.parent_iff, hparent] at hmem
      cases hmem
    have hsame : without children x = children := funext fun p => List.erase_of_not_mem (hnot p)
    rw [hsame]
    exact ⟨h, hparent⟩
  | some p => exact ⟨h.unlink hparent, update_self ..⟩

theorem detach_frame (d : Dom α) (x : α) :
    (d.detach x).document = d.document ∧ (d.detach x).memPool = d.memPool := by
  rw [detach]
  cases d.parent x <;> exact ⟨rfl, rfl⟩

theorem next_detach_self (d : Dom α) (x : α) : (d.detach x).next x = d.next x := by
  rw [detach]
  cases d.parent x with
  | none => rfl
  | some p => exact ite_self ..

/-- With another parent the node has, as pointer, only that. -/
theorem update_parent_detach (d : Dom α) (x : α) (p : Option α) :
    update (d.detach x).parent x p = update d.parent x p := by
  rw [detach]
  cases d.parent x with
  | none => rfl
  | some q => exact update_idem ..

/-- A node that is in no list is put into one, between `pre` and `post`. -/
theorem Represents.link {d' : Dom α} {pre post : List α} (h : d.Represents children)
    (hadd : d.parent addThis = none) (heq : children this = pre ++ post)
    (hparent : d'.parent = update d.parent addThis (some this))
    (hfirst : d'.firstChild = update d.firstChild this (pre ++ addThis :: post).head?)
    (hlast : d'.lastChild = update d.lastChild this (pre ++ addThis :: post).getLast?)
    (hnext : d'.next = update (store d.next pre.getLast? (some addThis)) addThis post.head?)
    (hprev : d'.prev = update (store d.prev post.head? (some addThis)) addThis pre.getLast?) :
    d'.Represents (update children this (pre ++ addThis :: post)) := by
  have hnot : ∀ p, addThis ∉ children p := by
    intro p hmem
    rw [h.parent_iff, hadd] at hmem
    cases hmem
  have hne : ∀ p, ∀ x ∈ children p, x ≠ addThis := fun p x hx hxa => hnot p (hxa ▸ hx)
  refine ⟨fun p x => ?_, fun p => ?_, fun p => ?_, fun p => ?_⟩
  · rw [hparent]
    by_cases hp : p = this
    · subst hp
      rw [update_self]
      by_cases hx : x = addThis
      · subst hx
        rw [update_self]
        exact iff_of_true (by simp) rfl
      · rw [update_of_ne hx, ← h.parent_iff, heq]
        simp [hx]
    · rw [update_of_ne hp]
      by_cases hx : x = addThis
      · subst hx
        rw [update_self]
        exact iff_of_false (hnot p) fun h => hp (Option.some.inj h).symm
      · rw [update_of_ne hx, h.parent_iff]
  · rw [hfirst]
    by_cases hp : p = this
    · rw [hp, update_self, update_self]
    · rw [update_of_ne hp, update_of_ne hp, h.first]
  · rw [hlast]
    by_cases hp : p = this
    · rw [hp, update_self, update_self]
    · rw [update_of_ne hp, update_of_ne hp, h.last]
  · rw [hnext, hprev]
    by_cases hp : p = this
    · subst hp
      rw [update_self]
      have hlinked := h.linked p
      have hne' := hne p
      have hnot' := hnot p
      rw [heq] at hlinked hne' hnot'
      refine hlinked.insert hnot' (update_self ..) (update_self ..) (fun b hb => ?_) fun b hb => ?_
      · exact update_of_ne (hne' b hb) ..
      · exact update_of_ne (hne' b hb) ..
    · rw [update_of_ne hp]
      have hdisj : ∀ x ∈ children p, x ∉ pre ++ post := fun x hx hmem =>
        hp (h.unique hx (heq ▸ hmem))
      refine (h.linked p).congr (fun x hx => ?_) fun x hx => ?_
      · rw [update_of_ne (hne p x hx)]
        exact if_neg fun hlast =>
          hdisj x hx (List.mem_append_left _ (List.mem_of_getLast? hlast))
      · rw [update_of_ne (hne p x hx)]
        exact if_neg fun hhead =>
          hdisj x hx (List.mem_append_right _ (List.mem_of_mem_head? hhead))

/-- The lists after `InsertEndChild`. -/
def withLast (children : α → List α) (this addThis : α) : α → List α :=
  update (without children addThis) this (without children addThis this ++ [addThis])

/-- An empty list gets its only node. -/
theorem Represents.link_only {d' : Dom α} (h : d.Represents children)
    (hadd : d.parent addThis = none) (hnil : children this = [])
    (hparent : d'.parent = update d.parent addThis (some this))
    (hfirst : d'.firstChild = update d.firstChild this (some addThis))
    (hlast : d'.lastChild = update d.lastChild this (some addThis))
    (hnext : d'.next = update d.next addThis none) (hprev : d'.prev = update d.prev addThis none) :
    d'.Represents (update children this [addThis]) := by
  have hnil' : children this = [] ++ [] := hnil
  refine h.link hadd hnil' hparent hfirst hlast ?_ ?_
  · rw [hnext, List.getLast?_nil, store_none, List.head?_nil]
  · rw [hprev, List.head?_nil, store_none, List.getLast?_nil]

/-- What `InsertEndChild` and `InsertFirstChild` leave if nothing goes through `NULL`. -/
def inserted (link : Dom α → Dom α) (d : Dom α) (this addThis : α) : Dom α :=
  { link (d.detach addThis) with
    parent := update (d.detach addThis).parent addThis (some this) }

theorem insertChild_eq (link : Dom α → Dom α) (hdoc : d.document addThis = d.document this)
    (hadopt : d.Adoptable addThis) :
    d.insertChild link this addThis = some (d.inserted link this addThis, some addThis) := by
  rw [insertChild, if_neg (not_not_intro hdoc), adopt_eq_some hadopt]
  rfl

/-- A node that can not be adopted is not inserted. -/
theorem insertChild_eq_none (link : Dom α → Dom α) (hdoc : d.document addThis = d.document this)
    (hadopt : ¬ d.Adoptable addThis) : d.insertChild link this addThis = none := by
  rw [insertChild, if_neg (not_not_intro hdoc), adopt_eq_none hadopt, Option.map_none]

theorem insertAfterChild_eq_none (hdoc : d.document addThis = d.document this)
    (hafter : d.parent afterThis = some this) (hadopt : ¬ d.Adoptable addThis) :
    d.insertAfterChild this afterThis addThis = none := by
  rw [insertAfterChild, if_neg (not_not_intro hdoc), if_neg (not_not_intro hafter), insertEndChild,
    insertChild_eq_none _ hdoc hadopt, adopt_eq_none hadopt, Option.bind_none, ite_self]

theorem Represents.linkLast (h : d.Represents children) :
    (d.inserted (linkLast this addThis) this addThis).Represents
      (withLast children this addThis) := by
  obtain ⟨hdetach, hparent⟩ := h.detach addThis
  have hlast := hdetach.last this
  have hfirst := hdetach.first this
  rw [inserted, Dom.linkLast, withLast]
  set l := without children addThis this
  set d' := d.detach addThis
  cases hcase : d'.lastChild this with
  | none =>
    have hnil : l = [] := List.getLast?_eq_none_iff.mp (hlast.symm.trans hcase)
    rw [hnil, List.nil_append]
    exact hdetach.link_only hparent hnil rfl rfl rfl rfl rfl
  | some last =>
    rw [hcase] at hlast
    obtain ⟨first, rest, hl⟩ : ∃ first rest, l = first :: rest :=
      List.exists_cons_of_ne_nil fun hnil => by rw [hnil] at hlast; cases hlast
    have hhead : (l ++ [addThis]).head? = d'.firstChild this := by rw [hfirst, hl]; rfl
    refine hdetach.link hparent (List.append_nil l).symm rfl ?_ ?_ ?_ ?_
    · rw [hhead, update_eq_self]
    · rw [List.getLast?_concat]
    · rw [← hlast, store_some, List.head?_nil]
    · rw [List.head?_nil, store_none, ← hlast]

/-- The lists after `InsertFirstChild`. -/
def withFirst (children : α → List α) (this addThis : α) : α → List α :=
  update (without children addThis) this (addThis :: without children addThis this)

theorem Represents.linkFirst (h : d.Represents children) :
    (d.inserted (linkFirst this addThis) this addThis).Represents
      (withFirst children this addThis) := by
  obtain ⟨hdetach, hparent⟩ := h.detach addThis
  have hlast := hdetach.last this
  have hfirst := hdetach.first this
  rw [inserted, Dom.linkFirst, withFirst]
  set l := without children addThis this
  set d' := d.detach addThis
  cases hcase : d'.firstChild this with
  | none =>
    have hnil : l = [] := List.head?_eq_none_iff.mp (hfirst.symm.trans hcase)
    rw [hnil]
    exact hdetach.link_only hparent hnil rfl rfl rfl rfl rfl
  | some first =>
    rw [hcase] at hfirst
    obtain ⟨rest, hl⟩ : ∃ rest, l = first :: rest := List.head?_eq_some_iff.mp hfirst.symm
    have hgetLast : (addThis :: l).getLast? = d'.lastChild this := by
      rw [hlast, hl, List.getLast?_cons_cons]
    have hnil : l = [] ++ l := rfl
    refine hdetach.link hparent hnil rfl rfl ?_ ?_ ?_
    · rw [List.nil_append, hgetLast, update_eq_self]
    · rw [List.getLast?_nil, store_none, ← hfirst]
    · rw [← hfirst, store_some, List.getLast?_nil]

/-- A list with `x` behind `after`. -/
def insertAfter (after x : α) : List α → List α
  | [] => []
  | a :: l => if a = after then a :: x :: l else a :: insertAfter after x l

theorem insertAfter_append {after x : α} {pre post : List α} (h : after ∉ pre) :
    insertAfter after x (pre ++ after :: post) = pre ++ after :: x :: post := by
  induction pre with
  | nil => exact if_pos rfl
  | cons a pre ih =>
    rw [List.mem_cons, not_or] at h
    rw [List.cons_append, insertAfter, if_neg (Ne.symm h.1), ih h.2]
    rfl

/-- The lists after `InsertAfterChild`. A node that goes behind itself stays where it is. -/
def withAfter (children : α → List α) (this afterThis addThis : α) : α → List α :=
  if addThis = afterThis then children
  else update (without children addThis) this
    (insertAfter afterThis addThis (without children addThis this))

/-- The children behind a child. -/
def behind (children : α → List α) (this afterThis : α) : List α :=
  ((children this).dropWhile (· ≠ afterThis)).tail

theorem behind_eq {pre post : List α} (heq : children this = pre ++ afterThis :: post)
    (hpre : afterThis ∉ pre) : behind children this afterThis = post := by
  have hne : ∀ x ∈ pre, decide (x ≠ afterThis) = true := fun x hx =>
    decide_eq_true fun h => hpre (h ▸ hx)
  rw [behind, heq, List.dropWhile_append_of_pos hne, List.dropWhile_cons_of_neg (by simp),
    List.tail_cons]

/-- The calls of `InsertAfterChild` that break the lists: a child that is not the last is to go
behind itself, or the last one behind the last but one. -/
def Misplaced (children : α → List α) (this afterThis addThis : α) : Prop :=
  behind children this afterThis ≠ [] ∧
    (addThis = afterThis ∨ behind children this afterThis = [addThis])

instance (children : α → List α) (this afterThis addThis : α) :
    Decidable (Misplaced children this afterThis addThis) :=
  inferInstanceAs (Decidable (_ ∧ _))

/-- The parts of a list without a node, around another one. -/
theorem exists_without {pre post : List α} (heq : children this = pre ++ afterThis :: post)
    (hnd : (children this).Nodup) (hne : addThis ≠ afterThis) :
    ∃ pre' post', without children addThis this = pre' ++ afterThis :: post' ∧ afterThis ∉ pre' ∧
      (post' = [] ↔ post = [] ∨ post = [addThis]) := by
  have hpre : afterThis ∉ pre := by
    rw [heq] at hnd
    exact fun h => (List.nodup_cons.mp (List.nodup_middle.mp hnd)).1 (List.mem_append_left _ h)
  by_cases hmem : addThis ∈ pre
  · refine ⟨pre.erase addThis, post, ?_, fun h => hpre (List.mem_of_mem_erase h), ?_⟩
    · rw [without, heq, List.erase_append_left _ hmem]
    · refine ⟨Or.inl, fun h => h.resolve_right fun hpost => ?_⟩
      rw [heq, hpost] at hnd
      exact (List.nodup_append.mp hnd).2.2 addThis hmem addThis (by simp) rfl
  · refine ⟨pre, post.erase addThis, ?_, hpre, ?_⟩
    · rw [without, heq, List.erase_append_right _ hmem,
        List.erase_cons_tail (by simpa using hne.symm)]
    · exact List.erase_eq_nil_iff

/-- Behind the last child, `InsertAfterChild` does what `InsertEndChild` does. -/
theorem withLast_eq_withAfter (h : d.Represents children) {pre : List α}
    (heq : children this = pre ++ [afterThis]) :
    withLast children this addThis = withAfter children this afterThis addThis := by
  have hnd := (h.linked this).nodup
  by_cases hsame : addThis = afterThis
  · subst hsame
    rw [withAfter, if_pos rfl, withLast]
    funext p
    by_cases hp : p = this
    · subst hp
      rw [heq] at hnd
      have hpre : addThis ∉ pre := fun hmem =>
        (List.nodup_append.mp hnd).2.2 addThis hmem addThis (by simp) rfl
      rw [update_self, without, heq, List.erase_append_right _ hpre, List.erase_cons_head,
        List.append_nil]
    · rw [update_of_ne hp, without, List.erase_of_not_mem]
      exact fun hmem => hp (h.unique hmem (heq ▸ by simp))
  · obtain ⟨pre', post', heq', hpre', hiff⟩ := exists_without heq hnd hsame
    rw [hiff.mpr (Or.inl rfl)] at heq'
    rw [withAfter, if_neg hsame, withLast, heq', insertAfter_append hpre', List.append_assoc]
    rfl

/-- A node goes behind a child that is not the last. -/
theorem Represents.linkAfter {d' : Dom α} {n : α} {pre post : List α} (h : d.Represents children)
    (hadd : d.parent addThis = none) (heq : children this = pre ++ afterThis :: n :: post)
    (hparent : d'.parent = update d.parent addThis (some this))
    (hfirst : d'.firstChild = d.firstChild) (hlast : d'.lastChild = d.lastChild)
    (hnext : d'.next = update (update d.next addThis (some n)) afterThis (some addThis))
    (hprev : d'.prev = update (update d.prev addThis (some afterThis)) n (some addThis)) :
    d'.Represents (update children this (pre ++ afterThis :: addThis :: n :: post)) := by
  have hmem : ∀ x ∈ children this, x ≠ addThis := by
    rintro x hx rfl
    rw [h.parent_iff, hadd] at hx
    cases hx
  have hafter : addThis ≠ afterThis := (hmem afterThis (by simp [heq])).symm
  have hn : addThis ≠ n := (hmem n (by simp [heq])).symm
  have happend (l : List α) : pre ++ afterThis :: l = pre ++ [afterThis] ++ l := by simp
  rw [happend] at heq ⊢
  refine h.link hadd heq hparent ?_ ?_ ?_ ?_
  · have hhead : (pre ++ [afterThis] ++ addThis :: n :: post).head? = d.firstChild this := by
      rw [h.first, heq]
      cases pre <;> rfl
    rw [hfirst, hhead, update_eq_self]
  · have hgetLast : (pre ++ [afterThis] ++ addThis :: n :: post).getLast? = d.lastChild this := by
      rw [h.last, heq, List.getLast?_append, List.getLast?_append (l := pre ++ [afterThis]),
        List.getLast?_cons_cons]
    rw [hlast, hgetLast, update_eq_self]
  · rw [hnext, List.getLast?_concat, store_some, List.head?_cons, update_comm hafter]
  · rw [hprev, List.getLast?_concat, List.head?_cons, store_some, update_comm hn]

theorem Represents.insertAfterChild (h : d.Represents children)
    (hdoc : d.document addThis = d.document this) (hadopt : d.Adoptable addThis)
    (hafter : d.parent afterThis = some this) :
    (∃ r, d.insertAfterChild this afterThis addThis = some r ∧
        r.1.Represents (withAfter children this afterThis addThis)) ↔
      ¬ Misplaced children this afterThis addThis := by
  have hmem : afterThis ∈ children this := (h.parent_iff this afterThis).mpr hafter
  obtain ⟨pre, post, heq⟩ := List.append_of_mem hmem
  have hlinked := h.linked this
  rw [heq] at hlinked
  have hpre : afterThis ∉ pre := fun hmem =>
    (List.nodup_cons.mp (List.nodup_middle.mp hlinked.nodup)).1 (List.mem_append_left _ hmem)
  have hnext : d.next afterThis = none ↔ post = [] := by
    rw [hlinked.next_eq, List.head?_eq_none_iff]
  rw [Misplaced, behind_eq heq hpre, Dom.insertAfterChild, if_neg (not_not_intro hdoc),
    if_neg (not_not_intro hafter)]
  by_cases hpost : post = []
  · have hend := insertChild_eq (Dom.linkLast this addThis) hdoc hadopt
    refine iff_of_true ⟨_, (if_pos (hnext.mpr hpost)).trans hend, ?_⟩ fun h => h.1 hpost
    rw [← withLast_eq_withAfter h (hpost ▸ heq)]
    exact h.linkLast
  rw [if_neg (mt hnext.mp hpost), adopt_eq_some hadopt, Option.bind_some]
  dsimp only
  by_cases hsame : addThis = afterThis
  · -- the node becomes its own neighbour
    refine iff_of_false ?_ (not_not_intro ⟨hpost, Or.inl hsame⟩)
    rintro ⟨r, hr, hrep⟩
    rw [withAfter, if_pos hsame] at hrep
    refine (hrep.linked this).next_ne_self hmem ?_
    split at hr
    · cases hr
    · cases hr
      exact (update_self ..).trans (congrArg some hsame)
  · obtain ⟨hdetach, hparent⟩ := h.detach addThis
    obtain ⟨pre', post', heq', hpre', hiff⟩ := exists_without heq (h.linked this).nodup hsame
    have hnext' : (d.detach addThis).next afterThis = post'.head? := by
      have hlinked' := hdetach.linked this
      rw [heq'] at hlinked'
      exact hlinked'.next_eq
    rw [update_of_ne (Ne.symm hsame), hnext']
    cases post' with
    | nil =>
      -- the node that was behind it is gone
      refine iff_of_false ?_ (not_not_intro ⟨hpost, Or.inr ((hiff.mp rfl).resolve_left hpost)⟩)
      rintro ⟨r, hr, -⟩
      cases hr
    | cons n post' =>
      refine iff_of_true ⟨_, rfl, ?_⟩ ?_
      · rw [withAfter, if_neg hsame, heq', insertAfter_append hpre']
        exact hdetach.linkAfter hparent heq' rfl rfl rfl rfl rfl
      · rintro ⟨-, hsame' | hlast⟩
        · exact hsame hsame'
        · exact absurd (hiff.mpr (Or.inr hlast)) (List.cons_ne_nil n post')

/-! ## The other fields -/

theorem inserted_frame {link : Dom α → Dom α} (d : Dom α)
    (hlink : ∀ d : Dom α, (link d).document = d.document ∧ (link d).memPool = d.memPool) :
    (d.inserted link this addThis).parent = update d.parent addThis (some this) ∧
      (d.inserted link this addThis).document = d.document ∧
      (d.inserted link this addThis).memPool = d.memPool := by
  obtain ⟨hdoc, hpool⟩ := hlink (d.detach addThis)
  obtain ⟨hdoc', hpool'⟩ := d.detach_frame addThis
  exact ⟨update_parent_detach .., hdoc.trans hdoc', hpool.trans hpool'⟩

theorem linkLast_frame (d : Dom α) :
    (d.linkLast this addThis).document = d.document ∧
      (d.linkLast this addThis).memPool = d.memPool := by
  rw [linkLast]
  split
  · exact ⟨rfl, rfl⟩
  · exact ⟨rfl, rfl⟩

theorem linkFirst_frame (d : Dom α) :
    (d.linkFirst this addThis).document = d.document ∧
      (d.linkFirst this addThis).memPool = d.memPool := by
  rw [linkFirst]
  split
  · exact ⟨rfl, rfl⟩
  · exact ⟨rfl, rfl⟩

theorem insertAfterChild_frame {r : Dom α × Option α}
    (hdoc : d.document addThis = d.document this) (hadopt : d.Adoptable addThis)
    (hafter : d.parent afterThis = some this)
    (hr : d.insertAfterChild this afterThis addThis = some r) :
    r.1.parent = update d.parent addThis (some this) ∧ r.1.document = d.document ∧
      r.1.memPool = d.memPool := by
  rw [insertAfterChild, if_neg (not_not_intro hdoc), if_neg (not_not_intro hafter),
    insertEndChild, insertChild_eq _ hdoc hadopt, adopt_eq_some hadopt, Option.bind_some] at hr
  dsimp only at hr
  split at hr
  · cases hr
    exact d.inserted_frame linkLast_frame
  · split at hr
    · cases hr
    · cases hr
      exact ⟨update_parent_detach .., d.detach_frame addThis⟩

end Dom

end PlutoServer.Tinyxml2
