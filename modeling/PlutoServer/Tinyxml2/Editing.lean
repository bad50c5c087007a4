import PlutoServer.Common.Forest
import PlutoServer.Common.Runs
import PlutoServer.Tinyxml2.Dom
import Mathlib.Data.Fintype.Card
import Mathlib.Data.Set.Card

/-!
# Editing a document in memory

Reference: `XMLDocument::NewElement` and its like, `XMLNode::InsertEndChild`, `InsertFirstChild`,
`InsertAfterChild`, `DeleteChildren`, `DeleteChild`, `XMLNode::~XMLNode` and `DELETE_NODE` in
`CoreBase/tinyxml2.cpp`.

`Heap` adds to the pointers which nodes are allocated. A function has no result if it touches a node
that is not, frees one twice or goes through `NULL`. `NodeLists` is what the calls are for: the
nodes that there are, with the lists of their children. `Edited.always_refined_iff` says that the
memory is that of the lists all along a sequence of calls unless one of them inserts a document,
puts a node below itself or is `Misplaced`. A deletion therefore frees the nodes below and no
others, each of them once.

A document is a node too, its own `_document`, and has no `_memPool`. The documents, with their
pools, are there all along. How many nodes of a pool are in use is counted there for assertions
only, which are left out.
-/

namespace PlutoServer.Tinyxml2

open Runs Function

variable {α : Type*} [DecidableEq α]

namespace Dom

/-! ## The nodes that a function touches -/

def unlinkNodes (d : Dom α) (this child : α) : List α :=
  this :: child :: ((d.prev child).toList ++ (d.next child).toList)

def detachNodes (d : Dom α) (addThis : α) : List α :=
  match d.parent addThis with
  | some p => d.unlinkNodes p addThis
  | none => []

def insertEndNodes (d : Dom α) (this addThis : α) : List α :=
  this :: addThis ::
    if d.document addThis ≠ d.document this then []
    else d.detachNodes addThis ++ ((d.detach addThis).lastChild this).toList

def insertFirstNodes (d : Dom α) (this addThis : α) : List α :=
  this :: addThis ::
    if d.document addThis ≠ d.document this then []
    else d.detachNodes addThis ++ ((d.detach addThis).firstChild this).toList

def insertAfterNodes (d : Dom α) (this afterThis addThis : α) : List α :=
  this :: addThis ::
    if d.document addThis ≠ d.document this then []
    else afterThis ::
      if d.parent afterThis ≠ some this then []
      else if d.next afterThis = none then d.insertEndNodes this addThis
      else d.detachNodes addThis ++ ((d.detach addThis).next afterThis).toList

variable {d : Dom α} {children : α → List α} {live : Set α} {this addThis afterThis : α}

/-- Only nodes that are `live` are in the lists and have one. -/
def Tidy (children : α → List α) (live : Set α) : Prop :=
  ∀ p, ∀ x ∈ children p, p ∈ live ∧ x ∈ live

omit [DecidableEq α] in
theorem Represents.detachNodes_live (h : d.Represents children) (htidy : Tidy children live)
    (x : α) : ∀ y ∈ d.detachNodes x, y ∈ live := by
  intro y hy
  rw [detachNodes] at hy
  cases hparent : d.parent x with
  | none =>
    rw [hparent] at hy
    exact absurd hy List.not_mem_nil
  | some p =>
    have hx : x ∈ children p := (h.parent_iff p x).mpr hparent
    rw [hparent] at hy
    rcases List.mem_cons.mp hy with rfl | hy
    · exact (htidy y x hx).1
    rcases List.mem_cons.mp hy with rfl | hy
    · exact (htidy p y hx).2
    · rw [List.mem_append, Option.mem_toList, Option.mem_toList] at hy
      exact (htidy p y (h.neighbour_mem hx hy)).2

omit [DecidableEq α] in
theorem Represents.insertNodes_live (h : d.Represents children) (htidy : Tidy children live)
    (this : α) {o : Option α} (ho : ∀ y ∈ o, y ∈ children this) :
    ∀ y ∈ d.detachNodes addThis ++ o.toList, y ∈ live := by
  refine List.forall_mem_append.mpr ⟨h.detachNodes_live htidy addThis, fun y hy => ?_⟩
  exact (htidy this y (ho y (Option.mem_toList.mp hy))).2

theorem Represents.insertEndNodes_live (h : d.Represents children) (htidy : Tidy children live)
    (hthis : this ∈ live) (hadd : addThis ∈ live) :
    ∀ y ∈ d.insertEndNodes this addThis, y ∈ live := by
  rw [insertEndNodes, List.forall_mem_cons, List.forall_mem_cons]
  refine ⟨hthis, hadd, ?_⟩
  split_ifs
  · exact fun y hy => absurd hy List.not_mem_nil
  · refine h.insertNodes_live htidy this fun y hy => ?_
    rw [(h.detach addThis).1.last this] at hy
    exact List.mem_of_mem_erase (List.mem_of_getLast? hy)

theorem Represents.insertFirstNodes_live (h : d.Represents children) (htidy : Tidy children live)
    (hthis : this ∈ live) (hadd : addThis ∈ live) :
    ∀ y ∈ d.insertFirstNodes this addThis, y ∈ live := by
  rw [insertFirstNodes, List.forall_mem_cons, List.forall_mem_cons]
  refine ⟨hthis, hadd, ?_⟩
  split_ifs
  · exact fun y hy => absurd hy List.not_mem_nil
  · refine h.insertNodes_live htidy this fun y hy => ?_
    rw [(h.detach addThis).1.first this] at hy
    exact List.mem_of_mem_erase (List.mem_of_mem_head? hy)

theorem Represents.insertAfterNodes_live (h : d.Represents children) (htidy : Tidy children live)
    (hthis : this ∈ live) (hadd : addThis ∈ live) (hafter : afterThis ∈ live) :
    ∀ y ∈ d.insertAfterNodes this afterThis addThis, y ∈ live := by
  rw [insertAfterNodes, List.forall_mem_cons, List.forall_mem_cons]
  refine ⟨hthis, hadd, ?_⟩
  split_ifs with hdoc hparent hnext
  · exact fun y hy => absurd hy List.not_mem_nil
  · exact List.forall_mem_cons.mpr ⟨hafter, fun y hy => absurd hy List.not_mem_nil⟩
  · exact List.forall_mem_cons.mpr ⟨hafter, h.insertEndNodes_live htidy hthis hadd⟩
  · refine List.forall_mem_cons.mpr ⟨hafter, h.insertNodes_live htidy this fun y hy => ?_⟩
    have hmem : afterThis ∈ children this := (h.parent_iff this afterThis).mpr (not_not.mp hparent)
    by_cases hsame : afterThis = addThis
    · rw [hsame, next_detach_self] at hy
      exact h.neighbour_mem hmem (Or.inr (hsame ▸ hy))
    · have hmem' : afterThis ∈ without children addThis this :=
        (List.mem_erase_of_ne hsame).mpr hmem
      exact List.mem_of_mem_erase ((h.detach addThis).1.neighbour_mem hmem' (Or.inr hy))

end Dom

open Dom

/-! ## The memory -/

/-- The nodes in memory: their pointers, and those that are allocated. -/
structure Heap (α : Type*) where
  dom : Dom α
  live : Finset α

namespace Heap

/-- What a function leaves of the memory if the nodes that it touches are allocated. -/
def touching (h : Heap α) (nodes : List α) (d : Option (Dom α)) : Option (Heap α) :=
  if ∀ x ∈ nodes, x ∈ h.live then d.map fun d => { h with dom := d } else none

/-- `XMLNode::Unlink`. -/
def unlink (h : Heap α) (this child : α) : Option (Heap α) :=
  h.touching (h.dom.unlinkNodes this child) (some (h.dom.unlink this child))

/-- A node that has a parent is taken from it. -/
def detach (h : Heap α) (node : α) : Option (Heap α) :=
  h.touching (h.dom.detachNodes node) (some (h.dom.detach node))

/-- `MemPool::Free`. -/
def free (h : Heap α) (node : α) : Option (Heap α) :=
  if node ∈ h.live then some { h with live := h.live.erase node } else none

/-- `DELETE_NODE`: the destructor of `XMLNode`, then `Free` of the pool that the node had before. -/
def deleteNode (h : Heap α) (deleteChildren : Heap α → α → Option (Heap α)) (node : α) :
    Option (Heap α) :=
  let pool := h.dom.memPool node
  (deleteChildren h node).bind fun h => (h.detach node).bind fun h =>
    pool.bind fun _ => h.free node

/-- `XMLNode::DeleteChildren`. -/
def deleteChildren : ℕ → Heap α → α → Option (Heap α)
  | 0, _, _ => none
  | fuel + 1, h, this =>
    match h.dom.firstChild this with
    | some node =>
      (h.unlink this node).bind fun h =>
        (h.deleteNode (deleteChildren fuel) node).bind fun h => deleteChildren fuel h this
    | none =>
      h.touching [this] (some { h.dom with
        firstChild := update h.dom.firstChild this none
        lastChild := update h.dom.lastChild this none })

/-- A node from a pool, with the constructor of `XMLNode` run on it. The pools are part of the
document, to which all their nodes belong. -/
def newNode (h : Heap α) (x : α) (pool : MemPool) : Heap α where
  dom := { h.dom with
    parent := update h.dom.parent x none
    firstChild := update h.dom.firstChild x none
    lastChild := update h.dom.lastChild x none
    prev := update h.dom.prev x none
    next := update h.dom.next x none
    memPool := update h.dom.memPool x (some pool) }
  live := insert x h.live

end Heap

/-- The calls. `NewElement` and `NewText` take a node from a pool of their own, the others from the
pool of the comments. -/
inductive Edit (α : Type*)
  | newNode (x : α) (pool : MemPool)
  | insertEndChild (this addThis : α)
  | insertFirstChild (this addThis : α)
  | insertAfterChild (this afterThis addThis : α)
  | deleteChildren (this : α)
  | deleteChild (this node : α)

/-- The memory after a call. The fuel of a deletion is enough, since no node is deleted twice. -/
def Heap.apply [Fintype α] (h : Heap α) : Edit α → Option (Heap α)
  | .newNode x pool => some (h.newNode x pool)
  | .insertEndChild this addThis =>
    h.touching (h.dom.insertEndNodes this addThis)
      ((h.dom.insertEndChild this addThis).map Prod.fst)
  | .insertFirstChild this addThis =>
    h.touching (h.dom.insertFirstNodes this addThis)
      ((h.dom.insertFirstChild this addThis).map Prod.fst)
  | .insertAfterChild this afterThis addThis =>
    h.touching (h.dom.insertAfterNodes this afterThis addThis)
      ((h.dom.insertAfterChild this afterThis addThis).map Prod.fst)
  | .deleteChildren this => Heap.deleteChildren (Fintype.card α) h this
  | .deleteChild _ node => h.deleteNode (Heap.deleteChildren (Fintype.card α)) node

/-! ## The lists -/

/-- The nodes that there are, with the lists of their children. -/
structure NodeLists (α : Type*) where
  document : α → α
  children : α → List α
  live : Set α

namespace NodeLists

/-- The lists without the nodes of `R`. -/
noncomputable def remove (t : NodeLists α) (R : Set α) : NodeLists α :=
  { t with children := removed t.children R, live := t.live \ R }

/-- A node and all that is below it. -/
def subtree (t : NodeLists α) (x : α) : Set α := below (ChildOf t.children) x

omit [DecidableEq α] in
theorem subtree_closed (t : NodeLists α) (a x p : α) (hx : ChildOf t.children x p)
    (hp : p ∈ t.subtree a) : x ∈ t.subtree a :=
  mem_below_of_child hx hp

omit [DecidableEq α] in
theorem mem_subtree_self (t : NodeLists α) (a : α) : a ∈ t.subtree a := mem_below_self a

omit [DecidableEq α] in
theorem subtree_of_nil {t : NodeLists α} {a : α} (h : t.children a = []) : t.subtree a = {a} :=
  below_of_leaf fun x hx => by
    rw [ChildOf, h] at hx
    exact absurd hx List.not_mem_nil

omit [DecidableEq α] in
theorem remove_empty (t : NodeLists α) : t.remove ∅ = t := by
  rw [remove, removed_empty, Set.sdiff_empty]

omit [DecidableEq α] in
theorem remove_remove (t : NodeLists α) (R S : Set α) :
    (t.remove R).remove S = t.remove (R ∪ S) := by
  rw [remove, remove, remove, removed_removed, Set.sdiff_sdiff]

omit [DecidableEq α] in
/-- What is below a node after another one is removed with all below it. -/
theorem subtree_remove (t : NodeLists α) (a x : α) :
    (t.remove (t.subtree a)).subtree x = insert x (t.subtree x \ t.subtree a) :=
  below_without (fun _ _ => mem_removed_iff (t.subtree_closed a)) (t.subtree_closed a)

/-- A node that is taken from its list keeps what is below it. -/
theorem subtree_without (t : NodeLists α) (a : α) :
    NodeLists.subtree { t with children := without t.children a } a = t.subtree a := by
  refine Set.Subset.antisymm (below_congr fun x p _ hx => List.mem_of_mem_erase hx) ?_
  exact below_congr fun x p hxa hx => (List.mem_erase_of_ne hxa).mpr hx

theorem remove_without (t : NodeLists α) (hnd : ∀ p, (t.children p).Nodup) (a : α) :
    NodeLists.remove { t with children := without t.children a } (t.subtree a) =
      t.remove (t.subtree a) := by
  have hlists : removed (without t.children a) (t.subtree a) = removed t.children (t.subtree a) :=
    removed_erase_of_mem hnd (t.mem_subtree_self a)
  rw [remove, remove, hlists]

/-- What a call is for. -/
noncomputable def apply (t : NodeLists α) : Edit α → NodeLists α
  | .newNode x _ => { t with live := insert x t.live }
  | .insertEndChild this addThis =>
    if t.document addThis = t.document this then
      { t with children := withLast t.children this addThis } else t
  | .insertFirstChild this addThis =>
    if t.document addThis = t.document this then
      { t with children := withFirst t.children this addThis } else t
  | .insertAfterChild this afterThis addThis =>
    if t.document addThis = t.document this ∧ afterThis ∈ t.children this then
      { t with children := withAfter t.children this afterThis addThis } else t
  | .deleteChildren this => t.remove (t.subtree this \ {this})
  | .deleteChild _ node => t.remove (t.subtree node)

/-- A new node is one that is not allocated and no document, the nodes that a call names are
allocated, and the node that `DeleteChild` deletes is a child. -/
def Meant (t : NodeLists α) : Edit α → Prop
  | .newNode x _ => x ∉ t.live ∧ t.document x ≠ x
  | .insertEndChild this addThis => this ∈ t.live ∧ addThis ∈ t.live
  | .insertFirstChild this addThis => this ∈ t.live ∧ addThis ∈ t.live
  | .insertAfterChild this afterThis addThis =>
    this ∈ t.live ∧ afterThis ∈ t.live ∧ addThis ∈ t.live
  | .deleteChildren this => this ∈ t.live
  | .deleteChild this node => node ∈ t.children this

/-- A document goes nowhere, and a node goes neither below itself nor to a place that is
`Misplaced`. -/
def Sound (t : NodeLists α) : Edit α → Prop
  | .insertEndChild this addThis | .insertFirstChild this addThis =>
    t.document addThis = t.document this → t.document addThis ≠ addThis ∧ this ∉ t.subtree addThis
  | .insertAfterChild this afterThis addThis =>
    t.document addThis = t.document this → afterThis ∈ t.children this →
      t.document addThis ≠ addThis ∧ this ∉ t.subtree addThis ∧
        ¬ Misplaced t.children this afterThis addThis
  | _ => True

end NodeLists

namespace Heap

/-- The memory is that of the lists. -/
structure Refines (h : Heap α) (t : NodeLists α) : Prop where
  represents : h.dom.Represents t.children
  rooted : Rooted (ChildOf t.children)
  document : h.dom.document = t.document
  live (x : α) : x ∈ h.live ↔ x ∈ t.live
  tidy : Tidy t.children t.live
  pooled (x : α) : x ∈ t.live → (h.dom.memPool x = none ↔ t.document x = x)
  inner (p x : α) : x ∈ t.children p → t.document x ≠ x

variable {h : Heap α} {t : NodeLists α} {this node addThis afterThis : α}

theorem Refines.touching_eq (hr : h.Refines t) {nodes : List α} (hn : ∀ x ∈ nodes, x ∈ t.live)
    (d : Option (Dom α)) : h.touching nodes d = d.map fun d => { h with dom := d } :=
  if_pos fun x hx => (hr.live x).mpr (hn x hx)

omit [DecidableEq α] in
/-- The documents are the nodes that can not be adopted. -/
theorem Refines.adoptable_iff (hr : h.Refines t) {x : α} (hx : x ∈ t.live) :
    h.dom.Adoptable x ↔ t.document x ≠ x := by
  have hpool := hr.pooled x hx
  refine ⟨fun hadopt hdoc => ?_, fun hdoc => Or.inr (mt hpool.mp hdoc)⟩
  obtain ⟨p, hp⟩ := Option.ne_none_iff_exists'.mp (hadopt.resolve_right (absurd (hpool.mpr hdoc)))
  exact hr.inner p x ((hr.represents.parent_iff p x).mpr hp) hdoc

/-! ## Insertion -/

/-- A node that goes into another list is below another node. -/
theorem childOf_eq_moved {d d' : Dom α} {children children' : α → List α}
    (hd : d.Represents children) (hd' : d'.Represents children')
    (hparent : d'.parent = update d.parent addThis (some this)) :
    ChildOf children' = moved (ChildOf children) addThis this := by
  funext x p
  rw [ChildOf, hd'.parent_iff, hparent, moved, ChildOf, hd.parent_iff, eq_iff_iff]
  by_cases hx : x = addThis
  · subst hx
    simp [eq_comm]
  · simp [hx]

theorem Refines.insert_iff {d' : Dom α} {children' : α → List α} (hr : h.Refines t)
    (hthis : this ∈ t.live) (hadd : addThis ∈ t.live) (hinner : t.document addThis ≠ addThis)
    (hd' : d'.Represents children')
    (hframe : d'.parent = update h.dom.parent addThis (some this) ∧ d'.document = h.dom.document ∧
      d'.memPool = h.dom.memPool) :
    Refines { h with dom := d' } { t with children := children' } ↔ this ∉ t.subtree addThis := by
  have hmoved := childOf_eq_moved hr.represents hd' hframe.1
  rw [NodeLists.subtree, ← rooted_moved_iff hr.rooted, ← hmoved]
  refine ⟨fun hr' => hr'.rooted, fun hrooted => ?_⟩
  have hold (p x : α) (hx : x ∈ children' p) : moved (ChildOf t.children) addThis this x p :=
    hmoved ▸ hx
  refine ⟨hd', hrooted, hframe.2.1.trans hr.document, hr.live, fun p x hx => ?_, fun x hx => ?_,
    fun p x hx => ?_⟩
  · rcases hold p x hx with ⟨rfl, rfl⟩ | ⟨-, hx⟩
    · exact ⟨hthis, hadd⟩
    · exact hr.tidy p x hx
  · rw [hframe.2.2]
    exact hr.pooled x hx
  · rcases hold p x hx with ⟨rfl, -⟩ | ⟨-, hx⟩
    · exact hinner
    · exact hr.inner p x hx

/-! ## Deletion -/

theorem Refines.detach (hr : h.Refines t) (node : α) :
    ∃ h', h.detach node = some h' ∧
      h'.Refines { t with children := without t.children node } := by
  refine ⟨_, hr.touching_eq (hr.represents.detachNodes_live hr.tidy node) _, ?_⟩
  refine ⟨(hr.represents.detach node).1, hr.rooted.mono fun x p hx => List.mem_of_mem_erase hx,
    (detach_frame ..).1.trans hr.document, hr.live, fun p x hx => ?_, fun x hx => ?_,
    fun p x hx => ?_⟩
  · exact hr.tidy p x (List.mem_of_mem_erase hx)
  · rw [(detach_frame ..).2]
    exact hr.pooled x hx
  · exact hr.inner p x (List.mem_of_mem_erase hx)

theorem Refines.unlink (hr : h.Refines t) (hnode : node ∈ t.children this) :
    ∃ h', h.unlink this node = some h' ∧
      h'.Refines { t with children := without t.children node } := by
  have heq : h.unlink this node = h.detach node := by
    have hparent := (hr.represents.parent_iff this node).mp hnode
    rw [Heap.unlink, Heap.detach, detachNodes, Dom.detach, hparent]
  rw [heq]
  exact hr.detach node

omit [DecidableEq α] in
theorem Refines.nodup (hr : h.Refines t) (p : α) : (t.children p).Nodup :=
  (hr.represents.linked p).nodup

/-- A node that is in no list and has none can be freed. -/
theorem Refines.free (hr : h.Refines t) (hnode : node ∈ t.live) (hout : ∀ p, node ∉ t.children p)
    (hnil : t.children node = []) :
    ∃ h', h.free node = some h' ∧ h'.Refines { t with live := t.live \ {node} } := by
  refine ⟨_, if_pos ((hr.live node).mpr hnode), hr.represents, hr.rooted, hr.document, ?_, ?_,
    fun x hx => hr.pooled x hx.1, hr.inner⟩
  · intro x
    rw [Finset.mem_erase, hr.live, and_comm]
    rfl
  · intro p x hx
    refine ⟨⟨(hr.tidy p x hx).1, ?_⟩, (hr.tidy p x hx).2, ?_⟩
    · rintro rfl
      rw [hnil] at hx
      exact absurd hx List.not_mem_nil
    · rintro rfl
      exact hout p hx

/-- `DELETE_NODE` removes the node and all below it if `DeleteChildren` removes all below it. -/
theorem Refines.deleteNode {deleteChildren : Heap α → α → Option (Heap α)} (hr : h.Refines t)
    (hnode : node ∈ t.live) (hinner : t.document node ≠ node)
    (hchildren : ∃ h', deleteChildren h node = some h' ∧
      h'.Refines (t.remove (t.subtree node \ {node}))) :
    ∃ h', h.deleteNode deleteChildren node = some h' ∧ h'.Refines (t.remove (t.subtree node)) := by
  obtain ⟨h₁, heq₁, hr₁⟩ := hchildren
  obtain ⟨h₂, heq₂, hr₂⟩ := hr₁.detach node
  have hlists : without (t.remove (t.subtree node \ {node})).children node =
      removed t.children (t.subtree node) := erase_removed_below hr.nodup node
  rw [hlists] at hr₂
  have hnode₂ : node ∈ t.live \ (t.subtree node \ {node}) := ⟨hnode, fun hmem => hmem.2 rfl⟩
  obtain ⟨h₃, heq₃, hr₃⟩ := hr₂.free hnode₂
    (fun p hp => ((mem_removed_iff (t.subtree_closed node)).mp hp).2 (mem_below_self node))
    (removed_of_mem (mem_below_self node))
  obtain ⟨pool, hpool⟩ := Option.ne_none_iff_exists'.mp (mt (hr.pooled node hnode).mp hinner)
  refine ⟨h₃, ?_, ?_⟩
  · rw [Heap.deleteNode, hpool, heq₁, Option.bind_some, heq₂, Option.bind_some, Option.bind_some,
      heq₃]
  · have hlive : (t.live \ (t.subtree node \ {node})) \ {node} = t.live \ t.subtree node := by
      rw [Set.sdiff_sdiff, Set.sdiff_union_self,
        Set.union_eq_left.mpr (Set.singleton_subset_iff.mpr (t.mem_subtree_self node))]
    rwa [NodeLists.remove, ← hlive]

theorem Refines.deleteChildren [Finite α] {fuel : ℕ} {h : Heap α} {t : NodeLists α} {this : α}
    (hr : h.Refines t) (hthis : this ∈ t.live) (hfuel : (t.subtree this \ {this}).ncard < fuel) :
    ∃ h', deleteChildren fuel h this = some h' ∧
      h'.Refines (t.remove (t.subtree this \ {this})) := by
  induction fuel generalizing h t this with
  | zero => exact absurd hfuel (Nat.not_lt_zero _)
  | succ fuel ih =>
    rw [Heap.deleteChildren]
    have hhead := hr.represents.first this
    cases hfirst : h.dom.firstChild this with
    | none =>
      have hnil : t.children this = [] := List.head?_eq_none_iff.mp (hhead.symm.trans hfirst)
      have hlast : h.dom.lastChild this = none := by rw [hr.represents.last, hnil]; rfl
      rw [NodeLists.subtree_of_nil hnil, Set.sdiff_self, NodeLists.remove_empty]
      refine ⟨h, ?_, hr⟩
      have hfirst' : update h.dom.firstChild this none = h.dom.firstChild := by
        rw [← hfirst, update_eq_self]
      have hlast' : update h.dom.lastChild this none = h.dom.lastChild := by
        rw [← hlast, update_eq_self]
      dsimp only
      rw [hfirst', hlast']
      exact hr.touching_eq (List.forall_mem_singleton.mpr hthis) _
    | some node =>
      have hmem : node ∈ t.children this := List.mem_of_mem_head? (hhead.symm.trans hfirst)
      have hnode : node ∈ t.live := (hr.tidy this node hmem).2
      have hnot : this ∉ t.subtree node := hr.rooted.not_mem_below hmem
      have hsub : t.subtree node ⊆ t.subtree this \ {this} := fun x hx =>
        ⟨below_subset (r := ChildOf t.children) hmem hx, fun heq => hnot (heq ▸ hx)⟩
      have hin : node ∈ t.subtree this \ {this} := hsub (t.mem_subtree_self node)
      have hfewer : ∀ S ⊆ t.subtree this \ {this}, node ∉ S → S.ncard < fuel := fun S hS hnode =>
        (Set.ncard_lt_ncard ((Set.ssubset_iff_of_subset hS).mpr ⟨node, hin, hnode⟩)).trans_le
          (Nat.le_of_lt_succ hfuel)
      -- the first child is taken from the list, and deleted with all below it
      obtain ⟨h₁, heq₁, hr₁⟩ := hr.unlink hmem
      have hfuel₁ : (t.subtree node \ {node}).ncard < fuel :=
        hfewer _ (Set.sdiff_subset.trans hsub) fun hmem => hmem.2 rfl
      rw [← t.subtree_without node] at hfuel₁
      obtain ⟨h₂, heq₂, hr₂⟩ :=
        hr₁.deleteNode hnode (hr.inner this node hmem) (ih hr₁ hnode hfuel₁)
      rw [t.subtree_without node, t.remove_without hr.nodup node] at hr₂
      -- the others follow
      have hrest : (t.remove (t.subtree node)).subtree this \ {this} =
          (t.subtree this \ {this}) \ t.subtree node := by
        rw [t.subtree_remove, Set.sdiff_sdiff_comm,
          Set.insert_sdiff_of_mem _ (Set.mem_singleton this)]
      have hfuel₂ : ((t.remove (t.subtree node)).subtree this \ {this}).ncard < fuel := by
        rw [hrest]
        exact hfewer _ Set.sdiff_subset fun hmem => hmem.2 (t.mem_subtree_self node)
      obtain ⟨h₃, heq₃, hr₃⟩ := ih hr₂ ⟨hthis, hnot⟩ hfuel₂
      refine ⟨h₃, ?_, ?_⟩
      · dsimp only
        rw [heq₁, Option.bind_some, heq₂, Option.bind_some, heq₃]
      · rwa [hrest, NodeLists.remove_remove, Set.union_sdiff_cancel hsub] at hr₃

/-! ## Allocation -/

theorem Refines.newNode {x : α} (hr : h.Refines t) (hx : x ∉ t.live) (hinner : t.document x ≠ x)
    (pool : MemPool) : (h.newNode x pool).Refines { t with live := insert x t.live } := by
  have hout : ∀ p, ∀ y ∈ t.children p, y ≠ x := fun p y hy heq => hx (heq ▸ (hr.tidy p y hy).2)
  have hnil : t.children x = [] :=
    List.eq_nil_iff_forall_not_mem.mpr fun y hy => hx (hr.tidy x y hy).1
  refine ⟨⟨fun p y => ?_, fun p => ?_, fun p => ?_, fun p => ?_⟩, hr.rooted, hr.document, ?_, ?_,
    fun y hy => ?_, hr.inner⟩
  · show _ ↔ update h.dom.parent x none y = some p
    by_cases hyx : y = x
    · rw [hyx, update_self]
      exact iff_of_false (fun hmem => hout p x hmem rfl) (by simp)
    · rw [update_of_ne hyx, ← hr.represents.parent_iff]
  · show update h.dom.firstChild x none p = _
    by_cases hpx : p = x
    · rw [hpx, update_self, hnil]
      rfl
    · rw [update_of_ne hpx, hr.represents.first]
  · show update h.dom.lastChild x none p = _
    by_cases hpx : p = x
    · rw [hpx, update_self, hnil]
      rfl
    · rw [update_of_ne hpx, hr.represents.last]
  · exact (hr.represents.linked p).congr (fun y hy => update_of_ne (hout p y hy) ..)
      fun y hy => update_of_ne (hout p y hy) ..
  · intro y
    rw [Heap.newNode, Finset.mem_insert, hr.live, Set.mem_insert_iff]
  · intro p y hy
    exact ⟨Set.mem_insert_of_mem x (hr.tidy p y hy).1, Set.mem_insert_of_mem x (hr.tidy p y hy).2⟩
  · show update h.dom.memPool x (some pool) y = none ↔ _
    by_cases hyx : y = x
    · subst hyx
      rw [update_self]
      exact iff_of_false (Option.some_ne_none pool) hinner
    · rw [update_of_ne hyx]
      exact hr.pooled y (hy.resolve_left hyx)

end Heap

/-! ## Runs -/

/-- The memory, if all the calls returned, beside the lists. -/
structure Edited (α : Type*) where
  heap : Option (Heap α)
  lists : NodeLists α

namespace Edited

variable [Fintype α]

noncomputable def step (s : Edited α) (e : Edit α) : Edited α where
  heap := s.heap.bind (·.apply e)
  lists := s.lists.apply e

/-- All the calls returned, and the memory is that of the lists. -/
def Refined (s : Edited α) : Prop := ∃ h, s.heap = some h ∧ h.Refines s.lists

variable {h : Heap α} {t : NodeLists α} {this addThis afterThis : α}

omit [Fintype α] in
/-- `InsertEndChild` and `InsertFirstChild`. -/
theorem refined_insertChild_iff (hr : h.Refines t) (hthis : this ∈ t.live) (hadd : addThis ∈ t.live)
    {link : Dom α → Dom α} {nodes : List α} {children' : α → List α}
    (hlive : ∀ y ∈ nodes, y ∈ t.live)
    (hrep : (h.dom.inserted link this addThis).Represents children')
    (hlink : ∀ d : Dom α, (link d).document = d.document ∧ (link d).memPool = d.memPool) :
    (∃ h', h.touching nodes ((h.dom.insertChild link this addThis).map Prod.fst) = some h' ∧
        h'.Refines (if t.document addThis = t.document this then { t with children := children' }
          else t)) ↔
      (t.document addThis = t.document this →
        t.document addThis ≠ addThis ∧ this ∉ t.subtree addThis) := by
  have hadopt := hr.adoptable_iff hadd
  rw [hr.touching_eq hlive]
  by_cases hdoc : t.document addThis = t.document this
  · have hdoc' : h.dom.document addThis = h.dom.document this := by rw [hr.document, hdoc]
    rw [if_pos hdoc]
    by_cases hinner : t.document addThis = addThis
    · -- the document has no pool, on which `SetTracked` is called
      rw [insertChild_eq_none link hdoc' (mt hadopt.mp (not_not_intro hinner))]
      refine iff_of_false ?_ fun h => (h hdoc).1 hinner
      rintro ⟨h', heq, -⟩
      cases heq
    · rw [insertChild_eq link hdoc' (hadopt.mpr hinner)]
      simp only [Option.map_some, Option.some.injEq, exists_eq_left']
      rw [hr.insert_iff hthis hadd hinner hrep (h.dom.inserted_frame hlink)]
      exact ⟨fun h _ => ⟨hinner, h⟩, fun h => (h hdoc).2⟩
  · have hdoc' : h.dom.document addThis ≠ h.dom.document this := by rwa [hr.document]
    rw [if_neg hdoc, insertChild, if_pos hdoc']
    exact iff_of_true ⟨h, rfl, hr⟩ fun h => absurd h hdoc

theorem refined_insertAfterChild_iff (hr : h.Refines t) (hthis : this ∈ t.live)
    (hafter : afterThis ∈ t.live) (hadd : addThis ∈ t.live) :
    (∃ h', h.apply (.insertAfterChild this afterThis addThis) = some h' ∧
        h'.Refines (t.apply (.insertAfterChild this afterThis addThis))) ↔
      t.Sound (.insertAfterChild this afterThis addThis) := by
  have hlive := hr.represents.insertAfterNodes_live hr.tidy hthis hadd hafter
  have hmem := hr.represents.parent_iff this afterThis
  have hadopt := hr.adoptable_iff hadd
  rw [Heap.apply, hr.touching_eq hlive, NodeLists.apply, NodeLists.Sound, Option.map_map]
  by_cases hdoc : t.document addThis = t.document this
  · have hdoc' : h.dom.document addThis = h.dom.document this := by rw [hr.document, hdoc]
    by_cases hchild : afterThis ∈ t.children this
    · rw [if_pos ⟨hdoc, hchild⟩]
      by_cases hinner : t.document addThis = addThis
      · rw [insertAfterChild_eq_none hdoc' (hmem.mp hchild) (mt hadopt.mp (not_not_intro hinner))]
        refine iff_of_false ?_ fun h => (h hdoc hchild).1 hinner
        rintro ⟨h', heq, -⟩
        cases heq
      have hinsert := hr.represents.insertAfterChild hdoc' (hadopt.mpr hinner) (hmem.mp hchild)
      have hframe {r : Dom α × Option α}
          (hr₁ : h.dom.insertAfterChild this afterThis addThis = some r) :=
        insertAfterChild_frame hdoc' (hadopt.mpr hinner) (hmem.mp hchild) hr₁
      constructor
      · rintro ⟨h', heq, hr'⟩ - -
        obtain ⟨r, hr₁, rfl⟩ := Option.map_eq_some_iff.mp heq
        refine ⟨hinner, ?_, hinsert.mp ⟨r, hr₁, hr'.represents⟩⟩
        exact (hr.insert_iff hthis hadd hinner hr'.represents (hframe hr₁)).mp hr'
      · intro hsound
        obtain ⟨-, hnot, hplaced⟩ := hsound hdoc hchild
        obtain ⟨r, hr₁, hrep⟩ := hinsert.mpr hplaced
        refine ⟨_, Option.map_eq_some_iff.mpr ⟨r, hr₁, rfl⟩, ?_⟩
        exact (hr.insert_iff hthis hadd hinner hrep (hframe hr₁)).mpr hnot
    · rw [if_neg fun h => hchild h.2, insertAfterChild, if_neg (not_not_intro hdoc'),
        if_pos (mt hmem.mpr hchild)]
      exact iff_of_true ⟨h, rfl, hr⟩ fun _ h => absurd h hchild
  · have hdoc' : h.dom.document addThis ≠ h.dom.document this := by rwa [hr.document]
    rw [if_neg fun h => hdoc h.1, insertAfterChild, if_pos hdoc']
    exact iff_of_true ⟨h, rfl, hr⟩ fun h => absurd h hdoc

omit [DecidableEq α] in
/-- There is fuel for the nodes below another. -/
theorem ncard_subtree_lt (t : NodeLists α) (x : α) :
    (t.subtree x \ {x}).ncard < Fintype.card α := by
  rw [← Nat.card_eq_fintype_card, ← Set.ncard_univ]
  refine Set.ncard_lt_ncard ((Set.ssubset_iff_of_subset (Set.subset_univ _)).mpr ?_)
  exact ⟨x, Set.mem_univ x, fun hmem => hmem.2 rfl⟩

theorem refined_apply_iff (hr : h.Refines t) {e : Edit α} (hmeant : t.Meant e) :
    (∃ h', h.apply e = some h' ∧ h'.Refines (t.apply e)) ↔ t.Sound e := by
  cases e with
  | newNode x pool => exact iff_of_true ⟨_, rfl, hr.newNode hmeant.1 hmeant.2 pool⟩ trivial
  | insertEndChild this addThis =>
    exact refined_insertChild_iff hr hmeant.1 hmeant.2
      (hr.represents.insertEndNodes_live hr.tidy hmeant.1 hmeant.2) hr.represents.linkLast
      linkLast_frame
  | insertFirstChild this addThis =>
    exact refined_insertChild_iff hr hmeant.1 hmeant.2
      (hr.represents.insertFirstNodes_live hr.tidy hmeant.1 hmeant.2) hr.represents.linkFirst
      linkFirst_frame
  | insertAfterChild this afterThis addThis =>
    exact refined_insertAfterChild_iff hr hmeant.1 hmeant.2.1 hmeant.2.2
  | deleteChildren this =>
    exact iff_of_true (hr.deleteChildren hmeant (ncard_subtree_lt t this)) trivial
  | deleteChild this node =>
    have hnode : node ∈ t.live := (hr.tidy this node hmeant).2
    have hchildren := hr.deleteChildren hnode (ncard_subtree_lt t node)
    exact iff_of_true (hr.deleteNode hnode (hr.inner this node hmeant) hchildren) trivial

/-- **The pointers are those of the lists all along a run exactly if no call inserts a document,
puts a node below itself or is misplaced.** -/
theorem always_refined_iff {s : Edited α} {es : List (Edit α)} (hs : s.Refined)
    (hmeant : Guarded step (fun s e => s.lists.Meant e) s es) :
    Always step Refined s es ↔ Guarded step (fun s e => s.lists.Sound e) s es := by
  refine hmeant.always_iff (fun _ => True) (fun _ _ _ _ => trivial) ?_ trivial hs
  rintro s e - hmeant ⟨h, heq, hr⟩
  rw [Refined, step, heq, Option.bind_some]
  exact refined_apply_iff hr hmeant

/-- Nodes without any links. -/
def unlinked (document : α → α) (live : Finset α) : Edited α where
  heap := some ⟨⟨document, fun _ => none, fun _ => none, fun _ => none, fun _ => none,
    fun _ => none, fun x => if document x = x then none else some .element⟩, live⟩
  lists := ⟨document, fun _ => [], live⟩

omit [Fintype α] in
theorem refined_unlinked (document : α → α) (live : Finset α) :
    (unlinked document live).Refined := by
  refine ⟨_, rfl, ⟨fun p x => ?_, fun _ => rfl, fun _ => rfl, fun _ => ?_⟩, ?_, rfl,
    fun _ => Iff.rfl, fun p x hx => absurd hx List.not_mem_nil, fun x _ => ?_,
    fun p x hx => absurd hx List.not_mem_nil⟩
  · exact iff_of_false List.not_mem_nil (Option.some_ne_none p).symm
  · exact DoublyLinked.nil
  · exact ⟨fun x => Acc.intro x fun p hx => absurd hx List.not_mem_nil⟩
  · show (if document x = x then none else some MemPool.element) = none ↔ document x = x
    simp

theorem always_refined_of_three :
    Always step Refined (unlinked (fun _ : Fin 3 => 0) {0})
      [.newNode 1 .element, .newNode 2 .text, .insertEndChild 0 1, .insertAfterChild 0 1 2,
        .deleteChildren 0] := by
  refine (always_refined_iff (refined_unlinked _ _) ?_).mpr ?_
  · refine ⟨?_, ?_, ?_, ?_, ?_, trivial⟩ <;> simp [step, unlinked, NodeLists.apply, NodeLists.Meant]
    split_ifs <;> simp
  · refine ⟨trivial, trivial, fun _ => ⟨zero_ne_one, ?_⟩, fun _ _ => ⟨by decide, ?_, ?_⟩, trivial,
      trivial⟩
    · simp [step, unlinked, NodeLists.apply, NodeLists.subtree_of_nil]
    · simp [step, unlinked, NodeLists.apply, NodeLists.subtree_of_nil, withLast, without]
    · decide

end Edited

end PlutoServer.Tinyxml2
