import UmlCatalog.ModelError
import UmlCatalog.OrderedMap
import UmlCatalog.OrderedSet

/-!
# Transitively closed hierarchies

A parent/child relation that keeps, for every registered node, all of its ancestors and all
of its descendants. Adding an edge joins the ancestors of its parent with the descendants of
its child, so the closure is never recomputed. An edge that would close a cycle is refused.

## Implementation notes

A hierarchy read from a document is taken as written, so the type does not promise that the
three parts agree; that holds of every hierarchy built from the empty one by `insert` and
`add`.
-/

namespace UmlCatalog

/-- A transitively closed parent/child relation. -/
structure Hierarchy where
  /-- The nodes that are nobody's child. -/
  roots : OrderedSet ElementId
  /-- All ancestors of each node. -/
  parents : OrderedMap ElementId (OrderedSet ElementId)
  /-- All descendants of each node. -/
  children : OrderedMap ElementId (OrderedSet ElementId)
  deriving DecidableEq

namespace Hierarchy

/-- The hierarchy without nodes. -/
def empty : Hierarchy := ⟨∅, ∅, ∅⟩

instance : EmptyCollection Hierarchy := ⟨empty⟩

instance : Inhabited Hierarchy := ⟨empty⟩

/-- All ancestors of a node; none if it is not registered. -/
def parentsOf (h : Hierarchy) (id : ElementId) : OrderedSet ElementId :=
  (h.parents.get? id).getD ∅

/-- All descendants of a node; none if it is not registered. -/
def childrenOf (h : Hierarchy) (id : ElementId) : OrderedSet ElementId :=
  (h.children.get? id).getD ∅

/-- Whether `ancestor` lies above `id`. -/
def isAncestor (h : Hierarchy) (ancestor id : ElementId) : Bool :=
  (h.parentsOf id).contains ancestor

/-- Whether a node is registered. -/
def contains (h : Hierarchy) (id : ElementId) : Bool := h.parents.contains id

/-- The number of registered nodes. -/
def size (h : Hierarchy) : Nat := h.parents.size

/-- Whether no node is registered. -/
def isEmpty (h : Hierarchy) : Bool := h.parents.isEmpty

theorem isAncestor_iff {h : Hierarchy} {ancestor id : ElementId} :
    h.isAncestor ancestor id = true ↔ ancestor ∈ h.parentsOf id :=
  OrderedSet.contains_iff

theorem contains_iff {h : Hierarchy} {id : ElementId} :
    h.contains id = true ↔ id ∈ h.parents.keys :=
  OrderedMap.contains_iff

/-- Register a node without an edge. A node not seen before becomes a root; a known one is
left as it is. -/
def insert (h : Hierarchy) (id : ElementId) : Hierarchy :=
  if h.contains id then h
  else
    { roots := h.roots.insert id
      parents := h.parents.insert id ∅
      children := h.children.insert id ∅ }

theorem insert_of_contains {h : Hierarchy} {id : ElementId} (hc : h.contains id = true) :
    h.insert id = h := by
  simp [insert, hc]

/-- Registering a node leaves all ancestors as they are. -/
theorem parentsOf_insert (h : Hierarchy) (id x : ElementId) :
    (h.insert id).parentsOf x = h.parentsOf x := by
  by_cases hc : h.contains id = true
  · rw [insert_of_contains hc]
  · by_cases hx : x = id
    · subst hx
      have hnone : h.parents.get? x = none :=
        OrderedMap.get?_eq_none_iff.mpr fun hk => hc (Hierarchy.contains_iff.mpr hk)
      simp [insert, hc, parentsOf, hnone]
    · simp [insert, hc, parentsOf, OrderedMap.get?_insert_of_ne _ _ hx]

/-- Registering a node leaves all descendants as they are. -/
theorem childrenOf_insert {h : Hierarchy} (hk : h.children.keys = h.parents.keys)
    (id x : ElementId) : (h.insert id).childrenOf x = h.childrenOf x := by
  by_cases hc : h.contains id = true
  · rw [insert_of_contains hc]
  · by_cases hx : x = id
    · subst hx
      have hnone : h.children.get? x = none :=
        OrderedMap.get?_eq_none_iff.mpr fun hm => hc (Hierarchy.contains_iff.mpr (hk ▸ hm))
      simp [insert, hc, childrenOf, hnone]
    · simp [insert, hc, childrenOf, OrderedMap.get?_insert_of_ne _ _ hx]

theorem keys_children_insert {h : Hierarchy} (hk : h.children.keys = h.parents.keys)
    (id : ElementId) : (h.insert id).children.keys = (h.insert id).parents.keys := by
  unfold insert
  split
  · exact hk
  · rw [OrderedMap.keys_insert, OrderedMap.keys_insert, hk]

theorem contains_insert_iff {h : Hierarchy} {id x : ElementId} :
    (h.insert id).contains x = true ↔ h.contains x = true ∨ x = id := by
  by_cases hc : h.contains id = true
  · rw [insert_of_contains hc]
    constructor
    · exact Or.inl
    · rintro (hx | rfl)
      · exact hx
      · exact hc
  · rw [Hierarchy.contains_iff, Hierarchy.contains_iff]
    simp only [insert, hc, if_false, Bool.false_eq_true]
    exact OrderedMap.mem_keys_insert

/-- A node becomes a root when it is registered, and only then. -/
theorem mem_roots_insert_iff {h : Hierarchy} {id x : ElementId} :
    x ∈ (h.insert id).roots ↔ x ∈ h.roots ∨ x = id ∧ h.contains id = false := by
  unfold insert
  split
  · rename_i hc
    simp [hc]
  · rename_i hc
    rw [OrderedSet.mem_insert]
    simp [hc]

/-- Extend the stored sets of several nodes by the same members. -/
def extendAll (m : OrderedMap ElementId (OrderedSet ElementId)) (nodes new : List ElementId) :
    OrderedMap ElementId (OrderedSet ElementId) :=
  nodes.foldl (fun m a => m.modify a fun s => s.insertMany new) m

@[simp] theorem keys_extendAll (m : OrderedMap ElementId (OrderedSet ElementId))
    (nodes new : List ElementId) : (extendAll m nodes new).keys = m.keys := by
  induction nodes generalizing m with
  | nil => rfl
  | cons a nodes ih =>
      show (extendAll (m.modify a fun s => s.insertMany new) nodes new).keys = m.keys
      rw [ih, OrderedMap.keys_modify]

/-- A stored set takes in the new members exactly if its node is one of the listed ones. -/
theorem mem_get?_extendAll {m : OrderedMap ElementId (OrderedSet ElementId)}
    {nodes new : List ElementId} {x y : ElementId} :
    y ∈ ((extendAll m nodes new).get? x).getD ∅ ↔
      y ∈ (m.get? x).getD ∅ ∨ x ∈ m.keys ∧ x ∈ nodes ∧ y ∈ new := by
  induction nodes generalizing m with
  | nil => simp [extendAll]
  | cons a nodes ih =>
      show y ∈ ((extendAll (m.modify a fun s => s.insertMany new) nodes new).get? x).getD ∅ ↔ _
      rw [ih, OrderedMap.keys_modify, OrderedMap.get?_modify]
      by_cases hx : x = a
      · subst hx
        cases hg : m.get? x with
        | none =>
            have hk : x ∉ m.keys := OrderedMap.get?_eq_none_iff.mp hg
            simp [hk]
        | some s =>
            have hk : x ∈ m.keys := OrderedMap.mem_keys_of_get? hg
            simp only [if_true, Option.map_some, Option.getD_some, OrderedSet.mem_insertMany,
              List.mem_cons, true_or, true_and, hk]
            constructor
            · rintro ((hy | hy) | ⟨_, hy⟩)
              · exact Or.inl hy
              · exact Or.inr hy
              · exact Or.inr hy
            · rintro (hy | hy)
              · exact Or.inl (Or.inl hy)
              · exact Or.inl (Or.inr hy)
      · simp [hx]

/-- Join everything above `parent` with everything below `child`, both of them included;
`child` is no longer a root. -/
def join (h : Hierarchy) (parent child : ElementId) : Hierarchy :=
  let descendants := ((∅ : OrderedSet ElementId).insert child).insertMany
    (h.childrenOf child).toList
  let ancestors := ((∅ : OrderedSet ElementId).insert parent).insertMany
    (h.parentsOf parent).toList
  { roots := h.roots.erase child
    parents := extendAll h.parents descendants.toList ancestors.toList
    children := extendAll h.children ancestors.toList descendants.toList }

@[simp] theorem keys_parents_join (h : Hierarchy) (parent child : ElementId) :
    (h.join parent child).parents.keys = h.parents.keys :=
  keys_extendAll _ _ _

@[simp] theorem keys_children_join (h : Hierarchy) (parent child : ElementId) :
    (h.join parent child).children.keys = h.children.keys :=
  keys_extendAll _ _ _

/-- Whatever is at or below `child` gains what is at or above `parent`. -/
theorem mem_parentsOf_join {h : Hierarchy} {parent child x y : ElementId} :
    y ∈ (h.join parent child).parentsOf x ↔
      y ∈ h.parentsOf x ∨ x ∈ h.parents.keys ∧
        (x = child ∨ x ∈ h.childrenOf child) ∧ (y = parent ∨ y ∈ h.parentsOf parent) := by
  simp only [parentsOf, join, mem_get?_extendAll, OrderedSet.mem_toList, OrderedSet.mem_insertMany,
    OrderedSet.mem_insert, OrderedSet.not_mem_empty, false_or]

/-- Whatever is at or above `parent` gains what is at or below `child`. -/
theorem mem_childrenOf_join {h : Hierarchy} {parent child x y : ElementId} :
    y ∈ (h.join parent child).childrenOf x ↔
      y ∈ h.childrenOf x ∨ x ∈ h.children.keys ∧
        (x = parent ∨ x ∈ h.parentsOf parent) ∧ (y = child ∨ y ∈ h.childrenOf child) := by
  simp only [childrenOf, join, mem_get?_extendAll, OrderedSet.mem_toList,
    OrderedSet.mem_insertMany, OrderedSet.mem_insert, OrderedSet.not_mem_empty, false_or]

@[simp] theorem contains_join (h : Hierarchy) (parent child x : ElementId) :
    (h.join parent child).contains x = h.contains x := by
  simp [contains, OrderedMap.contains]

theorem mem_roots_join {h : Hierarchy} {parent child x : ElementId} :
    x ∈ (h.join parent child).roots ↔ x ≠ child ∧ x ∈ h.roots :=
  OrderedSet.mem_erase

/-- Register both ends of an edge, then join them. -/
def link (h : Hierarchy) (parent child : ElementId) : Hierarchy :=
  ((h.insert parent).insert child).join parent child

/-- Record the edge from `parent` to `child`. An edge that is already implied changes
nothing; an edge from a node to itself or to one of its ancestors is refused. -/
def add (h : Hierarchy) (parent child : ElementId) : Except ModelError Hierarchy :=
  if h.isAncestor parent child then .ok h
  else if parent = child ∨ h.isAncestor child parent = true then
    .error (.hierarchyCycle parent child)
  else .ok (h.link parent child)

/-- An implied edge changes nothing. -/
theorem add_of_isAncestor {h : Hierarchy} {parent child : ElementId}
    (ha : h.isAncestor parent child = true) : h.add parent child = .ok h := by
  simp [add, ha]

/-- The three outcomes of recording an edge. -/
theorem add_cases (h : Hierarchy) (parent child : ElementId) :
    (h.isAncestor parent child = true ∧ h.add parent child = .ok h) ∨
    ((parent = child ∨ h.isAncestor child parent = true) ∧
      h.add parent child = .error (.hierarchyCycle parent child)) ∨
    (h.isAncestor parent child = false ∧ parent ≠ child ∧ h.isAncestor child parent = false ∧
      h.add parent child = .ok (h.link parent child)) := by
  cases ha : h.isAncestor parent child with
  | true => exact Or.inl ⟨rfl, add_of_isAncestor ha⟩
  | false =>
      by_cases hc : parent = child ∨ h.isAncestor child parent = true
      · exact Or.inr (Or.inl ⟨hc, by simp [add, ha, hc]⟩)
      · have hc' := not_or.mp hc
        exact Or.inr (Or.inr ⟨rfl, hc'.1, Bool.not_eq_true _ ▸ hc'.2, by simp [add, ha, hc]⟩)

end Hierarchy
end UmlCatalog
