import Mathlib.Data.List.Nodup
import UmlCatalog.Hierarchy

/-!
# Hierarchies that grow downwards

If every node is registered after its ancestors, as a root or below one node, the hierarchy keeps
its lists in order: the ancestors of a node nearest first, and the descendants and the roots as they
were registered.

## Implementation notes

A node that is new has no descendants, so an edge to it extends the list of each ancestor by the
node alone and gives the node the list of its parent behind the parent.
-/

namespace UmlCatalog
namespace Hierarchy
variable {h : Hierarchy} {id parent : ElementId} {outer : List ElementId}
  {nodes : List (ElementId × List ElementId)}

/-- Extended are exactly the stored sets of the listed nodes. -/
theorem get?_extendAll {sets : OrderedMap ElementId (OrderedSet ElementId)}
    {ids : List ElementId} (new : List ElementId) (hids : ids.Nodup) (x : ElementId) :
    (extendAll sets ids new).get? x =
      (sets.get? x).map fun s => if x ∈ ids then s.insertMany new else s := by
  induction ids generalizing sets with
  | nil => simp [extendAll]
  | cons a ids ih =>
      obtain ⟨ha, hids⟩ := List.nodup_cons.mp hids
      show (extendAll (sets.modify a fun s => s.insertMany new) ids new).get? x = _
      rw [ih hids, OrderedMap.get?_modify]
      by_cases hx : x = a
      · subst hx
        rw [if_pos rfl, Option.map_map]
        simp only [ha, if_false, List.mem_cons_self, if_true]
        rfl
      · simp [hx]

/-- Nodes in the order in which they were registered, each with the ancestors that it was placed
under, nearest first. -/
structure IsForest (h : Hierarchy) (nodes : List (ElementId × List ElementId)) : Prop where
  keys_parents : h.parents.keys = nodes.map Prod.fst
  keys_children : h.children.keys = h.parents.keys
  parentsOf : ∀ p ∈ nodes, (h.parentsOf p.1).toList = p.2
  childrenOf : ∀ x, (h.childrenOf x).toList = (nodes.filter fun p => x ∈ p.2).map Prod.fst
  roots : h.roots.toList = (nodes.filter fun p => p.2 = []).map Prod.fst
  /-- Ancestors are registered. -/
  closed : ∀ p ∈ nodes, ∀ x ∈ p.2, x ∈ nodes.map Prod.fst
  irreflexive : ∀ p ∈ nodes, p.1 ∉ p.2

theorem isForest_empty : IsForest ∅ [] :=
  ⟨rfl, rfl, nofun, fun _ => rfl, rfl, nofun, nofun⟩

/-- A new node is a root without descendants. -/
theorem insert_of_not_contains (h : Hierarchy) (hnew : id ∉ h.parents.keys) :
    h.insert id = ⟨h.roots.insert id, h.parents.insert id ∅, h.children.insert id ∅⟩ := by
  rw [insert, if_neg fun hc => hnew (contains_iff.mp hc)]

namespace IsForest

theorem not_mem_roots (hh : h.IsForest nodes) (hnew : id ∉ h.parents.keys) :
    id ∉ h.roots.toList := by
  intro hid
  rw [hh.roots] at hid
  obtain ⟨p, hp, rfl⟩ := List.mem_map.mp hid
  exact hnew (hh.keys_parents ▸ List.mem_map_of_mem ((List.mem_filter.mp hp).1))

/-- A node and its ancestors are all different. -/
theorem nodup_cons (hh : h.IsForest nodes) (hp : (parent, outer) ∈ nodes) :
    (parent :: outer).Nodup := by
  have houter : (h.parentsOf parent).toList = outer := hh.parentsOf _ hp
  exact List.nodup_cons.mpr ⟨hh.irreflexive _ hp, houter ▸ (h.parentsOf parent).nodup⟩

/-- Registering a new root. -/
theorem insert (hh : h.IsForest nodes) (hnew : id ∉ h.parents.keys) :
    (h.insert id).IsForest (nodes ++ [(id, [])]) where
  keys_parents := by
    rw [insert_of_not_contains h hnew, OrderedMap.keys_insert, if_neg hnew, hh.keys_parents,
      List.map_append]
    rfl
  keys_children := keys_children_insert hh.keys_children id
  parentsOf p hp := by
    rw [parentsOf_insert]
    rcases List.mem_append.mp hp with hp | hp
    · exact hh.parentsOf p hp
    · obtain rfl := List.mem_singleton.mp hp
      rw [Hierarchy.parentsOf, OrderedMap.get?_eq_none_iff.mpr hnew]
      rfl
  childrenOf x := by
    rw [childrenOf_insert hh.keys_children, hh.childrenOf, List.filter_append, List.map_append]
    simp
  roots := by
    rw [insert_of_not_contains h hnew]
    show (h.roots.insert id).toList = _
    rw [OrderedSet.toList_insert_of_not_mem (hh.not_mem_roots hnew), hh.roots, List.filter_append,
      List.map_append]
    rfl
  closed p hp x hx := by
    rw [List.map_append]
    rcases List.mem_append.mp hp with hp | hp
    · exact List.mem_append_left _ (hh.closed p hp x hx)
    · obtain rfl := List.mem_singleton.mp hp
      cases hx
  irreflexive p hp := by
    rcases List.mem_append.mp hp with hp | hp
    · exact hh.irreflexive p hp
    · obtain rfl := List.mem_singleton.mp hp
      exact List.not_mem_nil

/-- What an edge from a registered node to a new one makes. -/
theorem link_eq (hh : h.IsForest nodes) (hp : (parent, outer) ∈ nodes)
    (hnew : id ∉ h.parents.keys) :
    h.link parent id =
      { roots := (h.roots.insert id).erase id
        parents := extendAll (h.parents.insert id ∅) [id] (parent :: outer)
        children := extendAll (h.children.insert id ∅) (parent :: outer) [id] } := by
  have hregistered : h.contains parent = true :=
    contains_iff.mpr (hh.keys_parents ▸ List.mem_map_of_mem hp)
  have hdescendants : (((∅ : OrderedSet ElementId).insert id).insertMany
      ((h.insert id).childrenOf id).toList).toList = [id] := by
    have hnone : id ∉ h.children.keys := hh.keys_children ▸ hnew
    rw [childrenOf_insert hh.keys_children, Hierarchy.childrenOf,
      OrderedMap.get?_eq_none_iff.mpr hnone]
    rfl
  have hancestors : (((∅ : OrderedSet ElementId).insert parent).insertMany
      ((h.insert id).parentsOf parent).toList).toList = parent :: outer := by
    rw [parentsOf_insert, hh.parentsOf _ hp]
    exact OrderedSet.toList_insertMany_of_nodup (hh.nodup_cons hp)
  rw [link, insert_of_contains hregistered, join]
  simp only [hdescendants, hancestors]
  rw [insert_of_not_contains h hnew]

/-- The new node has its parent and what is above that, and nothing else is above other nodes. -/
theorem toList_parentsOf_link (hh : h.IsForest nodes) (hp : (parent, outer) ∈ nodes)
    (hnew : id ∉ h.parents.keys) (x : ElementId) :
    ((h.link parent id).parentsOf x).toList =
      if x = id then parent :: outer else (h.parentsOf x).toList := by
  rw [hh.link_eq hp hnew, Hierarchy.parentsOf, get?_extendAll _ (List.nodup_singleton id)]
  by_cases hx : x = id
  · subst hx
    rw [OrderedMap.get?_insert_self, Option.map_some, if_pos (List.mem_singleton_self x),
      if_pos rfl]
    exact OrderedSet.toList_insertMany_of_nodup (hh.nodup_cons hp)
  · have hout : x ∉ [id] := fun hm => hx (List.mem_singleton.mp hm)
    simp only [OrderedMap.get?_insert_of_ne _ _ hx, if_neg hout, if_neg hx, Option.map_id',
      Hierarchy.parentsOf]

/-- The new node goes behind the other descendants of its ancestors. -/
theorem toList_childrenOf_link (hh : h.IsForest nodes) (hp : (parent, outer) ∈ nodes)
    (hnew : id ∉ h.parents.keys) (x : ElementId) :
    ((h.link parent id).childrenOf x).toList =
      (h.childrenOf x).toList ++ if x ∈ parent :: outer then [id] else [] := by
  have hkeys : ∀ y ∈ parent :: outer, y ∈ h.parents.keys := by
    intro y hy
    rw [hh.keys_parents]
    rcases List.mem_cons.mp hy with rfl | hy
    · exact List.mem_map_of_mem hp
    · exact hh.closed _ hp y hy
  rw [hh.link_eq hp hnew, Hierarchy.childrenOf, get?_extendAll _ (hh.nodup_cons hp)]
  by_cases hx : x ∈ parent :: outer
  · have hne : x ≠ id := fun he => hnew (he ▸ hkeys x hx)
    obtain ⟨s, hs⟩ := Option.isSome_iff_exists.mp
      (OrderedMap.get?_isSome_iff.mpr (hh.keys_children ▸ hkeys x hx))
    have hfresh : (s.toList ++ [id]).Nodup := by
      refine List.nodup_append.mpr ⟨s.nodup, List.nodup_singleton id, ?_⟩
      rintro y hy _ hid rfl
      obtain rfl := List.mem_singleton.mp hid
      have hbelow : y ∈ (h.childrenOf x).toList := by
        rw [Hierarchy.childrenOf, hs]
        exact hy
      rw [hh.childrenOf] at hbelow
      obtain ⟨p, hp', rfl⟩ := List.mem_map.mp hbelow
      exact hnew (hh.keys_parents ▸ List.mem_map_of_mem (List.mem_filter.mp hp').1)
    rw [OrderedMap.get?_insert_of_ne _ _ hne, Hierarchy.childrenOf, hs, Option.map_some,
      if_pos hx, if_pos hx]
    exact OrderedSet.toList_insertMany_of_nodup hfresh
  · simp only [if_neg hx, Option.map_id', List.append_nil]
    by_cases he : x = id
    · have hnone : x ∉ h.children.keys := he ▸ hh.keys_children ▸ hnew
      rw [he, OrderedMap.get?_insert_self, ← he, Hierarchy.childrenOf,
        OrderedMap.get?_eq_none_iff.mpr hnone]
      rfl
    · rw [OrderedMap.get?_insert_of_ne _ _ he, Hierarchy.childrenOf]

/-- Placing a new node below a registered one. -/
theorem link (hh : h.IsForest nodes) (hp : (parent, outer) ∈ nodes)
    (hnew : id ∉ h.parents.keys) :
    (h.link parent id).IsForest (nodes ++ [(id, parent :: outer)]) where
  keys_parents := by
    rw [hh.link_eq hp hnew, keys_extendAll, OrderedMap.keys_insert, if_neg hnew, hh.keys_parents,
      List.map_append]
    rfl
  keys_children := by
    rw [hh.link_eq hp hnew, keys_extendAll, keys_extendAll, OrderedMap.keys_insert,
      OrderedMap.keys_insert, hh.keys_children]
  parentsOf p hp' := by
    rw [hh.toList_parentsOf_link hp hnew]
    rcases List.mem_append.mp hp' with hp' | hp'
    · have hne : p.1 ≠ id := fun he =>
        hnew (he ▸ hh.keys_parents ▸ List.mem_map_of_mem hp')
      rw [if_neg hne, hh.parentsOf p hp']
    · obtain rfl := List.mem_singleton.mp hp'
      exact if_pos rfl
  childrenOf x := by
    rw [hh.toList_childrenOf_link hp hnew, hh.childrenOf, List.filter_append, List.map_append]
    by_cases hx : x ∈ parent :: outer
    · simp only [if_pos hx, List.filter_cons, decide_eq_true hx, if_true, List.filter_nil,
        List.map_cons, List.map_nil]
    · simp only [if_neg hx, List.filter_cons, decide_eq_false hx, Bool.false_eq_true, if_false,
        List.filter_nil, List.map_nil]
  roots := by
    have hroots := hh.not_mem_roots hnew
    rw [hh.link_eq hp hnew]
    show (h.roots.insert id).toList.erase id = _
    rw [OrderedSet.toList_insert_of_not_mem hroots, List.erase_append_right _ hroots,
      List.erase_cons_head, List.append_nil, hh.roots, List.filter_append, List.map_append]
    exact (List.append_nil _).symm
  closed p hp' x hx := by
    rw [List.map_append]
    apply List.mem_append_left
    rcases List.mem_append.mp hp' with hp' | hp'
    · exact hh.closed p hp' x hx
    · obtain rfl := List.mem_singleton.mp hp'
      rcases List.mem_cons.mp hx with rfl | hx
      · exact List.mem_map_of_mem hp
      · exact hh.closed _ hp x hx
  irreflexive p hp' := by
    rcases List.mem_append.mp hp' with hp' | hp'
    · exact hh.irreflexive p hp'
    · obtain rfl := List.mem_singleton.mp hp'
      intro hid
      rcases List.mem_cons.mp hid with he | hid
      · obtain rfl : id = parent := he
        exact hnew (hh.keys_parents ▸ List.mem_map_of_mem hp)
      · exact hnew (hh.keys_parents ▸ hh.closed _ hp id hid)

/-- An edge from a registered node to a new one is accepted, and places it there. -/
theorem of_add_eq_ok {h' : Hierarchy} (hh : h.IsForest nodes) (hp : (parent, outer) ∈ nodes)
    (hnew : id ∉ h.parents.keys) (hadd : h.add parent id = .ok h') :
    h'.IsForest (nodes ++ [(id, parent :: outer)]) := by
  rcases h.add_cases parent id with ⟨ha, _⟩ | ⟨_, he⟩ | ⟨_, _, _, he⟩
  · have hnone : h.parents.get? id = none := OrderedMap.get?_eq_none_iff.mpr hnew
    rw [isAncestor_iff, Hierarchy.parentsOf, hnone] at ha
    exact absurd ha OrderedSet.not_mem_empty
  · cases he.symm.trans hadd
  · obtain rfl := Except.ok.inj (he.symm.trans hadd)
    exact hh.link hp hnew

end IsForest

end Hierarchy
end UmlCatalog
