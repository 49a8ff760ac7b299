import Mathlib.Logic.Relation
import UmlCatalog.Hierarchy

/-!
# Hierarchies are transitive closures

What a hierarchy stores is compared with paths over the edges that it was given. One edge is
recorded at a time, so the closure after an edge is described by the closure before it: a path
either avoids the new edge, or runs down to its parent and on from its child.

## Implementation notes

The two stored maps hold the same relation read in both directions. An edge is recorded from
sets taken before the update, and the update reaches only registered nodes. Both facts are part
of `IsClosure`, because neither map can be described without the other.
-/

namespace UmlCatalog
open Relation

namespace Hierarchy

variable {h : Hierarchy} {edge : ElementId → ElementId → Prop} {single : ElementId → Prop}
variable {parent child : ElementId}

/-- The edges after one more is recorded. -/
def withEdge (edge : ElementId → ElementId → Prop) (parent child : ElementId) :
    ElementId → ElementId → Prop :=
  fun x y => edge x y ∨ x = parent ∧ y = child

/-- A path over one more edge avoids it, or passes from its parent to its child. -/
theorem transGen_withEdge_iff {x y : ElementId} :
    TransGen (withEdge edge parent child) x y ↔
      TransGen edge x y ∨ ReflTransGen edge x parent ∧ ReflTransGen edge child y := by
  have hmono : TransGen edge ≤ TransGen (withEdge edge parent child) :=
    TransGen.mono fun _ _ he => Or.inl he
  have hrefl : ReflTransGen edge ≤ ReflTransGen (withEdge edge parent child) :=
    ReflTransGen.mono fun _ _ he => Or.inl he
  constructor
  · intro path
    induction path with
    | single he =>
        rcases he with he | ⟨rfl, rfl⟩
        · exact Or.inl (.single he)
        · exact Or.inr ⟨.refl, .refl⟩
    | tail _ he ih =>
        rcases he with he | ⟨rfl, rfl⟩
        · rcases ih with hxy | ⟨hx, hy⟩
          · exact Or.inl (hxy.tail he)
          · exact Or.inr ⟨hx, hy.tail he⟩
        · rcases ih with hxy | ⟨hx, _⟩
          · exact Or.inr ⟨hxy.to_reflTransGen, .refl⟩
          · exact Or.inr ⟨hx, .refl⟩
  · rintro (hxy | ⟨hx, hy⟩)
    · exact hmono _ _ hxy
    · exact TransGen.trans_right (hrefl _ _ hx)
        (TransGen.head' (Or.inr ⟨rfl, rfl⟩) (hrefl _ _ hy))

/-- An edge that is implied already adds no path. -/
theorem transGen_withEdge_of_transGen (hpc : TransGen edge parent child) {x y : ElementId} :
    TransGen (withEdge edge parent child) x y ↔ TransGen edge x y := by
  rw [transGen_withEdge_iff]
  constructor
  · rintro (hxy | ⟨hx, hy⟩)
    · exact hxy
    · exact (TransGen.trans_right hx hpc).trans_left hy
  · exact Or.inl

/-- The ends of the edges after one more is recorded. -/
theorem withEdge_ends_iff {x : ElementId} :
    (∃ y, withEdge edge parent child x y ∨ withEdge edge parent child y x) ↔
      (∃ y, edge x y ∨ edge y x) ∨ x = parent ∨ x = child := by
  constructor
  · rintro ⟨y, (he | ⟨rfl, _⟩) | (he | ⟨_, rfl⟩)⟩
    · exact Or.inl ⟨y, Or.inl he⟩
    · exact Or.inr (Or.inl rfl)
    · exact Or.inl ⟨y, Or.inr he⟩
    · exact Or.inr (Or.inr rfl)
  · rintro (⟨y, he | he⟩ | rfl | rfl)
    · exact ⟨y, Or.inl (Or.inl he)⟩
    · exact ⟨y, Or.inr (Or.inl he)⟩
    · exact ⟨child, Or.inl (Or.inr ⟨rfl, rfl⟩)⟩
    · exact ⟨parent, Or.inr (Or.inr ⟨rfl, rfl⟩)⟩

/-- The hierarchy is the closure of the given edges, on the nodes that these join and on those
registered by themselves. -/
structure IsClosure (h : Hierarchy) (edge : ElementId → ElementId → Prop)
    (single : ElementId → Prop) : Prop where
  mem_parentsOf_iff : ∀ {x y}, y ∈ h.parentsOf x ↔ TransGen edge y x
  mem_childrenOf_iff : ∀ {x y}, y ∈ h.childrenOf x ↔ TransGen edge x y
  keys_children : h.children.keys = h.parents.keys
  contains_iff : ∀ {x}, h.contains x = true ↔ single x ∨ ∃ y, edge x y ∨ edge y x
  mem_roots_iff : ∀ {x}, x ∈ h.roots ↔ h.contains x = true ∧ ∀ y, ¬ edge y x
  acyclic : ∀ x, ¬ TransGen edge x x

/-- The hierarchy without nodes is the closure of no edges. -/
theorem isClosure_empty : IsClosure ∅ (fun _ _ => False) (fun _ => False) := by
  have hpath : ∀ x y, ¬ TransGen (fun _ _ : ElementId => False) x y := by
    intro x y path
    induction path with
    | single he => exact he
    | tail _ he _ => exact he
  have hnone : ∀ x : ElementId, ¬ x ∈ (∅ : OrderedSet ElementId) := by
    intro x
    exact OrderedSet.not_mem_empty
  exact {
    mem_parentsOf_iff := iff_of_false (hnone _) (hpath _ _)
    mem_childrenOf_iff := iff_of_false (hnone _) (hpath _ _)
    keys_children := rfl
    contains_iff := by
      intro x
      rw [Hierarchy.contains_iff]
      exact iff_of_false List.not_mem_nil (by rintro (hf | ⟨_, hf | hf⟩) <;> exact hf)
    mem_roots_iff := by
      intro x
      refine iff_of_false (hnone x) ?_
      rintro ⟨hx, _⟩
      exact List.not_mem_nil (Hierarchy.contains_iff.mp hx)
    acyclic := fun x => hpath x x }

/-- A registered node stands for itself. -/
theorem IsClosure.insert (hh : h.IsClosure edge single) (id : ElementId) :
    (h.insert id).IsClosure edge fun x => single x ∨ x = id where
  mem_parentsOf_iff := by
    intro x y
    rw [parentsOf_insert]
    exact hh.mem_parentsOf_iff
  mem_childrenOf_iff := by
    intro x y
    rw [childrenOf_insert hh.keys_children]
    exact hh.mem_childrenOf_iff
  keys_children := keys_children_insert hh.keys_children id
  contains_iff := by
    intro x
    rw [contains_insert_iff, hh.contains_iff]
    exact or_right_comm
  mem_roots_iff := by
    intro x
    rw [mem_roots_insert_iff, contains_insert_iff, hh.mem_roots_iff]
    constructor
    · rintro (⟨hc, hx⟩ | ⟨rfl, hc⟩)
      · exact ⟨Or.inl hc, hx⟩
      · -- a node that an edge enters is registered already
        refine ⟨Or.inr rfl, fun y hy => ?_⟩
        have : h.contains x = true := hh.contains_iff.mpr (Or.inr ⟨y, Or.inr hy⟩)
        rw [hc] at this
        cases this
    · rintro ⟨hc | rfl, hx⟩
      · exact Or.inl ⟨hc, hx⟩
      · cases hc : h.contains x with
        | true => exact Or.inl ⟨rfl, hx⟩
        | false => exact Or.inr ⟨rfl, rfl⟩
  acyclic := hh.acyclic

/-- The closure depends on which edges there are and not on how they are described. -/
theorem IsClosure.congr {edge' : ElementId → ElementId → Prop} (hh : h.IsClosure edge single)
    (he : ∀ x y, edge' x y ↔ edge x y) : h.IsClosure edge' single := by
  have hsame : edge' = edge := funext fun x => funext fun y => propext (he x y)
  rw [hsame]
  exact hh

/-- Only the nodes that no edge joins have to be listed as registered by themselves. -/
theorem IsClosure.of_single {single' : ElementId → Prop} (hh : h.IsClosure edge single)
    (hs : ∀ x, (single x ∨ ∃ y, edge x y ∨ edge y x) ↔ single' x ∨ ∃ y, edge x y ∨ edge y x) :
    h.IsClosure edge single' :=
  { hh with contains_iff := fun {x} => hh.contains_iff.trans (hs x) }

/-- Joining two registered nodes that do not close a cycle records the edge between them. -/
theorem IsClosure.join (hh : h.IsClosure edge single) (hp : h.contains parent = true)
    (hc : h.contains child = true) (hn : ¬ ReflTransGen edge child parent) :
    (h.join parent child).IsClosure (withEdge edge parent child) single where
  mem_parentsOf_iff := by
    intro x y
    have hx : (x = child ∨ TransGen edge child x) → x ∈ h.parents.keys := by
      rintro (rfl | hx)
      · exact Hierarchy.contains_iff.mp hc
      · obtain ⟨z, _, hz⟩ := TransGen.tail'_iff.mp hx
        exact Hierarchy.contains_iff.mp (hh.contains_iff.mpr (Or.inr ⟨z, Or.inr hz⟩))
    rw [mem_parentsOf_join, hh.mem_parentsOf_iff, hh.mem_parentsOf_iff, hh.mem_childrenOf_iff,
      transGen_withEdge_iff, reflTransGen_iff_eq_or_transGen, reflTransGen_iff_eq_or_transGen,
      eq_comm (a := parent)]
    constructor
    · rintro (hyx | ⟨_, hcx, hyp⟩)
      · exact Or.inl hyx
      · exact Or.inr ⟨hyp, hcx⟩
    · rintro (hyx | ⟨hyp, hcx⟩)
      · exact Or.inl hyx
      · exact Or.inr ⟨hx hcx, hcx, hyp⟩
  mem_childrenOf_iff := by
    intro x y
    have hx : (x = parent ∨ TransGen edge x parent) → x ∈ h.children.keys := by
      rw [hh.keys_children]
      rintro (rfl | hx)
      · exact Hierarchy.contains_iff.mp hp
      · obtain ⟨z, hz, _⟩ := TransGen.head'_iff.mp hx
        exact Hierarchy.contains_iff.mp (hh.contains_iff.mpr (Or.inr ⟨z, Or.inl hz⟩))
    rw [mem_childrenOf_join, hh.mem_childrenOf_iff, hh.mem_childrenOf_iff, hh.mem_parentsOf_iff,
      transGen_withEdge_iff, reflTransGen_iff_eq_or_transGen, reflTransGen_iff_eq_or_transGen,
      eq_comm (a := parent)]
    constructor
    · rintro (hxy | ⟨_, hxp, hcy⟩)
      · exact Or.inl hxy
      · exact Or.inr ⟨hxp, hcy⟩
    · rintro (hxy | ⟨hxp, hcy⟩)
      · exact Or.inl hxy
      · exact Or.inr ⟨hx hxp, hxp, hcy⟩
  keys_children := by
    rw [keys_children_join, keys_parents_join, hh.keys_children]
  contains_iff := by
    intro x
    rw [contains_join, withEdge_ends_iff, ← or_assoc, ← hh.contains_iff]
    constructor
    · exact Or.inl
    · rintro (hx | rfl | rfl)
      · exact hx
      · exact hp
      · exact hc
  mem_roots_iff := by
    intro x
    rw [mem_roots_join, hh.mem_roots_iff, contains_join]
    constructor
    · rintro ⟨hne, hx, hroot⟩
      refine ⟨hx, ?_⟩
      rintro y (he | ⟨_, rfl⟩)
      · exact hroot y he
      · exact hne rfl
    · rintro ⟨hx, hroot⟩
      refine ⟨?_, hx, fun y he => hroot y (Or.inl he)⟩
      rintro rfl
      exact hroot parent (Or.inr ⟨rfl, rfl⟩)
  acyclic := by
    intro x hx
    rcases transGen_withEdge_iff.mp hx with hx | ⟨hxp, hcx⟩
    · exact hh.acyclic x hx
    · exact hn (hcx.trans hxp)

/-- Recording an implied edge changes no path, no node and no root. -/
theorem IsClosure.withEdge_of_transGen (hh : h.IsClosure edge single)
    (hpc : TransGen edge parent child) : h.IsClosure (withEdge edge parent child) single where
  mem_parentsOf_iff := hh.mem_parentsOf_iff.trans (transGen_withEdge_of_transGen hpc).symm
  mem_childrenOf_iff := hh.mem_childrenOf_iff.trans (transGen_withEdge_of_transGen hpc).symm
  keys_children := hh.keys_children
  contains_iff := by
    intro x
    rw [withEdge_ends_iff, hh.contains_iff]
    constructor
    · rintro (hx | hx)
      · exact Or.inl hx
      · exact Or.inr (Or.inl hx)
    · rintro (hx | hx | rfl | rfl)
      · exact Or.inl hx
      · exact Or.inr hx
      · obtain ⟨z, hz, _⟩ := TransGen.head'_iff.mp hpc
        exact Or.inr ⟨z, Or.inl hz⟩
      · obtain ⟨z, _, hz⟩ := TransGen.tail'_iff.mp hpc
        exact Or.inr ⟨z, Or.inr hz⟩
  mem_roots_iff := by
    intro x
    rw [hh.mem_roots_iff]
    refine and_congr_right fun _ => ⟨?_, fun hx y he => hx y (Or.inl he)⟩
    rintro hx y (he | ⟨_, rfl⟩)
    · exact hx y he
    · obtain ⟨z, _, hz⟩ := TransGen.tail'_iff.mp hpc
      exact hx z hz
  acyclic := fun x hx => hh.acyclic x ((transGen_withEdge_of_transGen hpc).mp hx)

/-- Recording an edge that closes no cycle. -/
theorem IsClosure.link (hh : h.IsClosure edge single) (hn : ¬ ReflTransGen edge child parent) :
    (h.link parent child).IsClosure (withEdge edge parent child) single := by
  have hends := (hh.insert parent).insert child
  have hp : ((h.insert parent).insert child).contains parent = true :=
    contains_insert_iff.mpr (Or.inl (contains_insert_iff.mpr (Or.inr rfl)))
  have hc : ((h.insert parent).insert child).contains child = true :=
    contains_insert_iff.mpr (Or.inr rfl)
  refine (hends.join hp hc hn).of_single fun x => ?_
  rw [withEdge_ends_iff]
  constructor
  · rintro (((hx | hx) | hx) | hx)
    · exact Or.inl hx
    · exact Or.inr (Or.inr (Or.inl hx))
    · exact Or.inr (Or.inr (Or.inr hx))
    · exact Or.inr hx
  · rintro (hx | hx)
    · exact Or.inl (Or.inl (Or.inl hx))
    · exact Or.inr hx

/-- An edge is refused exactly if its parent is its child or lies below it. -/
theorem IsClosure.add_cases (hh : h.IsClosure edge single) (parent child : ElementId) :
    (ReflTransGen edge child parent ∧
      h.add parent child = .error (.hierarchyCycle parent child)) ∨
    (¬ ReflTransGen edge child parent ∧ ∃ h', h.add parent child = .ok h' ∧
      h'.IsClosure (withEdge edge parent child) single) := by
  rcases Hierarchy.add_cases h parent child with ⟨ha, he⟩ | ⟨hb, he⟩ | ⟨ha, hne, hb, he⟩
  · have hpc : TransGen edge parent child := hh.mem_parentsOf_iff.mp (isAncestor_iff.mp ha)
    refine Or.inr ⟨fun hcp => hh.acyclic parent (hpc.trans_left hcp), h, he,
      hh.withEdge_of_transGen hpc⟩
  · refine Or.inl ⟨?_, he⟩
    rcases hb with rfl | hb
    · exact .refl
    · exact (hh.mem_parentsOf_iff.mp (isAncestor_iff.mp hb)).to_reflTransGen
  · have hn : ¬ ReflTransGen edge child parent := by
      intro hcp
      rcases reflTransGen_iff_eq_or_transGen.mp hcp with rfl | hcp
      · exact hne rfl
      · rw [isAncestor_iff.mpr (hh.mem_parentsOf_iff.mpr hcp)] at hb
        cases hb
    exact Or.inr ⟨hn, _, he, hh.link hn⟩

/-- An accepted edge is one more edge of the closure. -/
theorem IsClosure.of_add_eq_ok {h' : Hierarchy} (hh : h.IsClosure edge single)
    (hadd : h.add parent child = .ok h') : h'.IsClosure (withEdge edge parent child) single := by
  rcases hh.add_cases parent child with ⟨_, he⟩ | ⟨_, h'', he, hh'⟩
  · cases he.symm.trans hadd
  · obtain rfl := Except.ok.inj (he.symm.trans hadd)
    exact hh'

/-- The hierarchy records no other edges than those of a relation. -/
def IsWithin (h : Hierarchy) (edge : ElementId → ElementId → Prop) : Prop :=
  ∃ own single, h.IsClosure own single ∧ ∀ x y, own x y → edge x y

theorem isWithin_empty (edge : ElementId → ElementId → Prop) : IsWithin ∅ edge :=
  ⟨_, _, isClosure_empty, fun _ _ he => he.elim⟩

theorem IsWithin.insert (hh : h.IsWithin edge) (id : ElementId) : (h.insert id).IsWithin edge := by
  obtain ⟨own, single, hclosure, hle⟩ := hh
  exact ⟨own, _, hclosure.insert id, hle⟩

/-- An edge of a relation without cycles is accepted by every hierarchy within the relation. -/
theorem IsWithin.add (hh : h.IsWithin edge) (hacyclic : ∀ x, ¬ TransGen edge x x)
    (he : edge parent child) : ∃ h', h.add parent child = .ok h' ∧ h'.IsWithin edge := by
  obtain ⟨own, single, hclosure, hle⟩ := hh
  rcases hclosure.add_cases parent child with ⟨hcycle, _⟩ | ⟨_, h', hadd, hclosure'⟩
  · have hback : ReflTransGen edge child parent := ReflTransGen.mono hle _ _ hcycle
    exact absurd (TransGen.head' he hback) (hacyclic parent)
  · refine ⟨h', hadd, _, single, hclosure', ?_⟩
    rintro x y (hxy | ⟨rfl, rfl⟩)
    · exact hle x y hxy
    · exact he

end Hierarchy
end UmlCatalog
