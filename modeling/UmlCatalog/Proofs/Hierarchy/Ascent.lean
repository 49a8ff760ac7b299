import Mathlib.Data.List.Pairwise
import UmlCatalog.Proofs.Hierarchy.Closure
import UmlCatalog.Proofs.Hierarchy.Forest

/-!
# Hierarchies that list ancestors upwards

If no node is placed below two others, its ancestors lie above one another, and they are listed in
this order from the nearest one upwards. This holds in whatever order the edges are recorded: an
edge to a node that has descendants already goes behind what these have listed, and nothing above
the node is listed there before.
-/

namespace UmlCatalog
open Relation

/-- Adding members leaves the old ones in front and adds some of the new ones behind them. -/
theorem OrderedSet.toList_insertMany_sublist {κ : Type} [DecidableEq κ] (s : OrderedSet κ)
    (l : List κ) : (s.insertMany l).toList.Sublist (s.toList ++ l) := by
  induction l generalizing s with
  | nil =>
      rw [insertMany_nil, List.append_nil]
  | cons k l ih =>
      have hinsert : (s.insert k).toList.Sublist (s.toList ++ [k]) := by
        unfold insert
        split
        · exact List.sublist_append_left _ _
        · exact List.Sublist.refl _
      rw [insertMany_cons, List.append_cons]
      exact (ih _).trans (hinsert.append_right l)

namespace Hierarchy
variable {h h' : Hierarchy} {edge : ElementId → ElementId → Prop} {single : ElementId → Prop}
variable {parent child : ElementId}

/-- Whatever is listed later among the ancestors of a node lies above what is listed before. -/
def Ascends (h : Hierarchy) : Prop :=
  ∀ x, (h.parentsOf x).toList.Pairwise fun a b => b ∈ h.parentsOf a

theorem ascends_empty : Ascends ∅ := fun _ => List.Pairwise.nil

theorem Ascends.insert (hh : h.Ascends) (id : ElementId) : (h.insert id).Ascends := by
  intro x
  simp only [parentsOf_insert]
  exact hh x

/-- Of two ancestors of a node one lies above the other. -/
theorem Ascends.comparable (hh : h.Ascends) {x a b : ElementId} (ha : a ∈ h.parentsOf x)
    (hb : b ∈ h.parentsOf x) (hne : a ≠ b) : b ∈ h.parentsOf a ∨ a ∈ h.parentsOf b := by
  let Compares (a b : ElementId) := b ∈ h.parentsOf a ∨ a ∈ h.parentsOf b
  have : Std.Symm Compares := ⟨fun _ _ => Or.symm⟩
  have hpairwise : (h.parentsOf x).toList.Pairwise Compares := (hh x).imp Or.inl
  exact hpairwise.forall ha hb hne

/-- Joining two nodes changes nothing for those that are neither the lower one nor below it. -/
theorem parentsOf_join_of_not {x : ElementId} (hx : ¬ (x = child ∨ x ∈ h.childrenOf child)) :
    (h.join parent child).parentsOf x = h.parentsOf x := by
  have hout : x ∉ (((∅ : OrderedSet ElementId).insert child).insertMany
      (h.childrenOf child).toList).toList := by
    rw [OrderedSet.mem_toList, OrderedSet.mem_insertMany, OrderedSet.mem_insert]
    rintro ((hmem | rfl) | hmem)
    · exact OrderedSet.not_mem_empty hmem
    · exact hx (Or.inl rfl)
    · exact hx (Or.inr hmem)
  rw [Hierarchy.parentsOf, join, get?_extendAll _ (OrderedSet.nodup _)]
  simp only [if_neg hout, Option.map_id']
  rfl

/-- A node gains at most the upper one of two joined nodes and what is above that, behind its old
ancestors. -/
theorem toList_parentsOf_join_sublist (h : Hierarchy) (parent child x : ElementId) :
    ((h.join parent child).parentsOf x).toList.Sublist
      ((h.parentsOf x).toList ++ parent :: (h.parentsOf parent).toList) := by
  have hnew : (((∅ : OrderedSet ElementId).insert parent).insertMany
      (h.parentsOf parent).toList).toList.Sublist (parent :: (h.parentsOf parent).toList) :=
    OrderedSet.toList_insertMany_sublist _ _
  rw [Hierarchy.parentsOf, join, get?_extendAll _ (OrderedSet.nodup _)]
  cases hs : h.parents.get? x with
  | none => exact List.nil_sublist _
  | some s =>
      have hold : h.parentsOf x = s := by rw [Hierarchy.parentsOf, hs]; rfl
      rw [Option.map_some, Option.getD_some, hold]
      split
      · exact (OrderedSet.toList_insertMany_sublist _ _).trans (hnew.append_left _)
      · exact List.sublist_append_left _ _

/-- Joining a node without ancestors to another one goes on upwards from there. -/
theorem Ascends.join (hh : h.Ascends) (hclosure : h.IsClosure edge single)
    (hc : h.contains child = true) (hroot : ∀ y, y ∉ h.parentsOf child) :
    (h.join parent child).Ascends := by
  have hmono : ∀ {a b}, b ∈ h.parentsOf a → b ∈ (h.join parent child).parentsOf a :=
    fun hb => mem_parentsOf_join.mpr (Or.inl hb)
  have hchild : ∀ {x}, x ∈ h.childrenOf child ↔ child ∈ h.parentsOf x :=
    hclosure.mem_childrenOf_iff.trans hclosure.mem_parentsOf_iff.symm
  intro x
  by_cases hx : x = child ∨ x ∈ h.childrenOf child
  · -- the old ancestors end with the child, which has none itself, so they all lie below it
    have hbelow : ∀ a ∈ h.parentsOf x, a = child ∨ a ∈ h.childrenOf child := by
      intro a ha
      rcases hx with rfl | hx
      · exact absurd ha (hroot a)
      · refine or_iff_not_imp_left.mpr fun hne => ?_
        rcases hh.comparable ha (hchild.mp hx) hne with habove | habove
        · exact hchild.mpr habove
        · exact absurd habove (hroot a)
    have hregistered : ∀ {a}, a = child ∨ a ∈ h.childrenOf child → a ∈ h.parents.keys := by
      rintro a (rfl | ha)
      · exact Hierarchy.contains_iff.mp hc
      · obtain ⟨z, _, hz⟩ := TransGen.tail'_iff.mp (hclosure.mem_childrenOf_iff.mp ha)
        exact Hierarchy.contains_iff.mp (hclosure.contains_iff.mpr (Or.inr ⟨z, Or.inr hz⟩))
    refine List.Pairwise.sublist (toList_parentsOf_join_sublist h parent child x) ?_
    refine List.pairwise_append.mpr ⟨(hh x).imp hmono, ?_, fun a ha b hb => ?_⟩
    · exact List.pairwise_cons.mpr ⟨fun b hb => hmono hb, (hh parent).imp hmono⟩
    · have ha' := hbelow a ha
      exact mem_parentsOf_join.mpr (Or.inr ⟨hregistered ha', ha', List.mem_cons.mp hb⟩)
  · rw [parentsOf_join_of_not hx]
    exact (hh x).imp hmono

/-- An edge to a node below nothing else is recorded without breaking the order. -/
theorem Ascends.of_add_eq_ok (hh : h.Ascends) (hclosure : h.IsClosure edge single)
    (hone : ∀ y, edge y child → y = parent) (hadd : h.add parent child = .ok h') :
    h'.Ascends := by
  rcases h.add_cases parent child with ⟨_, he⟩ | ⟨_, he⟩ | ⟨ha, _, _, he⟩
  · obtain rfl := Except.ok.inj (he.symm.trans hadd)
    exact hh
  · cases he.symm.trans hadd
  · obtain rfl := Except.ok.inj (he.symm.trans hadd)
    have hroot : ∀ y, y ∉ h.parentsOf child := by
      intro y hy
      obtain ⟨z, _, hz⟩ := TransGen.tail'_iff.mp (hclosure.mem_parentsOf_iff.mp hy)
      obtain rfl := hone z hz
      rw [isAncestor_iff.mpr (hclosure.mem_parentsOf_iff.mpr (.single hz))] at ha
      cases ha
    refine Ascends.join ((hh.insert parent).insert child) ((hclosure.insert parent).insert child)
      (contains_insert_iff.mpr (Or.inr rfl)) fun y hy => hroot y ?_
    rw [parentsOf_insert, parentsOf_insert] at hy
    exact hy

/-- The ancestors of a node are listed in the only order that goes upwards. -/
theorem Ascends.toList_eq (hh : h.Ascends) (hclosure : h.IsClosure edge single) {x : ElementId}
    {chain : List ElementId} (hmem : ∀ y, y ∈ chain ↔ y ∈ h.parentsOf x)
    (hchain : chain.Pairwise fun a b => b ∈ h.parentsOf a) : (h.parentsOf x).toList = chain := by
  have hasymm : ∀ a b, b ∈ h.parentsOf a → a ∉ h.parentsOf b := by
    intro a b hb ha
    have hab := (hclosure.mem_parentsOf_iff.mp ha).trans (hclosure.mem_parentsOf_iff.mp hb)
    exact hclosure.acyclic a hab
  have hnodup : chain.Nodup := hchain.imp fun {a b} hb heq => by
    subst heq
    exact hasymm a a hb hb
  refine List.Perm.eq_of_pairwise (fun a b _ _ hb ha => absurd ha (hasymm a b hb)) (hh x) hchain ?_
  exact (List.perm_ext_iff_of_nodup (OrderedSet.nodup _) hnodup).mpr fun y => (hmem y).symm

/-- Hierarchies that come from registering nodes and recording edges of a relation. -/
inductive IsGrown (edge : ElementId → ElementId → Prop) : Hierarchy → Prop
  | empty : IsGrown edge ∅
  | insert {h : Hierarchy} (grown : IsGrown edge h) (id : ElementId) : IsGrown edge (h.insert id)
  | add {h h' : Hierarchy} {parent child : ElementId} (grown : IsGrown edge h)
      (he : edge parent child) (hadd : h.add parent child = .ok h') : IsGrown edge h'

theorem IsGrown.isWithin (hh : h.IsGrown edge) : h.IsWithin edge := by
  induction hh with
  | empty => exact isWithin_empty edge
  | insert _ id ih => exact ih.insert id
  | add _ he hadd ih =>
      obtain ⟨own, single, hclosure, hle⟩ := ih
      refine ⟨_, single, hclosure.of_add_eq_ok hadd, ?_⟩
      rintro x y (hxy | ⟨rfl, rfl⟩)
      · exact hle x y hxy
      · exact he

/-- Whatever the order of the edges, ancestors are listed upwards if no node is below two others. -/
theorem IsGrown.ascends (hh : h.IsGrown edge) (hone : ∀ {x y z}, edge x z → edge y z → x = y) :
    h.Ascends := by
  induction hh with
  | empty => exact ascends_empty
  | insert _ id ih => exact ih.insert id
  | add grown he hadd ih =>
      obtain ⟨own, single, hclosure, hle⟩ := grown.isWithin
      exact ih.of_add_eq_ok hclosure (fun y hy => hone (hle _ _ hy) he) hadd

end Hierarchy
end UmlCatalog
