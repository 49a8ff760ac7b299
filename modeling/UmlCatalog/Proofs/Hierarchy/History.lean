import UmlCatalog.Proofs.Hierarchy.Closure

/-!
# Hierarchies and the calls that made them

A history starts with no nodes and takes one call after the other. It keeps what was inserted
and which edges were accepted, so that the hierarchy at its end can be compared with paths over
those edges. A refused edge leaves the hierarchy as it was and is not kept.
-/

namespace UmlCatalog
open Relation

namespace Hierarchy

/-- A call that changes a hierarchy. -/
inductive Call where
  | insert (id : ElementId)
  | add (parent child : ElementId)

/-- A hierarchy together with what was inserted and accepted on the way to it. -/
structure History where
  hierarchy : Hierarchy
  inserted : List ElementId
  accepted : List (ElementId × ElementId)

namespace History

/-- The history of no calls. -/
def start : History := ⟨∅, [], []⟩

/-- The history after one more call. -/
def call (s : History) : Call → History
  | .insert id => { s with hierarchy := s.hierarchy.insert id, inserted := s.inserted ++ [id] }
  | .add parent child =>
      match s.hierarchy.add parent child with
      | .ok h => { s with hierarchy := h, accepted := s.accepted ++ [(parent, child)] }
      | .error _ => s

/-- The history of some calls, in their order. -/
def ofCalls (calls : List Call) : History := calls.foldl call start

/-- The edges that a history accepted. -/
def Edge (s : History) (x y : ElementId) : Prop := (x, y) ∈ s.accepted

/-- A history is consistent if its hierarchy is the closure of the edges it accepted. -/
def IsConsistent (s : History) : Prop := s.hierarchy.IsClosure s.Edge (· ∈ s.inserted)

theorem isConsistent_start : start.IsConsistent := by
  have hedge : start.Edge = fun _ _ => False := by
    funext x y
    exact eq_false List.not_mem_nil
  have hsingle : (· ∈ start.inserted) = fun _ : ElementId => False := by
    funext x
    exact eq_false List.not_mem_nil
  unfold IsConsistent
  rw [hedge, hsingle]
  exact isClosure_empty

/-- A call keeps a history consistent, whether or not its edge is accepted. -/
theorem IsConsistent.call {s : History} (hs : s.IsConsistent) (c : Call) :
    (s.call c).IsConsistent := by
  cases c with
  | insert id =>
      have hsingle : (· ∈ (s.call (.insert id)).inserted) = fun x => x ∈ s.inserted ∨ x = id := by
        funext x
        simp [History.call]
      unfold IsConsistent
      rw [hsingle]
      exact hs.insert id
  | add parent child =>
      rcases hs.add_cases parent child with ⟨_, he⟩ | ⟨_, h', he, hh'⟩
      · have hcall : s.call (.add parent child) = s := by simp only [History.call, he]
        rw [hcall]
        exact hs
      · have hcall : s.call (.add parent child) =
            { s with hierarchy := h', accepted := s.accepted ++ [(parent, child)] } := by
          simp only [History.call, he]
        have hedge : (s.call (.add parent child)).Edge = withEdge s.Edge parent child := by
          funext x y
          rw [hcall]
          simp [Edge, withEdge]
        unfold IsConsistent
        rw [hedge, hcall]
        exact hh'

theorem isConsistent_ofCalls (calls : List Call) : (ofCalls calls).IsConsistent := by
  have hkeep : ∀ s : History, s.IsConsistent → (calls.foldl call s).IsConsistent := by
    induction calls with
    | nil => exact fun _ hs => hs
    | cons c calls ih => exact fun s hs => ih (s.call c) (hs.call c)
  exact hkeep start isConsistent_start

/-- After any calls, the ancestors and descendants of every node are those along accepted
edges, the registered nodes are the inserted ones and the ends of accepted edges, and the roots
are the registered nodes that no accepted edge enters. -/
theorem ofCalls_is_reachability (calls : List Call) :
    let s := ofCalls calls
    (∀ x y, y ∈ s.hierarchy.parentsOf x ↔ TransGen s.Edge y x) ∧
    (∀ x y, y ∈ s.hierarchy.childrenOf x ↔ TransGen s.Edge x y) ∧
    (∀ x, s.hierarchy.contains x = true ↔ x ∈ s.inserted ∨ ∃ y, s.Edge x y ∨ s.Edge y x) ∧
    (∀ x, x ∈ s.hierarchy.roots ↔ s.hierarchy.contains x = true ∧ ∀ y, ¬ s.Edge y x) := by
  intro s
  have hs : s.hierarchy.IsClosure s.Edge (· ∈ s.inserted) := isConsistent_ofCalls calls
  exact ⟨fun _ _ => hs.mem_parentsOf_iff, fun _ _ => hs.mem_childrenOf_iff,
    fun _ => hs.contains_iff, fun _ => hs.mem_roots_iff⟩

end History
end Hierarchy
end UmlCatalog
