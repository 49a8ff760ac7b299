import Mathlib.Data.List.Induction
import UmlCatalog.Proofs.Hierarchy.Ascent
import UmlCatalog.Proofs.Hierarchy.History

/-!
# The order in which ancestors are listed

An accepted edge brings to its child, and to all that lies below the child, its parent and what lies
above the parent. What is new there goes behind what is listed already, in the order of the parent.
So of two ancestors the one is listed first that arrived first, and how far away they are does not
matter. Nearest first is the same only if every ancestor arrives before all that are farther away;
it does if no node is placed below two others.

## Implementation notes

Arrival is told by the accepted edges alone, in their order. A node counts as standing above itself
there, so that the parent of an edge is listed like what lies above it.
-/

namespace UmlCatalog
open Relation

/-- Of new members those go behind the old ones that are not among them. -/
theorem OrderedSet.toList_insertMany_eq_append_filter {κ : Type} [DecidableEq κ] (s : OrderedSet κ)
    {l : List κ} (hl : l.Nodup) :
    (s.insertMany l).toList = s.toList ++ l.filter fun k => k ∉ s.toList := by
  induction l generalizing s with
  | nil => rw [insertMany_nil, List.filter_nil, List.append_nil]
  | cons k l ih =>
      obtain ⟨hk, hl⟩ := List.nodup_cons.mp hl
      rw [insertMany_cons, ih _ hl, List.filter_cons]
      by_cases hmem : k ∈ s.toList
      · have hsame : s.insert k = s := by rw [insert, dif_pos hmem]
        rw [hsame, if_neg (by simpa using hmem)]
      · have hrest : (l.filter fun j => j ∉ (s.insert k).toList) =
            l.filter fun j => j ∉ s.toList := by
          refine List.filter_congr fun j hj => ?_
          have hne : j ≠ k := fun he => hk (he ▸ hj)
          simp [toList_insert_of_not_mem hmem, hne]
        rw [hrest, toList_insert_of_not_mem hmem, if_pos (by simpa using hmem), List.append_assoc,
          List.singleton_append]

/-- Behind a list, what is new stands in its own order: two values stand one before the other if
they do in the list, or if the latter is new and the former is old or stands before it among the
new ones. -/
theorem pair_sublist_append_filter_iff {α : Type} [DecidableEq α] {a b : α} {old new : List α} :
    [a, b].Sublist (old ++ new.filter fun k => k ∉ old) ↔
      [a, b].Sublist old ∨ b ∈ new ∧ b ∉ old ∧ (a ∈ old ∨ [a, b].Sublist new) := by
  rw [List.sublist_append_iff]
  constructor
  · rintro ⟨front, back, hsplit, hfront, hback⟩
    match front with
    | [] =>
        obtain rfl : [a, b] = back := hsplit
        have hb : b ∈ new.filter fun k => k ∉ old := hback.subset (by simp)
        obtain ⟨hb, hnot⟩ := List.mem_filter.mp hb
        exact .inr ⟨hb, of_decide_eq_true hnot, .inr (hback.trans List.filter_sublist)⟩
    | [_] =>
        obtain ⟨rfl, rfl⟩ := List.cons.inj hsplit
        obtain ⟨hb, hnot⟩ := List.mem_filter.mp (List.singleton_sublist.mp hback)
        exact .inr ⟨hb, of_decide_eq_true hnot, .inl (List.singleton_sublist.mp hfront)⟩
    | c :: d :: rest =>
        obtain ⟨rfl, rfl, rfl, rfl⟩ : a = c ∧ b = d ∧ rest = [] ∧ back = [] := by simpa using hsplit
        exact .inl hfront
  · rintro (hold | ⟨hb, hnot, hfirst⟩)
    · exact ⟨[a, b], [], rfl, hold, List.nil_sublist _⟩
    · by_cases ha : a ∈ old
      · refine ⟨[a], [b], rfl, List.singleton_sublist.mpr ha, List.singleton_sublist.mpr ?_⟩
        exact List.mem_filter.mpr ⟨hb, decide_eq_true hnot⟩
      · refine ⟨[], [a, b], rfl, List.nil_sublist _, ?_⟩
        have hnew := (hfirst.resolve_left ha).filter fun k => decide (k ∉ old)
        simpa [ha, hnot] using hnew

namespace Hierarchy
variable {h h' : Hierarchy} {edge : ElementId → ElementId → Prop} {single : ElementId → Prop}
variable {parent child a b x : ElementId} {edges : List (ElementId × ElementId)}

/-! ### Distances -/

/-- A chain of so many edges leads down from one node to another. -/
def Chain (edge : ElementId → ElementId → Prop) : Nat → ElementId → ElementId → Prop
  | 0, x, z => x = z
  | n + 1, x, z => ∃ y, Chain edge n x y ∧ edge y z

/-- The shortest chain from one node down to `x` is shorter than the shortest one from another. -/
def IsNearer (edge : ElementId → ElementId → Prop) (x a b : ElementId) : Prop :=
  ∃ n, Chain edge n a x ∧ ∀ m, Chain edge m b x → n < m

/-- Where no node is below two others, a chain from above a node passes through it. -/
theorem Chain.exists_le (hone : ∀ {x y z}, edge x z → edge y z → x = y)
    (hacyclic : ∀ x, ¬ TransGen edge x x) {n : Nat} (hc : Chain edge n a x)
    (hb : ReflTransGen edge b x) (hab : TransGen edge a b) : ∃ m ≤ n, Chain edge m b x := by
  induction n generalizing x with
  | zero =>
      obtain rfl : a = x := hc
      exact absurd (hab.trans_left hb) (hacyclic a)
  | succ n ih =>
      obtain ⟨y, hc, hy⟩ := hc
      rcases ReflTransGen.cases_tail hb with rfl | ⟨w, hw, hwx⟩
      · exact ⟨0, Nat.zero_le _, rfl⟩
      · obtain rfl := hone hwx hy
        obtain ⟨m, hm, hchain⟩ := ih hc hw
        exact ⟨m + 1, Nat.succ_le_succ hm, w, hchain, hwx⟩

theorem IsGrown.mono {edge' : ElementId → ElementId → Prop} (hh : h.IsGrown edge)
    (hle : ∀ x y, edge x y → edge' x y) : h.IsGrown edge' := by
  induction hh with
  | empty => exact .empty
  | insert _ id ih => exact ih.insert id
  | add _ he hadd ih => exact ih.add (hle _ _ he) hadd

/-- Where no node is below two others, ancestors that are listed upwards are listed nearest first. -/
theorem Ascends.pair_sublist_of_isNearer (hh : h.Ascends) (hclosure : h.IsClosure edge single)
    (hone : ∀ {x y z}, edge x z → edge y z → x = y) (ha : a ∈ h.parentsOf x)
    (hb : b ∈ h.parentsOf x) (hnear : IsNearer edge x a b) :
    [a, b].Sublist (h.parentsOf x).toList := by
  obtain ⟨n, hchain, hless⟩ := hnear
  have hnot : a ∉ h.parentsOf b := by
    intro hab
    obtain ⟨m, hm, hshorter⟩ := hchain.exists_le @hone hclosure.acyclic
      (hclosure.mem_parentsOf_iff.mp hb).to_reflTransGen (hclosure.mem_parentsOf_iff.mp hab)
    exact absurd (hless m hshorter) (Nat.not_lt.mpr hm)
  have hne : b ≠ a := by
    rintro rfl
    exact Nat.lt_irrefl n (hless n hchain)
  obtain ⟨front, back, hsplit⟩ := List.append_of_mem (OrderedSet.mem_toList.mpr ha)
  have hpairwise := hh x
  have hmem : b ∈ (h.parentsOf x).toList := hb
  rw [hsplit] at hpairwise hmem ⊢
  rcases List.mem_append.mp hmem with hfront | hback
  · exact absurd ((List.pairwise_append.mp hpairwise).2.2 b hfront a List.mem_cons_self) hnot
  · have hback := (List.mem_cons.mp hback).resolve_left hne
    exact .trans ((List.singleton_sublist.mpr hback).cons_cons a) (List.sublist_append_right _ _)

/-! ### Arrival -/

/-- The relation of some listed edges. -/
def among (edges : List (ElementId × ElementId)) (x y : ElementId) : Prop := (x, y) ∈ edges

/-- While the edges of a list are accepted one after the other, `a` gets to stand at or above `x`
before `b` does. Two nodes that the same edge brings come in the order in which they got to the
parent of that edge. -/
inductive ArrivesBefore (a b : ElementId) : List (ElementId × ElementId) → ElementId → Prop
  | alone {edges : List (ElementId × ElementId)} {x : ElementId}
      (ha : ReflTransGen (among edges) a x) (hb : ¬ ReflTransGen (among edges) b x) :
      ArrivesBefore a b edges x
  | together {edges : List (ElementId × ElementId)} {parent child x : ElementId}
      (below : ReflTransGen (among edges) child x) (hb : ¬ ReflTransGen (among edges) b x)
      (first : ArrivesBefore a b edges parent) : ArrivesBefore a b (edges ++ [(parent, child)]) x
  | earlier {edges : List (ElementId × ElementId)} {e : ElementId × ElementId} {x : ElementId}
      (first : ArrivesBefore a b edges x) : ArrivesBefore a b (edges ++ [e]) x

theorem among_append (edges : List (ElementId × ElementId)) (parent child : ElementId) :
    among (edges ++ [(parent, child)]) = withEdge (among edges) parent child := by
  funext x y
  simp [among, withEdge]

/-- A node stands at or above another over one more edge if it did before, or if the edge leads
from below the one to above the other. -/
theorem reflTransGen_among_append :
    ReflTransGen (among (edges ++ [(parent, child)])) a x ↔
      ReflTransGen (among edges) a x ∨
        ReflTransGen (among edges) a parent ∧ ReflTransGen (among edges) child x := by
  rw [among_append, reflTransGen_iff_eq_or_transGen, transGen_withEdge_iff, ← or_assoc,
    ← reflTransGen_iff_eq_or_transGen]

/-- What arrives first is there. -/
theorem ArrivesBefore.stands (ha : ArrivesBefore a b edges x) :
    ReflTransGen (among edges) a x := by
  induction ha with
  | alone ha _ => exact ha
  | together below _ _ ih => exact reflTransGen_among_append.mpr (.inr ⟨ih, below⟩)
  | earlier _ ih => exact reflTransGen_among_append.mpr (.inl ih)

/-- One edge decides about the order of two nodes if it brings the latter of them. -/
theorem arrivesBefore_append_iff
    (hb : ReflTransGen (among (edges ++ [(parent, child)])) b x) :
    ArrivesBefore a b (edges ++ [(parent, child)]) x ↔
      ArrivesBefore a b edges x ∨ ReflTransGen (among edges) child x ∧
        ¬ ReflTransGen (among edges) b x ∧ ArrivesBefore a b edges parent := by
  constructor
  · intro ha
    generalize hedges : edges ++ [(parent, child)] = edges' at ha hb
    cases ha with
    | alone _ hnot => exact absurd hb hnot
    | together below hnot first =>
        obtain ⟨rfl, he⟩ := List.append_inj' hedges rfl
        cases he
        exact .inr ⟨below, hnot, first⟩
    | earlier first =>
        obtain ⟨rfl, _⟩ := List.append_inj' hedges rfl
        exact .inl first
  · rintro (first | ⟨below, hnot, first⟩)
    · exact .earlier first
    · exact .together below hnot first

/-! ### What is listed -/

/-- Joining two nodes appends to the lists of those below what stands at or above the upper one, as
far as it is new. -/
theorem toList_parentsOf_join (hx : x ∈ h.parents.keys) (hbelow : x = child ∨ x ∈ h.childrenOf child)
    (hparent : parent ∉ h.parentsOf parent) :
    ((h.join parent child).parentsOf x).toList = (h.parentsOf x).toList ++
      (parent :: (h.parentsOf parent).toList).filter fun k => k ∉ (h.parentsOf x).toList := by
  have hnodup : (parent :: (h.parentsOf parent).toList).Nodup :=
    List.nodup_cons.mpr ⟨hparent, (h.parentsOf parent).nodup⟩
  have hancestors : (((∅ : OrderedSet ElementId).insert parent).insertMany
      (h.parentsOf parent).toList).toList = parent :: (h.parentsOf parent).toList :=
    OrderedSet.toList_insertMany_of_nodup hnodup
  have hin : x ∈ (((∅ : OrderedSet ElementId).insert child).insertMany
      (h.childrenOf child).toList).toList := by
    rw [OrderedSet.mem_toList, OrderedSet.mem_insertMany, OrderedSet.mem_insert, or_assoc]
    exact .inr hbelow
  obtain ⟨s, hs⟩ := Option.isSome_iff_exists.mp (OrderedMap.get?_isSome_iff.mpr hx)
  have hold : h.parentsOf x = s := by rw [Hierarchy.parentsOf, hs]; rfl
  rw [hold, Hierarchy.parentsOf, join, get?_extendAll _ (OrderedSet.nodup _)]
  simp only [hs, Option.map_some, Option.getD_some, if_pos hin, hancestors]
  exact OrderedSet.toList_insertMany_eq_append_filter s hnodup

/-- A node with its ancestors, in their order. -/
def lineage (h : Hierarchy) (x : ElementId) : List ElementId := x :: (h.parentsOf x).toList

theorem IsClosure.mem_lineage_iff (hh : h.IsClosure edge single) :
    a ∈ h.lineage x ↔ ReflTransGen edge a x := by
  rw [lineage, List.mem_cons, OrderedSet.mem_toList, hh.mem_parentsOf_iff,
    reflTransGen_iff_eq_or_transGen, eq_comm]

/-- What stands at or above a node is in the lineage of everything at or below it. -/
theorem IsClosure.filter_lineage_eq_nil (hh : h.IsClosure edge single)
    (hpath : ReflTransGen edge a x) :
    ((h.lineage a).filter fun k => k ∉ h.lineage x) = [] := by
  refine List.filter_eq_nil_iff.mpr fun k hk => ?_
  have hkx : k ∈ h.lineage x :=
    hh.mem_lineage_iff.mpr ((hh.mem_lineage_iff.mp hk).trans hpath)
  simpa using hkx

/-- Over an edge that may be linked, nothing at or below the child stands above the parent. -/
theorem IsClosure.not_mem_lineage (hh : h.IsClosure edge single) (hne : parent ≠ child)
    (hback : h.isAncestor child parent = false) (hx : child ∈ h.lineage x) :
    x ∉ h.lineage parent := by
  intro hmem
  have hpath := (hh.mem_lineage_iff.mp hx).trans (hh.mem_lineage_iff.mp hmem)
  rcases reflTransGen_iff_eq_or_transGen.mp hpath with rfl | hpath
  · exact hne rfl
  · rw [isAncestor_iff.mpr (hh.mem_parentsOf_iff.mpr hpath)] at hback
    cases hback

/-- Linking two nodes appends the lineage of the upper one to that of each node at or below the
lower one. -/
theorem IsClosure.lineage_link (hh : h.IsClosure edge single) (hne : parent ≠ child)
    (hback : h.isAncestor child parent = false) (x : ElementId) :
    (h.link parent child).lineage x =
      if child ∈ h.lineage x then
        h.lineage x ++ (h.lineage parent).filter fun k => k ∉ h.lineage x
      else h.lineage x := by
  have hends := (hh.insert parent).insert child
  have hparents : ∀ y, ((h.insert parent).insert child).parentsOf y = h.parentsOf y := fun y => by
    rw [parentsOf_insert, parentsOf_insert]
  have hbelow : child ∈ h.lineage x ↔
      x = child ∨ x ∈ ((h.insert parent).insert child).childrenOf child := by
    rw [hh.mem_lineage_iff, hends.mem_childrenOf_iff, reflTransGen_iff_eq_or_transGen]
  by_cases hx : child ∈ h.lineage x
  · have hkey : x ∈ ((h.insert parent).insert child).parents.keys := by
      refine Hierarchy.contains_iff.mp ?_
      rcases hbelow.mp hx with rfl | hchild
      · exact contains_insert_iff.mpr (.inr rfl)
      · obtain ⟨z, _, hz⟩ := TransGen.tail'_iff.mp (hends.mem_childrenOf_iff.mp hchild)
        exact hends.contains_iff.mpr (.inr ⟨z, .inr hz⟩)
    have hself : parent ∉ ((h.insert parent).insert child).parentsOf parent := fun hmem =>
      hh.acyclic parent (hends.mem_parentsOf_iff.mp hmem)
    have hnew : ((h.lineage parent).filter fun k => k ∉ h.lineage x) =
        (h.lineage parent).filter fun k => k ∉ (h.parentsOf x).toList := by
      refine List.filter_congr fun k hk => ?_
      have hkx : k ≠ x := fun he => hh.not_mem_lineage hne hback hx (he ▸ hk)
      rw [decide_eq_decide, lineage, List.mem_cons, or_iff_right hkx]
    rw [if_pos hx, hnew, Hierarchy.link, lineage,
      toList_parentsOf_join hkey (hbelow.mp hx) hself, hparents, hparents]
    rfl
  · rw [if_neg hx, Hierarchy.link, lineage, parentsOf_join_of_not (hbelow.not.mp hx), hparents]
    rfl

/-- An accepted edge appends the lineage of its parent to that of each node at or below its child. -/
theorem IsClosure.lineage_of_add_eq_ok (hh : h.IsClosure edge single)
    (hadd : h.add parent child = .ok h') (x : ElementId) :
    h'.lineage x =
      if child ∈ h.lineage x then
        h.lineage x ++ (h.lineage parent).filter fun k => k ∉ h.lineage x
      else h.lineage x := by
  rcases h.add_cases parent child with ⟨himplied, he⟩ | ⟨_, he⟩ | ⟨_, hne, hback, he⟩
  · -- what lies above the parent is listed already
    obtain rfl := Except.ok.inj (he.symm.trans hadd)
    have hpath := hh.mem_parentsOf_iff.mp (isAncestor_iff.mp himplied)
    split
    · rename_i hx
      rw [hh.filter_lineage_eq_nil (hpath.to_reflTransGen.trans (hh.mem_lineage_iff.mp hx)),
        List.append_nil]
    · rfl
  · cases he.symm.trans hadd
  · obtain rfl := Except.ok.inj (he.symm.trans hadd)
    exact hh.lineage_link hne hback x

namespace History

/-- Every node and its ancestors are listed in the order of their arrival. -/
def ListsArrivals (s : History) : Prop :=
  ∀ x a b, [a, b].Sublist (s.hierarchy.lineage x) ↔
    ReflTransGen s.Edge b x ∧ ArrivesBefore a b s.accepted x

theorem listsArrivals_start : start.ListsArrivals := by
  have hsame : ∀ {x y : ElementId}, ReflTransGen (among []) x y → x = y := by
    intro x y hpath
    rcases ReflTransGen.cases_head hpath with rfl | ⟨_, he, _⟩
    · rfl
    · cases he
  intro x a b
  refine iff_of_false (fun hpair => ?_) ?_
  · have hlength : 2 ≤ 1 := hpair.length_le
    omega
  · rintro ⟨hb, ha⟩
    obtain rfl := hsame hb
    generalize hedges : start.accepted = edges at ha
    cases ha with
    | alone _ hnot => exact hnot .refl
    | together | earlier => exact absurd hedges.symm (List.append_ne_nil_of_right_ne_nil _ nofun)

/-- An accepted edge puts what it brings behind what arrived before. -/
theorem ListsArrivals.accept {s : History} (hs : s.ListsArrivals) (hh : s.IsConsistent)
    (hadd : s.hierarchy.add parent child = .ok h') :
    ListsArrivals { s with hierarchy := h', accepted := s.accepted ++ [(parent, child)] } := by
  have hmem : ∀ {x y}, y ∈ s.hierarchy.lineage x ↔ ReflTransGen (among s.accepted) y x :=
    hh.mem_lineage_iff
  have hpair : ∀ x a b, [a, b].Sublist (s.hierarchy.lineage x) ↔
      b ∈ s.hierarchy.lineage x ∧ ArrivesBefore a b s.accepted x := fun x a b => by
    rw [hmem]
    exact hs x a b
  intro x a b
  show [a, b].Sublist (h'.lineage x) ↔
    ReflTransGen (among (s.accepted ++ [(parent, child)])) b x ∧
      ArrivesBefore a b (s.accepted ++ [(parent, child)]) x
  rw [and_congr_right arrivesBefore_append_iff, reflTransGen_among_append,
    hh.lineage_of_add_eq_ok hadd]
  simp only [← hmem]
  split
  · rename_i hx
    rw [pair_sublist_append_filter_iff, hpair, hpair]
    constructor
    · rintro (⟨hb, hfirst⟩ | ⟨hb, hnot, hfirst⟩)
      · exact ⟨.inl hb, .inl hfirst⟩
      · refine ⟨.inr ⟨hb, hx⟩, ?_⟩
        rcases hfirst with ha | ⟨_, hfirst⟩
        · exact .inl (.alone (hmem.mp ha) (hmem.not.mp hnot))
        · exact .inr ⟨hx, hnot, hfirst⟩
    · rintro ⟨hb, hfirst⟩
      by_cases hold : b ∈ s.hierarchy.lineage x
      · exact .inl ⟨hold, hfirst.resolve_right fun hnew => hnew.2.1 hold⟩
      · have hb := (hb.resolve_left hold).1
        refine .inr ⟨hb, hold, ?_⟩
        rcases hfirst with hfirst | ⟨_, _, hfirst⟩
        · exact .inl (hmem.mpr hfirst.stands)
        · exact .inr ⟨hb, hfirst⟩
  · rename_i hx
    simp only [hpair, hx, and_false, or_false, false_and]

theorem ListsArrivals.call {s : History} (hs : s.ListsArrivals) (hh : s.IsConsistent) (c : Call) :
    (s.call c).ListsArrivals := by
  cases c with
  | insert id =>
      intro x a b
      show [a, b].Sublist (x :: ((s.hierarchy.insert id).parentsOf x).toList) ↔ _
      rw [parentsOf_insert]
      exact hs x a b
  | add parent child =>
      cases hadd : s.hierarchy.add parent child with
      | error e =>
          have hcall : s.call (.add parent child) = s := by simp only [History.call, hadd]
          rw [hcall]
          exact hs
      | ok h' =>
          have hcall : s.call (.add parent child) =
              { s with hierarchy := h', accepted := s.accepted ++ [(parent, child)] } := by
            simp only [History.call, hadd]
          rw [hcall]
          exact hs.accept hh hadd

theorem listsArrivals_ofCalls (calls : List Call) : (ofCalls calls).ListsArrivals := by
  have hkeep : ∀ s : History, s.IsConsistent → s.ListsArrivals →
      (calls.foldl History.call s).ListsArrivals := by
    induction calls with
    | nil => exact fun _ _ hs => hs
    | cons c calls ih => exact fun s hh hs => ih (s.call c) (hh.call c) (hs.call hh c)
  exact hkeep start isConsistent_start listsArrivals_start

/-- A history grows its hierarchy along the edges that it accepts. -/
theorem isGrown_ofCalls (calls : List Call) :
    (ofCalls calls).hierarchy.IsGrown (ofCalls calls).Edge := by
  induction calls using List.reverseRecOn with
  | nil => exact .empty
  | append_singleton calls c ih =>
      have hlast : ofCalls (calls ++ [c]) = (ofCalls calls).call c := by
        rw [ofCalls, List.foldl_append]
        rfl
      rw [hlast]
      cases c with
      | insert id => exact ih.insert id
      | add parent child =>
          cases hadd : (ofCalls calls).hierarchy.add parent child with
          | error e => simpa only [History.call, hadd] using ih
          | ok h' =>
              have hgrown : h'.IsGrown (withEdge (ofCalls calls).Edge parent child) :=
                (ih.mono fun _ _ he => .inl he).add (.inr ⟨rfl, rfl⟩) hadd
              simp only [History.call, hadd]
              show h'.IsGrown (among ((ofCalls calls).accepted ++ [(parent, child)]))
              rw [among_append]
              exact hgrown

/-- Of two ancestors of a node the nearer one is listed first. -/
def IsNearestFirst (s : History) : Prop :=
  ∀ x a b, a ∈ s.hierarchy.parentsOf x → b ∈ s.hierarchy.parentsOf x → IsNearer s.Edge x a b →
    [a, b].Sublist (s.hierarchy.parentsOf x).toList

/-- Ancestors are listed in the order of their arrival. -/
theorem ListsArrivals.pair_sublist_parentsOf_iff {s : History} (hs : s.ListsArrivals)
    (hh : s.IsConsistent) (ha : a ∈ s.hierarchy.parentsOf x) (hb : b ∈ s.hierarchy.parentsOf x) :
    [a, b].Sublist (s.hierarchy.parentsOf x).toList ↔ ArrivesBefore a b s.accepted x := by
  have hax : a ≠ x := by
    rintro rfl
    exact hh.acyclic a (hh.mem_parentsOf_iff.mp ha)
  have hbx : ReflTransGen s.Edge b x := (hh.mem_parentsOf_iff.mp hb).to_reflTransGen
  rw [← and_iff_right (b := ArrivesBefore a b s.accepted x) hbx, ← hs x a b, lineage]
  constructor
  · exact fun hpair => hpair.cons x
  · intro hpair
    cases hpair with
    | cons _ hpair => exact hpair
    | cons_cons _ _ => exact absurd rfl hax

/-- After any calls, one ancestor of a node is listed before another exactly if it arrived there
before. So the ancestors of all nodes are listed nearest first exactly if every ancestor arrives
before those that are farther away. This is so if no node is placed below two others. -/
theorem ofCalls_isNearestFirst_iff (calls : List Call) :
    let s := ofCalls calls
    (∀ x a b, a ∈ s.hierarchy.parentsOf x → b ∈ s.hierarchy.parentsOf x →
      ([a, b].Sublist (s.hierarchy.parentsOf x).toList ↔ ArrivesBefore a b s.accepted x)) ∧
    (s.IsNearestFirst ↔ ∀ x a b, a ∈ s.hierarchy.parentsOf x → b ∈ s.hierarchy.parentsOf x →
      IsNearer s.Edge x a b → ArrivesBefore a b s.accepted x) ∧
    ((∀ {x y z}, s.Edge x z → s.Edge y z → x = y) → s.IsNearestFirst) := by
  intro s
  have hh : s.IsConsistent := isConsistent_ofCalls calls
  have harrival : ∀ x a b, a ∈ s.hierarchy.parentsOf x → b ∈ s.hierarchy.parentsOf x →
      ([a, b].Sublist (s.hierarchy.parentsOf x).toList ↔ ArrivesBefore a b s.accepted x) :=
    fun _ _ _ => (listsArrivals_ofCalls calls).pair_sublist_parentsOf_iff hh
  refine ⟨harrival, ?_, fun hone x a b ha hb hnear => ?_⟩
  · refine forall₃_congr fun x a b => forall₃_congr fun ha hb _ => harrival x a b ha hb
  · have hascends := (isGrown_ofCalls calls).ascends hone
    exact hascends.pair_sublist_of_isNearer hh hone ha hb hnear

/-- A node that gets a second parent when it has a grandparent already. -/
def lateParentCalls : List Call :=
  [.add ⟨"A"⟩ ⟨"B"⟩, .add ⟨"B"⟩ ⟨"C"⟩, .add ⟨"D"⟩ ⟨"C"⟩]

theorem accepted_lateParentCalls : (ofCalls lateParentCalls).accepted =
    [(⟨"A"⟩, ⟨"B"⟩), (⟨"B"⟩, ⟨"C"⟩), (⟨"D"⟩, ⟨"C"⟩)] := by decide

/-- The second parent is nearer than the grandparent. -/
theorem isNearer_lateParentCalls : IsNearer (ofCalls lateParentCalls).Edge ⟨"C"⟩ ⟨"D"⟩ ⟨"A"⟩ := by
  unfold History.Edge
  rw [accepted_lateParentCalls]
  refine ⟨1, ⟨⟨"D"⟩, rfl, by decide⟩, fun m hchain => ?_⟩
  match m, hchain with
  | 0, hsame =>
      have hids : (⟨"A"⟩ : ElementId) = ⟨"C"⟩ := hsame
      exact absurd hids (by decide)
  | 1, ⟨_, hsame, he⟩ =>
      obtain rfl := hsame
      exact absurd he (by decide)
  | m + 2, _ => omega

/-- Ancestors may be listed before nearer ones. -/
theorem not_isNearestFirst_lateParentCalls : ¬ (ofCalls lateParentCalls).IsNearestFirst := by
  intro hfirst
  have hpair := hfirst ⟨"C"⟩ ⟨"D"⟩ ⟨"A"⟩ (OrderedSet.contains_iff.mp (by decide))
    (OrderedSet.contains_iff.mp (by decide)) isNearer_lateParentCalls
  exact absurd hpair (by decide)

theorem ofCalls_isNearestFirst_iff_lateParentCalls :
    let s := ofCalls lateParentCalls
    (s.hierarchy.parentsOf ⟨"C"⟩).toList = [⟨"B"⟩, ⟨"A"⟩, ⟨"D"⟩] ∧
      ArrivesBefore ⟨"A"⟩ ⟨"D"⟩ s.accepted ⟨"C"⟩ ∧ ¬ ArrivesBefore ⟨"D"⟩ ⟨"A"⟩ s.accepted ⟨"C"⟩ ∧
      ¬ s.IsNearestFirst ∧ (ofCalls (lateParentCalls.take 2)).IsNearestFirst := by
  intro s
  have hD : ⟨"D"⟩ ∈ s.hierarchy.parentsOf ⟨"C"⟩ := OrderedSet.contains_iff.mp (by decide)
  have hA : ⟨"A"⟩ ∈ s.hierarchy.parentsOf ⟨"C"⟩ := OrderedSet.contains_iff.mp (by decide)
  obtain ⟨harrival, hnearest, _⟩ := ofCalls_isNearestFirst_iff lateParentCalls
  have hlate : ¬ ArrivesBefore ⟨"D"⟩ ⟨"A"⟩ s.accepted ⟨"C"⟩ := fun hfirst =>
    absurd ((harrival _ _ _ hD hA).mpr hfirst) (by decide)
  refine ⟨by decide, (harrival _ _ _ hA hD).mp (by decide), hlate, fun hall => ?_, ?_⟩
  · exact hlate (hnearest.mp hall _ _ _ hD hA isNearer_lateParentCalls)
  · refine (ofCalls_isNearestFirst_iff (lateParentCalls.take 2)).2.2 fun {x y z} hx hy => ?_
    have haccepted : (ofCalls (lateParentCalls.take 2)).accepted =
        [(⟨"A"⟩, ⟨"B"⟩), (⟨"B"⟩, ⟨"C"⟩)] := by decide
    have hchild : ∀ e ∈ (ofCalls (lateParentCalls.take 2)).accepted,
        ∀ e' ∈ (ofCalls (lateParentCalls.take 2)).accepted, e.2 = e'.2 → e.1 = e'.1 := by
      rw [haccepted]
      decide
    exact hchild _ hx _ hy rfl

end History
end Hierarchy
end UmlCatalog
