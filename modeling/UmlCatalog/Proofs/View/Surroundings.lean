import UmlCatalog.View
import UmlCatalog.Proofs.Model.Outline

/-!
# Copying never closes a cycle

What a view copies into its two hierarchies are edges that the source has. The relations of a
sound source have no cycles, so no edge is refused and every class can be taken in.
-/

namespace UmlCatalog
namespace View

/-- A fold that keeps an invariant never fails if no step fails under it. -/
theorem exists_foldlM_eq_ok {ε α σ : Type} {f : σ → α → Except ε σ} {P : σ → Prop}
    {xs : List α} (step : ∀ s, ∀ x ∈ xs, P s → ∃ t, f s x = .ok t ∧ P t) {s : σ} (hs : P s) :
    ∃ t, xs.foldlM f s = .ok t ∧ P t := by
  induction xs generalizing s with
  | nil => exact ⟨s, rfl, hs⟩
  | cons x xs ih =>
      obtain ⟨t, ht, hpt⟩ := step s x (List.mem_cons_self ..) hs
      obtain ⟨u, hu, hpu⟩ := ih (fun s y hy => step s y (List.mem_cons_of_mem x hy)) hpt
      refine ⟨u, ?_, hpu⟩
      rw [List.foldlM_cons, ht]
      exact hu

namespace Surroundings
variable {source : Model} {s : Surroundings}

/-- Both hierarchies record edges of the source only. -/
structure IsWithin (source : Model) (s : Surroundings) : Prop where
  classHierarchy : s.classHierarchy.IsWithin source.SuperEdge
  packageHierarchy : s.packageHierarchy.IsWithin source.PackageEdge

theorem isWithin_empty (source : Model) : IsWithin source .empty :=
  ⟨Hierarchy.isWithin_empty _, Hierarchy.isWithin_empty _⟩

theorem IsWithin.listElement (hs : s.IsWithin source) (package : ElementId)
    (element : ElementRef) : (s.listElement package element).IsWithin source :=
  ⟨hs.classHierarchy, hs.packageHierarchy⟩

theorem IsWithin.listIn (hs : s.IsWithin source) (chain : List ElementId)
    (element : ElementRef) : (s.listIn chain element).IsWithin source := by
  cases chain with
  | nil => exact hs
  | cons package outer => exact hs.listElement package element

/-- Copying the packages of a chain changes nothing but the packages. -/
theorem copyPackages_frame (source : Model) (s : Surroundings) (chain : List ElementId) :
    (copyPackages source s chain).1 =
      { s with packages := (copyPackages source s chain).1.packages } := by
  induction chain generalizing s with
  | nil => rfl
  | cons id outer ih =>
      cases hold : if s.packages.contains id then none else source.packages.get? id with
      | none =>
          simp only [copyPackages, hold]
          exact ih s
      | some old =>
          simp only [copyPackages, hold]
          rw [ih]

/-- Copying goes through the whole chain. -/
theorem map_fst_copyPackages (source : Model) (s : Surroundings) (chain : List ElementId) :
    (copyPackages source s chain).2.map Prod.fst = chain := by
  induction chain generalizing s with
  | nil => rfl
  | cons id outer ih =>
      cases hold : if s.packages.contains id then none else source.packages.get? id with
      | none =>
          simp only [copyPackages, hold]
          exact congrArg (id :: ·) (ih s)
      | some old =>
          simp only [copyPackages, hold]
          exact congrArg (id :: ·) (ih _)

/-- The packages of a chain are linked without closing a cycle. -/
theorem IsWithin.linkPackages (hm : source.IsSound) {pairs : List (ElementId × Bool)} :
    ∀ {s : Surroundings}, s.IsWithin source → source.IsChain (pairs.map Prod.fst) →
      ∃ t, linkPackages s pairs = .ok t ∧ t.IsWithin source := by
  induction pairs with
  | nil =>
      intro s hs _
      exact ⟨s, rfl, hs⟩
  | cons pair pairs ih =>
      obtain ⟨child, copied⟩ := pair
      intro s hs hchain
      cases pairs with
      | nil => exact ⟨_, rfl, hs.classHierarchy, hs.packageHierarchy.insert child⟩
      | cons next rest =>
          obtain ⟨parent, c⟩ := next
          obtain ⟨hierarchy, hadd, hwithin⟩ :=
            hs.packageHierarchy.add hm.acyclic.2 hchain.packageEdge
          have hlinked : IsWithin source { s with packageHierarchy := hierarchy } :=
            ⟨hs.classHierarchy, hwithin⟩
          have hlisted : IsWithin source (if copied then
              Surroundings.listElement { s with packageHierarchy := hierarchy } parent
                ⟨.package, child⟩
              else { s with packageHierarchy := hierarchy }) := by
            split
            · exact hlinked.listElement parent _
            · exact hlinked
          obtain ⟨t, ht, hwithin'⟩ := ih hlisted hchain.2.2
          refine ⟨t, ?_, hwithin'⟩
          rw [Surroundings.linkPackages, hadd]
          exact ht

theorem IsWithin.addChain (hs : s.IsWithin source) (hm : source.IsSound)
    {chain : List ElementId} (hchain : source.IsChain chain) :
    ∃ t, s.addChain source chain = .ok t ∧ t.IsWithin source := by
  apply IsWithin.linkPackages hm
  · rw [copyPackages_frame]
    exact ⟨hs.classHierarchy, hs.packageHierarchy⟩
  · rw [map_fst_copyPackages]
    exact hchain

/-- An element in a chain of packages of the source can be taken in with them. -/
theorem IsWithin.addListed (hs : s.IsWithin source) (hm : source.IsSound)
    {chain : List ElementId} (hchain : source.IsChain chain) (element : ElementRef) :
    ∃ t, s.addListed source chain element = .ok t ∧ t.IsWithin source := by
  obtain ⟨t, ht, hwithin⟩ := hs.addChain hm hchain
  refine ⟨t.listIn chain element, ?_, hwithin.listIn chain element⟩
  rw [Surroundings.addListed, ht]
  rfl

theorem IsWithin.addEnumeration (hs : s.IsWithin source) (hm : source.IsSound)
    (id : ElementId) : ∃ t, s.addEnumeration source id = .ok t ∧ t.IsWithin source := by
  unfold Surroundings.addEnumeration
  cases he : source.enums.get? id with
  | none => exact ⟨s, rfl, hs⟩
  | some old =>
      show ∃ t, (if s.enums.contains id then _ else _) = _ ∧ _
      split
      · exact ⟨s, rfl, hs⟩
      · apply IsWithin.addListed _ hm (hm.isChain_of_enum he)
        exact ⟨hs.classHierarchy, hs.packageHierarchy⟩

theorem IsWithin.addDatatype (hs : s.IsWithin source) (hm : source.IsSound)
    (id : ElementId) : ∃ t, s.addDatatype source id = .ok t ∧ t.IsWithin source := by
  unfold Surroundings.addDatatype
  cases hd : source.datatypes.get? id with
  | none => exact ⟨s, rfl, hs⟩
  | some old =>
      show ∃ t, (if s.datatypes.contains id then _ else _) = _ ∧ _
      split
      · exact ⟨s, rfl, hs⟩
      · apply IsWithin.addListed _ hm (hm.isChain_of_datatype hd)
        exact ⟨hs.classHierarchy, hs.packageHierarchy⟩

theorem IsWithin.addValueTypes (hs : s.IsWithin source) (hm : source.IsSound) (key : String) :
    ∃ t, s.addValueTypes source key = .ok t ∧ t.IsWithin source := by
  obtain ⟨t, ht, hwithin⟩ := hs.addEnumeration hm ⟨key⟩
  obtain ⟨u, hu, hwithin'⟩ := hwithin.addDatatype hm ⟨key⟩
  refine ⟨u, ?_, hwithin'⟩
  rw [Surroundings.addValueTypes, ht]
  exact hu

/-- Every class of a sound source can be taken in. -/
theorem IsWithin.addClass (hs : s.IsWithin source) (hm : source.IsSound) {id : ElementId}
    {c : Class} (hc : source.classes.get? id = some c) :
    ∃ t, s.addClass source c = .ok t ∧ t.IsWithin source := by
  obtain ⟨t, ht, hwithin⟩ : ∃ t,
      (c.properties.filterMap Property.targetKey?).foldlM
        (Surroundings.addValueTypes source) s = .ok t ∧ t.IsWithin source :=
    exists_foldlM_eq_ok (fun _ key _ hwithin => hwithin.addValueTypes hm key) hs
  obtain ⟨u, hu, hlisted⟩ :=
    hwithin.addListed hm (hm.isChain_of_class hc) ⟨.umlClass, c.id⟩
  obtain ⟨hierarchy, hedges, hclasses⟩ : ∃ hierarchy,
      c.superClasses.foldlM (fun (h : Hierarchy) general => h.add general c.id)
        u.classHierarchy = .ok hierarchy ∧ hierarchy.IsWithin source.SuperEdge := by
    refine exists_foldlM_eq_ok (P := fun h : Hierarchy => h.IsWithin source.SuperEdge) ?_
      hlisted.classHierarchy
    intro h general hgeneral hh
    apply hh.add hm.acyclic.1
    rw [hm.id_of_get? hc]
    exact ⟨c, hc, hgeneral⟩
  refine ⟨{ u with classHierarchy := hierarchy }, ?_, hclasses, hlisted.packageHierarchy⟩
  rw [Surroundings.addClass, ht]
  show (Surroundings.addListed source t c.packages _).bind _ = _
  rw [hu]
  show (c.superClasses.foldlM (fun (h : Hierarchy) general => h.add general c.id) _).bind _ = _
  rw [hedges]
  rfl

end Surroundings
end View
end UmlCatalog
