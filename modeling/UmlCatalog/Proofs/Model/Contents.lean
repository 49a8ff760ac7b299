import UmlCatalog.Proofs.Model.Outline

/-!
# What lies in packages

Every record says which packages are around it, and every package lists elements. In a model that
lists its contents the two agree: a package lists, besides its imports, what lies directly in it.
Packages that are recorded and not registered count as left out.
-/

namespace UmlCatalog
namespace Model
variable {m : Model} {e : ElementRef} {k : ElementId} {chain : List ElementId}

/-- The packages around a recorded element, nearest first. Nothing is around an import. -/
def chainOf? (m : Model) (e : ElementRef) : Option (List ElementId) :=
  match e.kind with
  | .package => m.chain? e.id
  | .umlClass => (m.classes.get? e.id).map Class.packages
  | .enumeration => (m.enums.get? e.id).map Enumeration.packages
  | .datatype => (m.datatypes.get? e.id).map Datatype.packages
  | .elementImport => none

/-- The nearest package around an element. -/
def nearest? (m : Model) (e : ElementRef) : Option ElementId := (m.chainOf? e).bind List.head?

/-- An element lies directly in a package, and is registered if it is a package itself. -/
def Holds (m : Model) (package : ElementId) (e : ElementRef) : Prop :=
  m.nearest? e = some package ∧
    (e.kind = .package → m.packageHierarchy.contains e.id = true)

/-- Besides its imports, every package lists what lies directly in it. -/
def ListsContents (m : Model) : Prop :=
  ∀ k p e, m.packages.get? k = some p → e.kind ≠ .elementImport → (e ∈ p.elements ↔ m.Holds k e)

/-- Packages, enumerations and datatypes are recorded under their own identifiers. -/
structure KeepsIds (m : Model) : Prop where
  packages : ∀ {k p}, m.packages.get? k = some p → p.id = k
  enums : ∀ {k e}, m.enums.get? k = some e → e.id = k
  datatypes : ∀ {k d}, m.datatypes.get? k = some d → d.id = k

theorem exists_of_nearest? (h : m.nearest? e = some k) :
    ∃ outer, m.chainOf? e = some (k :: outer) := by
  obtain ⟨chain, hchain, hhead⟩ := Option.bind_eq_some_iff.mp h
  cases chain with
  | nil => cases hhead
  | cons k' outer =>
      obtain rfl := Option.some.inj hhead
      exact ⟨outer, hchain⟩

theorem nearest?_package_eq_some_iff {parent : ElementId} :
    m.nearest? ⟨.package, k⟩ = some parent ↔ ∃ outer, m.chain? k = some (parent :: outer) := by
  constructor
  · exact exists_of_nearest?
  · rintro ⟨outer, houter⟩
    exact Option.bind_eq_some_iff.mpr ⟨_, houter, rfl⟩

/-- Around every recorded element of a sound model there is a chain of packages. -/
theorem IsSound.isChain_of_chainOf? (hm : m.IsSound) (h : m.chainOf? e = some chain) :
    m.IsChain chain := by
  unfold chainOf? at h
  split at h
  · exact hm.isChain_of_package h
  · obtain ⟨c, hc, rfl⟩ := Option.map_eq_some_iff.mp h
    exact hm.isChain_of_class hc
  · obtain ⟨x, hx, rfl⟩ := Option.map_eq_some_iff.mp h
    exact hm.isChain_of_enum hx
  · obtain ⟨d, hd, rfl⟩ := Option.map_eq_some_iff.mp h
    exact hm.isChain_of_datatype hd
  · cases h

/-- A package that something lies in is registered and recorded. -/
theorem IsSound.exists_package_of_nearest? (hm : m.IsSound) (h : m.nearest? e = some k) :
    m.packageHierarchy.contains k = true ∧ ∃ p, m.packages.get? k = some p := by
  obtain ⟨outer, houter⟩ := exists_of_nearest? h
  obtain ⟨hk, hchain, _⟩ := hm.isChain_of_chainOf? houter
  obtain ⟨p, hp, _⟩ := Option.map_eq_some_iff.mp hchain
  exact ⟨hk, p, hp⟩

end Model
end UmlCatalog
