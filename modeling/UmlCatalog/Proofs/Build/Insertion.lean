import UmlCatalog.Proofs.Build.Draft
import UmlCatalog.Proofs.Model.Outline

/-!
# Sound models take in records

A sound model stays sound when a class, a value type or a package is taken in, provided that the
packages around it are registered and its superclasses close no cycle.
-/

namespace UmlCatalog
open Relation

/-- The edges from all superclasses of a class are recorded. -/
theorem Draft.isClosure_of_addEdges {id : ElementId} {generals : List ElementId}
    {h h' : Hierarchy} {edge : ElementId → ElementId → Prop} {single : ElementId → Prop}
    (hh : h.IsClosure edge single) (hadd : addEdges h id generals = .ok h') :
    h'.IsClosure (fun x y => edge x y ∨ y = id ∧ x ∈ generals) single := by
  induction generals generalizing h edge with
  | nil =>
      obtain rfl := Except.ok.inj hadd
      apply hh.congr
      intro x y
      simp
  | cons general generals ih =>
      obtain ⟨h₁, hfirst, hrest⟩ := exists_of_bind_eq_ok hadd
      apply (ih (hh.of_add_eq_ok hfirst) hrest).congr
      intro x y
      rw [Hierarchy.withEdge, List.mem_cons, and_or_left, or_assoc, and_comm (a := x = general)]

namespace Model
variable {m m' : Model} {id : ElementId} {chain : List ElementId}

/-- A chain stays one while packages are added. -/
theorem IsChain.mono
    (hcontains : ∀ {k}, m.packageHierarchy.contains k = true →
      m'.packageHierarchy.contains k = true)
    (hchain? : ∀ {k outer}, m.chain? k = some outer → m'.chain? k = some outer) :
    m.IsChain chain → m'.IsChain chain := by
  induction chain with
  | nil => exact fun _ => trivial
  | cons k outer ih =>
      rintro ⟨hk, hchain, houter⟩
      exact ⟨hcontains hk, hchain? hchain, ih houter⟩

theorem map_packages_insert (packages : OrderedMap ElementId Package) (id k : ElementId)
    (p : Package) :
    ((packages.insert id p).get? k).map Package.packages =
      if k = id then some p.packages else (packages.get? k).map Package.packages := by
  split
  · rename_i hk
    rw [hk, OrderedMap.get?_insert_self, Option.map_some]
  · rename_i hk
    rw [OrderedMap.get?_insert_of_ne _ _ hk]

/-- A sound model takes in a class whose superclasses close no cycle. -/
theorem IsSound.insertClass (hm : m.IsSound) {c : Class} {hierarchy : Hierarchy}
    (hnew : id ∉ m.classes.keys) (hid : c.id = id)
    (hedges : Draft.addEdges m.classHierarchy id c.superClasses = .ok hierarchy)
    (hchain : m.IsChain c.packages) :
    IsSound { m with classHierarchy := hierarchy, classes := m.classes.insert id c } := by
  have hkeep : ∀ {l}, m.IsChain l →
      IsChain { m with classHierarchy := hierarchy, classes := m.classes.insert id c } l :=
    IsChain.mono (fun hk => hk) (fun hk => hk)
  exact {
    id_of_get? := by
      intro k b hb
      rcases OrderedMap.of_get?_insert hb with ⟨rfl, rfl⟩ | ⟨_, hb⟩
      · exact hid
      · exact hm.id_of_get? hb
    classHierarchy := by
      apply (Draft.isClosure_of_addEdges hm.classHierarchy hedges).congr
      intro x y
      constructor
      · rintro ⟨b, hb, hx⟩
        rcases OrderedMap.of_get?_insert hb with ⟨rfl, rfl⟩ | ⟨_, hb⟩
        · exact Or.inr ⟨rfl, hx⟩
        · exact Or.inl ⟨b, hb, hx⟩
      · rintro (⟨b, hb, hx⟩ | ⟨rfl, hx⟩)
        · have hy : y ≠ id := by
            rintro rfl
            exact hnew (OrderedMap.mem_keys_of_get? hb)
          exact ⟨b, (OrderedMap.get?_insert_of_ne _ _ hy).trans hb, hx⟩
        · exact ⟨c, OrderedMap.get?_insert_self _ _ _, hx⟩
    packageHierarchy := hm.packageHierarchy
    isRecorded := hm.isRecorded
    isChain_of_package := fun hk => hkeep (hm.isChain_of_package hk)
    isChain_of_class := by
      intro k b hb
      rcases OrderedMap.of_get?_insert hb with ⟨rfl, rfl⟩ | ⟨_, hb⟩
      · exact hkeep hchain
      · exact hkeep (hm.isChain_of_class hb)
    isChain_of_enum := fun hk => hkeep (hm.isChain_of_enum hk)
    isChain_of_datatype := fun hk => hkeep (hm.isChain_of_datatype hk) }

/-- A sound model takes in an enumeration. -/
theorem IsSound.insertEnum (hm : m.IsSound) {e : Enumeration} (hchain : m.IsChain e.packages) :
    IsSound { m with enums := m.enums.insert id e } := by
  have hkeep : ∀ {l}, m.IsChain l → IsChain { m with enums := m.enums.insert id e } l :=
    IsChain.mono (fun hk => hk) (fun hk => hk)
  exact {
    id_of_get? := hm.id_of_get?
    classHierarchy := hm.classHierarchy
    packageHierarchy := hm.packageHierarchy
    isRecorded := hm.isRecorded
    isChain_of_package := fun hk => hkeep (hm.isChain_of_package hk)
    isChain_of_class := fun hk => hkeep (hm.isChain_of_class hk)
    isChain_of_enum := by
      intro k b hb
      rcases OrderedMap.of_get?_insert hb with ⟨rfl, rfl⟩ | ⟨_, hb⟩
      · exact hkeep hchain
      · exact hkeep (hm.isChain_of_enum hb)
    isChain_of_datatype := fun hk => hkeep (hm.isChain_of_datatype hk) }

/-- A sound model takes in a datatype. -/
theorem IsSound.insertDatatype (hm : m.IsSound) {d : Datatype}
    (hchain : m.IsChain d.packages) :
    IsSound { m with datatypes := m.datatypes.insert id d } := by
  have hkeep : ∀ {l}, m.IsChain l → IsChain { m with datatypes := m.datatypes.insert id d } l :=
    IsChain.mono (fun hk => hk) (fun hk => hk)
  exact {
    id_of_get? := hm.id_of_get?
    classHierarchy := hm.classHierarchy
    packageHierarchy := hm.packageHierarchy
    isRecorded := hm.isRecorded
    isChain_of_package := fun hk => hkeep (hm.isChain_of_package hk)
    isChain_of_class := fun hk => hkeep (hm.isChain_of_class hk)
    isChain_of_enum := fun hk => hkeep (hm.isChain_of_enum hk)
    isChain_of_datatype := by
      intro k b hb
      rcases OrderedMap.of_get?_insert hb with ⟨rfl, rfl⟩ | ⟨_, hb⟩
      · exact hkeep hchain
      · exact hkeep (hm.isChain_of_datatype hb) }

/-- Packages with a new identifier are not registered. -/
theorem IsSound.not_contains (hm : m.IsSound) (hnew : id ∉ m.packages.keys) :
    m.packageHierarchy.contains id ≠ true := by
  intro hid
  obtain ⟨outer, houter⟩ := hm.isRecorded hid
  obtain ⟨p, hp, _⟩ := Option.map_eq_some_iff.mp houter
  exact hnew (OrderedMap.mem_keys_of_get? hp)

/-- Direct containment after a package is recorded, if no other package is registered with it. -/
theorem IsSound.packageEdge_insert_iff (hm : m.IsSound) (p : Package) {hierarchy : Hierarchy}
    (hnew : id ∉ m.packages.keys)
    (hsame : ∀ {k}, k ≠ id → (hierarchy.contains k = true ↔
      m.packageHierarchy.contains k = true)) {x y : ElementId} :
    PackageEdge { m with packages := m.packages.insert id p, packageHierarchy := hierarchy } x y ↔
      m.PackageEdge x y ∨
        y = id ∧ hierarchy.contains id = true ∧ ∃ outer, p.packages = x :: outer := by
  unfold PackageEdge chain?
  rw [map_packages_insert]
  by_cases hy : y = id
  · subst hy
    have hold := hm.not_contains hnew
    simp [hold]
  · simp [hy, hsame hy]

/-- A sound model takes in a package if no other package is registered with it and if its place
among the packages is recorded. -/
theorem IsSound.insertPackage (hm : m.IsSound) (p : Package) (hierarchy : Hierarchy)
    (hnew : id ∉ m.packages.keys) (hchain : m.IsChain p.packages)
    (hsame : ∀ {k}, k ≠ id → (hierarchy.contains k = true ↔
      m.packageHierarchy.contains k = true))
    (hclosure : hierarchy.IsClosure
      (fun x y => m.PackageEdge x y ∨
        y = id ∧ hierarchy.contains id = true ∧ ∃ outer, p.packages = x :: outer)
      fun k => hierarchy.contains k = true) :
    IsSound { m with packages := m.packages.insert id p, packageHierarchy := hierarchy } ∧
      ∀ {l}, m.IsChain l →
        IsChain { m with packages := m.packages.insert id p, packageHierarchy := hierarchy }
          l := by
  have hkeep : ∀ {l}, m.IsChain l → IsChain
      { m with packages := m.packages.insert id p, packageHierarchy := hierarchy } l := by
    intro l
    apply IsChain.mono
    · intro k hk
      have hne : k ≠ id := by
        rintro rfl
        exact hm.not_contains hnew hk
      exact (hsame hne).mpr hk
    · intro k outer hk
      have hne : k ≠ id := by
        rintro rfl
        obtain ⟨q, hq, _⟩ := Option.map_eq_some_iff.mp hk
        exact hnew (OrderedMap.mem_keys_of_get? hq)
      unfold chain?
      rw [OrderedMap.get?_insert_of_ne _ _ hne]
      exact hk
  refine ⟨?_, hkeep⟩
  exact {
    id_of_get? := hm.id_of_get?
    classHierarchy := hm.classHierarchy
    packageHierarchy := hclosure.congr fun _ _ => hm.packageEdge_insert_iff p hnew hsame
    isRecorded := by
      intro k hk
      unfold chain?
      rw [map_packages_insert]
      split
      · exact ⟨p.packages, rfl⟩
      · rename_i hne
        exact hm.isRecorded ((hsame hne).mp hk)
    isChain_of_package := by
      intro k outer hk
      unfold chain? at hk
      rw [map_packages_insert] at hk
      split at hk
      · obtain rfl := Option.some.inj hk
        exact hkeep hchain
      · exact hkeep (hm.isChain_of_package hk)
    isChain_of_class := fun hk => hkeep (hm.isChain_of_class hk)
    isChain_of_enum := fun hk => hkeep (hm.isChain_of_enum hk)
    isChain_of_datatype := fun hk => hkeep (hm.isChain_of_datatype hk) }

/-- A package at the top is registered by itself. -/
theorem IsSound.insertTopPackage (hm : m.IsSound) {p : Package} (hnew : id ∉ m.packages.keys)
    (hp : p.packages = []) :
    IsSound { m with
      packages := m.packages.insert id p
      packageHierarchy := m.packageHierarchy.insert id } ∧
    ∀ {l}, m.IsChain l → IsChain { m with
      packages := m.packages.insert id p
      packageHierarchy := m.packageHierarchy.insert id } l := by
  apply hm.insertPackage p _ hnew
  · rw [hp]
    trivial
  · intro k hk
    rw [Hierarchy.contains_insert_iff]
    exact or_iff_left hk
  · have hclosure : (m.packageHierarchy.insert id).IsClosure m.PackageEdge
        fun k => (m.packageHierarchy.insert id).contains k = true := by
      apply (hm.packageHierarchy.insert id).of_single
      intro x
      rw [Hierarchy.contains_insert_iff]
    apply hclosure.congr
    intro x y
    simp [hp]

/-- A package inside another one is registered below it. -/
theorem IsSound.insertNestedPackage (hm : m.IsSound) {p : Package} {parent : ElementId}
    {outer : List ElementId} {hierarchy : Hierarchy} (hnew : id ∉ m.packages.keys)
    (hp : p.packages = parent :: outer) (hchain : m.IsChain (parent :: outer))
    (hadd : m.packageHierarchy.add parent id = .ok hierarchy) :
    IsSound { m with packages := m.packages.insert id p, packageHierarchy := hierarchy } ∧
    (∀ {l}, m.IsChain l →
      IsChain { m with packages := m.packages.insert id p, packageHierarchy := hierarchy } l) ∧
    hierarchy.contains id = true := by
  have hclosure := hm.packageHierarchy.of_add_eq_ok hadd
  have hcontains : ∀ {k}, hierarchy.contains k = true ↔
      k = id ∨ m.packageHierarchy.contains k = true := by
    intro k
    rw [hclosure.contains_iff, Hierarchy.withEdge_ends_iff, ← or_assoc,
      ← hm.packageHierarchy.contains_iff]
    constructor
    · rintro (hk | rfl | rfl)
      · exact Or.inr hk
      · exact Or.inr hchain.1
      · exact Or.inl rfl
    · rintro (rfl | hk)
      · exact Or.inr (Or.inr rfl)
      · exact Or.inl hk
  have hid : hierarchy.contains id = true := hcontains.mpr (Or.inl rfl)
  have hsound := by
    apply hm.insertPackage p hierarchy hnew
    · rw [hp]
      exact hchain
    · intro k hk
      exact hcontains.trans (or_iff_right hk)
    · have hsingle : hierarchy.IsClosure (Hierarchy.withEdge m.PackageEdge parent id)
          fun k => hierarchy.contains k = true := by
        apply hclosure.of_single
        intro x
        rw [← hclosure.contains_iff]
        constructor
        · exact Or.inl
        · rintro (hx | hx)
          · exact hx
          · exact hclosure.contains_iff.mpr (Or.inr hx)
      apply hsingle.congr
      intro x y
      simp [Hierarchy.withEdge, hid, hp, and_comm, eq_comm]
  exact ⟨hsound.1, hsound.2, hid⟩

/-- A package with a new identifier can always be registered below another one. -/
theorem IsSound.exists_add (hm : m.IsSound) {parent : ElementId} {outer : List ElementId}
    (hnew : id ∉ m.packages.keys) (hchain : m.IsChain (parent :: outer)) :
    ∃ hierarchy, m.packageHierarchy.add parent id = .ok hierarchy := by
  rcases hm.packageHierarchy.add_cases parent id with ⟨hcycle, _⟩ | ⟨_, hierarchy, hadd, _⟩
  · exfalso
    apply hm.not_contains hnew
    rcases ReflTransGen.cases_head hcycle with rfl | ⟨child, ⟨_, above, hchild⟩, _⟩
    · exact hchain.1
    · exact (hm.isChain_of_package hchild).1
  · exact ⟨hierarchy, hadd⟩

/-- A package that is not entered is recorded and not registered. -/
theorem IsSound.insertExcludedPackage (hm : m.IsSound) {p : Package}
    (hnew : id ∉ m.packages.keys) (hchain : m.IsChain p.packages) :
    IsSound { m with packages := m.packages.insert id p } ∧
      ∀ {l}, m.IsChain l → IsChain { m with packages := m.packages.insert id p } l := by
  apply hm.insertPackage p m.packageHierarchy hnew hchain
  · exact fun _ => Iff.rfl
  · apply hm.packageHierarchy.congr
    intro x y
    have hold := hm.not_contains hnew
    simp [hold]

end Model
end UmlCatalog
