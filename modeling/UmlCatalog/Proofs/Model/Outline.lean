import UmlCatalog.Model.Index
import UmlCatalog.Proofs.Hierarchy.Closure

/-!
# Outlines of models

What a model says about inheritance and containment, apart from all other content: the
superclasses of each class and the packages around each element. A model is sound if its two
hierarchies are the closures of these relations and if every element lies in packages that are
recorded with their own packages.
-/

namespace UmlCatalog
open Relation

namespace Model
variable {m m' : Model}

/-- The packages around a package, nearest first. -/
def chain? (m : Model) (id : ElementId) : Option (List ElementId) :=
  (m.packages.get? id).map Package.packages

/-- Direct inheritance, as the records of the classes declare it. -/
def SuperEdge (m : Model) (general id : ElementId) : Prop :=
  ∃ c, m.classes.get? id = some c ∧ general ∈ c.superClasses

/-- Direct containment among the packages that the hierarchy registers. -/
def PackageEdge (m : Model) (parent id : ElementId) : Prop :=
  m.packageHierarchy.contains id = true ∧ ∃ outer, m.chain? id = some (parent :: outer)

/-- Each package of a chain is registered and recorded with the rest of the chain around it. -/
def IsChain (m : Model) : List ElementId → Prop
  | [] => True
  | id :: outer =>
      m.packageHierarchy.contains id = true ∧ m.chain? id = some outer ∧ m.IsChain outer

/-- A model whose hierarchies agree with its records. -/
structure IsSound (m : Model) : Prop where
  id_of_get? : ∀ {k c}, m.classes.get? k = some c → c.id = k
  classHierarchy : m.classHierarchy.IsClosure m.SuperEdge fun _ => False
  packageHierarchy :
    m.packageHierarchy.IsClosure m.PackageEdge fun id => m.packageHierarchy.contains id = true
  isRecorded : ∀ {k}, m.packageHierarchy.contains k = true → ∃ outer, m.chain? k = some outer
  isChain_of_package : ∀ {k outer}, m.chain? k = some outer → m.IsChain outer
  isChain_of_class : ∀ {k c}, m.classes.get? k = some c → m.IsChain c.packages
  isChain_of_enum : ∀ {k e}, m.enums.get? k = some e → m.IsChain e.packages
  isChain_of_datatype : ∀ {k d}, m.datatypes.get? k = some d → m.IsChain d.packages

/-- No package contains itself, and no class inherits from itself. -/
theorem IsSound.acyclic (hm : m.IsSound) :
    (∀ x, ¬ TransGen m.SuperEdge x x) ∧ ∀ x, ¬ TransGen m.PackageEdge x x :=
  ⟨hm.classHierarchy.acyclic, hm.packageHierarchy.acyclic⟩

/-- A class that inherits. -/
def Inherits (m : Model) (id : ElementId) : Prop :=
  ∃ c, m.classes.get? id = some c ∧ c.superClasses ≠ []

/-- Something that a class inherits from, whether it is there or not. -/
def IsInherited (m : Model) (id : ElementId) : Prop :=
  ∃ k c, m.classes.get? k = some c ∧ id ∈ c.superClasses

theorem inherits_iff {id : ElementId} : m.Inherits id ↔ ∃ general, m.SuperEdge general id := by
  constructor
  · rintro ⟨c, hc, hne⟩
    obtain ⟨general, hgeneral⟩ := List.exists_mem_of_ne_nil _ hne
    exact ⟨general, c, hc, hgeneral⟩
  · rintro ⟨general, c, hc, hgeneral⟩
    exact ⟨c, hc, List.ne_nil_of_mem hgeneral⟩

/-- Registered are the classes that inherit and what they inherit from. -/
theorem IsSound.contains_classHierarchy_iff (hm : m.IsSound) {id : ElementId} :
    m.classHierarchy.contains id = true ↔ m.Inherits id ∨ m.IsInherited id := by
  rw [hm.classHierarchy.contains_iff, inherits_iff, false_or, exists_or, or_comm]
  rfl

theorem IsSound.mem_roots_classHierarchy_iff (hm : m.IsSound) {id : ElementId} :
    id ∈ m.classHierarchy.roots ↔ m.classHierarchy.contains id = true ∧ ¬ m.Inherits id := by
  rw [hm.classHierarchy.mem_roots_iff, inherits_iff, not_exists]

/-- The packages of a chain contain each other. -/
theorem IsChain.packageEdge {child parent : ElementId} {outer : List ElementId}
    (h : m.IsChain (child :: parent :: outer)) : m.PackageEdge parent child :=
  ⟨h.1, outer, h.2.1⟩

end Model

/-- What the record of a class says about its place. -/
def Class.outline (c : Class) : ElementId × List ElementId × List ElementId :=
  (c.id, c.superClasses, c.packages)

namespace Model
variable {m m' : Model}

/-- Two models agree about inheritance and containment. -/
structure SameOutline (m' m : Model) : Prop where
  classes : ∀ k, (m'.classes.get? k).map Class.outline = (m.classes.get? k).map Class.outline
  enums : ∀ k, (m'.enums.get? k).map Enumeration.packages =
    (m.enums.get? k).map Enumeration.packages
  datatypes : ∀ k, (m'.datatypes.get? k).map Datatype.packages =
    (m.datatypes.get? k).map Datatype.packages
  chain? : ∀ k, m'.chain? k = m.chain? k
  classHierarchy : m'.classHierarchy = m.classHierarchy
  packageHierarchy : m'.packageHierarchy = m.packageHierarchy

theorem SameOutline.refl (m : Model) : m.SameOutline m :=
  ⟨fun _ => rfl, fun _ => rfl, fun _ => rfl, fun _ => rfl, rfl, rfl⟩

theorem SameOutline.symm (h : m'.SameOutline m) : m.SameOutline m' :=
  ⟨fun k => (h.classes k).symm, fun k => (h.enums k).symm, fun k => (h.datatypes k).symm,
    fun k => (h.chain? k).symm, h.classHierarchy.symm, h.packageHierarchy.symm⟩

theorem SameOutline.trans {m'' : Model} (h' : m''.SameOutline m') (h : m'.SameOutline m) :
    m''.SameOutline m :=
  ⟨fun k => (h'.classes k).trans (h.classes k), fun k => (h'.enums k).trans (h.enums k),
    fun k => (h'.datatypes k).trans (h.datatypes k), fun k => (h'.chain? k).trans (h.chain? k),
    h'.classHierarchy.trans h.classHierarchy, h'.packageHierarchy.trans h.packageHierarchy⟩

/-- A class of the one model has a class of the other in its place. -/
theorem SameOutline.exists_class (h : m'.SameOutline m) {k : ElementId} {c : Class}
    (hc : m'.classes.get? k = some c) :
    ∃ d, m.classes.get? k = some d ∧ c.id = d.id ∧ c.superClasses = d.superClasses ∧
      c.packages = d.packages := by
  have hk := h.classes k
  rw [hc, Option.map_some] at hk
  obtain ⟨d, hd, hcd⟩ := Option.map_eq_some_iff.mp hk.symm
  refine ⟨d, hd, ?_, ?_, ?_⟩
  · exact congrArg Prod.fst hcd.symm
  · exact congrArg (fun o => o.2.1) hcd.symm
  · exact congrArg (fun o => o.2.2) hcd.symm

theorem SameOutline.superEdge_iff (h : m'.SameOutline m) {x y : ElementId} :
    m'.SuperEdge x y ↔ m.SuperEdge x y := by
  constructor
  · rintro ⟨c, hc, hx⟩
    obtain ⟨d, hd, _, hs, _⟩ := h.exists_class hc
    exact ⟨d, hd, hs ▸ hx⟩
  · rintro ⟨c, hc, hx⟩
    obtain ⟨d, hd, _, hs, _⟩ := h.symm.exists_class hc
    exact ⟨d, hd, hs ▸ hx⟩

theorem SameOutline.packageEdge_iff (h : m'.SameOutline m) {x y : ElementId} :
    m'.PackageEdge x y ↔ m.PackageEdge x y := by
  unfold PackageEdge
  rw [h.packageHierarchy, h.chain?]

theorem SameOutline.isChain_iff (h : m'.SameOutline m) {chain : List ElementId} :
    m'.IsChain chain ↔ m.IsChain chain := by
  induction chain with
  | nil => exact Iff.rfl
  | cons id outer ih =>
      unfold IsChain
      rw [h.packageHierarchy, h.chain?, ih]

/-- Soundness is a matter of the outline. -/
theorem IsSound.of_sameOutline (hm : m.IsSound) (h : m'.SameOutline m) : m'.IsSound where
  id_of_get? := by
    intro k c hc
    obtain ⟨d, hd, hid, _, _⟩ := h.exists_class hc
    exact hid.trans (hm.id_of_get? hd)
  classHierarchy := by
    rw [h.classHierarchy]
    exact hm.classHierarchy.congr fun _ _ => h.superEdge_iff
  packageHierarchy := by
    rw [h.packageHierarchy]
    exact hm.packageHierarchy.congr fun _ _ => h.packageEdge_iff
  isRecorded := by
    intro k hk
    rw [h.packageHierarchy] at hk
    rw [h.chain?]
    exact hm.isRecorded hk
  isChain_of_package := by
    intro k outer hk
    rw [h.chain?] at hk
    exact h.isChain_iff.mpr (hm.isChain_of_package hk)
  isChain_of_class := by
    intro k c hc
    obtain ⟨d, hd, _, _, hp⟩ := h.exists_class hc
    rw [hp]
    exact h.isChain_iff.mpr (hm.isChain_of_class hd)
  isChain_of_enum := by
    intro k e he
    have hk := h.enums k
    rw [he, Option.map_some] at hk
    obtain ⟨d, hd, hp⟩ := Option.map_eq_some_iff.mp hk.symm
    rw [← hp]
    exact h.isChain_iff.mpr (hm.isChain_of_enum hd)
  isChain_of_datatype := by
    intro k e he
    have hk := h.datatypes k
    rw [he, Option.map_some] at hk
    obtain ⟨d, hd, hp⟩ := Option.map_eq_some_iff.mp hk.symm
    rw [← hp]
    exact h.isChain_iff.mpr (hm.isChain_of_datatype hd)

end Model
end UmlCatalog
