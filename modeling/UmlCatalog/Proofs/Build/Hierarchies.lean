import UmlCatalog.Proofs.Build.Contents

/-!
# The hierarchies of built models

The hierarchy of classes is the closure of what the records of the classes say about inheritance.
The hierarchy of packages agrees with the chains of the records even in its order, because a package
is registered after the packages around it and before what it contains.
-/

namespace UmlCatalog
open Relation
open Declaration (inArena idsIn)

theorem DeclarationKind.arena?_eq_packages_iff {kind : DeclarationKind} :
    kind.arena? = some .packages ↔ kind = .package ∨ kind = .excludedPackage := by
  cases kind <;> simp [arena?]

namespace Declaration
variable {config : BuildConfig} {ds : List Declaration} {n : Declaration}

/-- A visited element is of the kind that its type, its place and its identifier tell. -/
theorem kind_of_mem_visited {root : Markup.Element} (h : n ∈ visited config root) :
    n.kind = kindOf config n.chain n.id.text n.element := by
  obtain ⟨p, _, hp⟩ := List.mem_filterMap.mp h
  rw [Place.declaration?] at hp
  split at hp
  · obtain ⟨id, _, rfl⟩ := Option.map_eq_some_iff.mp hp
    rfl
  · cases hp

/-- A package is left out if it is nested and its identifier says so. -/
theorem kind_eq_package_iff {root : Markup.Element} (h : n ∈ visited config root)
    (harena : n.kind.arena? = some .packages) :
    n.kind = .package ↔ n.chain = [] ∨ config.excludes n.id.text = false := by
  rw [kind_of_mem_visited h] at harena ⊢
  have hpackage : typeName n.element ∈ packageTypes ∧ config.holdsViews n.id.text = false := by
    rcases DeclarationKind.arena?_eq_packages_iff.mp harena with hkind | hkind
    · obtain ⟨htype, hviews, _⟩ := kindOf_eq_package_iff.mp hkind
      exact ⟨htype, hviews⟩
    · obtain ⟨htype, hkind⟩ := (kindOf_eq_iff_packageKind (.inr (.inl rfl))).mp hkind
      exact ⟨htype, (packageKind_eq_excludedPackage_iff.mp hkind).1⟩
  rw [kindOf_eq_package_iff, and_iff_right hpackage.1, and_iff_right hpackage.2]

end Declaration

namespace Model
variable {m : Model} {config : BuildConfig} {ds : List Declaration}

/-- The hierarchy of packages agrees with the records of the packages, including its order. -/
structure PlacesPackages (config : BuildConfig) (m : Model) : Prop where
  /-- Registered are the packages that are not left out. -/
  contains_iff : ∀ k, m.packageHierarchy.contains k = true ↔
    ∃ p, m.packages.get? k = some p ∧ (p.packages = [] ∨ config.excludes k.text = false)
  /-- The ancestors are those of the record, nearest first. -/
  parentsOf_eq : ∀ k p, m.packages.get? k = some p → m.packageHierarchy.contains k = true →
    (m.packageHierarchy.parentsOf k).toList = p.packages ∧ p.packages.Nodup
  /-- The descendants are in the order of the records. -/
  childrenOf_eq : ∀ k, (m.packageHierarchy.childrenOf k).toList =
    (m.packages.entries.filter fun e =>
      m.packageHierarchy.contains e.1 = true ∧ k ∈ e.2.packages).map Prod.fst
  roots_eq : m.packageHierarchy.roots.toList =
    (m.packages.entries.filter fun e => e.2.packages = []).map Prod.fst
  /-- Around an element are the nearest package and what is around that. -/
  exists_package : ∀ e k outer, m.chainOf? e = some (k :: outer) →
    ∃ p, m.packages.get? k = some p ∧ p.packages = outer

/-- Entered are the packages on record that are registered. -/
theorem FilesAll.placed_eq (hm : m.FilesAll config ds)
    (hforest : m.packageHierarchy.IsForest (Declaration.placed ds)) :
    Declaration.placed ds = (m.packages.entries.filter fun e =>
      m.packageHierarchy.contains e.1).map fun e => (e.1, e.2.packages) := by
  have hreg := registersEntered_of_isForest hforest
  have hkind : ∀ n ∈ ds, decide (n.kind = .package) =
      (m.packageHierarchy.contains n.id && decide (n.kind.arena? = some .packages)) := by
    intro n hn
    rw [Bool.eq_iff_iff, Bool.and_eq_true, decide_eq_true_iff, decide_eq_true_iff]
    constructor
    · intro hkind
      exact ⟨(hreg n.id).mpr ⟨n, hn, hkind, rfl⟩,
        DeclarationKind.arena?_eq_packages_iff.mpr (Or.inl hkind)⟩
    · rintro ⟨hid, harena⟩
      exact (DeclarationKind.arena?_eq_packages_iff.mp harena).resolve_right
        (hm.kind_ne_excludedPackage hreg hn hid)
  calc Declaration.placed ds
    _ = ((inArena ds .packages).filter fun n => m.packageHierarchy.contains n.id).map
          fun n => (n.id, n.chain) := by
        rw [Declaration.placed, inArena, List.filter_filter, List.filter_congr hkind]
    _ = ((inArena ds .packages).map fun n => (n.id, n.chain)).filter
          fun p => m.packageHierarchy.contains p.1 := by
        rw [List.filter_map]
        rfl
    _ = _ := by
        rw [← hm.packages.map_entries fun _ _ h => h.2, List.filter_map]
        rfl

/-- A model that files the visited elements, with a hierarchy that grew with them. -/
theorem FilesAll.placesPackages {root : Markup.Element}
    (hm : m.FilesAll config (visited config root)) (hsound : m.IsSound)
    (hforest : m.packageHierarchy.IsForest (Declaration.placed (visited config root))) :
    m.PlacesPackages config := by
  have hreg := registersEntered_of_isForest hforest
  have hplaced := hm.placed_eq hforest
  have hcontains : ∀ k, m.packageHierarchy.contains k = true ↔
      ∃ p, m.packages.get? k = some p ∧ (p.packages = [] ∨ config.excludes k.text = false) := by
    intro k
    rw [hreg k]
    constructor
    · rintro ⟨n, hn, hkind, rfl⟩
      have harena := DeclarationKind.arena?_eq_packages_iff.mpr (Or.inl hkind)
      obtain ⟨p, hp, _, hchain⟩ := hm.packages.exists_get? n (Declaration.mem_inArena.mpr ⟨hn, harena⟩)
      exact ⟨p, hp, hchain ▸ (Declaration.kind_eq_package_iff hn harena).mp hkind⟩
    · rintro ⟨p, hp, hentered⟩
      obtain ⟨n, hn, rfl, _, hchain⟩ := hm.packages.exists_of_get? hp
      obtain ⟨hn, harena⟩ := Declaration.mem_inArena.mp hn
      exact ⟨n, hn, (Declaration.kind_eq_package_iff hn harena).mpr (hchain ▸ hentered), rfl⟩
  exact {
    contains_iff := hcontains
    parentsOf_eq := by
      intro k p hp hk
      have hmem : (k, p.packages) ∈ Declaration.placed (visited config root) := by
        rw [hplaced]
        exact List.mem_map.mpr ⟨(k, p), List.mem_filter.mpr ⟨OrderedMap.mem_entries_iff.mpr hp, hk⟩,
          rfl⟩
      exact ⟨hforest.parentsOf _ hmem, (hforest.nodup_cons hmem).of_cons⟩
    childrenOf_eq := by
      intro k
      rw [hforest.childrenOf, hplaced, List.filter_map, List.filter_filter, List.map_map]
      simp only [Function.comp_def, Bool.decide_and, Bool.decide_eq_true, Bool.and_comm]
    roots_eq := by
      rw [hforest.roots, hplaced, List.filter_map, List.filter_filter, List.map_map]
      refine congrArg (List.map _) (List.filter_congr fun e he => ?_)
      have htop : e.2.packages = [] → m.packageHierarchy.contains e.1 = true := fun hnil =>
        (hcontains e.1).mpr ⟨e.2, OrderedMap.mem_entries_iff.mp he, Or.inl hnil⟩
      rw [Bool.eq_iff_iff, Bool.and_eq_true, Function.comp_apply, decide_eq_true_iff]
      exact ⟨And.left, fun hnil => ⟨hnil, htop hnil⟩⟩
    exists_package := by
      intro e k outer he
      obtain ⟨_, hchain, _⟩ := hsound.isChain_of_chainOf? he
      exact Option.map_eq_some_iff.mp hchain }

end Model

/-- The hierarchy of classes in a built model is the closure of what its classes say about
inheritance. Above an element are those that chains of superclasses lead to, below it those that
they come from, and no class is above itself. Registered are the classes that inherit and all that
they name, be it in the model or not, and roots are those of them that do not inherit. -/
theorem classHierarchy_agrees_with_records {config : BuildConfig} {resource : Option String}
    {document : Markup.Element} {result : BuildResult}
    (h : build config resource document = .ok result) :
    (∀ x y, y ∈ result.model.classHierarchy.parentsOf x ↔
      TransGen result.model.SuperEdge y x) ∧
    (∀ x y, x ∈ result.model.classHierarchy.childrenOf y ↔
      y ∈ result.model.classHierarchy.parentsOf x) ∧
    (∀ x, x ∉ result.model.classHierarchy.parentsOf x) ∧
    result.model.classHierarchy.children.keys = result.model.classHierarchy.parents.keys ∧
    (∀ x, result.model.classHierarchy.contains x = true ↔
      result.model.Inherits x ∨ result.model.IsInherited x) ∧
    ∀ x, x ∈ result.model.classHierarchy.roots ↔
      result.model.classHierarchy.contains x = true ∧ ¬ result.model.Inherits x := by
  have hm := Model.isSound_of_build h
  have hclosure := hm.classHierarchy
  refine ⟨fun x y => hclosure.mem_parentsOf_iff, fun x y => ?_, fun x hx => ?_,
    hclosure.keys_children, fun x => hm.contains_classHierarchy_iff,
    fun x => hm.mem_roots_classHierarchy_iff⟩
  · rw [hclosure.mem_childrenOf_iff, hclosure.mem_parentsOf_iff]
  · exact hclosure.acyclic x (hclosure.mem_parentsOf_iff.mp hx)

/-- A class A below a class B that is declared later, and below C twice, once by way of B. Nothing
is declared that is called C. -/
def inheritingDocument : Markup.Element :=
  let below general := ⟨"generalization", .ofList [("general", general)], none, []⟩
  packaged "uml:Model" "m" [
    packaged "uml:Package" "p" [
      packaged "uml:Class" "A" [below "B", below "C"],
      packaged "uml:Class" "B" [below "C"],
      packaged "uml:Class" "D" []]]

theorem classHierarchy_agrees_with_records_inheritingDocument :
    ∃ result, build .standard none inheritingDocument = .ok result ∧
      TransGen result.model.SuperEdge ⟨"C"⟩ ⟨"A"⟩ ∧
      (result.model.Inherits ⟨"C"⟩ ∨ result.model.IsInherited ⟨"C"⟩) ∧
      ⟨"C"⟩ ∉ result.model.classHierarchy.parentsOf ⟨"C"⟩ ∧
      (result.model.classHierarchy.parentsOf ⟨"A"⟩).toList = [⟨"B"⟩, ⟨"C"⟩] ∧
      result.model.classHierarchy.parents.keys = [⟨"B"⟩, ⟨"A"⟩, ⟨"C"⟩] ∧
      result.model.classHierarchy.roots.toList = [⟨"C"⟩] := by
  obtain ⟨result, hbuild, hrun⟩ :=
    exists_of_any_eq_true (x := build .standard none inheritingDocument) (p := fun r => decide (
      (r.model.classHierarchy.parentsOf ⟨"A"⟩).toList = [⟨"B"⟩, ⟨"C"⟩] ∧
      r.model.classHierarchy.parents.keys = [⟨"B"⟩, ⟨"A"⟩, ⟨"C"⟩] ∧
      r.model.classHierarchy.roots.toList = [⟨"C"⟩])) (by decide +kernel)
  obtain ⟨hparents, hkeys, hroots⟩ := of_decide_eq_true hrun
  obtain ⟨habove, _, hself, _, hregistered, _⟩ := classHierarchy_agrees_with_records hbuild
  have hC : ⟨"C"⟩ ∈ (result.model.classHierarchy.parentsOf ⟨"A"⟩).toList := by
    rw [hparents]
    decide
  have hcontains : result.model.classHierarchy.contains ⟨"C"⟩ = true := by
    rw [Hierarchy.contains_iff, hkeys]
    decide
  exact ⟨result, hbuild, (habove _ _).mp hC, (hregistered _).mp hcontains, hself _, hparents,
    hkeys, hroots⟩

/-- The hierarchy of packages in a built model has the packages that are at the top or not left out.
It keeps their ancestors nearest first, and their descendants and the roots in document order, all
as the records say; and the chain around every element is made of a package and the chain around
that package. -/
theorem packageHierarchy_agrees_with_chains {config : BuildConfig} {resource : Option String}
    {document : Markup.Element} {result : BuildResult}
    (h : build config resource document = .ok result) :
    ∃ root, modelRoot document = .ok root ∧
      result.model.packages.keys = idsIn (visited config root) .packages ∧
      result.model.PlacesPackages config := by
  have hm := Model.isSound_of_build h
  obtain ⟨root, d, hroot, rfl, hd⟩ := exists_draft_of_build h
  have hnested := isNested_visited config root
  have hfiles := (Draft.files_of_foldlM hnested hd).filesAll hnested
  have hsame : d.finish.model.packageHierarchy = d.model.packageHierarchy :=
    (Draft.sameOutline_applyAssociations d).packageHierarchy
  refine ⟨root, hroot, hfiles.packages.keys_eq_idsIn, hfiles.placesPackages hm ?_⟩
  rw [hsame]
  exact Draft.isForest_of_foldlM hnested hd

/-- Packages p, q and r inside each other, and beside q one that is left out. A package at the top is
kept although its identifier has an o. -/
def placedDocument : Markup.Element :=
  packaged "uml:Model" "m" [
    packaged "uml:Package" "p" [
      packaged "uml:Package" "q" [
        packaged "uml:Package" "r" [packaged "uml:Class" "A" []]],
      packaged "uml:Package" "old" [],
      packaged "uml:Package" "s" []],
    packaged "uml:Package" "top" []]

theorem packageHierarchy_agrees_with_chains_placedDocument :
    ∃ result root, build filedConfig none placedDocument = .ok result ∧
      modelRoot placedDocument = .ok root ∧
      idsIn (visited filedConfig root) .packages =
        [⟨"p"⟩, ⟨"q"⟩, ⟨"r"⟩, ⟨"old"⟩, ⟨"s"⟩, ⟨"top"⟩] ∧
      result.model.PlacesPackages filedConfig ∧
      (result.model.packageHierarchy.parentsOf ⟨"r"⟩).toList = [⟨"q"⟩, ⟨"p"⟩] ∧
      (result.model.packageHierarchy.childrenOf ⟨"p"⟩).toList = [⟨"q"⟩, ⟨"r"⟩, ⟨"s"⟩] ∧
      result.model.packageHierarchy.roots.toList = [⟨"p"⟩, ⟨"top"⟩] := by
  obtain ⟨result, hbuild, hrun⟩ :=
    exists_of_any_eq_true (x := build filedConfig none placedDocument) (p := fun r => decide (
      r.model.packages.keys = [⟨"p"⟩, ⟨"q"⟩, ⟨"r"⟩, ⟨"old"⟩, ⟨"s"⟩, ⟨"top"⟩] ∧
      (r.model.packageHierarchy.parentsOf ⟨"r"⟩).toList = [⟨"q"⟩, ⟨"p"⟩] ∧
      (r.model.packageHierarchy.childrenOf ⟨"p"⟩).toList = [⟨"q"⟩, ⟨"r"⟩, ⟨"s"⟩] ∧
      r.model.packageHierarchy.roots.toList = [⟨"p"⟩, ⟨"top"⟩])) (by decide +kernel)
  obtain ⟨hkeys, hlists⟩ := of_decide_eq_true hrun
  obtain ⟨root, hroot, hids, hplaces⟩ := packageHierarchy_agrees_with_chains hbuild
  exact ⟨result, root, hbuild, hroot, hids.symm.trans hkeys, hplaces, hlists⟩

end UmlCatalog
