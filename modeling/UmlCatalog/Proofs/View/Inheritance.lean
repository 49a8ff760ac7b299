import UmlCatalog.Proofs.View.Repeated

/-!
# Inheritance in a view

A view records the superclasses of the classes that it has, be they in the view or not. What lies
above these it records only where they are in the view. So it never says more about inheritance than
its source. It says as much about the members of its views and everything above them, and may say
less about a class that was reached by a reference.
-/

namespace UmlCatalog
open Relation

namespace Model
variable {m v : Model} {names : List String}

/-- The hierarchy of classes is that of another model, cut off above what is not there. -/
structure RestrictsInheritance (v m : Model) (names : List String) : Prop where
  /-- The hierarchy is the closure of what the classes of the view declare. -/
  closure : v.classHierarchy.IsClosure v.SuperEdge fun _ => False
  /-- A way up goes through classes of the view, but may end outside. -/
  mem_parentsOf_iff : ∀ x general, general ∈ v.classHierarchy.parentsOf x ↔
    TransGen (fun general x => x ∈ v.classes.keys ∧ m.SuperEdge general x) general x
  parentsOf_subset : ∀ x general, general ∈ v.classHierarchy.parentsOf x →
    general ∈ m.classHierarchy.parentsOf x
  /-- Nothing is missing above the members of the views and what is above them. -/
  parentsOf_of_isSeed : ∀ x, m.IsSeed names x → ∀ general,
    general ∈ v.classHierarchy.parentsOf x ↔ general ∈ m.classHierarchy.parentsOf x

theorem IsPartOf.restrictsInheritance (hpart : v.IsPartOf m names) (hm : m.IsSound)
    (hv : v.IsSound) (hshown : m.shown names ⊆ {x | x ∈ v.classes.keys}) :
    v.RestrictsInheritance m names := by
  have hedge : v.SuperEdge = fun general x => x ∈ v.classes.keys ∧ m.SuperEdge general x :=
    funext fun general => funext fun x => propext (hpart.superEdge_iff general x)
  have hpath : ∀ x general, general ∈ v.classHierarchy.parentsOf x ↔
      TransGen (fun general x => x ∈ v.classes.keys ∧ m.SuperEdge general x) general x :=
    fun _ _ => hedge ▸ hv.classHierarchy.mem_parentsOf_iff
  have hsubset : ∀ x general, general ∈ v.classHierarchy.parentsOf x →
      general ∈ m.classHierarchy.parentsOf x := by
    intro x general hx
    rw [hm.classHierarchy.mem_parentsOf_iff]
    exact TransGen.mono (fun _ _ he => he.2) _ _ ((hpath x general).mp hx)
  refine ⟨hv.classHierarchy, hpath, hsubset, fun x hx general => ?_⟩
  refine ⟨hsubset x general, fun habove => ?_⟩
  rw [hm.classHierarchy.mem_parentsOf_iff] at habove
  rw [hv.classHierarchy.mem_parentsOf_iff]
  exact hpart.transGen_superEdge hm hshown hx habove

end Model

/-- The hierarchy of classes in a view is the closure of what its classes declare. It is part of the
hierarchy of the model, and has the same ancestors for the members of the views and all that is
above them. -/
theorem extractView_restrictsInheritance {m : Model} (h : m.IsObtained) (origin : ModelSource)
    (names : List String) (options : ViewOptions) :
    ∃ v, m.extractView origin names options = .ok v ∧ v.RestrictsInheritance m names := by
  obtain ⟨hsound, hids⟩ := h.isSound
  obtain ⟨v, hv, hleast⟩ := hsound.isLeast_extractView origin names options
  obtain ⟨hsound', _, _, _⟩ := hsound.of_extractView hids hv
  have hpart := Model.isPartOf_of_extractView hsound hids hv
  exact ⟨v, hv, hpart.restrictsInheritance hsound hsound' hleast.1.1⟩

/-- The classes with the target keys of their properties. -/
def Model.references (m : Model) : List (ElementId × String) :=
  m.classes.entries.flatMap fun e =>
    (e.2.properties.filterMap Property.targetKey?).map fun key => (e.1, key)

theorem Model.refersTo_iff_mem_references {m : Model} {x y : ElementId} :
    m.RefersTo x y ↔ (x, y.text) ∈ m.references ∧ y ∈ m.classes.keys := by
  refine and_congr_left' ?_
  simp only [references, List.mem_flatMap, List.mem_map, List.mem_filterMap, Prod.mk.injEq]
  constructor
  · rintro ⟨c, hc, p, hp, hkey⟩
    exact ⟨(x, c), OrderedMap.mem_entries_iff.mpr hc, y.text, ⟨p, hp, hkey⟩, rfl, rfl⟩
  · rintro ⟨⟨x, c⟩, hc, _, ⟨p, hp, hkey⟩, rfl, rfl⟩
    exact ⟨c, OrderedMap.mem_entries_iff.mp hc, p, hp, hkey⟩

/-- A class A below B, typed by a class C, which is below D, which is below E. The only view has A
as its only member. -/
def referringDocument : Markup.Element :=
  let below general := ⟨"generalization", .ofList [("general", general)], none, []⟩
  ⟨"uml:Model", .ofList [("xmi:id", "m")], none, [
    packaged "uml:Package" "p" [
      packaged "uml:Class" "A" [below "B",
        ⟨"ownedAttribute", .ofList [("xmi:id", "a"), ("type", "C")], none, []⟩],
      packaged "uml:Class" "B" [],
      packaged "uml:Class" "C" [below "D"],
      packaged "uml:Class" "D" [below "E"],
      packaged "uml:Class" "E" []],
    packaged "uml:Package" "views" [
      packaged "uml:Class" "V" [
        ⟨"elementImport", .ofList [("importedElement", "A")], none, []⟩]]]⟩

theorem exists_build_referringDocument :
    ∃ result, build viewedConfig none referringDocument = .ok result ∧
      View.seeds result.model (View.selected result.model ["V"]) = [⟨"A"⟩, ⟨"B"⟩] ∧
      result.model.references = [(⟨"A"⟩, "C")] ∧
      result.model.classes.keys = [⟨"A"⟩, ⟨"B"⟩, ⟨"C"⟩, ⟨"D"⟩, ⟨"E"⟩] ∧
      (∀ general, result.model.SuperEdge general ⟨"C"⟩ ↔ general = ⟨"D"⟩) ∧
      (result.model.classHierarchy.parentsOf ⟨"A"⟩).toList = [⟨"B"⟩] ∧
      (result.model.classHierarchy.parentsOf ⟨"C"⟩).toList = [⟨"D"⟩, ⟨"E"⟩] := by
  have hclasses : (build viewedConfig none referringDocument).toOption.map (fun r =>
      (View.seeds r.model (View.selected r.model ["V"]), r.model.references,
        r.model.classes.keys)) =
        some ([⟨"A"⟩, ⟨"B"⟩], [(⟨"A"⟩, "C")], [⟨"A"⟩, ⟨"B"⟩, ⟨"C"⟩, ⟨"D"⟩, ⟨"E"⟩]) := by
    decide +kernel
  have hinheritance : (build viewedConfig none referringDocument).toOption.map (fun r =>
      ((r.model.classes.get? ⟨"C"⟩).map Class.superClasses,
        (r.model.classHierarchy.parentsOf ⟨"A"⟩).toList,
        (r.model.classHierarchy.parentsOf ⟨"C"⟩).toList)) =
        some (some [⟨"D"⟩], [⟨"B"⟩], [⟨"D"⟩, ⟨"E"⟩]) := by
    decide +kernel
  obtain ⟨result, h, hclasses⟩ := exists_of_map_toOption_eq_some hclasses
  obtain ⟨result', h', hinheritance⟩ := exists_of_map_toOption_eq_some hinheritance
  obtain rfl := Except.ok.inj (h.symm.trans h')
  obtain ⟨c, hc, hsuper⟩ := Option.map_eq_some_iff.mp (congrArg Prod.fst hinheritance)
  refine ⟨result, h, congrArg Prod.fst hclasses, congrArg (fun r => r.2.1) hclasses,
    congrArg (fun r => r.2.2) hclasses, fun general => ?_,
    congrArg (fun r => r.2.1) hinheritance, congrArg (fun r => r.2.2) hinheritance⟩
  unfold Model.SuperEdge
  simp [hc, hsuper]

/-- The view takes in C, but not D. So it knows D above C, and not E. -/
theorem extractView_referringDocument_restrictsInheritance :
    ∃ result v, build viewedConfig none referringDocument = .ok result ∧
      result.model.IsObtained ∧ result.model.extractView .unknown ["V"] ⟨true, false⟩ = .ok v ∧
      v.RestrictsInheritance result.model ["V"] ∧
      ⟨"B"⟩ ∈ v.classHierarchy.parentsOf ⟨"A"⟩ ∧ ⟨"D"⟩ ∈ v.classHierarchy.parentsOf ⟨"C"⟩ ∧
      ⟨"E"⟩ ∉ v.classHierarchy.parentsOf ⟨"C"⟩ ∧
      ⟨"E"⟩ ∈ result.model.classHierarchy.parentsOf ⟨"C"⟩ := by
  obtain ⟨result, h, hseeds, hreferences, hkeys, hedge, hB, hDE⟩ := exists_build_referringDocument
  have hbuilt : result.model.IsObtained := .built h
  obtain ⟨v, hv, hrestricts⟩ :=
    extractView_restrictsInheritance hbuilt .unknown ["V"] ⟨true, false⟩
  obtain ⟨v', hv', hleast⟩ := hbuilt.isSound.1.isLeast_extractView .unknown ["V"] ⟨true, false⟩
  obtain rfl := Except.ok.inj (hv.symm.trans hv')
  have hreached := (Model.isExactView_of_isLeast hleast).of_references_followed rfl rfl
  have hseed : ∀ x, result.model.IsSeed ["V"] x ↔ x ∈ [⟨"A"⟩, ⟨"B"⟩] := by
    intro x
    rw [← Model.mem_seeds_iff, hseeds]
  have hrefers : ∀ x y, result.model.RefersTo x y ↔ x = ⟨"A"⟩ ∧ y = ⟨"C"⟩ := by
    intro x y
    rw [Model.refersTo_iff_mem_references, hreferences, hkeys]
    constructor
    · rintro ⟨hxy, _⟩
      obtain ⟨rfl, htext⟩ := Prod.mk.inj (List.mem_singleton.mp hxy)
      exact ⟨rfl, ElementId.ext htext⟩
    · rintro ⟨rfl, rfl⟩
      simp
  have hC : ⟨"C"⟩ ∈ v.classes.keys := by
    refine hreached.1.2 ⟨"A"⟩ (hreached.1.1 ⟨(hseed _).mpr List.mem_cons_self, ?_⟩) _
      ((hrefers _ _).mpr ⟨rfl, rfl⟩)
    rw [hkeys]
    exact List.mem_cons_self
  have hD : ⟨"D"⟩ ∉ v.classes.keys := by
    intro hD
    -- A, B and C are enough, so D is not in the least set
    have hmem : (⟨"D"⟩ : ElementId) ∈ {x | x ∈ [⟨"A"⟩, ⟨"B"⟩, ⟨"C"⟩]} := by
      refine hreached.2 ⟨fun x hx => ?_, fun x _ y hxy => ?_⟩ hD
      · exact List.mem_append_left [⟨"C"⟩] ((hseed x).mp hx.1)
      · rw [((hrefers x y).mp hxy).2]
        simp
    exact absurd hmem (by simp)
  refine ⟨result, v, h, hbuilt, hv, hrestricts, ?_, ?_, ?_, ?_⟩
  · rw [hrestricts.parentsOf_of_isSeed _ ((hseed _).mpr List.mem_cons_self),
      ← OrderedSet.mem_toList, hB]
    exact List.mem_cons_self
  · exact (hrestricts.mem_parentsOf_iff _ _).mpr (.single ⟨hC, (hedge _).mpr rfl⟩)
  · rw [hrestricts.mem_parentsOf_iff, TransGen.tail'_iff]
    rintro ⟨x, hpath, _, hx⟩
    obtain rfl := (hedge x).mp hx
    rcases reflTransGen_iff_eq_or_transGen.mp hpath with heq | hpath
    · simp at heq
    · obtain ⟨_, _, hclass, _⟩ := TransGen.tail'_iff.mp hpath
      exact hD hclass
  · rw [← OrderedSet.mem_toList, hDE]
    exact List.mem_cons_of_mem _ List.mem_cons_self

end UmlCatalog
