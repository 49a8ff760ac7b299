import UmlCatalog.Proofs.Model.Referees
import UmlCatalog.Proofs.View.Pipeline

/-!
# The records of a view

A view takes its records from its source as they are. Only what says how other elements stand to
them is left behind: the associations of classes, and back references, which are made anew from the
classes of the view. Enumerations and datatypes are there exactly if these classes are typed by
them.
-/

namespace UmlCatalog

namespace Model

/-- Some property of some class has the identifier as its target key. -/
def IsTargetKey (m : Model) (id : ElementId) : Prop :=
  ∃ k c p, m.classes.get? k = some c ∧ p ∈ c.properties ∧ p.targetKey? = some id.text

/-- A model has records of another one for the views of the given names. The classes may be any; the
value types are those that they need. -/
structure CopiesRecords (v m : Model) (names : List String) : Prop where
  classes : ∀ id c, v.classes.get? id = some c → ∃ old, m.classes.get? id = some old ∧
    c = { old with associations := ∅, referees := c.referees }
  mem_enums_iff : ∀ id, id ∈ v.enums.keys ↔ id ∈ m.enums.keys ∧ v.IsTargetKey id
  enums : ∀ id e, v.enums.get? id = some e → ∃ old, m.enums.get? id = some old ∧
    e = { old with referees := e.referees }
  mem_datatypes_iff : ∀ id, id ∈ v.datatypes.keys ↔ id ∈ m.datatypes.keys ∧ v.IsTargetKey id
  datatypes : ∀ id d, v.datatypes.get? id = some d → ∃ old, m.datatypes.get? id = some old ∧
    d = { old with referees := d.referees }
  /-- The back references are those of the properties that the view has. -/
  referees : v.HasExactReferees
  imports : v.imports = ∅
  associations : v.associations = ∅
  views : v.views = m.views.filter fun view => view.name.any names.contains

/-- What the classes are typed by can be read off the records of the source. -/
theorem CopiesRecords.isTargetKey_iff {v m : Model} {names : List String}
    (h : v.CopiesRecords m names) {id : ElementId} :
    v.IsTargetKey id ↔ ∃ k old, k ∈ v.classes.keys ∧ m.classes.get? k = some old ∧
      id.text ∈ old.properties.filterMap Property.targetKey? := by
  constructor
  · rintro ⟨k, c, p, hc, hp, hkey⟩
    obtain ⟨old, hold, hcopy⟩ := h.classes k c hc
    rw [hcopy] at hp
    exact ⟨k, old, OrderedMap.mem_keys_of_get? hc, hold, List.mem_filterMap.mpr ⟨p, hp, hkey⟩⟩
  · rintro ⟨k, old, hk, hold, hid⟩
    obtain ⟨c, hc⟩ := Option.isSome_iff_exists.mp (OrderedMap.get?_isSome_iff.mpr hk)
    obtain ⟨old', hold', hcopy⟩ := h.classes k c hc
    obtain rfl := Option.some.inj (hold.symm.trans hold')
    obtain ⟨p, hp, hkey⟩ := List.mem_filterMap.mp hid
    exact ⟨k, c, p, hc, by rw [hcopy]; exact hp, hkey⟩

end Model

namespace View
variable {source : Model} {origin : ModelSource} {names : List String}
  {copies : OrderedMap ElementId Class} {s : Surroundings} {id : ElementId} {kind : ElementKind}

/-- What the copies want as a value type is what the view is typed by. -/
theorem wanted_valueType_iff (hkind : kind = .enumeration ∨ kind = .datatype) :
    Wanted copies ⟨kind, id⟩ ↔
      (assemble source origin names copies s).withPropertyIndex.withReferees.IsTargetKey id := by
  have hget : ∀ k, (assemble source origin names copies s).withPropertyIndex.withReferees.classes.get?
      k = _ := OrderedMap.get?_mapWithKey _ copies
  constructor
  · rintro (hmem | @⟨_, k, _, c, p, _, record, property, typed⟩)
    · rcases hkind with hkind | hkind <;> cases hkind
    · exact ⟨k, _, p, (hget k).trans (congrArg (Option.map _) record), property, typed⟩
  · rintro ⟨k, c, p, hc, hp, htyped⟩
    rw [hget] at hc
    obtain ⟨x, hx, rfl⟩ := Option.map_eq_some_iff.mp hc
    exact .valueType hkind hx hp htyped

theorem Gathered.copiesRecords (hg : Gathered source copies s) :
    (assemble source origin names copies s).withPropertyIndex.withReferees.CopiesRecords source
      names where
  classes id c hc := by
    obtain ⟨old, hold, rfl⟩ := hg.classes.exists_of_get?_mapWithKey hc
    exact ⟨old, hold, rfl⟩
  mem_enums_iff id := by
    rw [← wanted_valueType_iff (Or.inl rfl), and_comm]
    exact (OrderedMap.keys_mapWithKey _ s.enums).symm ▸ hg.enums.mem_keys_iff
  enums id e he := by
    obtain ⟨old, hold, rfl⟩ := hg.enums.exists_of_get?_mapWithKey he
    exact ⟨old, hold, rfl⟩
  mem_datatypes_iff id := by
    rw [← wanted_valueType_iff (Or.inr rfl), and_comm]
    exact (OrderedMap.keys_mapWithKey _ s.datatypes).symm ▸ hg.datatypes.mem_keys_iff
  datatypes id d hd := by
    obtain ⟨old, hold, rfl⟩ := hg.datatypes.exists_of_get?_mapWithKey hd
    exact ⟨old, hold, rfl⟩
  referees := (assemble source origin names copies s).withPropertyIndex.hasExactReferees_withReferees
    (Model.count_indexedPlaces_withPropertyIndex _)
  imports := rfl
  associations := rfl
  views := rfl

end View

theorem Model.copiesRecords_of_extractView {m v : Model} {origin : ModelSource}
    {names : List String} {options : ViewOptions} (hm : m.IsSound) (hids : m.KeepsIds)
    (h : m.extractView origin names options = .ok v) : v.CopiesRecords m names := by
  obtain ⟨copies, s, hg, rfl⟩ := exists_gathered_of_extractView hm hids h
  exact hg.copiesRecords

/-- A view of an obtained model has records of the model, with the value types that its classes are
typed by and with no others. -/
theorem extractView_copiesRecords {m : Model} (h : m.IsObtained) (origin : ModelSource)
    (names : List String) (options : ViewOptions) :
    ∃ v, m.extractView origin names options = .ok v ∧ v.CopiesRecords m names := by
  obtain ⟨hsound, hids⟩ := h.isSound
  obtain ⟨v, hv, _⟩ := hsound.isLeast_extractView origin names options
  exact ⟨v, hv, Model.copiesRecords_of_extractView hsound hids hv⟩

/-- A class A that is typed by an enumeration E and a class C, which is typed by an enumeration F.
The only view has A as its only member. -/
def typedDocument : Markup.Element :=
  ⟨"uml:Model", .ofList [("xmi:id", "m")], none, [
    packaged "uml:Package" "p" [
      packaged "uml:Class" "A" [
        ⟨"ownedAttribute", .ofList [("xmi:id", "a"), ("type", "E")], none, []⟩,
        ⟨"ownedAttribute", .ofList [("xmi:id", "b"), ("type", "C")], none, []⟩],
      packaged "uml:Class" "C" [
        ⟨"ownedAttribute", .ofList [("xmi:id", "c"), ("type", "F")], none, []⟩],
      packaged "uml:Enumeration" "E" [],
      packaged "uml:Enumeration" "F" []],
    packaged "uml:Package" "views" [
      packaged "uml:Class" "V" [
        ⟨"elementImport", .ofList [("importedElement", "A")], none, []⟩]]]⟩

/-- A view that does not follow references needs the enumeration of its own class, and not the one
of the class that it refers to. -/
theorem extractView_typedDocument_copiesRecords :
    ∃ result v, build viewedConfig none typedDocument = .ok result ∧ result.model.IsObtained ∧
      result.model.extractView .unknown ["V"] ⟨false, false⟩ = .ok v ∧
      v.CopiesRecords result.model ["V"] ∧
      result.model.enums.keys = [⟨"E"⟩, ⟨"F"⟩] ∧ ⟨"E"⟩ ∈ v.enums.keys ∧ ⟨"F"⟩ ∉ v.enums.keys := by
  have hfacts : (build viewedConfig none typedDocument).toOption.map (fun r =>
      (View.seeds r.model (View.selected r.model ["V"]), r.model.enums.keys,
        (r.model.classes.get? ⟨"A"⟩).map fun c => c.properties.filterMap Property.targetKey?)) =
        some ([⟨"A"⟩], [⟨"E"⟩, ⟨"F"⟩], some ["E", "C"]) := by
    decide +kernel
  cases h : build viewedConfig none typedDocument with
  | error e =>
      rw [h] at hfacts
      cases hfacts
  | ok result =>
      rw [h] at hfacts
      have hfacts := Option.some.inj hfacts
      have hseeds : View.seeds result.model (View.selected result.model ["V"]) = [⟨"A"⟩] :=
        congrArg Prod.fst hfacts
      have henums : result.model.enums.keys = [⟨"E"⟩, ⟨"F"⟩] := congrArg (fun r => r.2.1) hfacts
      obtain ⟨old, hold, htargets⟩ := Option.map_eq_some_iff.mp (congrArg (fun r => r.2.2) hfacts)
      have hbuilt : result.model.IsObtained := .built h
      obtain ⟨v, hv, hcopies⟩ := extractView_copiesRecords hbuilt .unknown ["V"] ⟨false, false⟩
      obtain ⟨v', hv', hleast⟩ :=
        hbuilt.isSound.1.isLeast_extractView .unknown ["V"] ⟨false, false⟩
      obtain rfl := Except.ok.inj (hv.symm.trans hv')
      have hshown := (Model.isExactView_of_isLeast hleast).of_nothing_followed rfl
      have hkeys : ∀ k, k ∈ v.classes.keys ↔ k = ⟨"A"⟩ := by
        intro k
        refine (Set.ext_iff.mp hshown k).trans ?_
        show result.model.IsSeed ["V"] k ∧ k ∈ result.model.classes.keys ↔ _
        rw [← Model.mem_seeds_iff, hseeds, List.mem_singleton]
        refine and_iff_left_of_imp ?_
        rintro rfl
        exact OrderedMap.mem_keys_of_get? hold
      refine ⟨result, v, rfl, hbuilt, hv, hcopies, henums, ?_, ?_⟩
      · rw [hcopies.mem_enums_iff, henums, hcopies.isTargetKey_iff]
        refine ⟨by decide, ⟨"A"⟩, old, (hkeys _).mpr rfl, hold, ?_⟩
        rw [htargets]
        decide
      · rw [hcopies.mem_enums_iff, hcopies.isTargetKey_iff]
        rintro ⟨_, k, old', hk, hold', htyped⟩
        obtain rfl := (hkeys k).mp hk
        obtain rfl := Option.some.inj (hold.symm.trans hold')
        rw [htargets] at htyped
        exact absurd htyped (by decide)

end UmlCatalog
