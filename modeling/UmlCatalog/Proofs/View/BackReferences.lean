import UmlCatalog.Proofs.Model.Agreement
import UmlCatalog.Proofs.View.Copies

/-!
# Back references in a view

A view has its own index and its own back references. Since its classes have all the properties
that they have in the source, at the same positions, the index is that of the source without the
places in other classes. The same goes for the back references, unless an identifier stands for
several elements: a target names the first of them that is there, and the view may lack that one.
-/

namespace UmlCatalog

namespace Model
variable {m v : Model} {names : List String} {id : ElementId} {kind : ReferentKind}

/-- No identifier is shared by two of the classes, enumerations and datatypes. -/
def HasDistinctReferents (m : Model) : Prop :=
  ∀ id (kind kind' : ReferentKind), kind.isIn m id → kind'.isIn m id → kind = kind'

theorem hasDistinctReferents_of_nodup
    (h : (m.classes.keys ++ m.enums.keys ++ m.datatypes.keys).Nodup) :
    m.HasDistinctReferents := by
  rw [List.nodup_append', List.nodup_append', List.disjoint_append_left] at h
  obtain ⟨⟨_, _, hclassEnum⟩, _, hclassDatatype, henumDatatype⟩ := h
  intro id kind kind' hid hid'
  cases kind with
  | umlClass =>
      cases kind' with
      | umlClass => rfl
      | enumeration => exact (hclassEnum hid hid').elim
      | datatype => exact (hclassDatatype hid hid').elim
  | enumeration =>
      cases kind' with
      | umlClass => exact (hclassEnum hid' hid).elim
      | enumeration => rfl
      | datatype => exact (henumDatatype hid hid').elim
  | datatype =>
      cases kind' with
      | umlClass => exact (hclassDatatype hid' hid).elim
      | enumeration => exact (henumDatatype hid' hid).elim
      | datatype => rfl

/-- A target then names whatever has the identifier. -/
theorem HasDistinctReferents.referentKind?_eq (h : m.HasDistinctReferents)
    (hid : kind.isIn m id) : m.referentKind? id = some kind := by
  obtain ⟨kind', hkind'⟩ : ∃ kind', m.referentKind? id = some kind' := by
    unfold referentKind?
    split
    · exact ⟨_, rfl⟩
    · rename_i hclass
      split
      · exact ⟨_, rfl⟩
      · rename_i henum
        cases kind with
        | umlClass => exact absurd (OrderedMap.contains_iff.mpr hid) hclass
        | enumeration => exact absurd (OrderedMap.contains_iff.mpr hid) henum
        | datatype => exact ⟨_, if_pos (OrderedMap.contains_iff.mpr hid)⟩
  rw [hkind', h id kind' kind (ReferentKind.isIn_of_referentKind? hkind') hid]

/-- The index and the back references are what rebuilding them gives. -/
def IsIndexed (m : Model) : Prop := m.withPropertyIndex.withReferees = m

theorem isIndexed_withPropertyIndex (m : Model) : m.withPropertyIndex.withReferees.IsIndexed :=
  (hasExactReferees_withPropertyIndex m).2.2.1

theorem IsIndexed.hasExactReferees (hm : m.IsIndexed) : m.HasExactReferees := by
  rw [← hm]
  exact (hasExactReferees_withPropertyIndex m).1

/-- Building and extracting both end with the two passes. -/
theorem IsObtained.isIndexed (h : m.IsObtained) : m.IsIndexed := by
  cases h with
  | built h =>
      obtain ⟨root, d, _, rfl, _⟩ := exists_draft_of_build h
      exact isIndexed_withPropertyIndex _
  | extracted hsource h =>
      obtain ⟨_, _, h⟩ := exists_of_bind_eq_ok h
      obtain rfl := Except.ok.inj h
      exact isIndexed_withPropertyIndex _

/-- An index has an entry for each key of a property, with the places that have it. -/
theorem IsIndexed.map_get?_properties_eq_some_iff (hm : m.IsIndexed) {key : String}
    {sources : List PropertySource} :
    (m.properties.get? key).map PropertyEntry.sources = some sources ↔
      placesNamed m.propertyPlaces key = sources ∧ sources ≠ [] := by
  have hproperties : m.properties = m.withPropertyIndex.withReferees.properties := by rw [hm]
  rw [hproperties, properties_withReferees, OrderedMap.map, OrderedMap.get?_mapWithKey,
    Option.map_map]
  show ((m.propertyPlaces.foldl appendSource ∅).get? key).map PropertyEntry.sources = _ ↔ _
  rw [get?_foldl_appendSource]
  by_cases hnil : placesNamed m.propertyPlaces key = []
  · rw [if_pos hnil]
    refine iff_of_false nofun ?_
    rintro ⟨rfl, hne⟩
    exact hne hnil
  · rw [if_neg hnil, Option.map_some, Option.some.injEq]
    refine (and_iff_left_of_imp ?_).symm
    rintro rfl
    exact hnil

theorem IsIndexed.sources_eq (hm : m.IsIndexed) {key : String} {entry : PropertyEntry}
    (h : m.properties.get? key = some entry) :
    placesNamed m.propertyPlaces key = entry.sources ∧ entry.sources ≠ [] :=
  hm.map_get?_properties_eq_some_iff.mp (congrArg (Option.map PropertyEntry.sources) h)

theorem IsIndexed.exists_entry (hm : m.IsIndexed) {key : String}
    (h : placesNamed m.propertyPlaces key ≠ []) :
    ∃ entry, m.properties.get? key = some entry ∧
      entry.sources = placesNamed m.propertyPlaces key :=
  Option.map_eq_some_iff.mp (hm.map_get?_properties_eq_some_iff.mpr ⟨rfl, h⟩)

/-! ### Back references of single records -/

/-- The back references that the record of one kind has. -/
def ReferentKind.referees? (m : Model) (id : ElementId) : ReferentKind → Option (List Referee)
  | .umlClass => (m.classes.get? id).map Class.referees
  | .enumeration => (m.enums.get? id).map Enumeration.referees
  | .datatype => (m.datatypes.get? id).map Datatype.referees

theorem ReferentKind.isIn_of_referees? {referees : List Referee}
    (h : kind.referees? m id = some referees) : kind.isIn m id := by
  cases kind with
  | umlClass | enumeration | datatype =>
      obtain ⟨_, hrecord, _⟩ := Option.map_eq_some_iff.mp h
      exact OrderedMap.mem_keys_of_get? hrecord

/-- The record that a target names is the one with back references. -/
theorem referees?_eq_of_referentKind? (h : m.referentKind? id = some kind) :
    m.referees? id = kind.referees? m id := by
  unfold referees?
  rw [h]
  cases kind <;> rfl

namespace HasExactReferees

/-- Whatever is recorded has the back references of its identifier. -/
theorem referees?_eq_of_isIn (hm : m.HasExactReferees) (hdistinct : m.HasDistinctReferents)
    (hid : kind.isIn m id) : kind.referees? m id = some (m.backReferences id) := by
  have hkind := hdistinct.referentKind?_eq hid
  rw [← referees?_eq_of_referentKind? hkind]
  exact hm.referees?_eq id (hkind ▸ nofun)

theorem indexedPlaces_perm (hm : m.HasExactReferees) : m.indexedPlaces.Perm m.propertyPlaces := by
  refine List.perm_iff_count.mpr fun place => ?_
  rw [hm.count_indexedPlaces, m.nodup_propertyPlaces.count]
  exact if_congr mem_propertyPlaces_iff.symm rfl rfl

end HasExactReferees

/-! ### Places in the classes of a view -/

/-- What a view records, its source records as the same kind. -/
theorem CopiesRecords.isIn (h : v.CopiesRecords m names) (hid : kind.isIn v id) :
    kind.isIn m id := by
  cases kind with
  | umlClass =>
      obtain ⟨c, hc⟩ := Option.isSome_iff_exists.mp (OrderedMap.get?_isSome_iff.mpr hid)
      obtain ⟨old, hold, _⟩ := h.classes id c hc
      exact OrderedMap.mem_keys_of_get? hold
  | enumeration => exact ((h.mem_enums_iff id).mp hid).1
  | datatype => exact ((h.mem_datatypes_iff id).mp hid).1

/-- A place is where it is in the source, if its class is there. -/
theorem CopiesRecords.property?_eq (h : v.CopiesRecords m names) (source : PropertySource) :
    v.property? source =
      if v.classes.contains source.classId = true then m.property? source else none := by
  cases hc : v.classes.get? source.classId with
  | none =>
      rw [if_neg, property?, hc]
      · rfl
      · rw [OrderedMap.contains_iff]
        exact OrderedMap.get?_eq_none_iff.mp hc
  | some c =>
      obtain ⟨old, hold, hcopy⟩ := h.classes _ c hc
      rw [if_pos (OrderedMap.contains_iff.mpr (OrderedMap.mem_keys_of_get? hc)), property?,
        property?, hc, hold, hcopy]
      rfl

theorem CopiesRecords.propertyPlaces_perm (h : v.CopiesRecords m names) :
    v.propertyPlaces.Perm
      (m.propertyPlaces.filter fun place => v.classes.contains place.2.classId) := by
  refine (List.perm_ext_iff_of_nodup v.nodup_propertyPlaces
    (m.nodup_propertyPlaces.filter _)).mpr fun place => ?_
  rw [List.mem_filter, mem_propertyPlaces_iff, mem_propertyPlaces_iff, h.property?_eq]
  split
  · rename_i hclass
    exact (and_iff_left hclass).symm
  · rename_i hclass
    refine iff_of_false (fun hplace => ?_) fun hplace => hclass hplace.2
    cases hplace

theorem CopiesRecords.placesNamed_perm (h : v.CopiesRecords m names) (key : String) :
    (placesNamed v.propertyPlaces key).Perm ((placesNamed m.propertyPlaces key).filter
      fun source => v.classes.contains source.classId) := by
  refine ((h.propertyPlaces_perm.filter _).map Prod.snd).trans (.of_eq ?_)
  rw [placesNamed, List.filter_map, List.filter_filter, List.filter_filter]
  simp only [Function.comp_def, Bool.and_comm]

/-- What refers to an identifier in the view is what refers to it in the source from a class that
the view has. -/
theorem CopiesRecords.backReferences_perm (h : v.CopiesRecords m names)
    (hm : m.HasExactReferees) (id : ElementId) :
    (v.backReferences id).Perm
      ((m.backReferences id).filter fun r => v.classes.contains r.classId) := by
  let refer (m : Model) (place : String × PropertySource) : Option Referee :=
    if (m.property? place.2).bind Property.targetKey? = some id.text then
      some ⟨place.2.classId, place.1⟩
    else none
  have hplaces : v.indexedPlaces.Perm
      (m.indexedPlaces.filter fun place => v.classes.contains place.2.classId) :=
    (h.referees.indexedPlaces_perm.trans h.propertyPlaces_perm).trans
      (hm.indexedPlaces_perm.symm.filter _)
  have hrefer : ∀ place, v.classes.contains place.2.classId = true →
      refer v place = refer m place := by
    intro place hclass
    simp only [refer, h.property?_eq, if_pos hclass]
  have hfilter : ∀ places : List (String × PropertySource),
      (places.filter fun place => v.classes.contains place.2.classId).filterMap (refer v) =
        (places.filterMap (refer m)).filter fun r => v.classes.contains r.classId := by
    intro places
    rw [List.filterMap_filter, List.filter_filterMap]
    refine List.filterMap_congr fun place _ => ?_
    by_cases hclass : v.classes.contains place.2.classId = true
    · rw [if_pos hclass, hrefer place hclass]
      simp only [refer]
      split
      · exact (if_pos hclass).symm
      · rfl
    · rw [if_neg hclass]
      simp only [refer]
      split
      · exact (if_neg hclass).symm
      · rfl
  exact (hplaces.filterMap _).trans (.of_eq (hfilter _))

/-- The index and the back references are those of another model, as far as they come from classes
that are there. -/
structure FiltersReferees (v m : Model) : Prop where
  referees : ∀ (kind : ReferentKind) id referees, kind.referees? v id = some referees →
    ∃ old, kind.referees? m id = some old ∧
      referees.Perm (old.filter fun r => v.classes.contains r.classId)
  properties : ∀ key entry, v.properties.get? key = some entry →
    ∃ old, m.properties.get? key = some old ∧
      entry.sources.Perm (old.sources.filter fun source => v.classes.contains source.classId)
  /-- There is an entry exactly if it has a source. -/
  mem_properties_iff : ∀ key, key ∈ v.properties.keys ↔ ∃ old, m.properties.get? key = some old ∧
    ∃ source ∈ old.sources, source.classId ∈ v.classes.keys

theorem CopiesRecords.filtersReferees (h : v.CopiesRecords m names) (hv : v.IsIndexed)
    (hm : m.IsIndexed) (hdistinct : m.HasDistinctReferents) : v.FiltersReferees m where
  referees kind id referees hreferees := by
    have hid : kind.isIn v id := kind.isIn_of_referees? hreferees
    have hdistinct' : v.HasDistinctReferents := fun id kind kind' hid hid' =>
      hdistinct id kind kind' (h.isIn hid) (h.isIn hid')
    have heq := hv.hasExactReferees.referees?_eq_of_isIn hdistinct' hid
    obtain rfl := Option.some.inj (hreferees.symm.trans heq)
    exact ⟨_, hm.hasExactReferees.referees?_eq_of_isIn hdistinct (h.isIn hid),
      h.backReferences_perm hm.hasExactReferees id⟩
  properties key entry hentry := by
    obtain ⟨hsources, hne⟩ := hv.sources_eq hentry
    have hperm := h.placesNamed_perm key
    rw [hsources] at hperm
    have hsome : placesNamed m.propertyPlaces key ≠ [] := by
      intro hnil
      rw [hnil] at hperm
      exact hne hperm.eq_nil
    obtain ⟨old, hold, heq⟩ := hm.exists_entry hsome
    exact ⟨old, hold, heq ▸ hperm⟩
  mem_properties_iff key := by
    have hperm := h.placesNamed_perm key
    constructor
    · intro hkey
      obtain ⟨entry, hentry⟩ := Option.isSome_iff_exists.mp (OrderedMap.get?_isSome_iff.mpr hkey)
      obtain ⟨hsources, hne⟩ := hv.sources_eq hentry
      obtain ⟨source, hsource⟩ := List.exists_mem_of_ne_nil _ hne
      rw [← hsources, hperm.mem_iff, List.mem_filter, OrderedMap.contains_iff] at hsource
      obtain ⟨old, hold, heq⟩ := hm.exists_entry (List.ne_nil_of_mem hsource.1)
      exact ⟨old, hold, source, heq ▸ hsource.1, hsource.2⟩
    · rintro ⟨old, hold, source, hsource, hclass⟩
      rw [← (hm.sources_eq hold).1] at hsource
      have hmem : source ∈ placesNamed v.propertyPlaces key := by
        rw [hperm.mem_iff, List.mem_filter, OrderedMap.contains_iff]
        exact ⟨hsource, hclass⟩
      obtain ⟨entry, hentry, _⟩ := hv.exists_entry (List.ne_nil_of_mem hmem)
      exact OrderedMap.mem_keys_of_get? hentry

end Model

/-- The view of an obtained model in which no identifier stands for several elements has those
entries of the index and those back references that come from its own classes. -/
theorem extractView_filtersReferees {m : Model} (h : m.IsObtained)
    (hdistinct : m.HasDistinctReferents) (origin : ModelSource) (names : List String)
    (options : ViewOptions) :
    ∃ v, m.extractView origin names options = .ok v ∧ v.FiltersReferees m := by
  obtain ⟨hsound, hids⟩ := h.isSound
  obtain ⟨v, hv, _⟩ := hsound.isLeast_extractView origin names options
  have hcopies := Model.copiesRecords_of_extractView hsound hids hv
  exact ⟨v, hv, hcopies.filtersReferees (h.extracted hv).isIndexed h.isIndexed hdistinct⟩

/-- Classes A and B, both typed by an enumeration E. The only view has A as its only member. -/
def sharedDocument : Markup.Element :=
  let typed id name := ⟨"ownedAttribute",
    .ofList [("xmi:id", id), ("name", name), ("type", "E")], none, []⟩
  ⟨"uml:Model", .ofList [("xmi:id", "m")], none, [
    packaged "uml:Package" "p" [
      packaged "uml:Class" "A" [typed "a" "x"],
      packaged "uml:Class" "B" [typed "b" "x", typed "c" "y"],
      packaged "uml:Enumeration" "E" []],
    packaged "uml:Package" "views" [
      packaged "uml:Class" "V" [
        ⟨"elementImport", .ofList [("importedElement", "A")], none, []⟩]]]⟩

/-- Of the back references of E only that of A is left, and the name y is not indexed. -/
theorem extractView_sharedDocument_filtersReferees :
    ∃ result v, build viewedConfig none sharedDocument = .ok result ∧ result.model.IsObtained ∧
      result.model.HasDistinctReferents ∧
      result.model.extractView .unknown ["V"] ⟨false, false⟩ = .ok v ∧
      v.FiltersReferees result.model ∧
      (result.model.enums.get? ⟨"E"⟩).map Enumeration.referees =
        some [⟨⟨"A"⟩, "x"⟩, ⟨⟨"B"⟩, "x"⟩, ⟨⟨"B"⟩, "y"⟩] ∧
      (v.enums.get? ⟨"E"⟩).map Enumeration.referees = some [⟨⟨"A"⟩, "x"⟩] ∧
      "y" ∈ result.model.properties.keys ∧ "y" ∉ v.properties.keys := by
  have hrecords : (build viewedConfig none sharedDocument).toOption.map (fun r =>
      (View.seeds r.model (View.selected r.model ["V"]),
        r.model.classes.keys ++ r.model.enums.keys ++ r.model.datatypes.keys,
        (r.model.classes.get? ⟨"A"⟩).map fun c => c.properties.filterMap Property.targetKey?)) =
        some ([⟨"A"⟩], [⟨"A"⟩, ⟨"B"⟩, ⟨"E"⟩], some ["E"]) := by
    decide +kernel
  have hindex : (build viewedConfig none sharedDocument).toOption.map (fun r =>
      ((r.model.enums.get? ⟨"E"⟩).map Enumeration.referees,
        (r.model.properties.get? "y").map PropertyEntry.sources)) =
        some (some [⟨⟨"A"⟩, "x"⟩, ⟨⟨"B"⟩, "x"⟩, ⟨⟨"B"⟩, "y"⟩], some [⟨⟨"B"⟩, 1⟩]) := by
    decide +kernel
  obtain ⟨result, h, hrecords⟩ := exists_of_map_toOption_eq_some hrecords
  obtain ⟨result', h', hindex⟩ := exists_of_map_toOption_eq_some hindex
  obtain rfl := Except.ok.inj (h.symm.trans h')
  have hseeds : View.seeds result.model (View.selected result.model ["V"]) = [⟨"A"⟩] :=
    congrArg Prod.fst hrecords
  have hkeys : result.model.classes.keys ++ result.model.enums.keys ++
      result.model.datatypes.keys = [⟨"A"⟩, ⟨"B"⟩, ⟨"E"⟩] :=
    congrArg (fun r => r.2.1) hrecords
  obtain ⟨old, hold, htargets⟩ :=
    Option.map_eq_some_iff.mp (congrArg (fun r => r.2.2) hrecords)
  have hreferees : (result.model.enums.get? ⟨"E"⟩).map Enumeration.referees =
      some [⟨⟨"A"⟩, "x"⟩, ⟨⟨"B"⟩, "x"⟩, ⟨⟨"B"⟩, "y"⟩] := congrArg Prod.fst hindex
  obtain ⟨entry, hentry, hsources⟩ := Option.map_eq_some_iff.mp (congrArg Prod.snd hindex)
  have hbuilt : result.model.IsObtained := .built h
  have hdistinct : result.model.HasDistinctReferents := by
    apply Model.hasDistinctReferents_of_nodup
    rw [hkeys]
    decide
  obtain ⟨v, hv, hfilters⟩ :=
    extractView_filtersReferees hbuilt hdistinct .unknown ["V"] ⟨false, false⟩
  obtain ⟨hsound, hids⟩ := hbuilt.isSound
  have hcopies := Model.copiesRecords_of_extractView hsound hids hv
  have hclasses : ∀ x, x ∈ v.classes.keys ↔ x = ⟨"A"⟩ := by
    intro x
    rw [hsound.mem_keys_of_nothing_followed hv rfl, hseeds, List.mem_singleton]
    refine and_iff_left_of_imp ?_
    rintro rfl
    exact OrderedMap.mem_keys_of_get? hold
  have hcontains : ∀ x, v.classes.contains x = decide (x = ⟨"A"⟩) := by
    intro x
    rw [Bool.eq_iff_iff, OrderedMap.contains_iff, hclasses, decide_eq_true_iff]
  have hE : ⟨"E"⟩ ∈ v.enums.keys := by
    obtain ⟨_, henum, _⟩ := Option.map_eq_some_iff.mp hreferees
    rw [hcopies.mem_enums_iff, hcopies.isTargetKey_iff]
    refine ⟨OrderedMap.mem_keys_of_get? henum, ⟨"A"⟩, old, (hclasses _).mpr rfl, hold, ?_⟩
    rw [htargets]
    exact List.mem_cons_self
  obtain ⟨e, he⟩ := Option.isSome_iff_exists.mp (OrderedMap.get?_isSome_iff.mpr hE)
  have hkept : (v.enums.get? ⟨"E"⟩).map Enumeration.referees = some e.referees :=
    congrArg (Option.map Enumeration.referees) he
  refine ⟨result, v, h, hbuilt, hdistinct, hv, hfilters, hreferees, hkept.trans ?_,
    OrderedMap.mem_keys_of_get? hentry, ?_⟩
  · obtain ⟨_, hall, hperm⟩ := hfilters.referees .enumeration ⟨"E"⟩ _ hkept
    obtain rfl := Option.some.inj (hreferees.symm.trans hall)
    simp only [hcontains] at hperm
    exact congrArg some (List.perm_singleton.mp hperm)
  · rw [hfilters.mem_properties_iff]
    rintro ⟨entry', hentry', source, hsource, hclass⟩
    obtain rfl := Option.some.inj (hentry.symm.trans hentry')
    rw [hsources, List.mem_singleton] at hsource
    rw [hsource, hclasses] at hclass
    exact absurd hclass (by decide)

end UmlCatalog
