import UmlCatalog.Proofs.Model.Index

/-!
# Back references are those of the index

Rebuilding the index of a model and then its back references gives each element the properties
typed by it, in the order of the index. Both depend on what the model declares and on nothing that
an earlier pass left behind, so a second time they change nothing.
-/

namespace UmlCatalog
namespace Model
variable {m : Model}

/-- The properties typed by an element, in the order in which the index names them. -/
def backReferences (m : Model) (id : ElementId) : List Referee :=
  m.indexedPlaces.filterMap fun place =>
    if (m.property? place.2).bind Property.targetKey? = some id.text then
      some ⟨place.2.classId, place.1⟩
    else none

/-- A model without its index and its back references: all that these are made from, and all that
making them leaves alone. -/
def unindexed (m : Model) : Model :=
  { m with
    properties := ∅
    classes := m.classes.map fun c => { c with referees := [] }
    enums := m.enums.map fun e => { e with referees := [] }
    datatypes := m.datatypes.map fun d => { d with referees := [] } }

/-- The index and the back references of a model agree with its properties. -/
structure HasExactReferees (m : Model) : Prop where
  /-- The index names each property once, under its own key, and nothing else. -/
  count_indexedPlaces : ∀ place, m.indexedPlaces.count place =
    if (m.property? place.2).map Property.indexKey = some place.1 then 1 else 0
  /-- An element that a target can name is referred to by the properties typed by it. -/
  referees?_eq : ∀ id, m.referentKind? id ≠ none → m.referees? id = some (m.backReferences id)
  /-- An enumeration behind a class of the same identifier is referred to by nothing. -/
  enumeration_shadowed : ∀ id e, m.enums.get? id = some e →
    m.referentKind? id ≠ some .enumeration → e.referees = []
  /-- A datatype behind a class or an enumeration of the same identifier is referred to by
  nothing. -/
  datatype_shadowed : ∀ id d, m.datatypes.get? id = some d →
    m.referentKind? id ≠ some .datatype → d.referees = []
  /-- The types of an entry are the targets of its properties, in the order of first mention. -/
  uniformType : ∀ key entry, m.properties.get? key = some entry →
    IsFirstMention entry.uniformType (m.targetKeys entry)

section Records
variable (m : Model)

theorem classes_withReferees : m.withReferees.classes = m.classes.mapWithKey fun id c =>
    { c with referees := m.refereesFor m.refereeEdges .umlClass id } := rfl

theorem enums_withReferees : m.withReferees.enums = m.enums.mapWithKey fun id e =>
    { e with referees := m.refereesFor m.refereeEdges .enumeration id } := rfl

theorem datatypes_withReferees : m.withReferees.datatypes = m.datatypes.mapWithKey fun id d =>
    { d with referees := m.refereesFor m.refereeEdges .datatype id } := rfl

theorem properties_withReferees : m.withReferees.properties =
    m.properties.map fun entry => { entry with uniformType := m.minimalTypes entry } := rfl

end Records

theorem property?_mapWithKey_referees {classes : OrderedMap ElementId Class}
    (f : ElementId → List Referee) (source : PropertySource)
    (h : m.classes = classes.mapWithKey fun id c => { c with referees := f id }) :
    m.property? source =
      (classes.get? source.classId).bind fun c => c.properties[source.index]? := by
  rw [property?, h, OrderedMap.get?_mapWithKey]
  cases classes.get? source.classId <;> rfl

/-- Back references are no part of a property. -/
theorem property?_withReferees (m : Model) (source : PropertySource) :
    m.withReferees.property? source = m.property? source :=
  property?_mapWithKey_referees _ source rfl

theorem property?_unindexed (m : Model) (source : PropertySource) :
    m.unindexed.property? source = m.property? source :=
  property?_mapWithKey_referees (fun _ => []) source rfl

/-- The kind that a target names depends on the identifiers alone. -/
theorem referentKind?_congr {m' : Model} (hc : m'.classes.keys.Perm m.classes.keys)
    (he : m'.enums.keys.Perm m.enums.keys) (hd : m'.datatypes.keys.Perm m.datatypes.keys)
    (id : ElementId) : m'.referentKind? id = m.referentKind? id := by
  unfold referentKind? OrderedMap.contains
  rw [hc.contains_eq, he.contains_eq, hd.contains_eq]

theorem referentKind?_withReferees (m : Model) (id : ElementId) :
    m.withReferees.referentKind? id = m.referentKind? id :=
  referentKind?_congr (.of_eq (OrderedMap.keys_mapWithKey _ _))
    (.of_eq (OrderedMap.keys_mapWithKey _ _)) (.of_eq (OrderedMap.keys_mapWithKey _ _)) id

theorem referentKind?_unindexed (m : Model) (id : ElementId) :
    m.unindexed.referentKind? id = m.referentKind? id :=
  referentKind?_congr (.of_eq (OrderedMap.keys_map _ _)) (.of_eq (OrderedMap.keys_map _ _))
    (.of_eq (OrderedMap.keys_map _ _)) id

/-- The keys of an arena that a kind of referent belongs to. -/
def ReferentKind.isIn (m : Model) (id : ElementId) : ReferentKind → Prop
  | .umlClass => id ∈ m.classes.keys
  | .enumeration => id ∈ m.enums.keys
  | .datatype => id ∈ m.datatypes.keys

theorem ReferentKind.isIn_of_referentKind? {id : ElementId} {kind : ReferentKind}
    (h : m.referentKind? id = some kind) : kind.isIn m id := by
  unfold referentKind? at h
  split at h
  · rename_i hid
    obtain rfl := Option.some.inj h
    exact OrderedMap.contains_iff.mp hid
  · split at h
    · rename_i hid
      obtain rfl := Option.some.inj h
      exact OrderedMap.contains_iff.mp hid
    · split at h
      · rename_i hid
        obtain rfl := Option.some.inj h
        exact OrderedMap.contains_iff.mp hid
      · cases h

/-- The edges of an index that point at an element are the properties typed by it. -/
theorem refereesAt_refereeEdges (m : Model) (id : ElementId) :
    refereesAt m.refereeEdges id = m.backReferences id := by
  unfold refereesAt refereeEdges backReferences indexedPlaces placesIn
  rw [List.filterMap_flatMap, List.filterMap_flatMap]
  congr 1
  funext e
  rw [List.filterMap_filterMap, List.filterMap_map]
  congr 1
  funext source
  cases hkey : (m.property? source).bind Property.targetKey? with
  | none => simp [hkey]
  | some key => simp [hkey]

/-- The places of the index stay when its types are rebuilt. -/
theorem indexedPlaces_withReferees (m : Model) :
    m.withReferees.indexedPlaces = m.indexedPlaces := by
  show placesIn (m.properties.map _) = placesIn m.properties
  unfold placesIn OrderedMap.map OrderedMap.mapWithKey
  rw [List.flatMap_map]

theorem backReferences_withReferees (m : Model) (id : ElementId) :
    m.withReferees.backReferences id = m.backReferences id := by
  unfold backReferences
  simp only [indexedPlaces_withReferees, property?_withReferees]

theorem targetKeys_withReferees (m : Model) {old new : PropertyEntry}
    (h : new.sources = old.sources) : m.withReferees.targetKeys new = m.targetKeys old := by
  unfold targetKeys
  simp only [h, property?_withReferees]

/-- What an element is given by the pass over the index. -/
theorem referees?_withReferees (m : Model) {id : ElementId} (h : m.referentKind? id ≠ none) :
    m.withReferees.referees? id = some (m.backReferences id) := by
  obtain ⟨kind, hkind⟩ := Option.ne_none_iff_exists'.mp h
  have hin := ReferentKind.isIn_of_referentKind? hkind
  have hgiven : m.refereesFor m.refereeEdges kind id = m.backReferences id := by
    rw [refereesFor, if_pos hkind, refereesAt_refereeEdges]
  unfold referees?
  rw [referentKind?_withReferees, hkind]
  cases kind with
  | umlClass =>
      obtain ⟨c, hc⟩ := Option.isSome_iff_exists.mp (OrderedMap.get?_isSome_iff.mpr hin)
      show ((m.classes.mapWithKey _).get? id).map Class.referees = _
      rw [OrderedMap.get?_mapWithKey, hc, ← hgiven]
      rfl
  | enumeration =>
      obtain ⟨e, he⟩ := Option.isSome_iff_exists.mp (OrderedMap.get?_isSome_iff.mpr hin)
      show ((m.enums.mapWithKey _).get? id).map Enumeration.referees = _
      rw [OrderedMap.get?_mapWithKey, he, ← hgiven]
      rfl
  | datatype =>
      obtain ⟨d, hd⟩ := Option.isSome_iff_exists.mp (OrderedMap.get?_isSome_iff.mpr hin)
      show ((m.datatypes.mapWithKey _).get? id).map Datatype.referees = _
      rw [OrderedMap.get?_mapWithKey, hd, ← hgiven]
      rfl

/-- A pass over an exact index makes the back references exact, whatever they were. -/
theorem hasExactReferees_withReferees (m : Model)
    (hcount : ∀ place, m.indexedPlaces.count place =
      if (m.property? place.2).map Property.indexKey = some place.1 then 1 else 0) :
    m.withReferees.HasExactReferees where
  count_indexedPlaces place := by
    rw [indexedPlaces_withReferees, property?_withReferees]
    exact hcount place
  referees?_eq id h := by
    rw [referentKind?_withReferees] at h
    rw [backReferences_withReferees]
    exact m.referees?_withReferees h
  enumeration_shadowed id e he hkind := by
    rw [referentKind?_withReferees] at hkind
    have hget : ((m.enums.mapWithKey _).get? id) = some e := he
    rw [OrderedMap.get?_mapWithKey] at hget
    obtain ⟨old, _, rfl⟩ := Option.map_eq_some_iff.mp hget
    exact if_neg hkind
  datatype_shadowed id d hd hkind := by
    rw [referentKind?_withReferees] at hkind
    have hget : ((m.datatypes.mapWithKey _).get? id) = some d := hd
    rw [OrderedMap.get?_mapWithKey] at hget
    obtain ⟨old, _, rfl⟩ := Option.map_eq_some_iff.mp hget
    exact if_neg hkind
  uniformType key entry hentry := by
    have hget : ((m.properties.mapWithKey _).get? key) = some entry := hentry
    rw [OrderedMap.get?_mapWithKey] at hget
    obtain ⟨old, _, rfl⟩ := Option.map_eq_some_iff.mp hget
    rw [m.targetKeys_withReferees rfl]
    exact OrderedSet.isFirstMention_ofList _

/-- A change of all values after another one is one change. -/
theorem mapWithKey_map {α β : Type} (f : α → β) (g : ElementId → β → α)
    (records : OrderedMap ElementId α) :
    (records.map f).mapWithKey g = records.mapWithKey fun id r => g id (f r) := by
  apply OrderedMap.ext
  show (records.entries.map _).map _ = _
  rw [List.map_map]
  rfl

/-- A change of all values is lost on what another one forgets. -/
theorem map_mapWithKey {α β : Type} (f : α → β) (g : ElementId → α → α)
    (records : OrderedMap ElementId α) (h : ∀ id r, f (g id r) = f r) :
    (records.mapWithKey g).map f = records.map f := by
  apply OrderedMap.ext
  show (records.entries.map _).map _ = records.entries.map _
  rw [List.map_map]
  exact List.map_congr_left fun e _ => congrArg (Prod.mk e.1) (h e.1 e.2)

theorem propertyPlaces_unindexed (m : Model) : m.unindexed.propertyPlaces = m.propertyPlaces := by
  unfold propertyPlaces unindexed OrderedMap.map OrderedMap.mapWithKey
  rw [List.flatMap_map]

/-- Back references are made from the index and from what else the model declares, not from earlier
back references. -/
theorem withReferees_unindexed (m : Model) :
    withReferees { m.unindexed with properties := m.properties } = m.withReferees := by
  let bare : Model := { m.unindexed with properties := m.properties }
  have hproperty : ∀ source, bare.property? source = m.property? source := property?_unindexed m
  have hkind : ∀ id, bare.referentKind? id = m.referentKind? id := referentKind?_unindexed m
  have hedges : bare.refereeEdges = m.refereeEdges := by
    unfold refereeEdges
    simp only [hproperty]
    rfl
  have hgiven : ∀ edges kind id,
      bare.refereesFor edges kind id = m.refereesFor edges kind id := by
    intro edges kind id
    rw [refereesFor, refereesFor, hkind]
  have htypes : ∀ entry, bare.minimalTypes entry = m.minimalTypes entry := by
    intro entry
    unfold minimalTypes targetKeys
    simp only [hproperty]
  show bare.withReferees = m.withReferees
  unfold withReferees
  simp only [hedges, hgiven, htypes]
  simp only [bare, unindexed, mapWithKey_map]

/-- Both passes together depend on nothing that they make. -/
theorem withReferees_withPropertyIndex_unindexed (m : Model) :
    m.unindexed.withPropertyIndex.withReferees = m.withPropertyIndex.withReferees := by
  have hindex : m.unindexed.withPropertyIndex = { m.withPropertyIndex.unindexed with
      properties := m.withPropertyIndex.properties } := by
    unfold withPropertyIndex
    rw [propertyPlaces_unindexed]
    rfl
  rw [hindex, withReferees_unindexed]

/-- Both passes together change nothing but what they make. -/
theorem unindexed_withReferees_withPropertyIndex (m : Model) :
    m.withPropertyIndex.withReferees.unindexed = m.unindexed := by
  let made := m.withPropertyIndex.withReferees
  have hclasses : made.unindexed.classes = m.unindexed.classes := by
    refine map_mapWithKey (fun c => { c with referees := [] }) _ m.classes ?_
    exact fun _ _ => rfl
  have henums : made.unindexed.enums = m.unindexed.enums := by
    refine map_mapWithKey (fun e => { e with referees := [] }) _ m.enums ?_
    exact fun _ _ => rfl
  have hdatatypes : made.unindexed.datatypes = m.unindexed.datatypes := by
    refine map_mapWithKey (fun d => { d with referees := [] }) _ m.datatypes ?_
    exact fun _ _ => rfl
  calc made.unindexed
    _ = { m.unindexed with
          classes := made.unindexed.classes
          enums := made.unindexed.enums
          datatypes := made.unindexed.datatypes } := rfl
    _ = m.unindexed := by rw [hclasses, henums, hdatatypes]

/-- After both passes the index names every property once, every element that a target can name is
referred to by exactly the properties typed by it, in the order of the index, and the records behind
it by none. Nothing else of the model changes, and whatever index and back references it had before
is of no influence. -/
theorem hasExactReferees_withPropertyIndex (m : Model) :
    m.withPropertyIndex.withReferees.HasExactReferees ∧
      m.withPropertyIndex.withReferees.unindexed = m.unindexed ∧
      m.withPropertyIndex.withReferees.withPropertyIndex.withReferees =
        m.withPropertyIndex.withReferees ∧
      ∀ m' : Model, m'.unindexed = m.unindexed →
        m'.withPropertyIndex.withReferees = m.withPropertyIndex.withReferees := by
  have hsame : ∀ m' : Model, m'.unindexed = m.unindexed →
      m'.withPropertyIndex.withReferees = m.withPropertyIndex.withReferees := by
    intro m' h
    calc m'.withPropertyIndex.withReferees
      _ = m'.unindexed.withPropertyIndex.withReferees :=
        m'.withReferees_withPropertyIndex_unindexed.symm
      _ = m.unindexed.withPropertyIndex.withReferees := by rw [h]
      _ = m.withPropertyIndex.withReferees := m.withReferees_withPropertyIndex_unindexed
  have hrest := m.unindexed_withReferees_withPropertyIndex
  exact ⟨m.withPropertyIndex.hasExactReferees_withReferees m.count_indexedPlaces_withPropertyIndex,
    hrest, hsame _ hrest, hsame⟩

/-- A property of this name and target, without anything else. -/
def typedProperty (id classId : String) (name : Option String) (target : Target) : Property :=
  .declared ⟨id⟩ ⟨classId⟩ name (some target) defaultLower unlimited none []

/-- An enumeration E in front of a datatype E, and classes A and B whose properties are typed by
them and by a datatype D. A reference that an earlier pass has left points at both records named
E. -/
def shadowingModel (stale : List Referee) : Model :=
  { (∅ : Model) with
    classes := .ofList [
      (⟨"A"⟩, { Class.bare ⟨"A"⟩ none with
        properties := [typedProperty "a" "A" (some "x") (.idref ⟨"E"⟩)] }),
      (⟨"B"⟩, { Class.bare ⟨"B"⟩ none with
        properties := [typedProperty "b" "B" none (.href "D"),
          typedProperty "c" "B" (some "x") (.idref ⟨"E"⟩)] })]
    enums := .ofList [(⟨"E"⟩, ⟨⟨"E"⟩, none, [], [], stale, []⟩)]
    datatypes := .ofList [(⟨"E"⟩, ⟨⟨"E"⟩, none, [], stale, []⟩),
      (⟨"D"⟩, ⟨⟨"D"⟩, none, [], [], []⟩)] }

theorem hasExactReferees_shadowingModel :
    let stale := shadowingModel [⟨⟨"gone"⟩, "y"⟩]
    let made := stale.withPropertyIndex.withReferees
    made.HasExactReferees ∧
      (shadowingModel []).unindexed = stale.unindexed ∧
      (shadowingModel []).withPropertyIndex.withReferees = made ∧
      made.referees? ⟨"E"⟩ = some [⟨⟨"A"⟩, "x"⟩, ⟨⟨"B"⟩, "x"⟩] ∧
      made.referees? ⟨"D"⟩ = some [⟨⟨"B"⟩, "null"⟩] ∧
      (made.datatypes.get? ⟨"E"⟩).map Datatype.referees = some [] := by
  intro stale made
  have hexact := hasExactReferees_withPropertyIndex stale
  have hsame : (shadowingModel []).unindexed = stale.unindexed := by decide
  have hreferees : made.referees? ⟨"E"⟩ = some [⟨⟨"A"⟩, "x"⟩, ⟨⟨"B"⟩, "x"⟩] ∧
      made.referees? ⟨"D"⟩ = some [⟨⟨"B"⟩, "null"⟩] ∧
      (made.datatypes.get? ⟨"E"⟩).map Datatype.referees = some [] := by
    decide +kernel
  exact ⟨hexact.1, hsame, hexact.2.2.2 _ hsame, hreferees⟩

end Model
end UmlCatalog
