import UmlCatalog.Model.Basic

/-!
# Property index and back references

The index groups the properties of all classes by name. From it follow the distinct targets
of each name and, for every class, enumeration and datatype, the list of properties typed by
it. Both are rebuilt from scratch, so that earlier contents have no influence.
-/

namespace UmlCatalog

/-- The index key of a property that has no name. -/
def unnamedPropertyKey : String := "null"

namespace Property

/-- The key under which a property is indexed. -/
def indexKey (p : Property) : String := p.name.getD unnamedPropertyKey

/-- The text of the target, if there is one. -/
def targetKey? (p : Property) : Option String := p.target.map Target.key

end Property

namespace Model

/-- Every property of every class with its key, by class and then by position. -/
def propertyPlaces (m : Model) : List (String × PropertySource) :=
  m.classes.entries.flatMap fun e =>
    e.2.properties.zipIdx.map fun p => (p.1.indexKey, ⟨e.1, p.2⟩)

/-- Append a place to the entry of its name, which is made if it is new. -/
def appendSource (index : OrderedMap String PropertyEntry) (place : String × PropertySource) :
    OrderedMap String PropertyEntry :=
  let entry := (index.get? place.1).getD ⟨[], []⟩
  index.insert place.1 { entry with sources := entry.sources ++ [place.2] }

/-- Rebuild the property index, in order of first use. -/
def withPropertyIndex (m : Model) : Model :=
  { m with properties := m.propertyPlaces.foldl appendSource ∅ }

/-- The target keys of the properties of an entry, in source order. -/
def targetKeys (m : Model) (entry : PropertyEntry) : List String :=
  entry.sources.filterMap fun s => (m.property? s).bind Property.targetKey?

/-- The distinct target keys of an entry, in order of first appearance. -/
def minimalTypes (m : Model) (entry : PropertyEntry) : List String :=
  (OrderedSet.ofList (m.targetKeys entry)).toList

/-- The back references that the index gives, each with the key it points at. -/
def refereeEdges (m : Model) : List (String × Referee) :=
  m.properties.entries.flatMap fun e =>
    e.2.sources.filterMap fun s =>
      ((m.property? s).bind Property.targetKey?).map fun key => (key, ⟨s.classId, e.1⟩)

/-- The back references that point at one element. -/
def refereesAt (edges : List (String × Referee)) (id : ElementId) : List Referee :=
  edges.filterMap fun e => if e.1 = id.text then some e.2 else none

/-- Give an element its back references if its own kind is the one that the identifier
names, and none otherwise. -/
def refereesFor (m : Model) (edges : List (String × Referee)) (kind : ReferentKind)
    (id : ElementId) : List Referee :=
  if m.referentKind? id = some kind then refereesAt edges id else []

/-- Rebuild the distinct targets of every index entry and the back references of every
class, enumeration and datatype. -/
def withReferees (m : Model) : Model :=
  let edges := m.refereeEdges
  { m with
    classes := m.classes.mapWithKey fun id c =>
      { c with referees := m.refereesFor edges .umlClass id }
    properties := m.properties.map fun entry =>
      { entry with uniformType := m.minimalTypes entry }
    enums := m.enums.mapWithKey fun id e =>
      { e with referees := m.refereesFor edges .enumeration id }
    datatypes := m.datatypes.mapWithKey fun id d =>
      { d with referees := m.refereesFor edges .datatype id } }

end Model
end UmlCatalog
