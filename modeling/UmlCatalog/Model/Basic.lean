import UmlCatalog.Hierarchy
import UmlCatalog.Model.Record

/-!
# Models

A model keeps every kind of element in a map of its own, keyed by identifier and ordered by
first declaration, together with the closure of class inheritance and package containment.
-/

namespace UmlCatalog

/-- A model whose elements are found by identifier. -/
structure Model where
  id : Option ElementId
  name : Option String
  source : ModelSource
  packages : OrderedMap ElementId Package
  classes : OrderedMap ElementId Class
  /-- The properties of all classes, by property name. -/
  properties : OrderedMap String PropertyEntry
  enums : OrderedMap ElementId Enumeration
  datatypes : OrderedMap ElementId Datatype
  imports : OrderedMap ElementId ElementImport
  associations : OrderedMap ElementId Association
  classHierarchy : Hierarchy
  packageHierarchy : Hierarchy
  views : List View
  deriving DecidableEq

namespace Model

/-- The model without elements. -/
def empty : Model where
  id := none
  name := none
  source := .unknown
  packages := ∅
  classes := ∅
  properties := ∅
  enums := ∅
  datatypes := ∅
  imports := ∅
  associations := ∅
  classHierarchy := ∅
  packageHierarchy := ∅
  views := []

instance : EmptyCollection Model := ⟨empty⟩

instance : Inhabited Model := ⟨empty⟩

/-- Refuse an identifier that a record of the arena has. -/
def requireNew {α : Type} (arena : Arena) (records : OrderedMap ElementId α) (id : ElementId) :
    Except ModelError Unit :=
  if records.contains id then .error (.duplicateId arena id) else .ok ()

theorem requireNew_eq_ok_iff {α : Type} {arena : Arena} {records : OrderedMap ElementId α}
    {id : ElementId} : requireNew arena records id = .ok () ↔ id ∉ records.keys := by
  unfold requireNew
  rw [← OrderedMap.contains_iff]
  split
  · rename_i hid
    constructor
    · intro he
      cases he
    · intro hnew
      exact absurd hid hnew
  · rename_i hid
    exact iff_of_true rfl hid

/-- Enter a record whose identifier is new in its arena. -/
def enterNew {α : Type} (arena : Arena) (records : OrderedMap ElementId α) (id : ElementId)
    (record : α) : Except ModelError (OrderedMap ElementId α) := do
  requireNew arena records id
  return records.insert id record

/-- Add a class whose identifier is new among classes. -/
def addClass (m : Model) (c : Class) : Except ModelError Model := do
  return { m with classes := ← enterNew .classes m.classes c.id c }

/-- Add an enumeration whose identifier is new among enumerations. -/
def addEnumeration (m : Model) (e : Enumeration) : Except ModelError Model := do
  return { m with enums := ← enterNew .enumerations m.enums e.id e }

/-- Add a datatype whose identifier is new among datatypes. -/
def addDatatype (m : Model) (d : Datatype) : Except ModelError Model := do
  return { m with datatypes := ← enterNew .datatypes m.datatypes d.id d }

/-- Add a package whose identifier is new among packages. -/
def addPackage (m : Model) (p : Package) : Except ModelError Model := do
  return { m with packages := ← enterNew .packages m.packages p.id p }

/-- Append an element to the list of a package. -/
def listElement (m : Model) (package : ElementId) (element : ElementRef) : Model :=
  { m with packages := m.packages.modify package fun p =>
      { p with elements := p.elements ++ [element] } }

/-- The kinds of element a property can be typed by. -/
inductive ReferentKind where
  | umlClass
  | enumeration
  | datatype
  deriving DecidableEq, Inhabited

/-- The word for a kind of referent. -/
def ReferentKind.word : ReferentKind → String
  | umlClass => "class"
  | enumeration => "enumeration"
  | datatype => "datatype"

/-- The kind of element that a target names. Where several arenas declare the identifier,
classes come before enumerations and these before datatypes. -/
def referentKind? (m : Model) (id : ElementId) : Option ReferentKind :=
  if m.classes.contains id then some .umlClass
  else if m.enums.contains id then some .enumeration
  else if m.datatypes.contains id then some .datatype
  else none

/-- The back references of a class, enumeration or datatype. -/
def referees? (m : Model) (id : ElementId) : Option (List Referee) :=
  match m.referentKind? id with
  | some .umlClass => (m.classes.get? id).map Class.referees
  | some .enumeration => (m.enums.get? id).map Enumeration.referees
  | some .datatype => (m.datatypes.get? id).map Datatype.referees
  | none => none

/-- The property at a place. -/
def property? (m : Model) (source : PropertySource) : Option Property :=
  (m.classes.get? source.classId).bind fun c => c.properties[source.index]?

/-- All indexed properties that share a name. -/
def propertiesNamed (m : Model) (name : String) : List Property :=
  match m.properties.get? name with
  | some entry => entry.sources.filterMap m.property?
  | none => []

/-- The first view that has a given name. -/
def viewNamed? (m : Model) (name : String) : Option View :=
  m.views.find? fun v => v.name = some name

end Model
end UmlCatalog
