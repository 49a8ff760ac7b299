import UmlCatalog.Model.Basic
import UmlCatalog.Wire.Reading
import UmlCatalog.Wire.Value

/-!
# The written form of models

For each record, how it is written and how it is read. Fields are written in a fixed order;
names that are absent and collections marked so below are left out when empty. On reading,
the order of fields is free and an upper bound is normalized.
-/

namespace UmlCatalog
open WireValue

/-! ## Writing -/

/-- A map as a record whose fields are the entries. -/
def OrderedMap.toWire {κ α : Type} (key : κ → String) (write : α → WireValue)
    (m : OrderedMap κ α) : WireValue :=
  record (m.entries.map fun e => (key e.1, write e.2))

/-- A set as a list. -/
def OrderedSet.toWire {κ : Type} (write : κ → WireValue) (s : OrderedSet κ) : WireValue :=
  listOf write s.toList

/-- An identifier is written as its text. -/
def ElementId.toWire (id : ElementId) : WireValue := .text id.text

/-- A list of texts. -/
def WireValue.texts (l : List String) : WireValue := listOf text l

/-- A list of identifiers. -/
def WireValue.ids (l : List ElementId) : WireValue := listOf ElementId.toWire l

/-- An aggregation kind is written as its word. -/
def Aggregation.toWire (a : Aggregation) : WireValue := text a.word

/-- The target is written under the name of its kind. -/
def Property.toWire (p : Property) : WireValue :=
  record <|
    field "id" p.id.toWire ++
    field "classId" p.classId.toWire ++
    optionalField "name" text p.name ++
    optionalField "idref" ElementId.toWire (p.target.bind Target.idref?) ++
    optionalField "href" text (p.target.bind Target.href?) ++
    field "lower" (text p.lower) ++
    field "upper" (text p.upper) ++
    optionalField "aggregation" Aggregation.toWire p.aggregation ++
    optionalField "association" ElementId.toWire p.association ++
    field "comments" (texts p.comments)

def ElementRef.toWire (e : ElementRef) : WireValue :=
  record (field "type" (text e.kind.word) ++ field "id" e.id.toWire)

def Package.toWire (p : Package) : WireValue :=
  record <|
    field "id" p.id.toWire ++
    optionalField "name" text p.name ++
    field "packages" (ids p.packages) ++
    field "elements" (listOf ElementRef.toWire p.elements) ++
    field "comments" (texts p.comments)

def Referee.toWire (r : Referee) : WireValue :=
  record (field "classId" r.classId.toWire ++ field "propName" (text r.propName))

def AssociationLink.toWire (l : AssociationLink) : WireValue :=
  record <|
    field "id" l.id.toWire ++
    optionalField "name" text l.name ++
    field "classId" l.classId.toWire ++
    optionalField "target" ElementId.toWire l.target ++
    field "lower" (text l.lower) ++
    field "upper" (text l.upper) ++
    field "comments" (texts l.comments) ++
    optionalField "aggregation" Aggregation.toWire l.aggregation ++
    field "property" (index l.property)

/-- A map field that is left out when it is empty. -/
def WireValue.nonemptyMapField {κ α : Type} (name : String) (key : κ → String)
    (write : α → WireValue) (m : OrderedMap κ α) : List (String × WireValue) :=
  if m.isEmpty then [] else field name (m.toWire key write)

/-- A list field that is left out when it is empty. -/
def WireValue.nonemptyTextsField (name : String) (l : List String) :
    List (String × WireValue) :=
  if l.isEmpty then [] else field name (texts l)

/-- The association links are left out when there are none. -/
def Class.toWire (c : Class) : WireValue :=
  record <|
    field "id" c.id.toWire ++
    optionalField "name" text c.name ++
    field "isAbstract" (flag c.isAbstract) ++
    field "properties" (listOf Property.toWire c.properties) ++
    nonemptyMapField "associations" ElementId.text AssociationLink.toWire c.associations ++
    field "superClasses" (ids c.superClasses) ++
    field "referees" (listOf Referee.toWire c.referees) ++
    field "comments" (texts c.comments) ++
    field "packages" (ids c.packages)

def Association.toWire (a : Association) : WireValue :=
  record <|
    field "id" a.id.toWire ++
    optionalField "name" text a.name ++
    optionalField "from" ElementId.toWire a.source ++
    field "comments" (texts a.comments)

def Enumeration.toWire (e : Enumeration) : WireValue :=
  record <|
    field "id" e.id.toWire ++
    optionalField "name" text e.name ++
    field "values" (texts e.values) ++
    field "packages" (ids e.packages) ++
    field "referees" (listOf Referee.toWire e.referees) ++
    field "comments" (texts e.comments)

def Datatype.toWire (d : Datatype) : WireValue :=
  record <|
    field "id" d.id.toWire ++
    optionalField "name" text d.name ++
    field "packages" (ids d.packages) ++
    field "referees" (listOf Referee.toWire d.referees) ++
    field "comments" (texts d.comments)

def ElementImport.toWire (i : ElementImport) : WireValue :=
  record (field "id" i.id.toWire ++ field "idref" i.idref.toWire)

def View.toWire (v : View) : WireValue :=
  record <|
    field "id" v.id.toWire ++
    optionalField "name" text v.name ++
    field "members" (ids v.members) ++
    field "comments" (texts v.comments)

def PropertySource.toWire (s : PropertySource) : WireValue :=
  record (field "classId" s.classId.toWire ++ field "index" (.index s.index))

def PropertyEntry.toWire (e : PropertyEntry) : WireValue :=
  record <|
    field "sources" (listOf PropertySource.toWire e.sources) ++
    field "uniformType" (texts e.uniformType)

/-- Both parts are left out when there is nothing in them. -/
def ModelSource.toWire (s : ModelSource) : WireValue :=
  record (optionalField "resource" text s.resource ++ nonemptyTextsField "viewLabels" s.viewLabels)

def Hierarchy.toWire (h : Hierarchy) : WireValue :=
  record <|
    field "roots" (h.roots.toWire ElementId.toWire) ++
    field "parents" (h.parents.toWire ElementId.text (OrderedSet.toWire ElementId.toWire)) ++
    field "children" (h.children.toWire ElementId.text (OrderedSet.toWire ElementId.toWire))

def Model.toWire (m : Model) : WireValue :=
  record <|
    optionalField "id" ElementId.toWire m.id ++
    optionalField "name" text m.name ++
    field "source" m.source.toWire ++
    field "packages" (m.packages.toWire ElementId.text Package.toWire) ++
    field "classes" (m.classes.toWire ElementId.text Class.toWire) ++
    field "properties" (m.properties.toWire (fun name => name) PropertyEntry.toWire) ++
    field "enums" (m.enums.toWire ElementId.text Enumeration.toWire) ++
    field "datatypes" (m.datatypes.toWire ElementId.text Datatype.toWire) ++
    field "imports" (m.imports.toWire ElementId.text ElementImport.toWire) ++
    field "associations" (m.associations.toWire ElementId.text Association.toWire) ++
    field "classHierarchy" m.classHierarchy.toWire ++
    field "packageHierarchy" m.packageHierarchy.toWire ++
    field "views" (listOf View.toWire m.views)

/-! ## Reading -/

section Read
variable {ν : Type} [Readable ν]

def ElementId.read : Reader ν ElementId := fun n => ElementId.mk <$> Reader.text n

/-- Read a list of identifiers. -/
def Reader.ids : Reader ν (List ElementId) := Reader.listOf ElementId.read

/-- Read a list of texts. -/
def Reader.texts : Reader ν (List String) := Reader.listOf Reader.text

/-- Read a map keyed by identifier. -/
def Reader.arena {α : Type} (read : Reader ν α) : Reader ν (OrderedMap ElementId α) :=
  Reader.mapOf ElementId.mk read

def Aggregation.read : Reader ν Aggregation := fun n => Aggregation.ofWord <$> Reader.text n

/-- A designator outweighs an identifier. -/
def Target.ofFields (idref : Option ElementId) (href : Option String) : Option Target :=
  match href, idref with
  | some designator, _ => some (.href designator)
  | none, some id => some (.idref id)
  | none, none => none

/-- The names of the fields of a property. -/
def Property.fieldNames : List String :=
  ["id", "classId", "name", "idref", "href", "lower", "upper", "aggregation", "association",
    "comments"]

def Property.read : Reader ν Property := fun n => do
  let t ← FieldTable.read fieldNames n
  return {
    id := ← t.required "id" ElementId.read
    classId := ← t.required "classId" ElementId.read
    name := ← t.optional "name" Reader.text
    target := Target.ofFields (← t.optional "idref" ElementId.read)
      (← t.optional "href" Reader.text)
    lower := ← t.required "lower" Reader.text
    upper := canonicalUpper (← t.required "upper" Reader.text)
    aggregation := ← t.optional "aggregation" Aggregation.read
    association := ← t.optional "association" ElementId.read
    comments := ← t.withDefault "comments" [] Reader.texts }

def ElementKind.read : Reader ν ElementKind :=
  Reader.take "a kind of element" fun n => (Readable.word? n).bind ElementKind.ofWord?

def ElementRef.read : Reader ν ElementRef := fun n => do
  let t ← FieldTable.read ["type", "id"] n
  return {
    kind := ← t.required "type" ElementKind.read
    id := ← t.required "id" ElementId.read }

def Package.read : Reader ν Package := fun n => do
  let t ← FieldTable.read ["id", "name", "packages", "elements", "comments"] n
  return {
    id := ← t.required "id" ElementId.read
    name := ← t.optional "name" Reader.text
    packages := ← t.withDefault "packages" [] Reader.ids
    elements := ← t.withDefault "elements" [] (Reader.listOf ElementRef.read)
    comments := ← t.withDefault "comments" [] Reader.texts }

def Referee.read : Reader ν Referee := fun n => do
  let t ← FieldTable.read ["classId", "propName"] n
  return {
    classId := ← t.required "classId" ElementId.read
    propName := ← t.required "propName" Reader.text }

/-- The names of the fields of an association link. -/
def AssociationLink.fieldNames : List String :=
  ["id", "name", "classId", "target", "lower", "upper", "comments", "aggregation", "property"]

def AssociationLink.read : Reader ν AssociationLink := fun n => do
  let t ← FieldTable.read fieldNames n
  return {
    id := ← t.required "id" ElementId.read
    name := ← t.optional "name" Reader.text
    classId := ← t.required "classId" ElementId.read
    target := ← t.optional "target" ElementId.read
    lower := ← t.required "lower" Reader.text
    upper := ← t.required "upper" Reader.text
    comments := ← t.withDefault "comments" [] Reader.texts
    aggregation := ← t.optional "aggregation" Aggregation.read
    property := ← t.required "property" Reader.index }

/-- The names of the fields of a class. -/
def Class.fieldNames : List String :=
  ["id", "name", "isAbstract", "properties", "associations", "superClasses", "referees",
    "comments", "packages"]

def Class.read : Reader ν Class := fun n => do
  let t ← FieldTable.read fieldNames n
  return {
    id := ← t.required "id" ElementId.read
    name := ← t.optional "name" Reader.text
    isAbstract := ← t.withDefault "isAbstract" false Reader.flag
    properties := ← t.withDefault "properties" [] (Reader.listOf Property.read)
    associations := ← t.withDefault "associations" ∅ (Reader.arena AssociationLink.read)
    superClasses := ← t.withDefault "superClasses" [] Reader.ids
    referees := ← t.withDefault "referees" [] (Reader.listOf Referee.read)
    comments := ← t.withDefault "comments" [] Reader.texts
    packages := ← t.withDefault "packages" [] Reader.ids }

def Association.read : Reader ν Association := fun n => do
  let t ← FieldTable.read ["id", "name", "from", "comments"] n
  return {
    id := ← t.required "id" ElementId.read
    name := ← t.optional "name" Reader.text
    source := ← t.optional "from" ElementId.read
    comments := ← t.withDefault "comments" [] Reader.texts }

def Enumeration.read : Reader ν Enumeration := fun n => do
  let t ← FieldTable.read ["id", "name", "values", "packages", "referees", "comments"] n
  return {
    id := ← t.required "id" ElementId.read
    name := ← t.optional "name" Reader.text
    values := ← t.withDefault "values" [] Reader.texts
    packages := ← t.withDefault "packages" [] Reader.ids
    referees := ← t.withDefault "referees" [] (Reader.listOf Referee.read)
    comments := ← t.withDefault "comments" [] Reader.texts }

def Datatype.read : Reader ν Datatype := fun n => do
  let t ← FieldTable.read ["id", "name", "packages", "referees", "comments"] n
  return {
    id := ← t.required "id" ElementId.read
    name := ← t.optional "name" Reader.text
    packages := ← t.withDefault "packages" [] Reader.ids
    referees := ← t.withDefault "referees" [] (Reader.listOf Referee.read)
    comments := ← t.withDefault "comments" [] Reader.texts }

def ElementImport.read : Reader ν ElementImport := fun n => do
  let t ← FieldTable.read ["id", "idref"] n
  return {
    id := ← t.required "id" ElementId.read
    idref := ← t.required "idref" ElementId.read }

def View.read : Reader ν View := fun n => do
  let t ← FieldTable.read ["id", "name", "members", "comments"] n
  return {
    id := ← t.required "id" ElementId.read
    name := ← t.optional "name" Reader.text
    members := ← t.withDefault "members" [] Reader.ids
    comments := ← t.withDefault "comments" [] Reader.texts }

def PropertySource.read : Reader ν PropertySource := fun n => do
  let t ← FieldTable.read ["classId", "index"] n
  return {
    classId := ← t.required "classId" ElementId.read
    index := ← t.required "index" Reader.index }

def PropertyEntry.read : Reader ν PropertyEntry := fun n => do
  let t ← FieldTable.read ["sources", "uniformType"] n
  return {
    sources := ← t.required "sources" (Reader.listOf PropertySource.read)
    uniformType := ← t.withDefault "uniformType" [] Reader.texts }

def ModelSource.read : Reader ν ModelSource := fun n => do
  let t ← FieldTable.read ["resource", "viewLabels"] n
  return {
    resource := ← t.optional "resource" Reader.text
    viewLabels := ← t.withDefault "viewLabels" [] Reader.texts }

/-- All three parts of a hierarchy must be there; they are taken as they are written. -/
def Hierarchy.read : Reader ν Hierarchy := fun n => do
  let t ← FieldTable.read ["roots", "parents", "children"] n
  return {
    roots := ← t.required "roots" (Reader.setOf ElementId.read)
    parents := ← t.required "parents" (Reader.arena (Reader.setOf ElementId.read))
    children := ← t.required "children" (Reader.arena (Reader.setOf ElementId.read)) }

/-- The names of the fields of a model. -/
def Model.fieldNames : List String :=
  ["id", "name", "source", "packages", "classes", "properties", "enums", "datatypes", "imports",
    "associations", "classHierarchy", "packageHierarchy", "views"]

/-- Read a model; each part that is not written is empty. -/
def Model.read : Reader ν Model := fun n => do
  let t ← FieldTable.read fieldNames n
  return {
    id := ← t.optional "id" ElementId.read
    name := ← t.optional "name" Reader.text
    source := ← t.withDefault "source" .unknown ModelSource.read
    packages := ← t.withDefault "packages" ∅ (Reader.arena Package.read)
    classes := ← t.withDefault "classes" ∅ (Reader.arena Class.read)
    properties := ← t.withDefault "properties" ∅
      (Reader.mapOf (fun name => name) PropertyEntry.read)
    enums := ← t.withDefault "enums" ∅ (Reader.arena Enumeration.read)
    datatypes := ← t.withDefault "datatypes" ∅ (Reader.arena Datatype.read)
    imports := ← t.withDefault "imports" ∅ (Reader.arena ElementImport.read)
    associations := ← t.withDefault "associations" ∅ (Reader.arena Association.read)
    classHierarchy := ← t.withDefault "classHierarchy" ∅ Hierarchy.read
    packageHierarchy := ← t.withDefault "packageHierarchy" ∅ Hierarchy.read
    views := ← t.withDefault "views" [] (Reader.listOf View.read) }

end Read
end UmlCatalog
