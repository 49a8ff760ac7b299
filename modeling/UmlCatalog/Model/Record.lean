import UmlCatalog.Model.Property
import UmlCatalog.OrderedMap

/-!
# Records of a model

One structure for each kind of element a model holds. Relations between elements are
identifiers, never embedded copies.
-/

namespace UmlCatalog

/-- The kinds of element a package lists. -/
inductive ElementKind where
  | umlClass
  | enumeration
  | datatype
  | package
  | elementImport
  deriving DecidableEq, Inhabited

/-- The word for a kind of element. -/
def ElementKind.word : ElementKind → String
  | umlClass => "class"
  | enumeration => "enumeration"
  | datatype => "datatype"
  | package => "package"
  | elementImport => "import"

/-- The kind written by a word. -/
def ElementKind.ofWord? (word : String) : Option ElementKind :=
  if word = "class" then some umlClass
  else if word = "enumeration" then some enumeration
  else if word = "datatype" then some datatype
  else if word = "package" then some package
  else if word = "import" then some elementImport
  else none

@[simp] theorem ElementKind.ofWord?_word (k : ElementKind) : ofWord? k.word = some k := by
  cases k <;> simp [ofWord?, word]

/-- An element as a package lists it. -/
structure ElementRef where
  kind : ElementKind
  id : ElementId
  deriving DecidableEq, Inhabited

/-- A package: it orders and classifies its elements, which live in the model. -/
structure Package where
  id : ElementId
  name : Option String
  /-- The enclosing packages, nearest first. -/
  packages : List ElementId
  elements : List ElementRef
  comments : List String
  deriving DecidableEq, Inhabited

/-- A back reference: a property of this name in this class is typed by the holder. -/
structure Referee where
  classId : ElementId
  propName : String
  deriving DecidableEq, Inhabited

/-- The link from an owned attribute to the association it is an end of. -/
structure AssociationLink where
  /-- The owned attribute. -/
  id : ElementId
  name : Option String
  classId : ElementId
  /-- The class at the other end. -/
  target : Option ElementId
  lower : String
  upper : String
  comments : List String
  aggregation : Option Aggregation
  /-- The position of the linked property among those of its class. -/
  property : Nat
  deriving DecidableEq, Inhabited

/-- A class with its properties. -/
structure Class where
  id : ElementId
  name : Option String
  isAbstract : Bool
  properties : List Property
  /-- The attributes that are association ends. -/
  associations : OrderedMap ElementId AssociationLink
  /-- The direct superclasses. -/
  superClasses : List ElementId
  referees : List Referee
  comments : List String
  /-- The enclosing packages, nearest first. -/
  packages : List ElementId
  deriving DecidableEq, Inhabited

/-- A class that has an identifier and a name and nothing else. -/
def Class.bare (id : ElementId) (name : Option String) : Class where
  id := id
  name := name
  isAbstract := false
  properties := []
  associations := ∅
  superClasses := []
  referees := []
  comments := []
  packages := []

/-- The first property of a class that has a given name. -/
def Class.propertyNamed? (c : Class) (name : String) : Option Property :=
  c.properties.find? fun p => p.name = some name

/-- An association as declared; it becomes a property of the class that owns its end. -/
structure Association where
  id : ElementId
  name : Option String
  /-- The member end that the association does not own itself. -/
  source : Option ElementId
  comments : List String
  deriving DecidableEq, Inhabited

/-- An enumeration with its literals. -/
structure Enumeration where
  id : ElementId
  name : Option String
  values : List String
  packages : List ElementId
  referees : List Referee
  comments : List String
  deriving DecidableEq, Inhabited

/-- A datatype or primitive type. -/
structure Datatype where
  id : ElementId
  name : Option String
  packages : List ElementId
  referees : List Referee
  comments : List String
  deriving DecidableEq, Inhabited

/-- An element that a package shows although it is declared elsewhere. -/
structure ElementImport where
  id : ElementId
  idref : ElementId
  deriving DecidableEq, Inhabited

/-- A named selection of classes. -/
structure View where
  id : ElementId
  name : Option String
  members : List ElementId
  comments : List String
  deriving DecidableEq, Inhabited

/-- The place of one property: its class and its position there. -/
structure PropertySource where
  classId : ElementId
  index : Nat
  deriving DecidableEq, Inhabited

/-- All properties of a model that share one name. -/
structure PropertyEntry where
  sources : List PropertySource
  /-- The distinct target keys, in order of first appearance. -/
  uniformType : List String
  deriving DecidableEq, Inhabited

/-- Whether the properties of an entry agree on one target. -/
def PropertyEntry.isUniform (e : PropertyEntry) : Bool := e.uniformType.length ≤ 1

/-- Where a model comes from. -/
structure ModelSource where
  resource : Option String
  /-- The names of the views it was extracted for. -/
  viewLabels : List String
  deriving DecidableEq

/-- The source of a model that comes from nowhere in particular. -/
def ModelSource.unknown : ModelSource := ⟨none, []⟩

instance : Inhabited ModelSource := ⟨.unknown⟩

end UmlCatalog
