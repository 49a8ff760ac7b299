import UmlCatalog.Model.Index

/-!
# Extracting views

A view of a model is a model of its own: the member classes of the chosen views with their
superclasses, the enumerations and datatypes that their properties are typed by, and on
request the classes that they refer to. Every element comes with the packages around it.

## Implementation notes

Classes are visited depth first from a list of pending ones. A class is copied when it is
first met, so a visit uses up one class of the source and the walk ends on every model.
The copies of classes are kept apart from everything else that a view gathers.
-/

namespace UmlCatalog

/-- How far an extraction follows references. -/
structure ViewOptions where
  /-- Take in the classes that properties are typed by. -/
  followReferencedClasses : Bool
  /-- Take in the superclasses of classes that were reached by reference. -/
  followReferentHierarchy : Bool
  deriving DecidableEq, Inhabited

namespace View

/-- What surrounds the classes of a view. -/
structure Surroundings where
  packages : OrderedMap ElementId Package
  enums : OrderedMap ElementId Enumeration
  datatypes : OrderedMap ElementId Datatype
  classHierarchy : Hierarchy
  packageHierarchy : Hierarchy
  deriving Inhabited

namespace Surroundings

/-- Nothing around. -/
def empty : Surroundings := ⟨∅, ∅, ∅, ∅, ∅⟩

/-- List an element in a package, if the package is there. -/
def listElement (s : Surroundings) (package : ElementId) (element : ElementRef) : Surroundings :=
  { s with packages := s.packages.modify package fun p =>
      { p with elements := p.elements ++ [element] } }

/-- List an element in the nearest package of its chain. -/
def listIn (s : Surroundings) (chain : List ElementId) (element : ElementRef) : Surroundings :=
  match chain with
  | package :: _ => s.listElement package element
  | [] => s

/-- Copy the packages of a chain that are not there yet, and tell which were copied. -/
def copyPackages (source : Model) (s : Surroundings) :
    List ElementId → Surroundings × List (ElementId × Bool)
  | [] => (s, [])
  | id :: rest =>
      let known := s.packages.contains id
      match if known then none else source.packages.get? id with
      | some old =>
          let copy : Package := { old with id := id, elements := [] }
          let r := copyPackages source { s with packages := s.packages.insert id copy } rest
          (r.1, (id, true) :: r.2)
      | none =>
          let r := copyPackages source s rest
          (r.1, (id, false) :: r.2)

/-- Record each package of a chain under the next one; a copied package is listed there.
The outermost package is registered by itself. -/
def linkPackages (s : Surroundings) : List (ElementId × Bool) → Except ModelError Surroundings
  | [] => .ok s
  | [(outermost, _)] =>
      .ok { s with packageHierarchy := s.packageHierarchy.insert outermost }
  | (child, copied) :: (parent, c) :: rest => do
      let hierarchy ← s.packageHierarchy.add parent child
      let s := { s with packageHierarchy := hierarchy }
      linkPackages (if copied then s.listElement parent ⟨.package, child⟩ else s)
        ((parent, c) :: rest)

/-- Take in a chain of packages, nearest first. -/
def addChain (source : Model) (s : Surroundings) (chain : List ElementId) :
    Except ModelError Surroundings :=
  let r := copyPackages source s chain
  linkPackages r.1 r.2

/-- Take in the packages around an element and list it in the nearest one. -/
def addListed (source : Model) (s : Surroundings) (chain : List ElementId)
    (element : ElementRef) : Except ModelError Surroundings := do
  let s ← s.addChain source chain
  return s.listIn chain element

/-- Take in the enumeration of an identifier, if there is one and it is not there yet. -/
def addEnumeration (source : Model) (s : Surroundings) (id : ElementId) :
    Except ModelError Surroundings :=
  match source.enums.get? id with
  | none => .ok s
  | some old =>
      if s.enums.contains id then .ok s
      else
        { s with enums := s.enums.insert old.id { old with referees := [] } }.addListed source
          old.packages ⟨.enumeration, old.id⟩

/-- Take in the datatype of an identifier, if there is one and it is not there yet. -/
def addDatatype (source : Model) (s : Surroundings) (id : ElementId) :
    Except ModelError Surroundings :=
  match source.datatypes.get? id with
  | none => .ok s
  | some old =>
      if s.datatypes.contains id then .ok s
      else
        { s with datatypes := s.datatypes.insert old.id { old with referees := [] } }.addListed
          source old.packages ⟨.datatype, old.id⟩

/-- Take in the value types that a target key names. -/
def addValueTypes (source : Model) (s : Surroundings) (key : String) :
    Except ModelError Surroundings := do
  let s ← s.addEnumeration source ⟨key⟩
  s.addDatatype source ⟨key⟩

/-- Take in what a class needs around it: the value types of its properties, its packages
and the edges from its superclasses. -/
def addClass (source : Model) (s : Surroundings) (c : Class) :
    Except ModelError Surroundings := do
  let s ← (c.properties.filterMap Property.targetKey?).foldlM (addValueTypes source) s
  let s ← s.addListed source c.packages ⟨.umlClass, c.id⟩
  let hierarchy ← c.superClasses.foldlM (fun h general => h.add general c.id) s.classHierarchy
  return { s with classHierarchy := hierarchy }

end Surroundings

/-- The copy of a class in a view: links are left behind and back references start anew. -/
def copyClass (c : Class) : Class := { c with associations := ∅, referees := [] }

/-- The classes that the properties of a class refer to. -/
def referencedClasses (source : Model) (c : Class) : List ElementId :=
  (c.properties.filterMap fun p => p.targetKey?.map ElementId.mk).filter source.classes.contains

/-- The classes to visit after a class. -/
def successors (source : Model) (options : ViewOptions) (followParents : Bool) (c : Class) :
    List ElementId :=
  (if options.followReferencedClasses then referencedClasses source c else []) ++
    if followParents then c.superClasses else []

/-- The number of classes of the source that have no copy yet. -/
def unvisited (source : Model) (classes : OrderedMap ElementId Class) : Nat :=
  source.classes.weightOutside classes fun _ => 1

/-- Copying a class of the source uses it up. -/
theorem unvisited_insert_lt {source : Model} {classes : OrderedMap ElementId Class}
    {id : ElementId} {c copy : Class} (hs : source.classes.get? id = some c)
    (hn : classes.contains id = false) :
    unvisited source (classes.insert id copy) < unvisited source classes := by
  have hw := OrderedMap.weightOutside_insert (fun _ => 1) copy hs hn
  unfold unvisited
  omega

/-- Visit the pending classes, each with the word whether its superclasses follow. -/
def walk (source : Model) (options : ViewOptions) (pending : List (ElementId × Bool))
    (classes : OrderedMap ElementId Class) (s : Surroundings) :
    Except ModelError (OrderedMap ElementId Class × Surroundings) :=
  match pending with
  | [] => .ok (classes, s)
  | (id, followParents) :: rest =>
      if _hv : classes.contains id = true then walk source options rest classes s
      else
        match _hs : source.classes.get? id with
        | none => walk source options rest classes s
        | some c =>
            match s.addClass source c with
            | .error e => .error e
            | .ok s =>
                let next := (successors source options followParents c).map fun id =>
                  (id, options.followReferentHierarchy)
                walk source options (next ++ rest) (classes.insert id (copyClass c)) s
termination_by (unvisited source classes, pending.length)
decreasing_by
  · exact Prod.Lex.right _ (Nat.lt_succ_self _)
  · exact Prod.Lex.right _ (Nat.lt_succ_self _)
  · exact Prod.Lex.left _ _ (unvisited_insert_lt _hs (by simpa using _hv))

/-- The members of views and all classes above them, each at its first mention. -/
def seeds (source : Model) (views : List View) : List ElementId :=
  (OrderedSet.ofList (views.flatMap fun v => v.members.flatMap fun id =>
    id :: (source.classHierarchy.parentsOf id).toList)).toList

/-- The views of a model that have one of the given names. -/
def selected (source : Model) (names : List String) : List View :=
  source.views.filter fun v => v.name.any fun name => names.contains name

/-- The classes to start with, each with the word that its superclasses follow. -/
def start (source : Model) (names : List String) : List (ElementId × Bool) :=
  (seeds source (selected source names)).map fun id => (id, true)

/-- The model made of what was gathered for the named views. -/
def assemble (source : Model) (origin : ModelSource) (names : List String)
    (classes : OrderedMap ElementId Class) (s : Surroundings) : Model :=
  { (∅ : Model) with
    id := source.id
    name := source.name
    source := ⟨origin.resource, names⟩
    packages := s.packages
    classes := classes
    enums := s.enums
    datatypes := s.datatypes
    classHierarchy := s.classHierarchy
    packageHierarchy := s.packageHierarchy
    views := selected source names }

end View

/-- The part of a model that shows the named views. It names the given source and the names
it was asked for; a name that no view has adds nothing. -/
def Model.extractView (source : Model) (origin : ModelSource) (names : List String)
    (options : ViewOptions) : Except ModelError Model := do
  let (classes, s) ← View.walk source options (View.start source names) ∅ .empty
  return (View.assemble source origin names classes s).withPropertyIndex.withReferees

end UmlCatalog
