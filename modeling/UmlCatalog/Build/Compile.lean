import UmlCatalog.Build.Attribute
import UmlCatalog.Build.Declaration
import UmlCatalog.Model.Basic

/-!
# Taking declarations into a model

Each declaration is taken into the model by itself, in document order. The first one that
repeats an identifier of its arena, makes a value type inherit or closes a cycle of classes
stops the build.
-/

namespace UmlCatalog
open Markup (Element)

/-- The kind under which a package lists a value type. -/
def ValueTypeKind.element : ValueTypeKind → ElementKind
  | enumeration => .enumeration
  | datatype => .datatype

namespace Declaration

/-- What the attributes of a class declare. -/
def attributes (config : BuildConfig) (n : Declaration) : List OwnedAttribute :=
  OwnedAttribute.readAll config n.id n.element

/-- The class that is declared, with nothing that refers to it. -/
def toClass (config : BuildConfig) (n : Declaration) : Class where
  id := n.id
  name := config.nameOf n.element
  isAbstract := n.element.isAbstract
  properties := (n.attributes config).map OwnedAttribute.property
  associations := OwnedAttribute.links (n.attributes config)
  superClasses := n.element.generals
  referees := []
  comments := n.element.comments
  packages := n.chain

/-- The enumeration that is declared. -/
def toEnumeration (config : BuildConfig) (n : Declaration) : Enumeration where
  id := n.id
  name := config.nameOf n.element
  values := (n.element.childrenNamed "ownedLiteral").filterMap config.nameOf
  packages := n.chain
  referees := []
  comments := n.element.comments

/-- The datatype that is declared. -/
def toDatatype (config : BuildConfig) (n : Declaration) : Datatype where
  id := n.id
  name := config.nameOf n.element
  packages := n.chain
  referees := []
  comments := n.element.comments

/-- The package that is declared, without its elements. -/
def toPackage (config : BuildConfig) (n : Declaration) : Package where
  id := n.id
  name := config.nameOf n.element
  packages := n.chain
  elements := []
  comments := n.element.comments

/-- The association that is declared. -/
def toAssociation (config : BuildConfig) (n : Declaration) : Association where
  id := n.id
  name := config.nameOf n.element
  source := n.element.foreignEnd?
  comments := n.element.comments

end Declaration

/-- A model in the making. -/
structure Draft where
  model : Model
  /-- The findings so far, in the order of discovery. -/
  diagnostics : List Diagnostic
  /-- The class that owns each attribute that is the end of an association. -/
  owners : OrderedMap ElementId ElementId

namespace Draft

/-- Record a finding. -/
def report (d : Draft) (found : List Diagnostic) : Draft :=
  { d with diagnostics := d.diagnostics ++ found }

/-- List an element in the nearest package, or note that there is none. -/
def listIn (d : Draft) (chain : List ElementId) (element : ElementRef) : Draft :=
  match chain with
  | [] => d.report [.elementOutsidePackage element.kind.word element.id]
  | package :: _ => { d with model := d.model.listElement package element }

/-- Record the edges from all superclasses of a class to it. -/
def addEdges (h : Hierarchy) (id : ElementId) (generals : List ElementId) :
    Except ModelError Hierarchy :=
  generals.foldlM (fun h general => h.add general id) h

/-- Take in a class. -/
def addClass (config : BuildConfig) (d : Draft) (n : Declaration) : Except ModelError Draft := do
  Model.requireNew .classes d.model.classes n.id
  let hierarchy ← addEdges d.model.classHierarchy n.id n.element.generals
  let model ← { d.model with classHierarchy := hierarchy }.addClass (n.toClass config)
  let d : Draft := {
    model := model
    diagnostics := d.diagnostics ++ (n.attributes config).flatMap OwnedAttribute.diagnostics
    owners := (n.toClass config).associations.keys.foldl
      (fun owners a => owners.insert a n.id) d.owners }
  return d.listIn n.chain ⟨.umlClass, n.id⟩

/-- Value types must not inherit. -/
def refuseGeneralization (kind : ValueTypeKind) (n : Declaration) : Except ModelError Unit :=
  match n.element.firstNamed? "generalization" with
  | some g => .error (.inheritedValueType kind n.id ((g.attrElseIdref? "general").getD ""))
  | none => .ok ()

/-- Take in a value type that is new among the given ones, with the model that has it. -/
def addValueType {α : Type} (d : Draft) (n : Declaration) (kind : ValueTypeKind)
    (known : OrderedMap ElementId α) (added : Except ModelError Model) :
    Except ModelError Draft := do
  Model.requireNew kind.arena known n.id
  refuseGeneralization kind n
  return { d with model := ← added }.listIn n.chain ⟨kind.element, n.id⟩

/-- Take in an enumeration. -/
def addEnumeration (config : BuildConfig) (d : Draft) (n : Declaration) :
    Except ModelError Draft :=
  d.addValueType n .enumeration d.model.enums (d.model.addEnumeration (n.toEnumeration config))

/-- Take in a datatype. -/
def addDatatype (config : BuildConfig) (d : Draft) (n : Declaration) :
    Except ModelError Draft :=
  d.addValueType n .datatype d.model.datatypes (d.model.addDatatype (n.toDatatype config))

/-- Take in an import of a package; a repeated identifier takes the later target. -/
def addImport (package : ElementId) (m : Model) (i : ElementImport) : Model :=
  { m with imports := m.imports.insert i.id i }.listElement package ⟨.elementImport, i.id⟩

/-- Take in the imports of a package. -/
def addImports (d : Draft) (n : Declaration) : Draft :=
  { d with model := n.element.elementImports.foldl (addImport n.id) d.model }

/-- Take in a package with its place among the packages and its imports. -/
def addPackage (config : BuildConfig) (d : Draft) (n : Declaration) :
    Except ModelError Draft := do
  let model ← d.model.addPackage (n.toPackage config)
  match n.chain with
  | [] =>
      let d := { d with model := { model with
        packageHierarchy := model.packageHierarchy.insert n.id } }
      return d.addImports n
  | parent :: _ =>
      let hierarchy ← model.packageHierarchy.add parent n.id
      let d := { d with model := { model with packageHierarchy := hierarchy } }
      return (d.listIn n.chain ⟨.package, n.id⟩).addImports n

/-- Record a package without entering it. -/
def addExcluded (config : BuildConfig) (d : Draft) (n : Declaration) :
    Except ModelError Draft := do
  return { d with model := ← d.model.addPackage (n.toPackage config) }

/-- Take in an association. -/
def addAssociation (config : BuildConfig) (d : Draft) (n : Declaration) :
    Except ModelError Draft := do
  let associations ←
    Model.enterNew .associations d.model.associations n.id (n.toAssociation config)
  return { d with model := { d.model with associations := associations } }

/-- Take in a declaration. -/
def add (config : BuildConfig) (d : Draft) (n : Declaration) : Except ModelError Draft :=
  match n.kind with
  | .umlClass => d.addClass config n
  | .enumeration => d.addEnumeration config n
  | .datatype => d.addDatatype config n
  | .package => d.addPackage config n
  | .excludedPackage => d.addExcluded config n
  | .viewPackage =>
      .ok { d with model := { d.model with views := d.model.views ++ n.element.views config } }
  | .association => d.addAssociation config n
  | .other type => .ok (d.report [.unknownElementType n.id type])

end Draft
end UmlCatalog
