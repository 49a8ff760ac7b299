import UmlCatalog.BuildConfig
import UmlCatalog.Diagnostic
import UmlCatalog.Markup.Element
import UmlCatalog.Model.Record
import UmlCatalog.Text.Blank
import UmlCatalog.Text.Uppercase

/-!
# What single elements declare

The name of an element, the property that an owned attribute declares, the views of a
package and the ends of an association. Nothing here depends on the rest of the document.
-/

namespace UmlCatalog
open Markup (Element)

namespace BuildConfig

/-- The displayed name of an element; an empty name counts as none. -/
def nameOf (config : BuildConfig) (e : Element) : Option String :=
  (e.attrElseText? "name").bind fun raw =>
    if raw.isEmpty then none else some (config.displayName raw)

end BuildConfig

/-- What an owned attribute declares. -/
structure OwnedAttribute where
  property : Property
  /-- Present if the attribute is the end of an association. -/
  link : Option AssociationLink
  diagnostics : List Diagnostic

namespace OwnedAttribute

/-- The identifier of the attribute at a position; one without its own is named after its
class. -/
def idOf (classId : ElementId) (position : Nat) (e : Element) : ElementId :=
  match e.id? with
  | some id => ⟨id⟩
  | none => ⟨s!"{classId.text}-ownedAttribute-{position}"⟩

/-- The type inside the model that an attribute refers to. -/
def idrefOf (e : Element) : Option ElementId :=
  (((e.firstNamed? "type").bind Element.idref?).or (e.attr? "type")).map ElementId.mk

/-- The type outside the model that an attribute refers to. -/
def hrefOf (config : BuildConfig) (e : Element) : Option String :=
  ((e.firstNamed? "type").bind fun t => t.attr? "href").map config.normalizeType

/-- The target of an attribute; a designator outweighs a reference. -/
def targetOf (config : BuildConfig) (e : Element) : Option Target :=
  ((hrefOf config e).map Target.href).or ((idrefOf e).map Target.idref)

/-- A bound of an attribute, or a default. -/
def boundOf (e : Element) (tag default : String) : String :=
  ((e.firstNamed? tag).bind fun b => b.attrElseText? "value").getD default

/-- Whether an attribute is the end of an association. -/
def isAssociationEnd (e : Element) : Bool := (e.attrElseIdref? "association").isSome

/-- What is noticed about the name of an attribute. The end of an association may be named
later, so nothing is said about it. -/
def nameFindings (config : BuildConfig) (e : Element) (p : Property) : List Diagnostic :=
  if isAssociationEnd e then []
  else
    match p.name with
    | none => [.unnamedProperty p.classId p.id]
    | some name =>
        if config.checkPropertyNameCase ∧ name.toList.head?.any Text.isUppercase then
          [.propertyNameCase p.classId p.id name]
        else []

/-- What is noticed about the type and the aggregation of an attribute. -/
def typeFindings (p : Property) : List Diagnostic :=
  (if p.target.isNone then [.missingPropertyType p.classId p.id] else []) ++
    match p.aggregation with
    | some (.other word) => [.unknownAggregation p.id word]
    | _ => []

/-- Read the attribute at a position of a class. -/
def read (config : BuildConfig) (classId : ElementId) (e : Element) (position : Nat) :
    OwnedAttribute :=
  let p := Property.declared (idOf classId position e) classId (config.nameOf e)
    (targetOf config e) (boundOf e "lowerValue" defaultLower) (boundOf e "upperValue" unlimited)
    ((e.attrElseText? "aggregation").map Aggregation.ofWord) e.comments
  { property := p
    link :=
      if isAssociationEnd e then
        some {
          id := p.id
          name := p.name
          classId := classId
          target := idrefOf e
          lower := p.lower
          upper := p.upper
          comments := p.comments
          aggregation := p.aggregation
          property := position }
      else none
    diagnostics := typeFindings p ++ nameFindings config e p }

/-- Read all attributes of a class. -/
def readAll (config : BuildConfig) (classId : ElementId) (e : Element) : List OwnedAttribute :=
  (e.childrenNamed "ownedAttribute").zipIdx.map fun a => read config classId a.1 a.2

/-- The association links of attributes, by attribute. -/
def links (attributes : List OwnedAttribute) : OrderedMap ElementId AssociationLink :=
  .ofList (attributes.filterMap fun a => a.link.map fun l => (l.id, l))

end OwnedAttribute

namespace Markup.Element

/-- Whether an element declares itself abstract. -/
def isAbstract (e : Element) : Bool := e.attrElseText? "isAbstract" = some "true"

/-- The direct superclasses that an element names. -/
def generals (e : Element) : List ElementId :=
  (e.childrenNamed "generalization").filterMap fun g =>
    (g.attrElseIdref? "general").map ElementId.mk

/-- The element that an import shows. -/
def importedElement? (e : Element) : Option String := e.attrElseIdref? "importedElement"

/-- The complete imports of a package. -/
def elementImports (e : Element) : List ElementImport :=
  (e.childrenNamed "elementImport").filterMap fun i =>
    i.id?.bind fun id => i.importedElement?.map fun idref => ⟨⟨id⟩, ⟨idref⟩⟩

/-- The ends of an association: those given by children, then those given by an attribute
and separated by white space. -/
def memberEnds (e : Element) : List String :=
  (e.childrenNamed "memberEnd").filterMap idref? ++
    ((e.attr? "memberEnd").map Text.words).getD []

/-- The first end of an association that the association does not own itself. -/
def foreignEnd? (e : Element) : Option ElementId :=
  let owned := (e.firstNamed? "ownedEnd").bind id?
  (e.memberEnds.find? fun m => some m ≠ owned).map ElementId.mk

/-- The views that a package holds: those of its elements that have an identifier. -/
def views (config : BuildConfig) (e : Element) : List View :=
  (e.childrenNamed "packagedElement").filterMap fun v =>
    v.id?.map fun id => {
      id := ⟨id⟩
      name := config.nameOf v
      members := (v.childrenNamed "elementImport").filterMap fun i =>
        i.importedElement?.map ElementId.mk
      comments := v.comments }

end Markup.Element
end UmlCatalog
