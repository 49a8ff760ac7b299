import UmlCatalog.BuildConfig
import UmlCatalog.Markup.Element
import UmlCatalog.Model.Record

/-!
# The declarations of a document

A document is compiled from the elements that a walk down its packages meets. The walk
depends on the document and the configuration alone: it passes elements without an
identifier by, and does not enter packages of views or nested packages that are left out.
The declarations come in document order, a package before what it contains.
-/

namespace UmlCatalog
open Markup (Element)

/-- What a packaged element declares. -/
inductive DeclarationKind where
  | umlClass
  | enumeration
  | datatype
  | package
  /-- A nested package that is recorded and not entered. -/
  | excludedPackage
  /-- A package of views, which is itself no part of the model. -/
  | viewPackage
  | association
  /-- An element of a type that models do not hold. -/
  | other (type : String)
  deriving DecidableEq, Inhabited

/-- A packaged element with its identifier and the packages around it. -/
structure Declaration where
  kind : DeclarationKind
  id : ElementId
  /-- The enclosing packages, nearest first. -/
  chain : List ElementId
  element : Element
  deriving Inhabited

namespace Declaration

/-- The type of an element: the declared one, or else its tag. -/
def typeOf (e : Element) : String := e.type?.getD e.tag

/-- The kind of a package. Only nested packages can be left out. -/
def packageKind (config : BuildConfig) (chain : List ElementId) (id : String) :
    DeclarationKind :=
  if config.holdsViews id then .viewPackage
  else if !chain.isEmpty ∧ config.excludes id then .excludedPackage
  else .package

/-- The kind of a packaged element, told by its type without the namespace. -/
def kindOf (config : BuildConfig) (chain : List ElementId) (id : String) (e : Element) :
    DeclarationKind :=
  match BuildConfig.lastPart ':' (typeOf e) with
  | "Class" => .umlClass
  | "Enumeration" => .enumeration
  | "DataType" => .datatype
  | "PrimitiveType" => .datatype
  | "Model" => packageKind config chain id
  | "Package" => packageKind config chain id
  | "Association" => .association
  | _ => .other (typeOf e)

mutual
/-- The declarations of a packaged element and of what it contains. -/
def listOf (config : BuildConfig) (chain : List ElementId) : Element → List Declaration
  | ⟨tag, attributes, text, children⟩ =>
      let e : Element := ⟨tag, attributes, text, children⟩
      match e.id? with
      | none => []
      | some id =>
          match kindOf config chain id e with
          | .package => ⟨.package, ⟨id⟩, chain, e⟩ :: listIn config (⟨id⟩ :: chain) children
          | kind => [⟨kind, ⟨id⟩, chain, e⟩]

/-- The declarations among the children of a package. -/
def listIn (config : BuildConfig) (chain : List ElementId) : List Element → List Declaration
  | [] => []
  | e :: rest =>
      (if e.tag = "packagedElement" then listOf config chain e else []) ++
        listIn config chain rest
end

end Declaration
end UmlCatalog
