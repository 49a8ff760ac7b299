import UmlCatalog.Build.Association
import UmlCatalog.Markup.Document
import UmlCatalog.Model.Index

/-!
# Building models

A document becomes a model in four steps: its declarations are taken in, its associations
are resolved, the properties are indexed by name, and the back references follow from the
index.
-/

namespace UmlCatalog
open Markup (Element)

/-- A model with the findings of its build, in the order of discovery. -/
structure BuildResult where
  model : Model
  diagnostics : List Diagnostic
  deriving Inhabited

/-- The tag of the element around a model. -/
def wrapperTag : String := "xmi:XMI"

/-- The tag or type of a model. -/
def modelTag : String := "uml:Model"

/-- The element of a document that holds the model: the document itself or inside the
wrapper. -/
def modelRoot (document : Element) : Except ModelError Element :=
  if document.tag = wrapperTag then
    match document.firstNamed? modelTag with
    | some root => .ok root
    | none => .error (.missing .element modelTag)
  else if document.tag = modelTag ∨ document.type? = some modelTag then .ok document
  else .error (.missing .element modelTag)

/-- Report the property names that are used with several types. -/
def mixedTypes (m : Model) : List Diagnostic :=
  m.properties.entries.filterMap fun e =>
    if e.2.isUniform then none else some (.mixedPropertyTypes e.1 e.2.uniformType)

/-- The draft of a model before its first declaration. -/
def Draft.start (config : BuildConfig) (resource : Option String) (root : Element) : Draft where
  model := { (∅ : Model) with
    id := root.id?.map ElementId.mk
    name := config.nameOf root
    source := ⟨resource, []⟩ }
  diagnostics := []
  owners := ∅

/-- The declarations of a model element. -/
def declarations (config : BuildConfig) (root : Element) : List Declaration :=
  Declaration.listIn config [] root.children

/-- The model that a draft becomes when all declarations are taken in. -/
def Draft.finish (d : Draft) : BuildResult :=
  let d := d.applyAssociations
  let model := d.model.withPropertyIndex.withReferees
  ⟨model, d.diagnostics ++ mixedTypes model⟩

/-- Build the model of a document. -/
def build (config : BuildConfig) (resource : Option String) (document : Element) :
    Except ModelError BuildResult := do
  let root ← modelRoot document
  let draft ← (declarations config root).foldlM (Draft.add config) (.start config resource root)
  return draft.finish

/-- Build the model of a document given as bytes. -/
def buildBytes (config : BuildConfig) (resource : Option String) (bytes : List UInt8) :
    Except ModelError BuildResult := do
  build config resource (← Element.ofBytes bytes)

/-- Build the model of the document at a path, which becomes the resource of the model. -/
def buildAt (fetch : String → Except String (List UInt8)) (config : BuildConfig)
    (path : String) : Except ModelError BuildResult :=
  match fetch path with
  | .ok bytes => buildBytes config (some path) bytes
  | .error reason => .error (.inaccessible reason)

end UmlCatalog
