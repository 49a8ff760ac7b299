import UmlCatalog.Build.Model
import UmlCatalog.Json.Model
import UmlCatalog.Text.Part
import UmlCatalog.Yaml.Model

/-!
# Interchange formats

The formats in which models are exchanged. A document in XMI is compiled into a model and
cannot be written; the other two formats hold a model as it is.
-/

namespace UmlCatalog

/-- A format with the options of its reader or writer. -/
inductive Format where
  | xmi (config : BuildConfig) (resource : Option String)
  | json (layout : Json.Layout)
  | yaml

namespace Format

/-- The name of a format. -/
def name : Format → String
  | xmi _ _ => "XMI"
  | json _ => "Canonical JSON"
  | yaml => "Canonical YAML"

/-- The extensions of files in a format. -/
def extensions : Format → List String
  | xmi _ _ => ["xmi", "xml"]
  | json _ => ["json"]
  | yaml => ["yaml", "yml"]

/-- The media type of a format. -/
def mediaType : Format → String
  | xmi _ _ => "application/xmi+xml"
  | json _ => "application/json"
  | yaml => "application/x-yaml"

/-- Whether models can be written in a format. -/
def canWrite : Format → Bool
  | xmi _ _ => false
  | json _ => true
  | yaml => true

/-- Whether a model survives being written and read. -/
def isLossless : Format → Bool
  | xmi _ _ => false
  | json _ => true
  | yaml => true

/-- Read a model. -/
def read (format : Format) (bytes : List UInt8) : Except ModelError Model :=
  match format with
  | xmi config resource => (buildBytes config resource bytes).map BuildResult.model
  | json _ => Json.decodeBytes Model.read bytes
  | yaml => Yaml.decodeModel bytes

/-- Write a model. -/
def write (format : Format) (m : Model) : Except ModelError (List UInt8) :=
  match format with
  | xmi _ _ => .error (.unsupported "writing XMI from a canonical model")
  | json layout => .ok (Text.encode (Json.encodeModel layout m))
  | yaml => .ok (Text.encode (Yaml.encodeModel m))

/-- The words of which one is in every document in XMI. -/
def rootWords : List String := ["XMI", "uml:Model"]

/-- Check quickly whether bytes can be a document in a format. -/
def validate (format : Format) (bytes : List UInt8) : Except ModelError Unit :=
  match format with
  | xmi _ _ =>
      match Text.decode? bytes with
      | none => .error (.markup .notUtf8)
      | some s =>
          if rootWords.any fun word => Text.isPart word.toList s.toList then .ok ()
          else .error (.markup .noRoot)
  | json _ => Json.validate bytes
  | yaml => .ok ()

/-- The formats with their standard options. -/
def all : List Format := [xmi .standard none, json .compact, yaml]

/-- The extensions of files in any format. -/
def allExtensions : List String := all.flatMap extensions

/-- The last name of a path, unless it leads to a parent. Empty names and the name of the
directory itself do not count, except as the first name of the path. -/
def fileName? (path : String) : Option (List Char) :=
  let names := path.toList.splitOn '/'
  let counts := fun (e : List Char × Nat) => e.1 ≠ [] ∧ (e.1 ≠ ['.'] ∨ e.2 = 0)
  match (names.zipIdx.filter fun e => decide (counts e)).getLast? with
  | some (name, _) => if name = ['.', '.'] ∨ name = ['.'] then none else some name
  | none => none

/-- The extension of a path: what is behind the last point of its last name, unless the name
starts with that point. -/
def extension? (path : String) : Option String := do
  let name ← fileName? path
  match (name.reverse.span fun c => c ≠ '.') with
  | (extension, _ :: _ :: _) => some (String.ofList extension.reverse)
  | _ => none

/-- The format of a path by its extension, whose case does not matter. Only letters of ASCII
have lower-case forms among the letters of the extensions. -/
def ofPath? (path : String) : Option Format := do
  let extension ← extension? path
  all.find? fun format => format.extensions.contains extension.toLower

end Format
end UmlCatalog
