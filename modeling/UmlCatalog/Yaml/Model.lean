import UmlCatalog.Wire.Record
import UmlCatalog.Yaml.Document
import UmlCatalog.Yaml.Printer

/-!
# Models as YAML

Reading and writing of models in YAML.
-/

namespace UmlCatalog.Yaml

/-- Read a model from the bytes of YAML text. -/
def decodeModel (bytes : List UInt8) : Except ModelError Model :=
  match Document.ofBytes bytes >>= fun d => Reader.run Model.read d.maxAliases d with
  | .ok m => .ok m
  | .error e => .error (.yaml e.message)

/-- A model as YAML text. -/
def encodeModel (m : Model) : String := render m.toWire

end UmlCatalog.Yaml
