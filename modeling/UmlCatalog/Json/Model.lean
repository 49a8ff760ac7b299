import UmlCatalog.Json.Document
import UmlCatalog.Json.Printer
import UmlCatalog.Wire.Record

/-!
# Models as JSON

Reading and writing of models, and of single records, in JSON.
-/

namespace UmlCatalog.Json

/-- Read a value of one type from JSON text. -/
def decode {α : Type} (read : Reader Document α) (s : String) : Except ModelError α :=
  match Document.ofText s >>= read.run 0 with
  | .ok a => .ok a
  | .error e => .error (.json e.message)

/-- Read a value of one type from the bytes of JSON text. -/
def decodeBytes {α : Type} (read : Reader Document α) (bytes : List UInt8) :
    Except ModelError α :=
  match Document.ofBytes bytes >>= read.run 0 with
  | .ok a => .ok a
  | .error e => .error (.json e.message)

/-- Check that bytes are a JSON document that has a reading in all its parts. -/
def validate (bytes : List UInt8) : Except ModelError Unit :=
  match Document.ofBytes bytes with
  | .ok d => if d.isStrict then .ok () else .error (.json "a part of the document has no reading")
  | .error e => .error (.json e.message)

/-- A model as JSON text, on one line or one item a line. -/
def encodeModel (layout : Layout) (m : Model) : String := render layout m.toWire

end UmlCatalog.Json
