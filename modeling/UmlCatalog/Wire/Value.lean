/-!
# Documents to be written

A model is written as a document built from texts, flags, indexes, lists and records. The
fields of a record stand in the order in which they are written.
-/

namespace UmlCatalog

/-- A document as it is written. -/
inductive WireValue where
  | text (s : String)
  | flag (b : Bool)
  | index (n : Nat)
  | list (items : List WireValue)
  | record (fields : List (String × WireValue))
  deriving Inhabited

namespace WireValue

/-- A list of values of one kind. -/
def listOf {α : Type} (write : α → WireValue) (items : List α) : WireValue :=
  list (items.map write)

/-- A field that is always written. -/
def field (name : String) (value : WireValue) : List (String × WireValue) := [(name, value)]

/-- A field that is left out if there is nothing to write. -/
def optionalField {α : Type} (name : String) (write : α → WireValue) :
    Option α → List (String × WireValue)
  | none => []
  | some a => [(name, write a)]

end WireValue
end UmlCatalog
