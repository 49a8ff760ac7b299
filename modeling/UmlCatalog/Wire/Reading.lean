import UmlCatalog.OrderedMap
import UmlCatalog.OrderedSet

/-!
# Reading documents

Formats differ in how a document is written, and in what one and the same node may be taken
for. `Readable` states what a node can be taken for; the readers of models are built on it
once, for every format.

The fields of a record are looked up by name. A field that the record type does not know is
skipped unseen, a known field that occurs twice is an error.

A node may be an alias of another one, so that a short document can spell a long value. The
number of aliases that are followed is therefore limited, and readers count it down.
-/

namespace UmlCatalog

/-- Why a document is not what was to be read. -/
inductive ReadError where
  | syntaxError
  | expected (what : String)
  | missingField (name : String)
  | repeatedField (name : String)
  | tooManyFields
  | tooManyAliases
  deriving DecidableEq, Inhabited

/-- The text of a read error. -/
def ReadError.message : ReadError → String
  | syntaxError => "the document is not well formed"
  | expected what => "expected " ++ what
  | missingField name => "missing field " ++ name
  | repeatedField name => "duplicate field " ++ name
  | tooManyFields => "too many fields"
  | tooManyAliases => "too many aliases"

/-- What a node of a document can be taken for. An alias can be taken for nothing itself. -/
class Readable (ν : Type) where
  /-- The node that an alias stands for; it is not an alias. -/
  aliased? : ν → Option ν
  /-- Whether the node stands for an absent value, unless it contradicts itself. -/
  isNull? : ν → Option Bool
  text? : ν → Option String
  flag? : ν → Option Bool
  index? : ν → Option Nat
  items? : ν → Option (List ν)
  /-- The fields of a record or the bindings of a map, each with its name. -/
  fields? : ν → Option (List (ν × ν))
  /-- The fields of a record written without their names, in the order of the record type. -/
  positional? : ν → Option (List ν)
  /-- The word that chooses one of several alternatives. -/
  word? : ν → Option String

/-- A reading that can fail. The state is the number of aliases that may still be followed. -/
abbrev ReadM := StateT Nat (Except ReadError)

/-- A reader of values of one type. -/
abbrev Reader (ν α : Type) := ν → ReadM α

namespace Reader
variable {ν α : Type} [Readable ν]

/-- Read a document in which at most a number of aliases may be followed. -/
def run (read : Reader ν α) (aliases : Nat) (n : ν) : Except ReadError α := (read n).run' aliases

/-- Go from an alias to the node that it stands for. -/
def follow : Reader ν ν := fun n =>
  match Readable.aliased? n with
  | none => pure n
  | some target => do
      match ← get with
      | 0 => throw .tooManyAliases
      | aliases + 1 =>
          set aliases
          return target

/-- A node that is no alias is taken as it is. -/
theorem follow_of_aliased?_eq_none {n : ν} (h : Readable.aliased? n = none) :
    follow n = pure n := by
  simp [follow, h]

/-- Take a node for something, or fail with the name of it. -/
def take (what : String) (view : ν → Option α) : Reader ν α := fun n => do
  match view (← follow n) with
  | some a => return a
  | none => throw (.expected what)

/-- Read a text. -/
def text : Reader ν String := take "a text" Readable.text?

/-- Read a truth value. -/
def flag : Reader ν Bool := take "a truth value" Readable.flag?

/-- Read a position in a list. -/
def index : Reader ν Nat := take "an index" Readable.index?

/-- Read a list of values of one kind. -/
def listOf (read : Reader ν α) : Reader ν (List α) := fun n => do
  (← take "a list" Readable.items? n).mapM read

/-- Read a value that may be absent. -/
def optional (read : Reader ν α) : Reader ν (Option α) := fun n => do
  let n ← follow n
  match Readable.isNull? n with
  | some true => return none
  | some false => some <$> read n
  | none => throw (.expected "nothing")

/-- Read a set; a repeated member keeps its first place. -/
def setOf [DecidableEq α] (read : Reader ν α) : Reader ν (OrderedSet α) := fun n =>
  OrderedSet.ofList <$> listOf read n

/-- Read a map; a repeated key keeps its first place and takes its last value. -/
def mapOf {κ : Type} [DecidableEq κ] (key : String → κ) (read : Reader ν α) :
    Reader ν (OrderedMap κ α) := fun n => do
  let bindings ← (← take "a map" Readable.fields? n).mapM fun b => do
    return (key (← text b.1), ← read b.2)
  return OrderedMap.ofList bindings

end Reader

/-- The known fields of a record. -/
structure FieldTable (ν : Type) where
  fields : List (String × ν)

namespace FieldTable
variable {ν α : Type}

/-- Keep the known fields of a record, each of which may occur once. -/
def select (known : List String) : List (String × ν) → Except ReadError (FieldTable ν)
  | [] => .ok ⟨[]⟩
  | (name, n) :: rest => do
      let table ← select known rest
      if name ∈ known then
        if table.fields.any fun e => e.1 = name then .error (.repeatedField name)
        else return ⟨(name, n) :: table.fields⟩
      else return table

/-- Give names to the fields of a record that is written without them. -/
def ofItems (known : List String) (items : List ν) : Except ReadError (FieldTable ν) :=
  if known.length < items.length then .error .tooManyFields else .ok ⟨known.zip items⟩

variable [Readable ν]

/-- Take a node for a record with the given fields, written with or without their names. -/
def read (known : List String) : Reader ν (FieldTable ν) := fun n => do
  let n ← Reader.follow n
  match Readable.fields? n, Readable.positional? n with
  | some fields, _ => select known (← fields.mapM fun e => return (← Reader.text e.1, e.2))
  | none, some items => ofItems known items
  | none, none => throw (.expected "a record")

/-- Read a field that must be there. -/
def required (t : FieldTable ν) (name : String) (reader : Reader ν α) : ReadM α :=
  match t.fields.lookup name with
  | some n => reader n
  | none => throw (.missingField name)

/-- Read a field that has a default. -/
def withDefault (t : FieldTable ν) (name : String) (default : α) (reader : Reader ν α) :
    ReadM α :=
  match t.fields.lookup name with
  | some n => reader n
  | none => return default

/-- Read a field that may be left out or hold an absent value. -/
def optional (t : FieldTable ν) (name : String) (reader : Reader ν α) : ReadM (Option α) :=
  t.withDefault name none (Reader.optional reader)

end FieldTable
end UmlCatalog
