import UmlCatalog.Json.Token
import UmlCatalog.Wire.Reading

/-!
# JSON documents

The tree of a JSON text, and the machine that builds it from words. The machine keeps the
lists and records that are still open, so that nesting of any depth is read alike.

Every string and number is kept even if it has no reading; `Document.isStrict` tells whether
a document would be read with every part of it looked at.
-/

namespace UmlCatalog.Json

/-- The tree of a JSON text. -/
inductive Document where
  | null
  | bool (b : Bool)
  | number (n : Number)
  | string (s : Option String)
  | list (items : List Document)
  | record (members : List (Option String × Document))
  deriving Inhabited

/-- What waits for a value: a list with the items before it, or a record with the members
before it and the key of the value. Items and members stand latest first. -/
inductive Frame where
  | list (items : List Document)
  | record (members : List (Option String × Document)) (key : Option String)

/-- What may come next in a text. -/
inductive State where
  /-- A value. -/
  | value (frames : List Frame)
  /-- The first item of a list, or its end. -/
  | firstItem (frames : List Frame)
  /-- A comma or the end of a list. -/
  | afterItem (items : List Document) (frames : List Frame)
  /-- The first key of a record, or its end. -/
  | firstKey (frames : List Frame)
  /-- A key. -/
  | key (members : List (Option String × Document)) (frames : List Frame)
  /-- The colon after a key. -/
  | colon (members : List (Option String × Document)) (key : Option String)
      (frames : List Frame)
  /-- A comma or the end of a record. -/
  | afterMember (members : List (Option String × Document)) (frames : List Frame)
  /-- Nothing: the text is complete. -/
  | done (document : Document)

/-- The state after a complete value. -/
def State.complete (d : Document) : List Frame → State
  | [] => .done d
  | .list items :: frames => .afterItem (d :: items) frames
  | .record members k :: frames => .afterMember ((k, d) :: members) frames

/-- The state after a word that starts a value. -/
def State.start (frames : List Frame) : Token → Option State
  | .null => some (.complete .null frames)
  | .bool b => some (.complete (.bool b) frames)
  | .number n => some (.complete (.number n) frames)
  | .string s => some (.complete (.string s) frames)
  | .openList => some (.firstItem frames)
  | .openRecord => some (.firstKey frames)
  | _ => none

/-- The state after a word. -/
def State.step : State → Token → Option State
  | .value frames, t => State.start frames t
  | .firstItem frames, .closeList => some (.complete (.list []) frames)
  | .firstItem frames, t => State.start (.list [] :: frames) t
  | .afterItem items frames, .comma => some (.value (.list items :: frames))
  | .afterItem items frames, .closeList => some (.complete (.list items.reverse) frames)
  | .firstKey frames, .closeRecord => some (.complete (.record []) frames)
  | .firstKey frames, .string k => some (.colon [] k frames)
  | .key members frames, .string k => some (.colon members k frames)
  | .colon members k frames, .colon => some (.value (.record members k :: frames))
  | .afterMember members frames, .comma => some (.key members frames)
  | .afterMember members frames, .closeRecord => some (.complete (.record members.reverse) frames)
  | _, _ => none

/-- Run the machine over the words of a text. -/
def State.run : State → List Token → Option State
  | s, [] => some s
  | s, t :: ts => (s.step t).bind fun s => run s ts

namespace Document

/-- Build the tree of a sequence of words. -/
def ofTokens? (tokens : List Token) : Option Document :=
  match (State.value []).run tokens with
  | some (.done d) => some d
  | _ => none

/-- Read a text given as glyphs. -/
def ofGlyphs? (glyphs : List Text.Glyph) : Option Document :=
  (tokens? glyphs).bind ofTokens?

/-- Read a text. -/
def ofText (s : String) : Except ReadError Document :=
  match ofGlyphs? (Text.glyphs s) with
  | some d => .ok d
  | none => .error .syntaxError

/-- Read a text given as bytes. -/
def ofBytes (bytes : List UInt8) : Except ReadError Document :=
  match ofGlyphs? (Text.decode bytes) with
  | some d => .ok d
  | none => .error .syntaxError

/-- There are no aliases. A record may be written as the list of its fields, and a word also as
the only key of a record that binds it to null. -/
instance : Readable Document where
  aliased? _ := none
  isNull?
    | null => some true
    | _ => some false
  text?
    | string s => s
    | _ => none
  flag?
    | bool b => some b
    | _ => none
  index?
    | number n => n.index?
    | _ => none
  items?
    | list items => some items
    | _ => none
  fields?
    | record members => some (members.map fun e => (string e.1, e.2))
    | _ => none
  positional?
    | list items => some items
    | _ => none
  word?
    | string s => s
    | record [(some k, null)] => some k
    | _ => none

/-- The deepest nesting at which every part of a document is looked at. -/
def maxDepth : Nat := 127

mutual
/-- Whether every string has a text, every number is in range and no more than `depth` lists
and records lie in each other. -/
def isStrictWithin (depth : Nat) : Document → Bool
  | null => true
  | bool _ => true
  | number n => !n.isOutOfRange
  | string s => s.isSome
  | list items =>
      match depth with
      | 0 => false
      | depth + 1 => areStrictWithin depth items
  | record members =>
      match depth with
      | 0 => false
      | depth + 1 => membersAreStrictWithin depth members

/-- The same for the items of a list. -/
def areStrictWithin (depth : Nat) : List Document → Bool
  | [] => true
  | d :: rest => isStrictWithin depth d && areStrictWithin depth rest

/-- The same for the members of a record, whose keys must have a text too. -/
def membersAreStrictWithin (depth : Nat) : List (Option String × Document) → Bool
  | [] => true
  | (k, d) :: rest => k.isSome && isStrictWithin depth d && membersAreStrictWithin depth rest
end

/-- Whether a document has a reading in all its parts. -/
def isStrict (d : Document) : Bool := d.isStrictWithin maxDepth

end Document
end UmlCatalog.Json
