import UmlCatalog.Text.Utf8
import UmlCatalog.Yaml.Character

/-!
# YAML tokens

The words of a YAML text, and the place at which reading stands between two of them. The
indentation of blocks is made explicit by tokens that open and close them.
-/

namespace UmlCatalog.Yaml

/-- The ways to write a scalar. -/
inductive ScalarStyle where
  | plain
  | singleQuoted
  | doubleQuoted
  | literal
  | folded
  deriving DecidableEq, Inhabited

/-- A scalar with the way in which it is written. -/
structure Scalar where
  text : String
  style : ScalarStyle
  deriving DecidableEq, Inhabited

/-- A tag, or a part of one. It consists of bytes, because an escape in it can spell any. -/
structure Tag where
  bytes : List UInt8
  deriving DecidableEq, Inhabited

namespace Tag

/-- The tag that bytes spell. It ends before the first zero byte. -/
def ofBytes (bytes : List UInt8) : Tag := ⟨bytes.takeWhile fun b => b ≠ 0⟩

/-- The tag that a text spells. -/
def ofText (s : String) : Tag := ofBytes (Text.encode s)

/-- Whether a tag has no bytes. -/
def isEmpty (t : Tag) : Bool := t.bytes.isEmpty

/-- A tag of two parts. -/
instance : Append Tag := ⟨fun s t => ⟨s.bytes ++ t.bytes⟩⟩

end Tag

/-- A word of a YAML text. -/
inductive Token where
  | version (major minor : Nat)
  /-- What a handle stands for in tags. -/
  | tagHandle (handle : String) (meaning : Tag)
  | documentStart
  | documentEnd
  | streamEnd
  | openBlockList
  | openBlockRecord
  | closeBlock
  | openFlowList
  | closeFlowList
  | openFlowRecord
  | closeFlowRecord
  /-- The hyphen before an item of a block list. -/
  | item
  | comma
  | key
  | value
  | alias (name : String)
  | anchor (name : String)
  /-- A tag, in which the handle, if there is one, is still to be replaced by its meaning. -/
  | tag (handle : Option String) (suffix : Tag)
  | scalar (s : Scalar)
  deriving DecidableEq, Inhabited

/-- A place in a text. -/
structure Place where
  /-- The number of line ends before it. -/
  line : Nat
  /-- The number of characters before it in its line. -/
  column : Nat
  /-- The number of bytes before it in its line. -/
  offset : Nat
  deriving DecidableEq, Inhabited

namespace Place

/-- The place before a text. -/
def start : Place := ⟨0, 0, 0⟩

/-- The place behind a character of the same line. -/
def next (p : Place) (c : Char) : Place := ⟨p.line, p.column + 1, p.offset + c.utf8Size⟩

/-- The place behind several characters of the same line. -/
def past (p : Place) (cs : List Char) : Place := cs.foldl next p

/-- The place a number of ASCII characters further on in the same line. -/
def along (p : Place) (n : Nat) : Place := ⟨p.line, p.column + n, p.offset + n⟩

/-- The place behind the end of a line. -/
def nextLine (p : Place) : Place := ⟨p.line + 1, 0, 0⟩

/-- Characters of a line can be passed in two parts. -/
theorem past_append (p : Place) (cs ds : List Char) : p.past (cs ++ ds) = (p.past cs).past ds :=
  List.foldl_append

/-- An ASCII character takes one byte. -/
theorem next_of_isAscii (p : Place) {c : Char} (h : c.toNat < 128) : p.next c = p.along 1 := by
  have : c.utf8Size = 1 := Char.utf8Size_eq_one_iff.mpr (UInt32.le_iff_toNat_le.mpr (by
    change c.toNat ≤ 127
    omega))
  simp [next, along, this]

end Place

/-- What has been read, with the rest of the text and the place where it starts. -/
structure Scanned (α : Type) where
  result : α
  rest : List Char
  place : Place
  deriving Inhabited

/-- Replace what has been read. -/
def Scanned.map {α β : Type} (f : α → β) (s : Scanned α) : Scanned β :=
  ⟨f s.result, s.rest, s.place⟩

/-- Read as many characters of one line as satisfy a condition. -/
def scanWhile (p : Char → Bool) (place : Place) (cs : List Char) : Scanned (List Char) :=
  let taken := cs.takeWhile p
  ⟨taken, cs.dropWhile p, place.past taken⟩

/-- Read the rest of a line that may only hold white space and a comment, up to its end. -/
def scanLineRest (place : Place) (cs : List Char) : Option (Scanned Unit) :=
  let s := scanWhile isBlank place cs
  let s := match s.rest with
    | '#' :: _ => scanWhile (fun c => !isBreak c) s.place s.rest
    | _ => s
  match s.rest with
  | [] => some ⟨(), [], s.place⟩
  | c :: rest => if isBreak c then some ⟨(), rest, s.place.nextLine⟩ else none

/-- Whether three equal marks that delimit a document stand at the start of a text. -/
def isDocumentMark : List Char → Bool
  | '-' :: '-' :: '-' :: rest => atGap rest
  | '.' :: '.' :: '.' :: rest => atGap rest
  | _ => false

end UmlCatalog.Yaml
