import UmlCatalog.Yaml.Token

/-!
# Block scalars

A block scalar takes whole lines, indented deeper than what surrounds it. Written literally
its line ends are kept; folded, a single line end between two lines that start with a word
counts as a space. What becomes of the line ends behind the last line is written in front.
-/

namespace UmlCatalog.Yaml.Scalar

/-- What becomes of the line ends behind the last line of a block scalar. -/
inductive Chomping where
  /-- None is kept. -/
  | strip
  /-- One is kept. -/
  | clip
  /-- All are kept. -/
  | keep
  deriving DecidableEq, Inhabited

/-- What is written in front of a block scalar. -/
structure BlockHeader where
  chomping : Chomping
  /-- How much deeper than its surroundings the scalar is indented, if that is written. -/
  depth : Option Nat
  deriving DecidableEq

/-- The chomping that a character asks for. -/
def Chomping.ofChar? (c : Char) : Option Chomping :=
  if c = '+' then some .keep else if c = '-' then some .strip else none

/-- The depth that a character asks for. -/
def depth? (c : Char) : Option Nat :=
  if c.isDigit ∧ c ≠ '0' then some (c.toNat - '0'.toNat) else none

/-- The header that a word spells, its two parts in any order. -/
def BlockHeader.ofWord? (cs : List Char) : Option BlockHeader :=
  match cs with
  | [] => some ⟨.clip, none⟩
  | [c] =>
      match Chomping.ofChar? c, depth? c with
      | some chomping, _ => some ⟨chomping, none⟩
      | none, some depth => some ⟨.clip, some depth⟩
      | none, none => none
  | [c, d] =>
      match Chomping.ofChar? c, depth? d with
      | some chomping, some depth => some ⟨chomping, some depth⟩
      | _, _ =>
          match depth? c, Chomping.ofChar? d with
          | some depth, some chomping => some ⟨chomping, some depth⟩
          | _, _ => none
  | _ => none

/-- Read the header of a block scalar with the rest of its line, behind the indicator. -/
def blockHeader (place : Place) (cs : List Char) : Option (Scanned BlockHeader) := do
  let s := scanWhile (fun c => c = '+' || c = '-' || c.isDigit) place cs
  let header ← BlockHeader.ofWord? s.result
  return (← scanLineRest s.place s.rest).map fun _ => header

/-- The lines of a block scalar that have been read. -/
structure BlockLines where
  /-- The characters up to the last line end that another line follows, latest first. -/
  text : List Char
  /-- The end of the last line with text. -/
  lineEnd : Option Char
  /-- The ends of the empty lines behind it, latest first. -/
  empties : List Char
  /-- Whether the last line with text starts with white space. -/
  isIndented : Bool
  /-- The column at which the lines start, once it is known. -/
  column : Option Nat
  /-- The deepest column reached in the lines before it is known. -/
  deepest : Nat
  deriving Inhabited

namespace BlockLines

/-- Nothing read yet. -/
def start (column : Option Nat) : BlockLines := ⟨[], none, [], false, column, 0⟩

/-- The characters in front of the next line with text, latest first. -/
def joined (b : BlockLines) (literal startsBlank : Bool) : List Char :=
  if b.lineEnd = some '\n' ∧ !literal ∧ !b.isIndented ∧ !startsBlank then
    (if b.empties.isEmpty then [' '] else b.empties) ++ b.text
  else b.empties ++ (b.lineEnd.toList ++ b.text)

/-- The text of the scalar, latest character first. -/
def reverseText (b : BlockLines) : Chomping → List Char
  | .strip => b.text
  | .clip => b.lineEnd.toList ++ b.text
  | .keep => b.empties ++ (b.lineEnd.toList ++ b.text)

/-- Whether a place lies in the indentation of a line. -/
def isIndentation (b : BlockLines) (place : Place) : Bool :=
  b.column.all fun column => place.column < column

/-- The column at which the lines start, given the least one it can be and the place of the
first character that is no white space. -/
def settledColumn (b : BlockLines) (least : Nat) (place : Place) : Nat :=
  b.column.getD (max (max b.deepest place.column) least)

end BlockLines

/-- Read on in a block scalar, inside a line with text or in front of one. -/
def blockFrom (literal : Bool) (chomping : Chomping) (least : Nat) (inside : Bool)
    (b : BlockLines) (place : Place) : List Char → Option (Scanned (List Char))
  | [] => some ⟨(b.reverseText chomping).reverse, [], place⟩
  | c :: rest =>
      if inside then
        if isBreak c then
          blockFrom literal chomping least false { b with lineEnd := some c } place.nextLine rest
        else
          blockFrom literal chomping least true { b with text := c :: b.text } (place.next c) rest
      else if b.isIndentation place ∧ c = ' ' then
        blockFrom literal chomping least false b (place.next c) rest
      else if b.isIndentation place ∧ c = '\t' then none
      else if isBreak c then
        blockFrom literal chomping least false
          { b with empties := c :: b.empties, deepest := max b.deepest place.column }
          place.nextLine rest
      else
        let column := b.settledColumn least place
        if place.column = column then
          let text := c :: b.joined literal (isBlank c)
          blockFrom literal chomping least true
            ⟨text, none, [], isBlank c, some column, b.deepest⟩ (place.next c) rest
        else some ⟨(b.reverseText chomping).reverse, c :: rest, place⟩

/-- Read a block scalar behind its indicator. The lines of the block around it start at
`around`, if there is one. -/
def block (literal : Bool) (around : Option Nat) (place : Place) (cs : List Char) :
    Option (Scanned (List Char)) := do
  let header ← blockHeader place cs
  let column := header.result.depth.map fun depth => around.getD 0 + depth
  let least := max 1 (around.elim 0 Nat.succ)
  blockFrom literal header.result.chomping least false (.start column) header.place header.rest

end UmlCatalog.Yaml.Scalar
