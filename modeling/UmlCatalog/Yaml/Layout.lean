import UmlCatalog.Yaml.Scalar.Block
import UmlCatalog.Yaml.Scalar.Plain
import UmlCatalog.Yaml.Scalar.Quoted
import UmlCatalog.Yaml.Tag

/-!
# From text to tokens

The layout of a YAML text says where blocks start and end and which scalars are keys. A block
starts with its first item or key and ends at the first line that is indented less. That a
word is a key shows only at the colon behind it; until then it is remembered as a possible
key, and the token for a key goes in front of it later. A possible key must end on its own
line and within a number of bytes.

## Implementation notes

Inside brackets indentation means nothing. Each pair of brackets has a possible key of its
own, so those of the brackets around it wait on a stack.
-/

namespace UmlCatalog.Yaml

/-- A word that may turn out to be a key. -/
structure PossibleKey where
  /-- The number of tokens before it. -/
  before : Nat
  /-- Whether nothing but a key can stand there. -/
  required : Bool
  place : Place
  deriving DecidableEq, Inhabited

/-- The longest distance in bytes between the start of a key and its colon. -/
def maxKeyLength : Nat := 1024

/-- Whether the colon of a key can no longer come at a place. -/
def PossibleKey.isPast (k : PossibleKey) (place : Place) : Bool :=
  k.place.line < place.line || k.place.offset + maxKeyLength < place.offset

/-- How far the layout of a text is known. -/
structure Layout where
  rest : List Char
  place : Place
  /-- The columns of the open blocks, innermost first. -/
  columns : List Nat
  possibleKey : Option PossibleKey
  /-- The possible keys outside each open pair of brackets, innermost first. -/
  outerKeys : List (Option PossibleKey)
  /-- Whether a key may start here. -/
  keyAllowed : Bool
  /-- The number of tokens so far. -/
  count : Nat
  /-- The tokens so far, latest first. -/
  tokens : List Token
  deriving Inhabited

namespace Layout

/-- The layout before a text. -/
def start (cs : List Char) : Layout := ⟨cs, .start, [], none, [], true, 0, []⟩

/-- Whether a bracket is open. -/
def isFlow (l : Layout) : Bool := !l.outerKeys.isEmpty

/-- The least column of lines that continue a scalar. -/
def nextColumn (l : Layout) : Nat := l.columns.head?.elim 0 Nat.succ

/-- Add a token. -/
def push (l : Layout) (t : Token) : Layout :=
  { l with tokens := t :: l.tokens, count := l.count + 1 }

/-- Add tokens, latest first, behind the first `n` ones. -/
def insertAt (l : Layout) (n : Nat) (ts : List Token) : Layout :=
  let later := l.count - n
  { l with
    tokens := l.tokens.take later ++ (ts ++ l.tokens.drop later)
    count := l.count + ts.length }

/-- Pass over ASCII characters of one line. -/
def skip (l : Layout) (n : Nat) : Layout :=
  { l with rest := l.rest.drop n, place := l.place.along n }

/-- Go on behind what has been read. -/
def resume {α : Type} (l : Layout) (s : Scanned α) : Layout :=
  { l with rest := s.rest, place := s.place }

/-- Whether a block at a column would lie inside all open blocks. -/
def isDeeper (l : Layout) (column : Nat) : Bool := l.columns.head?.all fun c => c < column

/-- Open a block at the current column, unless one is open there. -/
def openBlock (l : Layout) (t : Token) : Layout :=
  if !l.isFlow && l.isDeeper l.place.column then
    { l with columns := l.place.column :: l.columns }.push t
  else l

/-- Close the innermost blocks that satisfy a condition on their column. -/
def closeBlocks (l : Layout) (p : Nat → Bool) : Layout :=
  if l.isFlow then l
  else
    let closed := l.columns.takeWhile p
    { l with
      columns := l.columns.dropWhile p
      tokens := List.replicate closed.length .closeBlock ++ l.tokens
      count := l.count + closed.length }

/-- Give up a possible key. -/
def dropKey (l : Layout) : Option Layout :=
  if l.possibleKey.any PossibleKey.required then none else some { l with possibleKey := none }

/-- Remember that a key may start here. -/
def markKey (l : Layout) : Option Layout :=
  if l.keyAllowed then do
    let required := !l.isFlow && l.columns.head? = some l.place.column
    let l ← l.dropKey
    return { l with possibleKey := some ⟨l.count, required, l.place⟩ }
  else some l

/-- Give up a possible key whose colon can no longer come. -/
def expireKey (l : Layout) : Option Layout :=
  if l.possibleKey.any fun k => k.isPast l.place then l.dropKey else some l

/-- Pass over white space and comments. Outside brackets a key may start on a new line. A tab
is white space only where no key may start, a byte order mark only in front of a line. -/
def skipGap (flow keyAllowed inComment : Bool) (place : Place) : List Char → Scanned Bool
  | [] => ⟨keyAllowed, [], place⟩
  | c :: rest =>
      if isBreak c then skipGap flow (keyAllowed || !flow) false place.nextLine rest
      else if inComment then skipGap flow keyAllowed true (place.next c) rest
      else if c = ' ' ∨ ((flow ∨ !keyAllowed) ∧ c = '\t') ∨
          (place.column = 0 ∧ c = byteOrderMark) then
        skipGap flow keyAllowed false (place.next c) rest
      else if c = '#' then skipGap flow keyAllowed true (place.next c) rest
      else ⟨keyAllowed, c :: rest, place⟩

/-- Go to the start of the next word. -/
def advance (l : Layout) : Layout :=
  let s := skipGap l.isFlow l.keyAllowed false l.place l.rest
  { l.resume s with keyAllowed := s.result }.closeBlocks fun column => s.place.column < column

/-- The end of the text, which closes all blocks. -/
def finish (l : Layout) : Option (List Token) := do
  let l ← (l.closeBlocks fun _ => true).dropKey
  return (Token.streamEnd :: l.tokens).reverse

/-- The start of what belongs to no block. -/
def leaveBlocks (l : Layout) : Option Layout := do
  let l ← (l.closeBlocks fun _ => true).dropKey
  return { l with keyAllowed := false }

/-- A directive. -/
def directive (l : Layout) : Option Layout := do
  let l ← l.leaveBlocks
  let s ← scanDirective (l.place.along 1) (l.rest.drop 1)
  return (l.resume s).push s.result

/-- A mark between documents. -/
def documentMark (l : Layout) (t : Token) : Option Layout := do
  return ((← l.leaveBlocks).skip 3).push t

/-- An opening bracket, which may start a key. -/
def openFlow (l : Layout) (t : Token) : Option Layout := do
  let l ← l.markKey
  return ({ l with
    possibleKey := none
    outerKeys := l.possibleKey :: l.outerKeys
    keyAllowed := true }.skip 1).push t

/-- A closing bracket. -/
def closeFlow (l : Layout) (t : Token) : Option Layout := do
  let l ← l.dropKey
  let l := match l.outerKeys with
    | key :: outer => { l with possibleKey := key, outerKeys := outer }
    | [] => l
  return ({ l with keyAllowed := false }.skip 1).push t

/-- A comma. -/
def comma (l : Layout) : Option Layout := do
  return ({ ← l.dropKey with keyAllowed := true }.skip 1).push .comma

/-- The hyphen before an item of a list. -/
def item (l : Layout) : Option Layout :=
  if !l.isFlow && !l.keyAllowed then none
  else do
    let l ← (l.openBlock .openBlockList).dropKey
    return ({ l with keyAllowed := true }.skip 1).push .item

/-- The question mark before a key. -/
def key (l : Layout) : Option Layout :=
  if !l.isFlow && !l.keyAllowed then none
  else do
    let l ← (l.openBlock .openBlockRecord).dropKey
    return ({ l with keyAllowed := !l.isFlow }.skip 1).push .key

/-- Make a possible key a key, which opens a block unless one is open at its column. -/
def confirmKey (l : Layout) (k : PossibleKey) : Layout :=
  let l := { l with possibleKey := none, keyAllowed := false }
  if !l.isFlow && l.isDeeper k.place.column then
    { l with columns := k.place.column :: l.columns }.insertAt k.before [.key, .openBlockRecord]
  else l.insertAt k.before [.key]

/-- The colon before a value. -/
def value (l : Layout) : Option Layout := do
  let l ← l.expireKey
  match l.possibleKey with
  | some k => return ((l.confirmKey k).skip 1).push .value
  | none =>
      if !l.isFlow && !l.keyAllowed then none
      else
        let l := l.openBlock .openBlockRecord
        return ({ l with keyAllowed := !l.isFlow }.skip 1).push .value

/-- A word that may be a key or start one. -/
def word (l : Layout) (scan : Place → List Char → Option (Scanned Token)) : Option Layout := do
  let l ← l.markKey
  let s ← scan l.place l.rest
  return ({ l with keyAllowed := false }.resume s).push s.result

/-- Read something behind an ASCII character. -/
def behindMark {α : Type} (scan : Place → List Char → Option (Scanned α)) (f : α → Token)
    (place : Place) (cs : List Char) : Option (Scanned Token) :=
  (scan (place.along 1) (cs.drop 1)).map fun s => s.map f

/-- Read a tag, behind which white space follows, or a comma inside brackets. -/
def scanTagToken (flow : Bool) (place : Place) (cs : List Char) : Option (Scanned Token) := do
  let s ← scanTag place cs
  if atGap s.rest || (flow && s.rest.head? = some ',') then
    return s.map fun t => .tag t.1 t.2
  else none

/-- A scalar token. -/
def scalarToken (style : ScalarStyle) (text : List Char) : Token :=
  .scalar ⟨String.ofList text, style⟩

/-- A block scalar. A key may start behind it. -/
def blockScalar (l : Layout) (literal : Bool) : Option Layout := do
  let l ← l.dropKey
  let s ← Scalar.block literal l.columns.head? (l.place.along 1) (l.rest.drop 1)
  return ({ l with keyAllowed := true }.resume s).push
    (scalarToken (if literal then .literal else .folded) s.result)

/-- A plain scalar. A key may start behind it if the end of its line has been read. -/
def plainScalar (l : Layout) : Option Layout := do
  let l ← l.markKey
  let s ← Scalar.plain l.isFlow l.nextColumn l.place l.rest
  return ({ l with keyAllowed := s.result.2 }.resume s).push (scalarToken .plain s.result.1)

/-- Whether a plain scalar can start with a character and the text behind it. -/
def startsPlain (flow : Bool) (c : Char) (rest : List Char) : Bool :=
  if c = '-' then !rest.head?.any isBlank
  else if c = '?' ∨ c = ':' then !flow && !atGap rest
  else !isBlank c && !indicators.contains c

/-- Read the word that starts with a character. -/
def token (l : Layout) (c : Char) (rest : List Char) : Option Layout :=
  if l.place.column = 0 ∧ c = '%' then l.directive
  else if l.place.column = 0 ∧ isDocumentMark (c :: rest) then
    l.documentMark (if c = '-' then .documentStart else .documentEnd)
  else if c = '[' then l.openFlow .openFlowList
  else if c = '\x7b' then l.openFlow .openFlowRecord
  else if c = ']' then l.closeFlow .closeFlowList
  else if c = '\x7d' then l.closeFlow .closeFlowRecord
  else if c = ',' then l.comma
  else if c = '-' ∧ atGap rest then l.item
  else if c = '?' ∧ (l.isFlow ∨ atGap rest) then l.key
  else if c = ':' ∧ (l.isFlow ∨ atGap rest) then l.value
  else if c = '*' then l.word (behindMark scanName .alias)
  else if c = '&' then l.word (behindMark scanName .anchor)
  else if c = '!' then l.word (behindMark (scanTagToken l.isFlow) id)
  else if c = '|' ∧ !l.isFlow then l.blockScalar true
  else if c = '>' ∧ !l.isFlow then l.blockScalar false
  else if c = '\'' then
    l.word (behindMark Scalar.singleQuoted (scalarToken .singleQuoted))
  else if c = '\x22' then
    l.word (behindMark Scalar.doubleQuoted (scalarToken .doubleQuoted))
  else if startsPlain l.isFlow c rest then l.plainScalar
  else none

/-- Read at most a number of words, and the end of the text. -/
def run : Nat → Layout → Option (List Token)
  | n, l =>
      let l := l.advance
      match l.rest with
      | [] => l.finish
      | c :: rest =>
          match n with
          | 0 => none
          | n + 1 => (l.token c rest).bind fun l => run n l

end Layout

/-- The tokens of a text. Every word takes a character at least. -/
def tokens? (cs : List Char) : Option (List Token) :=
  (Layout.start cs).run cs.length

end UmlCatalog.Yaml
