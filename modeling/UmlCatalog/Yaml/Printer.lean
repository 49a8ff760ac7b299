import UmlCatalog.Wire.Value
import UmlCatalog.Yaml.Scalar.Style

/-!
# Writing YAML

Records and lists are written as blocks, two columns deeper than what they belong to; a list
that is the value of a simple key starts at the column of the key. Empty ones are written as
a pair of braces or brackets. No line is folded.

## Implementation notes

Every value is written up to the end of its last line.
-/

namespace UmlCatalog.Yaml

/-- The number of columns by which a block is indented. -/
def indentStep : Nat := 2

/-- The white space in front of a column. -/
def indentation (column : Nat) : List Char := List.replicate column ' '

/-- The upper-case hexadecimal digit of a number below 16. -/
def upperHexDigit (n : Nat) : Char :=
  if n < 10 then Char.ofNat (n + '0'.toNat) else Char.ofNat (n - 10 + 'A'.toNat)

/-- A digit is read as the number that it is written for. -/
theorem hexDigit?_upperHexDigit {n : Nat} (h : n < 16) : hexDigit? (upperHexDigit n) = some n := by
  have hall : ∀ m : Fin 16, hexDigit? (upperHexDigit m) = some m.val := by decide
  exact hall ⟨n, h⟩

/-- The last hexadecimal digits of a number, a given count of them. -/
def upperHex : Nat → Nat → List Char
  | 0, _ => []
  | count + 1, n => upperHex count (n / 16) ++ [upperHexDigit (n % 16)]

@[simp] theorem length_upperHex (count n : Nat) : (upperHex count n).length = count := by
  induction count generalizing n with
  | zero => rfl
  | succ count ih => simp [upperHex, ih]

/-- The letter that stands for a character behind a backslash. -/
def escapeLetter? (c : Char) : Option Char :=
  match c with
  | '\x00' => some '0'
  | '\x07' => some 'a'
  | '\x08' => some 'b'
  | '\t' => some 't'
  | '\n' => some 'n'
  | '\x0b' => some 'v'
  | '\x0c' => some 'f'
  | '\r' => some 'r'
  | '\x1b' => some 'e'
  | '\x22' => some '\x22'
  | '\\' => some '\\'
  | '\u0085' => some 'N'
  | '\u2028' => some 'L'
  | '\u2029' => some 'P'
  | _ => none

/-- A character as it is written between double quotes. -/
def writeEscaped (c : Char) : List Char :=
  match escapeLetter? c with
  | some letter => ['\\', letter]
  | none =>
      if isPrintable c then [c]
      else if c.toNat ≤ 0xFF then '\\' :: 'x' :: upperHex 2 c.toNat
      else if c.toNat ≤ 0xFFFF then '\\' :: 'u' :: upperHex 4 c.toNat
      else '\\' :: 'U' :: upperHex 8 c.toNat

/-- Write characters between single quotes, starting behind the end of a line or not. What
follows the end of a line starts at a column. -/
def writeSingleQuotedFrom (column : Nat) (afterBreak : Bool) : List Char → List Char
  | [] => if afterBreak then indentation column ++ ['\''] else ['\'']
  | c :: rest =>
      if isBreak c then c :: writeSingleQuotedFrom column true rest
      else
        (if afterBreak then indentation column else []) ++
          ((if c = '\'' then ['\'', '\''] else [c]) ++ writeSingleQuotedFrom column false rest)

/-- Write the lines of a literal scalar at a column, starting behind the end of a line or not,
up to the end of the last line. -/
def writeLiteralFrom (column : Nat) (afterBreak : Bool) : List Char → List Char
  | [] => if afterBreak then [] else ['\n']
  | c :: rest =>
      if isBreak c then c :: writeLiteralFrom column true rest
      else
        (if afterBreak then indentation column else []) ++ c :: writeLiteralFrom column false rest

/-- What is written in front of a literal scalar: the depth of its lines if its first line does
not show it, and what becomes of the line ends behind the last line. -/
def literalHeader (cs : List Char) : List Char :=
  let depth := match cs with
    | c :: _ => if c = ' ' ∨ isBreak c then upperHex 1 indentStep else []
    | [] => []
  let chomping := match cs.reverse with
    | [] => ['-']
    | [c] => if isBreak c then ['+'] else ['-']
    | c :: d :: _ => if isBreak c then if isBreak d then ['+'] else [] else ['-']
  '|' :: (depth ++ chomping)

/-- Write a text up to the end of its last line. Further lines start at a column. -/
def writeText (column : Nat) (s : String) : List Char :=
  let cs := s.toList
  match ScalarStyle.ofText s with
  | .plain => cs ++ ['\n']
  | .singleQuoted => '\'' :: (writeSingleQuotedFrom column false cs ++ ['\n'])
  | .literal => literalHeader cs ++ '\n' :: writeLiteralFrom column true cs
  | _ => '\x22' :: (cs.flatMap writeEscaped ++ ['\x22', '\n'])

/-- The largest number of bytes in a key that its colon follows on the same line. -/
def maxSimpleKeySize : Nat := 128

/-- Whether a key is written with its colon on the same line. -/
def isSimpleKey (s : String) : Bool :=
  s.utf8ByteSize ≤ maxSimpleKeySize && !s.toList.any isBreak

/-- Write a key and the colon behind it. A key that is not simple has a mark of its own and
its colon on the next line. -/
def writeKey (column : Nat) (s : String) : List Char :=
  if isSimpleKey s then (writeText (column + indentStep) s).dropLast ++ [':']
  else
    '?' :: ' ' :: (writeText (column + indentStep) s ++ (indentation column ++ [':']))

/-- The way to the first line of a block at a column: the block starts behind an indicator on
the same line, or on the next line. -/
def blockStart (sameLine : Bool) (column : Nat) : List Char :=
  if sameLine then [' '] else '\n' :: indentation column

/-- The column of a list in what starts at a column. On the next line it is the same. -/
def listColumn (sameLine : Bool) (column : Nat) : Nat :=
  if sameLine then column + indentStep else column

mutual
/-- Write a value behind an indicator, in what starts at a column. A block starts on the same
line or on the next. -/
def write (sameLine : Bool) (column : Nat) : WireValue → List Char
  | .text s => ' ' :: writeText (column + indentStep) s
  | .flag b => ' ' :: ((if b then "true" else "false").toList ++ ['\n'])
  | .index n => ' ' :: ((Nat.repr n).toList ++ ['\n'])
  | .list [] => [' ', '[', ']', '\n']
  | .list (v :: vs) =>
      blockStart sameLine (listColumn sameLine column) ++
        '-' :: (write true (listColumn sameLine column) v ++
          writeItems (listColumn sameLine column) vs)
  | .record [] => [' ', '\x7b', '\x7d', '\n']
  | .record ((k, v) :: fs) =>
      blockStart sameLine (column + indentStep) ++
        (writeKey (column + indentStep) k ++
          (write (!isSimpleKey k) (column + indentStep) v ++
            writeFields (column + indentStep) fs))

/-- Write items of a list, each on lines of its own. -/
def writeItems (column : Nat) : List WireValue → List Char
  | [] => []
  | v :: vs => indentation column ++ '-' :: (write true column v ++ writeItems column vs)

/-- Write fields of a record, each on lines of its own. -/
def writeFields (column : Nat) : List (String × WireValue) → List Char
  | [] => []
  | (k, v) :: fs =>
      indentation column ++
        (writeKey column k ++ (write (!isSimpleKey k) column v ++ writeFields column fs))
end

/-- A document as YAML text. -/
def render : WireValue → String
  | .record ((k, v) :: fs) => String.ofList (writeFields 0 ((k, v) :: fs))
  | .list (v :: vs) => String.ofList (writeItems 0 (v :: vs))
  | v => String.ofList ((write true 0 v).drop 1)

end UmlCatalog.Yaml
