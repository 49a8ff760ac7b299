import UmlCatalog.Wire.Value

/-!
# Writing JSON

A document is written without white space or with one item a line. Only the quotation mark,
the backslash and the control characters are escaped.
-/

namespace UmlCatalog.Json

/-- What is written between the parts of a document. -/
structure Layout where
  /-- What goes before an item, and before the end of a list or record, at a depth. -/
  line : Nat → List Char
  /-- What goes between a key and its value. -/
  colon : List Char

/-- No white space at all. -/
def Layout.compact : Layout := ⟨fun _ => [], [':']⟩

/-- One item a line, two spaces for each level. -/
def Layout.pretty : Layout := ⟨fun depth => '\n' :: List.replicate (2 * depth) ' ', [':', ' ']⟩

/-- The lower-case hexadecimal digit of a number below 16. -/
def hexDigit (n : Nat) : Char :=
  if n < 10 then Char.ofNat (n + '0'.toNat) else Char.ofNat (n - 10 + 'a'.toNat)

/-- A character as it is written in a string. -/
def escape (c : Char) : List Char :=
  if c = '\x22' then ['\\', '\x22']
  else if c = '\\' then ['\\', '\\']
  else if c = '\x08' then ['\\', 'b']
  else if c = '\x0c' then ['\\', 'f']
  else if c = '\n' then ['\\', 'n']
  else if c = '\r' then ['\\', 'r']
  else if c = '\t' then ['\\', 't']
  else if c.toNat < 0x20 then
    ['\\', 'u', '0', '0', hexDigit (c.toNat / 16), hexDigit (c.toNat % 16)]
  else [c]

/-- A text in quotes. -/
def quote (s : String) : List Char := '\x22' :: (s.toList.flatMap escape ++ ['\x22'])

mutual
/-- A document as it is written at a depth. -/
def write (layout : Layout) (depth : Nat) : WireValue → List Char
  | .text s => quote s
  | .flag b => (if b then "true" else "false").toList
  | .index n => (Nat.repr n).toList
  | .list [] => ['[', ']']
  | .list (v :: vs) =>
      '[' :: (layout.line (depth + 1) ++ (write layout (depth + 1) v ++
        (writeItems layout (depth + 1) vs ++ (layout.line depth ++ [']']))))
  | .record [] => ['\x7b', '\x7d']
  | .record ((k, v) :: fs) =>
      '\x7b' :: (layout.line (depth + 1) ++ (quote k ++ (layout.colon ++
        (write layout (depth + 1) v ++
          (writeFields layout (depth + 1) fs ++ (layout.line depth ++ ['\x7d']))))))

/-- The items of a list after the first. -/
def writeItems (layout : Layout) (depth : Nat) : List WireValue → List Char
  | [] => []
  | v :: vs => ',' :: (layout.line depth ++ (write layout depth v ++ writeItems layout depth vs))

/-- The fields of a record after the first. -/
def writeFields (layout : Layout) (depth : Nat) : List (String × WireValue) → List Char
  | [] => []
  | (k, v) :: fs =>
      ',' :: (layout.line depth ++ (quote k ++ (layout.colon ++
        (write layout depth v ++ writeFields layout depth fs))))
end

/-- A document as JSON text. -/
def render (layout : Layout) (v : WireValue) : String := String.ofList (write layout 0 v)

end UmlCatalog.Json
