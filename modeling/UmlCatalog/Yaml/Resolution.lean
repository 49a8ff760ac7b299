import UmlCatalog.Json.Number
import UmlCatalog.Yaml.Character

/-!
# What plain scalars stand for

A plain scalar can be read as nothing, as a truth value or as a number. The words for nothing
and for truth values have three spellings each. A number may have a radix prefix; decimal
digits with a leading zero are no number. A text that could be taken for any of these has to
be quoted to stay a text.
-/

namespace UmlCatalog.Yaml

/-- Whether a word stands for nothing. The empty text does too, where no word is written. -/
def isNullWord (s : String) : Bool := s = "~" || s = "null" || s = "Null" || s = "NULL"

/-- The truth value that a word stands for. -/
def truthValue? (s : String) : Option Bool :=
  if s = "true" ∨ s = "True" ∨ s = "TRUE" then some true
  else if s = "false" ∨ s = "False" ∨ s = "FALSE" then some false
  else none

/-- The value of a digit below a radix. -/
def digit? (radix : Nat) (c : Char) : Option Nat :=
  (hexDigit? c).filter fun d => d < radix

/-- The natural number that one or more digits spell. -/
def natural? (radix : Nat) : List Char → Option Nat
  | [] => none
  | cs => (cs.mapM (digit? radix)).map fun ds => ds.foldl (fun n d => n * radix + d) 0

/-- The number behind a radix prefix. -/
def prefixed? : List Char → Option Nat
  | '0' :: 'x' :: digits => natural? 16 digits
  | '0' :: 'o' :: digits => natural? 8 digits
  | '0' :: 'b' :: digits => natural? 2 digits
  | _ => none

/-- Two or more digits of which the first is zero. -/
def isPadded (cs : List Char) : Bool :=
  match cs with
  | '0' :: d :: rest => (d :: rest).all Char.isDigit
  | _ => false

/-- A text without a leading sign. -/
def unsigned : List Char → List Char
  | '+' :: rest => rest
  | '-' :: rest => rest
  | cs => cs

/-- The index that a plain scalar stands for. -/
def index? (s : String) : Option Nat :=
  let digits := match s.toList with
    | '+' :: rest => rest
    | cs => cs
  let value := (prefixed? digits).or (if isPadded digits then none else natural? 10 digits)
  value.filter fun n => n ≤ Json.maxIndex

/-- A decimal number without its sign: its digits without the point, how many of them stand
behind the point, and its exponent. -/
structure Decimal where
  digits : List Nat
  places : Nat
  exponent : Int

/-- Read the exponent of a decimal number, if there is one. -/
def exponent? : List Char → Option Int
  | [] => some 0
  | c :: rest =>
      if c = 'e' ∨ c = 'E' then
        match rest with
        | '-' :: digits => (natural? 10 digits).map fun n => -(n : Int)
        | '+' :: digits => (natural? 10 digits).map Int.ofNat
        | digits => (natural? 10 digits).map Int.ofNat
      else none

/-- Read a decimal number without a sign. It has a digit before or behind its point. -/
def decimal? (cs : List Char) : Option Decimal := do
  let whole := cs.takeWhile Char.isDigit
  let rest := cs.dropWhile Char.isDigit
  let (fraction, rest) := match rest with
    | '.' :: rest => (rest.takeWhile Char.isDigit, rest.dropWhile Char.isDigit)
    | rest => ([], rest)
  if whole.isEmpty && fraction.isEmpty then none
  else
    let digits ← (whole ++ fraction).mapM (digit? 10)
    return ⟨digits, fraction.length, ← exponent? rest⟩

/-- Whether a decimal number is finite in double precision. -/
def Decimal.isFinite (d : Decimal) : Bool :=
  let significand := d.digits.foldl (fun n d => n * 10 + d) 0
  let power := d.exponent - d.places
  if significand = 0 then true
  else if power < 0 then
    -- With at most 308 digits before the point a number is under the limit.
    (d.digits.length : Int) + power ≤ 308 ||
      significand < Json.Number.overflow * Nat.pow 10 (-power).toNat
  else if 308 < power then false
  else significand * Nat.pow 10 power.toNat < Json.Number.overflow

/-- Whether a plain scalar stands for a number that is not finite. -/
def isSpecialNumber (s : String) : Bool :=
  [".inf", ".Inf", ".INF", "+.inf", "+.Inf", "+.INF", "-.inf", "-.Inf", "-.INF",
    ".nan", ".NaN", ".NAN"].contains s

/-- Whether a number with a radix prefix fits into 128 bits, of which the negative ones use
one for the sign. -/
def fitsInteger (negative : Bool) (n : Nat) : Bool :=
  if negative then n ≤ Nat.pow 2 127 else n < Nat.pow 2 128

/-- Whether a text written as a plain scalar would be taken for something else: for nothing,
for a truth value, for digits, or for a number of up to 128 bits or double precision. -/
def isAmbiguous (s : String) : Bool :=
  let digits := unsigned s.toList
  s.isEmpty || isNullWord s || (truthValue? s).isSome || isSpecialNumber s ||
    isPadded digits || (prefixed? digits).any (fitsInteger (s.toList.head? = some '-')) ||
    (decimal? digits).any Decimal.isFinite

end UmlCatalog.Yaml
