/-!
# JSON numbers

A number is kept as it is spelled. It is an index if it is spelled as a natural number that
fits into 64 bits, and it is out of range if evaluating it in double precision overflows: the
leading digits that fit into 64 bits are rounded to a double and multiplied by the double
nearest to the power of ten that remains.
-/

namespace UmlCatalog.Json

/-- A number as it is spelled. -/
structure Number where
  negative : Bool
  /-- The digits before the point. -/
  whole : List Nat
  /-- The digits after the point, if there is one. -/
  fraction : Option (List Nat)
  /-- The exponent, if there is one. -/
  exponent : Option Int
  deriving DecidableEq, Inhabited

/-- The natural number that a list of decimal digits spells, after a given one. -/
def ofDigits (start : Nat) (digits : List Nat) : Nat :=
  digits.foldl (fun n d => n * 10 + d) start

/-- The largest index. -/
def maxIndex : Nat := 0xFFFFFFFFFFFFFFFF

namespace Number

/-- The index that a number spells. -/
def index? (n : Number) : Option Nat :=
  if n.negative ∨ n.fraction.isSome ∨ n.exponent.isSome then none
  else
    let value := ofDigits 0 n.whole
    if value ≤ maxIndex then some value else none

/-- Take digits onto a number as long as it fits into 64 bits; the second part tells how many
were taken. -/
def takeDigits (start taken : Nat) : List Nat → Nat × Nat
  | [] => (start, taken)
  | d :: rest =>
      if start * 10 + d ≤ maxIndex then takeDigits (start * 10 + d) (taken + 1) rest
      else (start, taken)

/-- The natural number nearest to `n` that has at most 53 significant bits; a tie goes to the
even one. -/
def roundToDouble (n : Nat) : Nat :=
  let shift := n.log2 + 1 - 53
  let unit := Nat.pow 2 shift
  let q := n / unit
  let r := n % unit
  if unit < 2 * r ∨ (unit = 2 * r ∧ q % 2 = 1) then (q + 1) * unit else q * unit

/-- The least number that rounds to infinity. -/
def overflow : Nat := Nat.pow 2 1024 - Nat.pow 2 970

/-- The largest power of ten that is a finite double. -/
def maxPower : Int := 308

/-- The largest exponent that is told apart from larger ones. -/
def maxExponent : Int := 0x7FFFFFFF

/-- Whether evaluating a number overflows. -/
def isOutOfRange (n : Number) : Bool :=
  let (high, takenWhole) := takeDigits 0 0 n.whole
  let (significand, takenFraction) := takeDigits high 0 (n.fraction.getD [])
  let shift : Int := (n.whole.length - takenWhole : Nat) - (takenFraction : Int)
  let exponent := n.exponent.getD 0
  if significand = 0 then false
  else if maxExponent < exponent then true
  else
    let power := min (shift + exponent) maxExponent
    if power < 0 then false
    else if maxPower < power then true
    else overflow ≤ roundToDouble significand * roundToDouble (Nat.pow 10 power.toNat)

end Number
end UmlCatalog.Json
