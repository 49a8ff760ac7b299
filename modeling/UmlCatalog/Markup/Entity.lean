/-!
# Entities

Text and attribute values name some characters by entities: five by a word, all others by
their number. Nothing else may follow an ampersand.
-/

namespace UmlCatalog.Markup

/-- The value of a digit in a radix up to sixteen. -/
def digitIn? (radix : Nat) (c : Char) : Option Nat :=
  let value :=
    if '0' ≤ c ∧ c ≤ '9' then some (c.toNat - '0'.toNat)
    else if 'a' ≤ c ∧ c ≤ 'f' then some (c.toNat - 'a'.toNat + 10)
    else if 'A' ≤ c ∧ c ≤ 'F' then some (c.toNat - 'A'.toNat + 10)
    else none
  value.bind fun v => if v < radix then some v else none

/-- The number that digits spell in a radix; there must be a digit. -/
def numberIn? (radix : Nat) : List Char → Option Nat
  | [] => none
  | cs => cs.foldlM (fun n c => (digitIn? radix c).map fun d => n * radix + d) 0

/-- The character of a number, which must be a scalar value other than zero. -/
def scalar? (n : Nat) : Option Char :=
  if n = 0 then none else if n.isValidChar then some (Char.ofNat n) else none

/-- The character that an entity names. -/
def entity? : List Char → Option Char
  | '#' :: 'x' :: digits => (numberIn? 16 digits).bind scalar?
  | '#' :: digits => (numberIn? 10 digits).bind scalar?
  | ['l', 't'] => some '<'
  | ['g', 't'] => some '>'
  | ['a', 'm', 'p'] => some '&'
  | ['a', 'p', 'o', 's'] => some '\x27'
  | ['q', 'u', 'o', 't'] => some '\x22'
  | _ => none

/-- Whether a character bounds the name of an entity. -/
def boundsEntity (c : Char) : Bool := c = '&' || c = ';'

/-- Resolve the entities of a text, put behind the characters resolved before, latest
first. -/
def resolveOnto (acc : List Char) : List Char → Option (List Char)
  | [] => some acc.reverse
  | c :: rest =>
      if c = '&' then
        match _h : rest.dropWhile fun c => !boundsEntity c with
        | ';' :: rest' =>
            match entity? (rest.takeWhile fun c => !boundsEntity c) with
            | some e => resolveOnto (e :: acc) rest'
            | none => none
        | _ => none
      else resolveOnto (c :: acc) rest
termination_by text => text.length
decreasing_by
  · have hl := (List.dropWhile_suffix (l := rest) fun c => !boundsEntity c).length_le
    rw [_h] at hl
    simp only [List.length_cons] at hl ⊢
    omega
  · exact Nat.lt_succ_self _

/-- Resolve the entities of a text. -/
def resolve? (s : String) : Option String :=
  (resolveOnto [] s.toList).map String.ofList

end UmlCatalog.Markup
