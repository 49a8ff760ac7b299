import UmlCatalog.Json.Number
import UmlCatalog.Text.Utf8

/-!
# JSON tokens

The words of a JSON text. A string token holds its text, or nothing if its escapes or bytes
do not make up a text; such a string may still stand where it is not looked at.
-/

namespace UmlCatalog.Json
open Text (Glyph)

/-- A word of a JSON text. -/
inductive Token where
  | openList
  | closeList
  | openRecord
  | closeRecord
  | comma
  | colon
  | null
  | bool (b : Bool)
  | number (n : Number)
  | string (s : Option String)
  deriving DecidableEq, Inhabited

/-- A piece of a string: a character, a UTF-16 unit given by its number, or a hole. -/
inductive CodeUnit where
  | char (c : Char)
  | unit (n : Nat)
  | hole
  deriving DecidableEq, Inhabited

/-- Join the pieces of a string, put in front of the characters joined before, latest first.
The units of a surrogate pair stand for one character; a lone one stands for none. -/
def joinOnto (acc : List Char) : List CodeUnit → Option (List Char)
  | [] => some acc
  | .char c :: rest => joinOnto (c :: acc) rest
  | .hole :: _ => none
  | .unit n :: rest =>
      if n < 0xD800 ∨ 0xE000 ≤ n then joinOnto (Char.ofNat n :: acc) rest
      else if 0xDC00 ≤ n then none
      else
        match rest with
        | .unit m :: rest =>
            if 0xDC00 ≤ m ∧ m < 0xE000 then
              joinOnto (Char.ofNat (0x10000 + (n - 0xD800) * 0x400 + (m - 0xDC00)) :: acc) rest
            else none
        | _ => none

/-- Join the pieces of a string. -/
def join (units : List CodeUnit) : Option String :=
  (joinOnto [] units).map fun cs => String.ofList cs.reverse

/-- The character that a one-letter escape stands for. -/
def escape? (c : Char) : Option Char :=
  if c = '\x22' then some '\x22'
  else if c = '\\' then some '\\'
  else if c = '/' then some '/'
  else if c = 'b' then some '\x08'
  else if c = 'f' then some '\x0c'
  else if c = 'n' then some '\n'
  else if c = 'r' then some '\r'
  else if c = 't' then some '\t'
  else none

/-- The value of a hexadecimal digit. -/
def hexDigit? (c : Char) : Option Nat :=
  if '0' ≤ c ∧ c ≤ '9' then some (c.toNat - '0'.toNat)
  else if 'a' ≤ c ∧ c ≤ 'f' then some (c.toNat - 'a'.toNat + 10)
  else if 'A' ≤ c ∧ c ≤ 'F' then some (c.toNat - 'A'.toNat + 10)
  else none

/-- The number that four hexadecimal digits spell. -/
def hexUnit? (a b c d : Glyph) : Option Nat := do
  let a ← hexDigit? (← a)
  let b ← hexDigit? (← b)
  let c ← hexDigit? (← c)
  let d ← hexDigit? (← d)
  return ((a * 16 + b) * 16 + c) * 16 + d

/-- Read the pieces of a string up to its closing quote. Control characters must be escaped. -/
def scanString (acc : List CodeUnit) : List Glyph → Option (List CodeUnit × List Glyph)
  | [] => none
  | none :: rest => scanString (.hole :: acc) rest
  | some '\\' :: some 'u' :: a :: b :: c :: d :: rest =>
      match hexUnit? a b c d with
      | some n => scanString (.unit n :: acc) rest
      | none => none
  | some '\\' :: some c :: rest =>
      match escape? c with
      | some e => scanString (.char e :: acc) rest
      | none => none
  | some c :: rest =>
      if c = '\x22' then some (acc.reverse, rest)
      else if c = '\\' ∨ c.toNat < 0x20 then none
      else scanString (.char c :: acc) rest

/-- Whether a glyph is a decimal digit. -/
def isDigit : Glyph → Bool
  | some c => '0' ≤ c ∧ c ≤ '9'
  | none => false

/-- The value of a decimal digit. -/
def digitValue : Glyph → Nat
  | some c => c.toNat - '0'.toNat
  | none => 0

/-- Read a run of digits, of which there must be one. -/
def scanDigits (glyphs : List Glyph) : Option (List Nat × List Glyph) :=
  match glyphs.takeWhile isDigit with
  | [] => none
  | digits => some (digits.map digitValue, glyphs.dropWhile isDigit)

/-- Read the digits before the point; a leading zero stands alone. -/
def scanWhole (glyphs : List Glyph) : Option (List Nat × List Glyph) := do
  let (digits, rest) ← scanDigits glyphs
  if digits.head? = some 0 ∧ 1 < digits.length then none
  else return (digits, rest)

/-- Read the point and the digits after it, if they are there. -/
def scanFraction : List Glyph → Option (Option (List Nat) × List Glyph)
  | some '.' :: rest => (scanDigits rest).map fun r => (some r.1, r.2)
  | glyphs => some (none, glyphs)

/-- Read the sign of an exponent. -/
def scanSign : List Glyph → Bool × List Glyph
  | some '+' :: rest => (false, rest)
  | some '-' :: rest => (true, rest)
  | glyphs => (false, glyphs)

/-- Read an exponent, if it is there. -/
def scanExponent : List Glyph → Option (Option Int × List Glyph)
  | some c :: rest =>
      if c = 'e' ∨ c = 'E' then do
        let (negative, rest) := scanSign rest
        let (digits, rest) ← scanDigits rest
        let n : Int := ofDigits 0 digits
        return (some (if negative then -n else n), rest)
      else some (none, some c :: rest)
  | glyphs => some (none, glyphs)

/-- Read a number after its sign. -/
def scanNumber (negative : Bool) (glyphs : List Glyph) : Option (Number × List Glyph) := do
  let (whole, rest) ← scanWhole glyphs
  let (fraction, rest) ← scanFraction rest
  let (exponent, rest) ← scanExponent rest
  return (⟨negative, whole, fraction, exponent⟩, rest)

/-- Whether a character may stand between words. -/
def isBlank (c : Char) : Bool := c = ' ' || c = '\n' || c = '\t' || c = '\r'

/-- Read the word that starts with a given character. -/
def scanToken (c : Char) (rest : List Glyph) : Option (Token × List Glyph) :=
  if c = '[' then some (.openList, rest)
  else if c = ']' then some (.closeList, rest)
  else if c = '\x7b' then some (.openRecord, rest)
  else if c = '\x7d' then some (.closeRecord, rest)
  else if c = ',' then some (.comma, rest)
  else if c = ':' then some (.colon, rest)
  else if c = '\x22' then (scanString [] rest).map fun r => (.string (join r.1), r.2)
  else if c = '-' then (scanNumber true rest).map fun r => (.number r.1, r.2)
  else if '0' ≤ c ∧ c ≤ '9' then
    (scanNumber false (some c :: rest)).map fun r => (.number r.1, r.2)
  else
    match c, rest with
    | 'n', some 'u' :: some 'l' :: some 'l' :: rest => some (.null, rest)
    | 't', some 'r' :: some 'u' :: some 'e' :: rest => some (.bool true, rest)
    | 'f', some 'a' :: some 'l' :: some 's' :: some 'e' :: rest => some (.bool false, rest)
    | _, _ => none

/-! ## Every word uses up part of the text -/

theorem length_scanString {acc : List CodeUnit} {glyphs : List Glyph} {r}
    (h : scanString acc glyphs = some r) : r.2.length < glyphs.length := by
  fun_induction scanString acc glyphs <;> grind

theorem length_scanDigits {glyphs : List Glyph} {r} (h : scanDigits glyphs = some r) :
    r.2.length < glyphs.length := by
  unfold scanDigits at h
  split at h
  · cases h
  · rename_i hne
    cases h
    have hl := congrArg List.length (List.takeWhile_append_dropWhile (p := isDigit) (l := glyphs))
    have hp : 0 < (glyphs.takeWhile isDigit).length := List.length_pos_iff.mpr hne
    simp only [List.length_append] at hl
    show (glyphs.dropWhile isDigit).length < glyphs.length
    omega

theorem length_scanWhole {glyphs : List Glyph} {r} (h : scanWhole glyphs = some r) :
    r.2.length < glyphs.length := by
  unfold scanWhole at h
  cases hd : scanDigits glyphs with
  | none => simp [hd] at h
  | some p =>
      have := length_scanDigits hd
      simp only [hd, Option.bind_eq_bind, Option.bind_some] at h
      split at h
      · cases h
      · cases h
        exact this

theorem length_scanFraction {glyphs : List Glyph} {r} (h : scanFraction glyphs = some r) :
    r.2.length ≤ glyphs.length := by
  unfold scanFraction at h
  split at h
  · rename_i rest
    obtain ⟨p, hp, rfl⟩ := Option.map_eq_some_iff.mp h
    have := length_scanDigits hp
    simp only [List.length_cons]
    omega
  · cases h
    exact Nat.le_refl _

theorem length_scanSign_le (glyphs : List Glyph) :
    (scanSign glyphs).2.length ≤ glyphs.length := by
  unfold scanSign
  split <;> simp

theorem length_scanExponent {glyphs : List Glyph} {r} (h : scanExponent glyphs = some r) :
    r.2.length ≤ glyphs.length := by
  unfold scanExponent at h
  split at h
  · rename_i c rest
    split at h
    · cases hd : scanDigits (scanSign rest).2 with
      | none => simp [hd] at h
      | some p =>
          have h1 := length_scanDigits hd
          have h2 := length_scanSign_le rest
          simp only [hd, Option.bind_eq_bind, Option.bind_some] at h
          cases h
          simp only [List.length_cons]
          omega
    · cases h
      exact Nat.le_refl _
  · cases h
    exact Nat.le_refl _

theorem length_scanNumber {negative : Bool} {glyphs : List Glyph} {r}
    (h : scanNumber negative glyphs = some r) : r.2.length < glyphs.length := by
  unfold scanNumber at h
  cases hw : scanWhole glyphs with
  | none => simp [hw] at h
  | some w =>
      cases hf : scanFraction w.2 with
      | none => simp [hw, hf] at h
      | some f =>
          cases he : scanExponent f.2 with
          | none => simp [hw, hf, he] at h
          | some e =>
              have h1 := length_scanWhole hw
              have h2 := length_scanFraction hf
              have h3 := length_scanExponent he
              simp only [hw, hf, he, Option.bind_eq_bind, Option.bind_some] at h
              cases h
              show e.2.length < glyphs.length
              omega

theorem length_scanToken {c : Char} {rest : List Glyph} {r}
    (h : scanToken c rest = some r) : r.2.length ≤ rest.length := by
  unfold scanToken at h
  repeat' split at h
  all_goals first
    | cases h; done
    | cases h; simp; done
    | cases h; simp only [List.length_cons]; omega
    | skip
  · obtain ⟨p, hp, rfl⟩ := Option.map_eq_some_iff.mp h
    exact Nat.le_of_lt (length_scanString hp)
  · obtain ⟨p, hp, rfl⟩ := Option.map_eq_some_iff.mp h
    exact Nat.le_of_lt (length_scanNumber hp)
  · obtain ⟨p, hp, rfl⟩ := Option.map_eq_some_iff.mp h
    exact Nat.le_of_lt_succ (length_scanNumber hp)

/-- Cut a text into words, put behind those cut before, latest first. -/
def tokensOnto (acc : List Token) : List Glyph → Option (List Token)
  | [] => some acc.reverse
  | none :: _ => none
  | some c :: rest =>
      if isBlank c then tokensOnto acc rest
      else
        match _h : scanToken c rest with
        | some (t, rest') => tokensOnto (t :: acc) rest'
        | none => none
termination_by glyphs => glyphs.length
decreasing_by
  · exact Nat.lt_succ_self _
  · exact Nat.lt_succ_of_le (length_scanToken _h)

/-- Cut a text into words. -/
def tokens? (glyphs : List Glyph) : Option (List Token) := tokensOnto [] glyphs

end UmlCatalog.Json
