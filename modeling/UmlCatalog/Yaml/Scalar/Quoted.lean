import UmlCatalog.Yaml.Scalar.Gap
import UmlCatalog.Yaml.Token

/-!
# Quoted scalars

Between single quotes only the quote is special; it is written twice. Between double quotes
the backslash escapes single characters, code points and the end of a line.
-/

namespace UmlCatalog.Yaml.Scalar

/-- Read on in a scalar between single quotes, given the characters before the last gap,
latest first, and the gap. -/
def singleQuotedFrom (before : List Char) (gap : Gap) (place : Place) :
    List Char → Option (Scanned (List Char))
  | [] => none
  | '\'' :: '\'' :: rest => singleQuotedFrom (gap.close '\'' before) .none (place.along 2) rest
  | '\'' :: rest => some ⟨before.reverse ++ gap.reverseText.reverse, rest, place.along 1⟩
  | c :: rest =>
      if isBlank c then singleQuotedFrom before (gap.addBlank c) (place.next c) rest
      else if isBreak c then singleQuotedFrom before (gap.addBreak c) place.nextLine rest
      else if place.column = 0 ∧ isDocumentMark (c :: rest) then none
      else singleQuotedFrom (gap.close c before) .none (place.next c) rest

/-- Read a scalar between single quotes, behind the first of them. -/
def singleQuoted (place : Place) (cs : List Char) : Option (Scanned (List Char)) :=
  singleQuotedFrom [] .none place cs

/-- The character that a single character stands for behind a backslash. -/
def escaped? (c : Char) : Option Char :=
  match c with
  | '0' => some '\x00'
  | 'a' => some '\x07'
  | 'b' => some '\x08'
  | 't' => some '\t'
  | '\t' => some '\t'
  | 'n' => some '\n'
  | 'v' => some '\x0b'
  | 'f' => some '\x0c'
  | 'r' => some '\r'
  | 'e' => some '\x1b'
  | ' ' => some ' '
  | '\x22' => some '\x22'
  | '/' => some '/'
  | '\\' => some '\\'
  | 'N' => some '\u0085'
  | '_' => some '\u00a0'
  | 'L' => some '\u2028'
  | 'P' => some '\u2029'
  | _ => none

/-- The number of digits of a code point behind a backslash and a letter. -/
def escapeWidth? (c : Char) : Option Nat :=
  match c with
  | 'x' => some 2
  | 'u' => some 4
  | 'U' => some 8
  | _ => none

/-- The character that a list of hexadecimal digits stands for. -/
def codePoint? (digits : List Char) : Option Char := do
  let values ← digits.mapM hexDigit?
  let n := values.foldl (fun n d => n * 16 + d) 0
  if h : n.isValidChar then some (Char.ofNatAux n h) else none

/-- Read an escaped character, behind the backslash. -/
def escape (place : Place) : List Char → Option (Scanned Char)
  | [] => none
  | c :: rest =>
      match escaped? c, escapeWidth? c with
      | some d, _ => some ⟨d, rest, place.along 1⟩
      | none, some width =>
          let digits := rest.take width
          if digits.length < width then none
          else (codePoint? digits).map fun d => ⟨d, rest.drop width, place.along (width + 1)⟩
      | none, none => none

/-- An escape takes at least one character. -/
theorem length_rest_of_escape {place : Place} {cs : List Char} {s : Scanned Char}
    (h : escape place cs = some s) : s.rest.length < cs.length := by
  cases cs with
  | nil => simp [escape] at h
  | cons c rest =>
      simp only [escape] at h
      split at h
      · simp only [Option.some.injEq] at h
        subst h
        exact Nat.lt_succ_self _
      · split at h
        · simp at h
        · obtain ⟨d, _, rfl⟩ := Option.map_eq_some_iff.mp h
          simp only [List.length_drop, List.length_cons]
          omega
      · simp at h

/-- Read on in a scalar between double quotes, given the characters before the last gap,
latest first, and the gap. -/
def doubleQuotedFrom (before : List Char) (gap : Gap) (place : Place) (cs : List Char) :
    Option (Scanned (List Char)) :=
  match cs with
  | [] => none
  | c :: rest =>
      if isBlank c then doubleQuotedFrom before (gap.addBlank c) (place.next c) rest
      else if isBreak c then doubleQuotedFrom before (gap.addBreak c) place.nextLine rest
      else if place.column = 0 ∧ isDocumentMark (c :: rest) then none
      else if c = '\x22' then
        some ⟨before.reverse ++ gap.reverseText.reverse, rest, place.along 1⟩
      else if c = '\\' then
        match rest with
        | [] => none
        | d :: rest' =>
            if isBreak d then
              doubleQuotedFrom (gap.reverseText ++ before) (.lines none []) place.nextLine rest'
            else
              match _h : escape (place.along 1) (d :: rest') with
              | none => none
              | some s => doubleQuotedFrom (gap.close s.result before) .none s.place s.rest
      else doubleQuotedFrom (gap.close c before) .none (place.next c) rest
termination_by cs.length
decreasing_by
  · exact Nat.lt_succ_self _
  · exact Nat.lt_succ_self _
  · exact Nat.lt_succ_of_lt (Nat.lt_succ_self _)
  · exact Nat.lt_succ_of_lt (length_rest_of_escape _h)
  · exact Nat.lt_succ_self _

/-- Read a scalar between double quotes, behind the first of them. -/
def doubleQuoted (place : Place) (cs : List Char) : Option (Scanned (List Char)) :=
  doubleQuotedFrom [] .none place cs

end UmlCatalog.Yaml.Scalar
