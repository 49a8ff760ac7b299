/-!
# Text patterns

Regular expressions that select identifiers: literal characters, classes, groups,
alternatives, repetitions and the two ends of a text. A pattern selects a text if it matches
some part of it.

## Implementation notes

Matching goes through a text once. A pattern carries marks: a character of it is marked if it
matches the character of the text that has just been read, at the end of a match of all that
goes before it. Marks move on by one character at a time, so the time for a character is
proportional to the size of the pattern.
-/

namespace UmlCatalog

/-- A regular expression. -/
inductive Pattern where
  /-- The empty part of any text. -/
  | nothing
  /-- One character out of some ranges, or out of all others, with its mark. -/
  | among (marked negated : Bool) (ranges : List (Char × Char))
  /-- The start of the text. -/
  | start
  /-- The end of the text. -/
  | finish
  | concat (p q : Pattern)
  | either (p q : Pattern)
  /-- Any number of matches one after the other. -/
  | star (p : Pattern)
  deriving DecidableEq, Inhabited

namespace Pattern

/-- One given character. -/
def literal (c : Char) : Pattern := among false false [(c, c)]

/-- Any character but a line feed. -/
def anyCharacter : Pattern := among false true [('\n', '\n')]

/-- A given number of matches one after the other. -/
def repeated (p : Pattern) : Nat → Pattern
  | 0 => nothing
  | n + 1 => concat p (repeated p n)

/-- Whether a character is out of the ranges, or out of none of them if negated. -/
def admits (negated : Bool) (ranges : List (Char × Char)) (c : Char) : Bool :=
  (ranges.any fun r => r.1 ≤ c && c ≤ r.2) != negated

/-- Whether a pattern matches the empty part at a place, which may be the start or the end of
the text. -/
def matchesEmpty (atStart atEnd : Bool) : Pattern → Bool
  | nothing => true
  | among _ _ _ => false
  | start => atStart
  | finish => atEnd
  | concat p q => p.matchesEmpty atStart atEnd && q.matchesEmpty atStart atEnd
  | either p q => p.matchesEmpty atStart atEnd || q.matchesEmpty atStart atEnd
  | star _ => true

/-- Whether a match that has begun before a place ends there. -/
def endsHere (atStart atEnd : Bool) : Pattern → Bool
  | nothing => false
  | among marked _ _ => marked
  | start => false
  | finish => false
  | concat p q =>
      q.endsHere atStart atEnd || (p.endsHere atStart atEnd && q.matchesEmpty atStart atEnd)
  | either p q => p.endsHere atStart atEnd || q.endsHere atStart atEnd
  | star p => p.endsHere atStart atEnd

/-- Move the marks over the next character of the text. A match may begin in front of it if
`begins`. -/
def advance (atStart : Bool) (c : Char) (begins : Bool) : Pattern → Pattern
  | nothing => nothing
  | among _ negated ranges => among (begins && admits negated ranges c) negated ranges
  | start => start
  | finish => finish
  | concat p q =>
      concat (p.advance atStart c begins)
        (q.advance atStart c
          (p.endsHere atStart false || (begins && p.matchesEmpty atStart false)))
  | either p q => either (p.advance atStart c begins) (q.advance atStart c begins)
  | star p => star (p.advance atStart c (begins || p.endsHere atStart false))

/-- Whether a match ends at or behind a place. -/
def isFoundFrom (p : Pattern) (atStart : Bool) : List Char → Bool
  | [] => p.endsHere atStart true || p.matchesEmpty atStart true
  | c :: rest =>
      p.endsHere atStart false || p.matchesEmpty atStart false ||
        isFoundFrom (p.advance atStart c true) false rest

/-- Whether a pattern matches some part of a text. -/
def isFoundIn (p : Pattern) (s : String) : Bool := p.isFoundFrom true s.toList

/-! ## Reading patterns -/

/-- A part of a character class. -/
inductive ClassPart where
  /-- A character that stands for itself, or starts or ends a range. -/
  | char (c : Char)
  /-- A character that stands for itself and for nothing else. -/
  | lone (c : Char)
  /-- A dash between two characters of a range, or for itself. -/
  | dash
  deriving DecidableEq, Inhabited

/-- The part that a character is, behind given ones. Dashes in front of all else are no part
of a range, and neither is a bracket in front of all else. -/
def ClassPart.ofChar (before : List ClassPart) (c : Char) : ClassPart :=
  if c = '-' then if before.all fun part => part = .lone '-' then .lone '-' else .dash
  else if c = ']' ∧ before.isEmpty then .lone c
  else .char c

/-- The ranges of a character class. A dash that has no character of its own on both sides
stands for itself. -/
def classRanges : List ClassPart → List (Char × Char)
  | .char a :: .dash :: .char b :: rest => (a, b) :: classRanges rest
  | .char a :: rest => (a, a) :: classRanges rest
  | .lone a :: rest => (a, a) :: classRanges rest
  | .dash :: rest => ('-', '-') :: classRanges rest
  | [] => []

/-- The alternatives read so far and the parts of the one being read, latest first. -/
structure Group where
  alternatives : List Pattern
  parts : List Pattern

/-- What the reader is in the middle of. -/
inductive Mode where
  | outside
  /-- Behind a backslash. -/
  | escaped
  /-- Behind a repetition sign, where a question mark only asks for the shortest match. -/
  | afterRepetition
  /-- In a character class. -/
  | inClass (negated : Bool) (parts : List ClassPart) (escaped : Bool)
  /-- In a repetition count. -/
  | inCount (digits : List Char)

/-- The open groups, innermost first, and what the reader is in the middle of. -/
structure ReadState where
  group : Group
  outer : List Group
  mode : Mode

namespace ReadState

/-- The pattern of a group. -/
def close (g : Group) : Pattern :=
  let last := g.parts.foldl (fun p part => concat part p) nothing
  g.alternatives.foldl (fun p a => either a p) last

/-- Add a part to the innermost group. -/
def push (s : ReadState) (p : Pattern) : ReadState :=
  { s with group := { s.group with parts := p :: s.group.parts }, mode := .outside }

/-- Change the latest part, of which there must be one. -/
def repeatLast (s : ReadState) (f : Pattern → Pattern) : Option ReadState :=
  match s.group.parts with
  | p :: rest =>
      some { s with group := { s.group with parts := f p :: rest }, mode := .afterRepetition }
  | [] => none

/-- Read a character that is in no class and behind no backslash. -/
def stepOutside (s : ReadState) (c : Char) : Option ReadState :=
  if c = '(' then some ⟨⟨[], []⟩, s.group :: s.outer, .outside⟩
  else if c = ')' then
    match s.outer with
    | g :: outer => some (push ⟨g, outer, .outside⟩ (close s.group))
    | [] => none
  else if c = '|' then
    let alternative := close ⟨[], s.group.parts⟩
    some { s with
      group := ⟨alternative :: s.group.alternatives, []⟩
      mode := .outside }
  else if c = '*' then s.repeatLast star
  else if c = '+' then s.repeatLast fun p => concat p (star p)
  else if c = '?' then s.repeatLast fun p => either p nothing
  else if c = '\x7b' then some { s with mode := .inCount [] }
  else if c = '[' then some { s with mode := .inClass false [] false }
  else if c = '\\' then some { s with mode := .escaped }
  else if c = '.' then some (s.push anyCharacter)
  else if c = '^' then some (s.push start)
  else if c = '$' then some (s.push finish)
  else some (s.push (literal c))

/-- Read a character. -/
def step (s : ReadState) (c : Char) : Option ReadState :=
  match s.mode with
  | .outside => s.stepOutside c
  | .escaped => some (s.push (literal c))
  | .afterRepetition => if c = '?' then some { s with mode := .outside } else s.stepOutside c
  | .inClass negated parts true =>
      some { s with mode := .inClass negated (.char c :: parts) false }
  | .inClass negated parts false =>
      if c = '\\' then some { s with mode := .inClass negated parts true }
      else if c = '^' ∧ parts.isEmpty ∧ negated = false then
        some { s with mode := .inClass true [] false }
      else if c = ']' ∧ !parts.isEmpty then
        some (s.push (among false negated (classRanges parts.reverse)))
      else some { s with mode := .inClass negated (.ofChar parts c :: parts) false }
  | .inCount digits =>
      if c = '\x7d' then
        match (String.ofList digits.reverse).toNat? with
        | some n => s.repeatLast fun p => repeated p n
        | none => none
      else some { s with mode := .inCount (c :: digits) }

end ReadState

/-- Read a pattern. -/
def ofText? (s : String) : Option Pattern := do
  let final ← s.toList.foldlM ReadState.step ⟨⟨[], []⟩, [], .outside⟩
  match final.outer, final.mode with
  | [], .outside => some (ReadState.close final.group)
  | [], .afterRepetition => some (ReadState.close final.group)
  | _, _ => none

end Pattern
end UmlCatalog
