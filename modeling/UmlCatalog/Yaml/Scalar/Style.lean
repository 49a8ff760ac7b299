import UmlCatalog.Yaml.Resolution
import UmlCatalog.Yaml.Token

/-!
# Choosing how to write a scalar

A text is written plain if it can be. It is quoted if it would be taken for something else, or
for more than a scalar. A text of several lines is written literally if no line ends in a
space.
-/

namespace UmlCatalog.Yaml.ScalarStyle

/-- Whether two characters with some property stand next to each other. -/
def hasPair (p : Char → Char → Bool) (cs : List Char) : Bool :=
  (cs.zip cs.tail).any fun e => p e.1 e.2

theorem hasPair_iff {p : Char → Char → Bool} {cs : List Char} :
    hasPair p cs = true ↔ ∃ before c d after, cs = before ++ c :: d :: after ∧ p c d = true := by
  induction cs with
  | nil => simp [hasPair]
  | cons a cs ih =>
      cases cs with
      | nil =>
          simp only [hasPair, List.tail_cons, List.zip_nil_right, List.any_nil, Bool.false_eq_true,
            false_iff, not_exists, not_and]
          rintro before c d after h
          cases before <;> simp at h
      | cons b cs =>
          have hstep : hasPair p (a :: b :: cs) = (p a b || hasPair p (b :: cs)) := by
            simp [hasPair]
          rw [hstep, Bool.or_eq_true, ih]
          constructor
          · rintro (h | ⟨before, c, d, after, h, hp⟩)
            · exact ⟨[], a, b, cs, rfl, h⟩
            · exact ⟨a :: before, c, d, after, by rw [h]; rfl, hp⟩
          · rintro ⟨before, c, d, after, h, hp⟩
            cases before with
            | nil =>
                simp only [List.nil_append, List.cons.injEq] at h
                obtain ⟨rfl, rfl, _⟩ := h
                exact Or.inl hp
            | cons e before =>
                simp only [List.cons_append, List.cons.injEq] at h
                exact Or.inr ⟨before, c, d, after, h.2, hp⟩

/-- Whether a text has a character that must be escaped. -/
def isSpecial (cs : List Char) : Bool := cs.any fun c => !isPrintable c

/-- Whether the end of a line follows a space. -/
def hasSpaceBreak (cs : List Char) : Bool := hasPair (fun c d => c = ' ' && isBreak d) cs

/-- Whether a space follows the end of a line. -/
def hasBreakSpace (cs : List Char) : Bool := hasPair (fun c d => isBreak c && d = ' ') cs

/-- Whether a text starts like something else than a plain scalar. -/
def startsOtherwise : List Char → Bool
  | '-' :: '-' :: '-' :: _ => true
  | '.' :: '.' :: '.' :: _ => true
  | [] => false
  | c :: rest => indicators.contains c || ((c = '-' || c = '?') && atGap rest)

/-- Whether a plain scalar would end inside a text, or at its end as a key. -/
def endsInside (cs : List Char) : Bool :=
  cs.getLast? = some ':' ||
    hasPair (fun c d => (c = ':' && atGap [d]) || (atGap [c] && d = '#')) cs

/-- Whether a text can be written without quotes. -/
def allowsPlain (cs : List Char) : Bool :=
  !isSpecial cs && !cs.any isBreak && cs.head? ≠ some ' ' && cs.getLast? ≠ some ' ' &&
    !startsOtherwise cs && !endsInside cs

/-- Whether a text can be written between single quotes. -/
def allowsSingleQuoted (cs : List Char) : Bool :=
  !isSpecial cs && !hasSpaceBreak cs && !hasBreakSpace cs

/-- Whether a text can be written literally. -/
def allowsLiteral (cs : List Char) : Bool :=
  !isSpecial cs && !hasSpaceBreak cs && cs.getLast? ≠ some ' '

/-- The style in which a text is written. -/
def ofText (s : String) : ScalarStyle :=
  let cs := s.toList
  if cs.contains '\n' then if allowsLiteral cs then literal else doubleQuoted
  else if allowsPlain cs && !isAmbiguous s then plain
  else if allowsSingleQuoted cs then singleQuoted
  else doubleQuoted

end UmlCatalog.Yaml.ScalarStyle
