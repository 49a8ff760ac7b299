import UmlCatalog.Yaml.Character

/-!
# Gaps between the words of a scalar

White space between two words of a plain or quoted scalar. Inside a line it is kept. Where it
holds the end of a line the blanks around that are dropped, and a single line end counts as a
space.
-/

namespace UmlCatalog.Yaml

/-- The white space since the last word of a scalar. -/
inductive Gap where
  /-- Blanks inside a line, latest first. -/
  | blanks (cs : List Char)
  /-- The ends of lines: the first one, unless it is escaped, and the others, latest first. -/
  | lines (first : Option Char) (more : List Char)
  deriving DecidableEq

namespace Gap

/-- No white space at all. -/
def none : Gap := blanks []

/-- Whether there is no white space. -/
def isNone : Gap → Bool
  | blanks [] => true
  | _ => false

/-- Whether the gap holds the end of a line. -/
def spansLines : Gap → Bool
  | blanks _ => false
  | lines _ _ => true

/-- Add a blank, which is dropped behind the end of a line. -/
def addBlank (c : Char) : Gap → Gap
  | blanks cs => blanks (c :: cs)
  | lines first more => lines first more

/-- Add the end of a line; the first one drops the blanks before it. -/
def addBreak (c : Char) : Gap → Gap
  | blanks _ => lines (some c) []
  | lines first more => lines first (c :: more)

/-- What a gap counts as in the text of a scalar, latest character first. -/
def reverseText : Gap → List Char
  | blanks cs => cs
  | lines (some '\n') [] => [' ']
  | lines (some '\n') more => more
  | lines (some c) more => more ++ [c]
  | lines .none more => more

@[simp] theorem reverseText_none : Gap.none.reverseText = [] := rfl

/-- Blanks inside a line are kept. -/
@[simp] theorem reverseText_blanks (cs : List Char) : (blanks cs).reverseText = cs := rfl

/-- The characters of a scalar up to the next one, latest first. -/
def close (gap : Gap) (c : Char) (before : List Char) : List Char :=
  c :: (gap.reverseText ++ before)

@[simp] theorem close_none (c : Char) (before : List Char) :
    Gap.none.close c before = c :: before := rfl

end Gap
end UmlCatalog.Yaml
