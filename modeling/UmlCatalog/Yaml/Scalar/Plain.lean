import UmlCatalog.Yaml.Scalar.Gap
import UmlCatalog.Yaml.Token

/-!
# Plain scalars

A plain scalar has no quotes, so it ends where something else could start: before a colon or
a number sign that stands alone, in a block also before a line that is not indented deeper
than the block, and between brackets before any bracket or comma.
-/

namespace UmlCatalog.Yaml.Scalar

/-- Whether a plain scalar ends before a character and the text behind it, whatever stands
before. -/
def endsPlain (flow : Bool) (c : Char) (rest : List Char) : Bool :=
  (c = ':' && atGap rest) || (flow && isFlowIndicator c)

/-- Whether a plain scalar ends before a word that white space goes before. -/
def endsPlainAtWord (flow : Bool) (indent : Nat) (place : Place) (cs : List Char) : Bool :=
  (place.column = 0 && isDocumentMark cs) || cs.head? = some '#' ||
    (!flow && place.column < indent)

/-- Whether a colon stands where it is neither part of a word nor ends it. -/
def isStrayColon (flow : Bool) (c : Char) (rest : List Char) : Bool :=
  flow && c = ':' && rest.head?.any fun d => isFlowIndicator d || d = '?'

/-- Read on in a plain scalar, given the characters before the last gap, latest first, and the
gap. The result tells whether white space with the end of a line follows the scalar; the white
space is read in any case. -/
def plainFrom (flow : Bool) (indent : Nat) (before : List Char) (gap : Gap) (place : Place) :
    List Char → Option (Scanned (List Char × Bool))
  | [] => some ⟨(before.reverse, gap.spansLines), [], place⟩
  | c :: rest =>
      if isBlank c then
        if gap.spansLines ∧ place.column < indent ∧ c = '\t' then none
        else plainFrom flow indent before (gap.addBlank c) (place.next c) rest
      else if isBreak c then plainFrom flow indent before (gap.addBreak c) place.nextLine rest
      else if endsPlain flow c rest ||
          (!gap.isNone && endsPlainAtWord flow indent place (c :: rest)) then
        some ⟨(before.reverse, gap.spansLines), c :: rest, place⟩
      else if isStrayColon flow c rest then none
      else plainFrom flow indent (gap.close c before) .none (place.next c) rest

/-- Read a plain scalar; `indent` is the least column of its further lines. -/
def plain (flow : Bool) (indent : Nat) (place : Place) (cs : List Char) :
    Option (Scanned (List Char × Bool)) :=
  plainFrom flow indent [] .none place cs

end UmlCatalog.Yaml.Scalar
