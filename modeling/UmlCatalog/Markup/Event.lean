import UmlCatalog.Markup.Element
import UmlCatalog.ModelError

/-!
# Markup events and the tree they describe

A document is a sequence of events, whose tags match. The tree of a document is its first
top-level element; what stands outside it is not part of the tree.
-/

namespace UmlCatalog.Markup

/-- One construct of a document that bears on its tree. -/
inductive Event where
  | startTag (tag : String) (attributes : List (String × String))
  | emptyTag (tag : String) (attributes : List (String × String))
  | endTag
  | text (s : String)
  | cdata (s : String)
  deriving DecidableEq, Inhabited

/-- The elements that are open, innermost first, and the first complete top-level element. -/
structure Progress where
  stack : List Element
  root : Option Element
  deriving Inhabited

namespace Progress

/-- Nothing read yet. -/
def start : Progress := ⟨[], none⟩

/-- File a complete element: in the element around it, or as the root if it is the first. -/
def complete (e : Element) (stack : List Element) (root : Option Element) : Progress :=
  match stack with
  | parent :: rest => ⟨parent.addChild e :: rest, root⟩
  | [] => ⟨[], root.or (some e)⟩

/-- Add text to the innermost open element; outside the root it is dropped. -/
def addText (p : Progress) (s : String) : Progress :=
  match p.stack with
  | top :: rest => { p with stack := top.addText s :: rest }
  | [] => p

/-- The element that a tag opens. -/
def opened (tag : String) (attributes : List (String × String)) : Element :=
  { Element.ofTag tag with attributes := OrderedMap.ofList attributes }

/-- Take in one event. -/
def step (p : Progress) : Event → Progress
  | .startTag tag attributes => { p with stack := opened tag attributes :: p.stack }
  | .emptyTag tag attributes => complete (opened tag attributes) p.stack p.root
  | .endTag =>
      match p.stack with
      | e :: rest => complete e rest p.root
      | [] => p
  | .text s => p.addText s
  | .cdata s => p.addText s

/-- The tree read, at the end of the document. -/
def finish (p : Progress) : Except ModelError Element :=
  match p.stack, p.root with
  | top :: _, _ => .error (.markup (.unclosed top.tag))
  | [], some root => .ok root
  | [], none => .error (.missing .element "document root")

end Progress

/-- The tree that a sequence of events describes. -/
def Element.ofEvents (events : List Event) : Except ModelError Element :=
  (events.foldl Progress.step .start).finish

/-- An empty tag stands for a start tag with its end tag. -/
theorem step_startTag_endTag (p : Progress) (tag : String) (attributes : List (String × String)) :
    (p.step (.startTag tag attributes)).step .endTag = p.step (.emptyTag tag attributes) := rfl

end UmlCatalog.Markup
