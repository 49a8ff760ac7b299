import UmlCatalog.OrderedMap
import UmlCatalog.OrderedSet

/-!
# Element trees

An element with its attributes, its text and its child elements. Children stand in document
order; the children of one tag, and the grouping of all children by tag, are read off it.
-/

namespace UmlCatalog.Markup

/-- An element of a marked-up document. -/
structure Element where
  tag : String
  attributes : OrderedMap String String
  /-- The text directly inside the element, if there is any. -/
  text : Option String
  /-- The child elements in document order. -/
  children : List Element
  deriving Inhabited

namespace Element

/-- An element with nothing in it. -/
def ofTag (tag : String) : Element := ⟨tag, ∅, none, []⟩

/-- Set an attribute; a repeated key keeps its place. -/
def setAttr (e : Element) (key value : String) : Element :=
  { e with attributes := e.attributes.insert key value }

/-- Add a child after the others. -/
def addChild (e child : Element) : Element := { e with children := e.children ++ [child] }

/-- Add a piece of text behind what is there; an empty piece changes nothing. -/
def addText (e : Element) (piece : String) : Element :=
  if piece.isEmpty then e else { e with text := some (e.text.getD "" ++ piece) }

/-- The value of an attribute. -/
def attr? (e : Element) (key : String) : Option String := e.attributes.get? key

/-- The children that have a tag. -/
def childrenNamed (e : Element) (tag : String) : List Element :=
  e.children.filter fun c => c.tag = tag

/-- The first child that has a tag. -/
def firstNamed? (e : Element) (tag : String) : Option Element :=
  e.children.find? fun c => c.tag = tag

/-- The tags of the children, in order of first appearance. -/
def childTags (e : Element) : List String :=
  (OrderedSet.ofList (e.children.map Element.tag)).toList

/-- The children by tag, tags in order of first appearance. -/
def groups (e : Element) : List (String × List Element) :=
  e.childTags.map fun tag => (tag, e.childrenNamed tag)

/-- The identifier that the element declares. -/
def id? (e : Element) : Option String := e.attr? "xmi:id"

/-- The identifier that the element refers to. -/
def idref? (e : Element) : Option String := e.attr? "xmi:idref"

/-- The declared type of the element. -/
def type? (e : Element) : Option String := e.attr? "xmi:type"

/-- A value given as an attribute or as the text of a child of that name. -/
def attrElseText? (e : Element) (key : String) : Option String :=
  (e.attr? key).or ((e.firstNamed? key).bind Element.text)

/-- A reference given as an attribute or by a child of that name. -/
def attrElseIdref? (e : Element) (key : String) : Option String :=
  (e.attr? key).or ((e.firstNamed? key).bind idref?)

/-- The bodies of the comments that the element owns. -/
def comments (e : Element) : List String :=
  (e.childrenNamed "ownedComment").filterMap fun c => c.attrElseText? "body"

theorem mem_childrenNamed {e c : Element} {tag : String} :
    c ∈ e.childrenNamed tag ↔ c ∈ e.children ∧ c.tag = tag := by
  simp [childrenNamed]

/-- The first child of a tag heads the list of them. -/
theorem firstNamed?_eq_head? (e : Element) (tag : String) :
    e.firstNamed? tag = (e.childrenNamed tag).head? := by
  simp [firstNamed?, childrenNamed, List.head?_filter]

end Element
end UmlCatalog.Markup
