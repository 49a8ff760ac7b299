import UmlCatalog.Text.Utf8
import UmlCatalog.Wire.Reading
import UmlCatalog.Yaml.Node
import UmlCatalog.Yaml.Resolution

/-!
# YAML documents

What the nodes of a YAML text can be taken for. A scalar is a text whatever it looks like;
nothing, truth values and indexes are plain scalars. An empty plain scalar can also be taken
for an empty list or record. How many aliases may be followed grows with the document.
-/

namespace UmlCatalog.Yaml

/-- A node with the anchors that its aliases mean. -/
structure Document where
  node : Node
  anchors : Anchors
  deriving Inhabited

/-- The tags of the scalars that are taken for nothing, truth values and integers. -/
def nullTag : Tag := .ofText "tag:yaml.org,2002:null"

@[inherit_doc nullTag]
def truthTag : Tag := .ofText "tag:yaml.org,2002:bool"

@[inherit_doc nullTag]
def integerTag : Tag := .ofText "tag:yaml.org,2002:int"

namespace Document

/-- Read a text. -/
def ofText? (cs : List Char) : Option Document := do
  if cs.all isAdmissible then
    let tree ← Tree.ofTokens? (← tokens? (unifyBreaks cs))
    return ⟨tree.root, tree.anchors⟩
  else none

/-- Read a text given as bytes. -/
def ofBytes (bytes : List UInt8) : Except ReadError Document :=
  match (Text.decode? bytes).bind fun s => ofText? s.toList with
  | some d => .ok d
  | none => .error .syntaxError

/-- Another node of the same text. -/
def withNode (d : Document) (node : Node) : Document := ⟨node, d.anchors⟩

/-- The node that an alias stands for. -/
def aliased? (d : Document) : Option Document :=
  match d.node with
  | .alias number => some (d.withNode ((d.anchors.node? number).getD .empty))
  | _ => none

/-- The number of aliases that may be followed in a document: one hundred for each event. -/
def maxAliases (d : Document) : Nat := 100 * d.node.events

/-- Whether a node stands for nothing. A tag can say so of a word for nothing alone, and any
other tag says that it does not. -/
def isNull? (d : Document) : Option Bool :=
  match d.node with
  | .scalar ⟨text, .plain⟩ none => some (text.isEmpty || isNullWord text)
  | .scalar ⟨text, .plain⟩ (some tag) =>
      if tag = nullTag then if isNullWord text then some true else none else some false
  | _ => some false

/-- The text of a scalar. -/
def text? (d : Document) : Option String :=
  match d.node with
  | .scalar s _ => some s.text
  | _ => none

/-- The text of a plain scalar, or of a literal one with a given tag. -/
def plainText? (d : Document) (tag : Tag) : Option String :=
  match d.node with
  | .scalar ⟨text, .plain⟩ _ => some text
  | .scalar ⟨text, .literal⟩ (some t) => if t = tag then some text else none
  | _ => none

/-- Whether a node is an empty plain scalar. -/
def isBare (d : Document) : Bool :=
  match d.node with
  | .scalar ⟨text, .plain⟩ _ => text.isEmpty
  | _ => false

/-- The items of a list. -/
def items? (d : Document) : Option (List Document) :=
  match d.node with
  | .list items => some (items.map d.withNode)
  | _ => if d.isBare then some [] else none

/-- The entries of a record. -/
def fields? (d : Document) : Option (List (Document × Document)) :=
  match d.node with
  | .record entries => some (entries.map fun e => (d.withNode e.1, d.withNode e.2))
  | _ => if d.isBare then some [] else none

/-- The word of a scalar: the word of its tag, if it has one and stands for nothing beside that,
otherwise its text. -/
def word? (d : Document) : Option String :=
  match d.node with
  | .scalar s tag =>
      match tag.bind Tag.word? with
      | some word =>
          if s.style = .plain ∧ (s.text.isEmpty ∨ isNullWord s.text) then some word else none
      | none => some s.text
  | _ => none

instance : Readable Document where
  aliased? := aliased?
  isNull? := isNull?
  text? := text?
  flag? d := (d.plainText? truthTag).bind truthValue?
  index? d := (d.plainText? integerTag).bind Yaml.index?
  items? := items?
  fields? := fields?
  positional? _ := none
  word? := word?

end Document
end UmlCatalog.Yaml
