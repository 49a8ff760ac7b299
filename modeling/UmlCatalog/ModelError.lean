import UmlCatalog.ElementId

/-!
# Reasons why a model cannot be read, built or written

Each constructor names one cause; the wording is in `ModelError.message` alone. Findings
that do not stop a build are diagnostics, not errors.
-/

namespace UmlCatalog

/-- Why a marked-up document cannot be read as an element tree. -/
inductive MarkupError where
  /-- The construct that starts at this byte offset is not well formed. -/
  | malformed (position : Nat)
  /-- A run of text is not UTF-8 or holds an unknown entity. -/
  | badText
  /-- An attribute lacks its equals sign or quotes, or repeats an earlier key. -/
  | badAttribute
  /-- An attribute key is not UTF-8. -/
  | badAttributeKey
  /-- An attribute value is not UTF-8 or holds an unknown entity. -/
  | badAttributeValue
  /-- A tag name is not UTF-8. -/
  | badTagName
  /-- The document ends inside an element. -/
  | unclosed (tag : String)
  /-- The document is not UTF-8. -/
  | notUtf8
  /-- The document mentions neither of the two root elements. -/
  | noRoot
  /-- A cause given in words. -/
  | because (text : String)
  deriving DecidableEq, Inhabited

/-- The text of a markup error. -/
def MarkupError.message : MarkupError → String
  | malformed position => s!"XML parse error at position {position}"
  | badText => "Text error"
  | badAttribute => "Attribute error"
  | badAttributeKey => "Attribute key error"
  | badAttributeValue => "Attribute value error"
  | badTagName => "Invalid tag name"
  | unclosed tag => s!"unexpected end of document inside <{tag}>"
  | notUtf8 => "Invalid UTF-8"
  | noRoot => "Missing XMI/UML root element"
  | because text => text

/-- The arenas within which identifiers are unique. -/
inductive Arena where
  | classes
  | enumerations
  | datatypes
  | packages
  | associations
  deriving DecidableEq, Inhabited

/-- The word for one member of an arena. -/
def Arena.noun : Arena → String
  | classes => "class"
  | enumerations => "enum"
  | datatypes => "datatype"
  | packages => "package"
  | associations => "association"

/-- The kinds of value type, none of which may inherit. -/
inductive ValueTypeKind where
  | enumeration
  | datatype
  deriving DecidableEq, Inhabited

/-- The word for a kind of value type. -/
def ValueTypeKind.noun : ValueTypeKind → String
  | enumeration => "enumeration"
  | datatype => "datatype"

/-- The arena of a kind of value type. -/
def ValueTypeKind.arena : ValueTypeKind → Arena
  | enumeration => .enumerations
  | datatype => .datatypes

/-- The parts a document can be required to have. -/
inductive Requirement where
  | element
  | attr
  deriving DecidableEq, Inhabited

/-- The word for a required part. -/
def Requirement.noun : Requirement → String
  | element => "element"
  | attr => "attribute"

/-- Why reading, building or writing a model stopped. -/
inductive ModelError where
  /-- The input is not readable as markup. -/
  | markup (cause : MarkupError)
  /-- The input is not the JSON form of a model. -/
  | json (text : String)
  /-- The input is not the YAML form of a model. -/
  | yaml (text : String)
  /-- The input cannot be fetched. -/
  | inaccessible (text : String)
  /-- A required part is absent. -/
  | missing (what : Requirement) (name : String)
  /-- One arena declares an identifier twice. -/
  | duplicateId (arena : Arena) (id : ElementId)
  /-- A value type declares a generalization. -/
  | inheritedValueType (kind : ValueTypeKind) (id : ElementId) (general : String)
  /-- An edge would close a cycle in a hierarchy. -/
  | hierarchyCycle (parent child : ElementId)
  /-- The operation is not offered. -/
  | unsupported (text : String)
  deriving DecidableEq, Inhabited

/-- The text of an error. -/
def ModelError.message : ModelError → String
  | markup cause => "XML error: " ++ cause.message
  | json text => "JSON error: " ++ text
  | yaml text => "YAML error: " ++ text
  | inaccessible text => "IO error: " ++ text
  | missing what name => "Missing required " ++ what.noun ++ ": " ++ name
  | duplicateId arena id => "already seen " ++ arena.noun ++ " id " ++ id.text
  | inheritedValueType kind id general =>
      "inherited " ++ kind.noun ++ " " ++ id.text ++ " (general " ++ general ++
        ") is not supported"
  | hierarchyCycle parent child =>
      "hierarchy cycle: " ++ child.text ++ " is already an ancestor of " ++ parent.text
  | unsupported text => "Unsupported: " ++ text

end UmlCatalog
