import UmlCatalog.ElementId

/-!
# Diagnostics

Findings about a document that do not stop a build. Each names what was found by a code and
in words, and the element it was found at, if there is one.
-/

namespace UmlCatalog

/-- How serious a finding is. -/
inductive Severity where
  | warning
  | info
  deriving DecidableEq, Inhabited

/-- The word for a severity. -/
def Severity.word : Severity → String
  | warning => "warning"
  | info => "info"

/-- What a finding is about. -/
inductive DiagnosticCode where
  /-- An attribute has no name and no association that could name it. -/
  | unnamedProperty
  /-- A property name starts with an upper-case letter. -/
  | propertyNameCase
  /-- An aggregation is none of the known kinds. -/
  | unknownAggregation
  /-- An element has a type that models do not hold. -/
  | unknownElementType
  /-- The end of an association is an attribute of no class. -/
  | unresolvedAssociationEnd
  /-- A property has no type. -/
  | missingPropertyType
  /-- An element lies outside any package. -/
  | elementOutsidePackage
  /-- One property name is used with several types. -/
  | mixedPropertyTypes
  deriving DecidableEq, Inhabited

/-- The written form of a code. -/
def DiagnosticCode.text : DiagnosticCode → String
  | unnamedProperty => "W001"
  | propertyNameCase => "W002"
  | unknownAggregation => "W003"
  | unknownElementType => "W004"
  | unresolvedAssociationEnd => "W005"
  | missingPropertyType => "W006"
  | elementOutsidePackage => "W007"
  | mixedPropertyTypes => "I001"

/-- A finding. -/
structure Diagnostic where
  severity : Severity
  code : DiagnosticCode
  message : String
  /-- The element that the finding is about. -/
  element : Option ElementId
  deriving DecidableEq, Inhabited

namespace Diagnostic

/-- A warning about an element. -/
def warning (code : DiagnosticCode) (message : String) (element : ElementId) : Diagnostic :=
  ⟨.warning, code, message, some element⟩

/-- A finding on one line: its code, its words, and its element in brackets. -/
def display (d : Diagnostic) : String :=
  let line := "[" ++ d.code.text ++ "] " ++ d.message
  match d.element with
  | some id => line ++ " (" ++ id.text ++ ")"
  | none => line

/-- A property without a name. -/
def unnamedProperty (classId property : ElementId) : Diagnostic :=
  warning .unnamedProperty ("property in class " ++ classId.text ++ " has no name") property

/-- A property whose name starts with an upper-case letter. -/
def propertyNameCase (classId property : ElementId) (name : String) : Diagnostic :=
  warning .propertyNameCase
    ("unexpected initial capital in property name " ++ name ++ " in class " ++ classId.text)
    property

/-- A property whose aggregation is no known kind. -/
def unknownAggregation (property : ElementId) (word : String) : Diagnostic :=
  warning .unknownAggregation ("unknown aggregation kind " ++ word) property

/-- An element of a type that models do not hold. -/
def unknownElementType (id : ElementId) (type : String) : Diagnostic :=
  warning .unknownElementType ("need handler for " ++ type) id

/-- An association whose end is an attribute of no class. -/
def unresolvedAssociationEnd (id : ElementId) (source : Option ElementId) : Diagnostic :=
  warning .unresolvedAssociationEnd
    ("association end " ++ (source.map ElementId.text).getD "<none>" ++
      " is not an attribute of any class")
    id

/-- A property without a type. -/
def missingPropertyType (classId property : ElementId) : Diagnostic :=
  warning .missingPropertyType ("property in class " ++ classId.text ++ " has no type") property

/-- An element, called by the word for its kind, outside any package. -/
def elementOutsidePackage (kind : String) (id : ElementId) : Diagnostic :=
  warning .elementOutsidePackage (kind ++ " is not inside any package") id

/-- A property name used with several types. -/
def mixedPropertyTypes (name : String) (types : List String) : Diagnostic :=
  ⟨.info, .mixedPropertyTypes,
    s!"property {name} is used with {types.length} types: " ++ ", ".intercalate types, none⟩

end Diagnostic
end UmlCatalog
