import UmlCatalog.OrderedMap
import UmlCatalog.Pattern

/-!
# Build configuration

What a build can be told: how to rename what it reads, and which packages are views or are
left out.
-/

namespace UmlCatalog

/-- The options of a build. -/
structure BuildConfig where
  /-- Applied to every external type designator. -/
  normalizeType : String → String
  /-- Packages with such identifiers hold views. -/
  viewPattern : Option Pattern
  /-- Nested packages with such identifiers are recorded and not entered. -/
  excludePattern : Option Pattern
  /-- Names as they are read, with the names to display. -/
  names : OrderedMap String String
  /-- Whether to warn about property names that start with an upper-case letter. -/
  checkPropertyNameCase : Bool
  /-- Prefixes of names, with what they stand for. -/
  prefixes : OrderedMap String String

namespace BuildConfig

/-- The prefixes that are known from the start. -/
def wellKnownPrefixes : OrderedMap String String :=
  .ofList [
    ("xsd", "http://www.w3.org/2001/XMLSchema#"),
    ("rdf", "http://www.w3.org/1999/02/22-rdf-syntax-ns#"),
    ("rdfs", "http://www.w3.org/2000/01/rdf-schema#"),
    ("owl", "http://www.w3.org/2002/07/owl#"),
    ("dc", "http://purl.org/dc/elements/1.1/"),
    ("dcterms", "http://purl.org/dc/terms/")]

/-- The options of a build that is told nothing. -/
def standard : BuildConfig where
  normalizeType := fun designator => designator
  viewPattern := none
  excludePattern := none
  names := ∅
  checkPropertyNameCase := false
  prefixes := wellKnownPrefixes

instance : Inhabited BuildConfig := ⟨standard⟩

/-- The part of a text behind the last occurrence of a character, or all of it. -/
def lastPart (separator : Char) (s : String) : String :=
  String.ofList (s.toList.reverse.takeWhile fun c => c ≠ separator).reverse

/-- Replace a known prefix, which ends at the first colon, by what it stands for. -/
def expand (config : BuildConfig) (name : String) : String :=
  match name.toList.dropWhile fun c => c ≠ ':' with
  | _ :: rest =>
      match config.prefixes.get? (String.ofList (name.toList.takeWhile fun c => c ≠ ':')) with
      | some meaning => meaning ++ String.ofList rest
      | none => name
  | [] => name

/-- The name to display for a name as it is read. A name listed for itself is not expanded. -/
def displayName (config : BuildConfig) (name : String) : String :=
  (config.names.get? name).getD (config.expand name)

/-- Whether a package holds views. -/
def holdsViews (config : BuildConfig) (id : String) : Bool :=
  config.viewPattern.any fun p => p.isFoundIn id

/-- Whether a nested package is left out. -/
def excludes (config : BuildConfig) (id : String) : Bool :=
  config.excludePattern.any fun p => p.isFoundIn id

end BuildConfig
end UmlCatalog
