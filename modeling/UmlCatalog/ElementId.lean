/-!
# Element identifiers

The identifier under which a model element is declared and referred to.
-/

namespace UmlCatalog

/-- The identifier of a model element. -/
structure ElementId where
  /-- The identifier as written. -/
  text : String
  deriving DecidableEq, Inhabited, Hashable

namespace ElementId

@[ext] theorem ext {a b : ElementId} (h : a.text = b.text) : a = b := by
  cases a; cases b; cases h; rfl

/-- The order of identifiers: by code point, which for valid text is also the order of the
encoded bytes. -/
def order (a b : ElementId) : Ordering := compare a.text b.text

end ElementId
end UmlCatalog
