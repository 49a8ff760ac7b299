import UmlCatalog.Proofs.Build.Visited

/-!
# Elements that models do not hold

Elements of a type that models do not hold are found by the walk down the packages. What there is to
find about them is told by their own type, at the places that the walk gets to.
-/

namespace UmlCatalog
open Markup (Element)

namespace Declaration
variable {config : BuildConfig} {chain : List ElementId} {id : String} {e : Element}

/-- What is found about a declaration of a type that models do not hold. -/
def unheldFinding? (n : Declaration) : Option Diagnostic :=
  match n.kind with
  | .other type => some (.unknownElementType n.id type)
  | _ => none

/-- What is found about an element follows from its type. -/
theorem unheldFinding?_eq {n : Declaration} (h : n.kind = kindOf config chain id e) :
    n.unheldFinding? =
      if typeName e ∉ heldTypes then some (.unknownElementType n.id (typeOf e)) else none := by
  by_cases htype : typeName e ∈ heldTypes
  · have hkind : ∀ type, n.kind ≠ .other type := fun type hother =>
      (kindOf_eq_other_iff.mp (h.symm.trans hother)).1 htype
    rw [if_neg (not_not_intro htype), unheldFinding?]
    split
    · exact absurd ‹_› (hkind _)
    · rfl
  · rw [if_pos htype, unheldFinding?, h.trans (kindOf_eq_other_iff.mpr ⟨htype, rfl⟩)]

end Declaration

namespace Place

/-- What there is to find about an element with an identifier that is reached, if models do not hold
its type. -/
def unheldFinding? (config : BuildConfig) (p : Place) : Option Diagnostic :=
  if isReached config p.outer ∧ p.element.tag = "packagedElement" ∧
      Declaration.typeName p.element ∉ Declaration.heldTypes then
    p.element.id?.map fun id => .unknownElementType ⟨id⟩ (Declaration.typeOf p.element)
  else none

/-- What is found about a declared element is told by its type. -/
theorem bind_declaration? (config : BuildConfig) (p : Place) :
    (declaration? config p).bind Declaration.unheldFinding? =
      if p.element.tag = "packagedElement" ∧
          Declaration.typeName p.element ∉ Declaration.heldTypes then
        p.element.id?.map fun id => .unknownElementType ⟨id⟩ (Declaration.typeOf p.element)
      else none := by
  rw [declaration?]
  by_cases htag : p.element.tag = "packagedElement"
  · rw [if_pos htag]
    cases p.element.id? with
    | none => simp
    | some id =>
        rw [Option.map_some, Option.bind_some, Declaration.unheldFinding?_eq rfl]
        simp [htag]
  · simp [htag]

/-- The walk finds what there is to find at the places that it gets to. -/
theorem bind_visit? (config : BuildConfig) (p : Place) :
    (visit? config p).bind Declaration.unheldFinding? =
      if p.isIdentified then p.unheldFinding? config else none := by
  have hentered : isEntered config p.outer = (isReached config p.outer && p.isIdentified) := rfl
  rw [visit?, hentered, unheldFinding?]
  by_cases hreached : isReached config p.outer = true
  · by_cases hids : p.isIdentified = true
    · simp [hreached, hids, bind_declaration?]
    · simp [hids]
  · simp [hreached]

end Place

/-- The walk finds the elements of types that models do not hold, in document order. -/
theorem filterMap_visited (config : BuildConfig) (root : Element) :
    (visited config root).filterMap Declaration.unheldFinding? =
      ((Place.listIn [] root.children).filter Place.isIdentified).filterMap
        (Place.unheldFinding? config) := by
  rw [visited_eq_filterMap, List.filterMap_filterMap, List.filterMap_filter]
  exact congrArg (List.filterMap · _) (funext (Place.bind_visit? config))

end UmlCatalog
