import UmlCatalog.Build.Model
import UmlCatalog.Proofs.Build.Kinds
import UmlCatalog.Proofs.Build.Nesting

/-!
# The visited elements of a document

The declarations of a document, described apart from the walk that lists them. All elements below
the model element are put in document order, each with the elements around it. Visited are the
packaged elements with an identifier that have only packages with identifiers around them, none of
which is a package of views or a nested package that is left out.

## Implementation notes

Whether a package holds views or is left out is told by its identifier. Where a package has none,
neither can be told, but the walk does not enter it. So what is around an element is asked three
questions: whether a package there holds views or is left out (`Place.isCovered`), whether besides
there are only packages (`Place.isReached`), and whether all of it has an identifier
(`Place.isIdentified`). The walk gets to the places that are reached and identified. Elsewhere the
chain of an element has the packages with an identifier only.
-/

namespace UmlCatalog
open Markup (Element)
open Declaration (isPackage)

/-- An element with the elements around it below the model element, innermost first. -/
structure Place where
  outer : List Element
  element : Element

namespace Place

mutual
/-- An element and everything below it, in document order. -/
def listOf (outer : List Element) : Element → List Place
  | ⟨tag, attributes, text, children⟩ =>
      ⟨outer, ⟨tag, attributes, text, children⟩⟩ ::
        listIn (⟨tag, attributes, text, children⟩ :: outer) children

/-- Everything among the children of an element and below them, in document order. -/
def listIn (outer : List Element) : List Element → List Place
  | [] => []
  | e :: rest => listOf outer e ++ listIn outer rest
end

/-- Whether a package holds no views and is not a nested one that is left out. -/
def admits (config : BuildConfig) (outer : List Element) (id : String) : Bool :=
  !config.holdsViews id && (outer.isEmpty || !config.excludes id)

/-- Whether a package of views is around, or a nested package that is left out. -/
def isCovered (config : BuildConfig) : List Element → Bool
  | [] => false
  | e :: outer =>
      isCovered config outer || isPackage e && e.id?.any fun id => !admits config outer id

/-- Whether there are only packages around, of which none holds views or is left out. -/
def isReached (config : BuildConfig) (outer : List Element) : Bool :=
  outer.all isPackage && !isCovered config outer

/-- Whether everything around has an identifier. -/
def isIdentified (p : Place) : Bool := p.outer.all fun e => e.id?.isSome

/-- The identifiers of the packages around an element, nearest first. -/
def chain (outer : List Element) : List ElementId :=
  (outer.filter isPackage).filterMap fun e => e.id?.map ElementId.mk

/-- What a packaged element with an identifier declares. -/
def declaration? (config : BuildConfig) (p : Place) : Option Declaration :=
  if p.element.tag = "packagedElement" then
    p.element.id?.map fun id =>
      ⟨Declaration.kindOf config (chain p.outer) id p.element, ⟨id⟩, chain p.outer, p.element⟩
  else none

end Place

/-- What is declared below a model element at the places of a kind, in document order. -/
def declaredAt (config : BuildConfig) (root : Element) (kind : Place → Bool) : List Declaration :=
  ((Place.listIn [] root.children).filter kind).filterMap (Place.declaration? config)

/-- The packaged elements that lie in no package of views and in no package that is left out. -/
def uncovered (config : BuildConfig) (root : Element) : List Declaration :=
  declaredAt config root fun p => !Place.isCovered config p.outer

/-- The packaged elements that are reached through packages of which none holds views or is left
out. -/
def reached (config : BuildConfig) (root : Element) : List Declaration :=
  declaredAt config root fun p => Place.isReached config p.outer

/-- The visited elements of a model element, in document order: those that are reached through
packages with identifiers. -/
def visited (config : BuildConfig) (root : Element) : List Declaration :=
  declaredAt config root fun p => Place.isReached config p.outer && p.isIdentified

namespace Place
variable {config : BuildConfig} {outer : List Element} {e : Element} {id : String}

theorem listOf_eq (outer : List Element) (e : Element) :
    listOf outer e = ⟨outer, e⟩ :: listIn (e :: outer) e.children := by
  obtain ⟨tag, attributes, text, children⟩ := e
  rw [listOf]

/-- Whether the walk gets to what lies directly inside the elements. -/
def isEntered (config : BuildConfig) (outer : List Element) : Bool :=
  isReached config outer && outer.all fun e => e.id?.isSome

/-- What a visited element declares. -/
def visit? (config : BuildConfig) (p : Place) : Option Declaration :=
  if isEntered config p.outer then declaration? config p else none

/-- The places inside an element are reached if those beside it are and it is a package that is
admitted, as far as it has an identifier. -/
theorem isReached_cons (config : BuildConfig) (e : Element) (outer : List Element) :
    isReached config (e :: outer) =
      (isReached config outer && isPackage e && e.id?.all (admits config outer)) := by
  rw [isReached, isReached, isCovered, List.all_cons]
  cases isPackage e with
  | false => simp
  | true => cases e.id? <;> simp [Bool.and_assoc]

/-- An element is entered if everything around is entered and it is itself a package with an
identifier that is admitted. -/
theorem isEntered_cons_iff : isEntered config (e :: outer) = true ↔
    isEntered config outer = true ∧ isPackage e = true ∧
      ∃ id, e.id? = some id ∧ admits config outer id = true := by
  rw [isEntered, isEntered, isReached_cons, List.all_cons]
  cases hid : e.id? with
  | none => simp
  | some id => simp [and_assoc, and_left_comm, and_comm]

theorem isEntered_cons_of_eq_false (h : isEntered config outer = false) (e : Element) :
    isEntered config (e :: outer) = false := by
  rw [Bool.eq_false_iff, Ne, isEntered_cons_iff, h]
  rintro ⟨⟨⟩, _⟩

theorem chain_cons (hpackage : isPackage e = true) (hid : e.id? = some id) :
    chain (e :: outer) = ⟨id⟩ :: chain outer := by
  simp [chain, hpackage, hid]

theorem chain_eq_nil_iff (h : isEntered config outer = true) : chain outer = [] ↔ outer = [] := by
  cases outer with
  | nil => exact iff_of_true rfl rfl
  | cons e outer =>
      obtain ⟨_, hpackage, id, hid, _⟩ := isEntered_cons_iff.mp h
      rw [chain_cons hpackage hid]
      exact iff_of_false nofun nofun

/-- The walk tells by the packages around an element what it tells by their identifiers. -/
theorem isEntered_cons_iff_kindOf (h : isEntered config outer = true) (hid : e.id? = some id) :
    isEntered config (e :: outer) = true ↔
      e.tag = "packagedElement" ∧ Declaration.kindOf config (chain outer) id e = .package := by
  rw [isEntered_cons_iff, Declaration.kindOf_eq_package_iff, chain_eq_nil_iff h]
  simp [h, hid, admits, isPackage, and_assoc]

/-- Below elements that are not all entered nothing is visited. -/
theorem filterMap_visit?_of_eq_false (outer : List Element) (elements : List Element) :
    isEntered config outer = false → (listIn outer elements).filterMap (visit? config) = [] := by
  refine listIn.induct
    (fun outer e => isEntered config outer = false →
      (listOf outer e).filterMap (visit? config) = [])
    (fun outer elements => isEntered config outer = false →
      (listIn outer elements).filterMap (visit? config) = [])
    ?element ?nil ?cons outer elements
  case element =>
    intro outer tag attributes text children ih h
    have hvisit : visit? config ⟨outer, ⟨tag, attributes, text, children⟩⟩ = none := by
      rw [visit?, h, if_neg Bool.false_ne_true]
    rw [listOf, List.filterMap_cons_none hvisit]
    exact ih (isEntered_cons_of_eq_false h _)
  case nil =>
    intro outer _
    rw [listIn]
    rfl
  case cons =>
    intro outer e rest he hrest h
    rw [listIn, List.filterMap_append, he h, hrest h]
    rfl

end Place

theorem visited_eq_filterMap (config : BuildConfig) (root : Element) :
    visited config root =
      (Place.listIn [] root.children).filterMap (Place.visit? config) := by
  rw [visited, declaredAt, List.filterMap_filter]
  rfl

namespace Declaration
variable {config : BuildConfig} {outer : List Element} {e : Element}

/-- A declared element is visited before what it contains. -/
theorem listOf_eq_filterMap (h : Place.isEntered config outer = true)
    (inside : Place.isEntered config (e :: outer) = true →
      listIn config (Place.chain (e :: outer)) e.children =
        (Place.listIn (e :: outer) e.children).filterMap (Place.visit? config)) :
    (if e.tag = "packagedElement" then listOf config (Place.chain outer) e else []) =
      (Place.listOf outer e).filterMap (Place.visit? config) := by
  rw [Place.listOf_eq, List.filterMap_cons, Place.visit?, if_pos h, Place.declaration?]
  cases hid : e.id? with
  | none =>
      have hentered : Place.isEntered config (e :: outer) = false := by
        rw [Bool.eq_false_iff, Ne, Place.isEntered_cons_iff, hid]
        rintro ⟨_, _, _, ⟨⟩, _⟩
      rw [Place.filterMap_visit?_of_eq_false _ _ hentered, listOf_of_id?_eq_none hid]
      simp
  | some id =>
      have hiff := Place.isEntered_cons_iff_kindOf h hid
      by_cases hentered : Place.isEntered config (e :: outer) = true
      · obtain ⟨htag, hkind⟩ := hiff.mp hentered
        obtain ⟨_, hpackage, _⟩ := Place.isEntered_cons_iff.mp hentered
        rw [← inside hentered, if_pos htag, if_pos htag, listOf_package hid hkind,
          Place.chain_cons hpackage hid, Option.map_some, hkind]
      · rw [Place.filterMap_visit?_of_eq_false _ _ (Bool.eq_false_iff.mpr hentered)]
        by_cases htag : e.tag = "packagedElement"
        · have hkind : kindOf config (Place.chain outer) id e ≠ .package := fun hkind =>
            hentered (hiff.mpr ⟨htag, hkind⟩)
          rw [if_pos htag, if_pos htag, listOf_other hid hkind]
          rfl
        · rw [if_neg htag, if_neg htag]

/-- The walk down the packages meets the visited elements. -/
theorem listIn_eq_filterMap (outer elements : List Element) :
    Place.isEntered config outer = true →
      listIn config (Place.chain outer) elements =
        (Place.listIn outer elements).filterMap (Place.visit? config) := by
  refine Place.listIn.induct
    (fun outer e => Place.isEntered config outer = true →
      (if e.tag = "packagedElement" then listOf config (Place.chain outer) e else []) =
        (Place.listOf outer e).filterMap (Place.visit? config))
    (fun outer elements => Place.isEntered config outer = true →
      listIn config (Place.chain outer) elements =
        (Place.listIn outer elements).filterMap (Place.visit? config))
    ?element ?nil ?cons outer elements
  case element =>
    intro outer tag attributes text children ih h
    exact listOf_eq_filterMap h ih
  case nil =>
    intro outer _
    rw [listIn, Place.listIn]
    rfl
  case cons =>
    intro outer e rest he hrest h
    rw [listIn, Place.listIn, List.filterMap_append, he h, hrest h]

end Declaration

/-- The declarations of a document are its visited elements. -/
theorem declarations_eq_visited (config : BuildConfig) (root : Element) :
    declarations config root = visited config root :=
  (Declaration.listIn_eq_filterMap [] root.children rfl).trans
    (visited_eq_filterMap config root).symm

/-- A packaged element that is named like its identifier. -/
def packaged (type id : String) (children : List Markup.Element) : Markup.Element where
  tag := "packagedElement"
  attributes := .ofList [("xmi:type", type), ("xmi:id", id), ("name", id)]
  text := none
  children := children

/-- A package without an identifier. -/
def anonymousPackage (children : List Markup.Element) : Markup.Element where
  tag := "packagedElement"
  attributes := .ofList [("xmi:type", "uml:Package"), ("name", "p")]
  text := none
  children := children

theorem modelRoot_packaged (id : String) (children : List Markup.Element) :
    modelRoot (packaged "uml:Model" id children) = .ok (packaged "uml:Model" id children) := by
  have htag : (packaged "uml:Model" id children).tag ≠ wrapperTag :=
    show "packagedElement" ≠ wrapperTag by decide
  rw [modelRoot, if_neg htag, if_pos]
  exact Or.inr rfl

/-- What lies inside a class is not visited. -/
example :
    (visited .standard (packaged "uml:Model" "m" [
      packaged "uml:Package" "p" [packaged "uml:Class" "A" [packaged "uml:Class" "B" []]],
      packaged "uml:Class" "C" []])).map (fun n => (n.id, n.chain)) =
      [(⟨"p"⟩, []), (⟨"A"⟩, [⟨"p"⟩]), (⟨"C"⟩, [])] := by
  decide +kernel

end UmlCatalog
