import UmlCatalog.Build.Model
import UmlCatalog.Proofs.Markup.Alike

/-!
# Declarations of elements that read alike

A declaration says the same about every element that is alike outside packaged elements, because
these are declarations of their own or are not visited at all. So it takes the same step on every
draft. Only packages of views are read by what is packaged inside them.
-/

namespace UmlCatalog.Markup.Alike
open Element (packagedTag)

section Readers
variable {skipped : List String} {e e' : Element} {config : BuildConfig}

theorem nameOf_eq (h : Alike skipped e e') (hname : "name" ∉ skipped) :
    config.nameOf e' = config.nameOf e := by
  rw [BuildConfig.nameOf, BuildConfig.nameOf, h.attrElseText?_eq hname]

theorem importedElement?_eq (h : Alike [packagedTag] e e') :
    e'.importedElement? = e.importedElement? :=
  h.attrElseIdref?_eq (by decide)

theorem isAbstract_eq (h : Alike [packagedTag] e e') : e'.isAbstract = e.isAbstract := by
  rw [Element.isAbstract, Element.isAbstract, h.attrElseText?_eq (by decide)]

theorem generals_eq (h : Alike [packagedTag] e e') : e'.generals = e.generals :=
  h.filterMap_childrenNamed_eq (by decide) fun _ _ hg => by rw [hg.attrElseIdref?_eq (by decide)]

theorem elementImports_eq (h : Alike [packagedTag] e e') : e'.elementImports = e.elementImports :=
  h.filterMap_childrenNamed_eq (by decide) fun _ _ hi => by
    rw [hi.id?_eq, hi.importedElement?_eq]

theorem foreignEnd?_eq (h : Alike [packagedTag] e e') : e'.foreignEnd? = e.foreignEnd? := by
  rw [Element.foreignEnd?, Element.foreignEnd?, Element.memberEnds, Element.memberEnds,
    h.attr?_eq, h.bind_firstNamed?_eq (by decide) fun _ _ he => he.id?_eq,
    h.filterMap_childrenNamed_eq (by decide) fun _ _ he => he.idref?_eq]

end Readers
end UmlCatalog.Markup.Alike

namespace UmlCatalog
open Markup (Element Alike)
open Markup.Element (packagedTag)

namespace OwnedAttribute
variable {config : BuildConfig} {classId : ElementId} {position : Nat} {e e' : Element}

theorem idOf_eq_of_alike (h : Alike [packagedTag] e e') :
    idOf classId position e' = idOf classId position e := by
  rw [idOf, idOf, h.id?_eq]

theorem idrefOf_eq_of_alike (h : Alike [packagedTag] e e') : idrefOf e' = idrefOf e := by
  rw [idrefOf, idrefOf, h.attr?_eq, h.bind_firstNamed?_eq (by decide) fun _ _ ht => ht.idref?_eq]

theorem targetOf_eq_of_alike (h : Alike [packagedTag] e e') :
    targetOf config e' = targetOf config e := by
  rw [targetOf, targetOf, idrefOf_eq_of_alike h, hrefOf, hrefOf,
    h.bind_firstNamed?_eq (by decide) fun _ _ ht => ht.attr?_eq _]

theorem boundOf_eq_of_alike (h : Alike [packagedTag] e e') {t : String} (ht : t ≠ packagedTag)
    (default : String) : boundOf e' t default = boundOf e t default := by
  rw [boundOf, boundOf, h.bind_firstNamed?_eq (by simpa using ht) fun _ _ hb =>
    hb.attrElseText?_eq (by decide)]

theorem isAssociationEnd_eq_of_alike (h : Alike [packagedTag] e e') :
    isAssociationEnd e' = isAssociationEnd e := by
  rw [isAssociationEnd, isAssociationEnd, h.attrElseIdref?_eq (by decide)]

/-- An attribute reads the same. -/
theorem read_eq_of_alike (h : Alike [packagedTag] e e') :
    read config classId e' position = read config classId e position := by
  simp only [read, nameFindings, idOf_eq_of_alike h, idrefOf_eq_of_alike h, targetOf_eq_of_alike h,
    boundOf_eq_of_alike h (t := "lowerValue") (by decide),
    boundOf_eq_of_alike h (t := "upperValue") (by decide), isAssociationEnd_eq_of_alike h,
    h.nameOf_eq (by decide), h.attrElseText?_eq (t := "aggregation") (by decide),
    h.comments_eq (by decide)]

theorem readAll_eq_of_alike (h : Alike [packagedTag] e e') :
    readAll config classId e' = readAll config classId e :=
  Markup.map_zipIdx_eq_of_forall₂ (h.forall₂_childrenNamed (by decide))
    (fun _ _ _ ha => read_eq_of_alike ha) 0

end OwnedAttribute

namespace Declaration
variable {config : BuildConfig} {n : Declaration} {e : Element}

/-- The same declaration of another element. -/
def withElement (n : Declaration) (e : Element) : Declaration := { n with element := e }

theorem attributes_withElement (h : Alike [packagedTag] n.element e) :
    (n.withElement e).attributes config = n.attributes config :=
  OwnedAttribute.readAll_eq_of_alike h

theorem toClass_withElement (h : Alike [packagedTag] n.element e) :
    (n.withElement e).toClass config = n.toClass config := by
  simp only [toClass, attributes_withElement h]
  simp only [withElement, h.nameOf_eq (by decide), h.isAbstract_eq, h.generals_eq,
    h.comments_eq (by decide)]

theorem toEnumeration_withElement (h : Alike [packagedTag] n.element e) :
    (n.withElement e).toEnumeration config = n.toEnumeration config := by
  simp only [toEnumeration, withElement, h.nameOf_eq (by decide), h.comments_eq (by decide),
    h.filterMap_childrenNamed_eq (t := "ownedLiteral") (by decide) fun _ _ hv =>
      hv.nameOf_eq (by decide)]

theorem toDatatype_withElement (h : Alike [packagedTag] n.element e) :
    (n.withElement e).toDatatype config = n.toDatatype config := by
  simp only [toDatatype, withElement, h.nameOf_eq (by decide), h.comments_eq (by decide)]

/-- The record of a package is read off its name and its comments. -/
theorem toPackage_withElement {skipped : List String} (h : Alike skipped n.element e)
    (hname : "name" ∉ skipped) (hcomments : "ownedComment" ∉ skipped) :
    (n.withElement e).toPackage config = n.toPackage config := by
  simp only [toPackage, withElement, h.nameOf_eq hname, h.comments_eq hcomments]

theorem toAssociation_withElement (h : Alike [packagedTag] n.element e) :
    (n.withElement e).toAssociation config = n.toAssociation config := by
  simp only [toAssociation, withElement, h.nameOf_eq (by decide), h.foreignEnd?_eq,
    h.comments_eq (by decide)]

end Declaration

namespace Draft
variable {config : BuildConfig} {d : Draft} {n : Declaration} {e : Element}

theorem start_eq_of_alike (resource : Option String) {root root' : Element}
    (h : Alike [packagedTag] root root') :
    start config resource root' = start config resource root := by
  rw [start, start, h.id?_eq, h.nameOf_eq (by decide)]

theorem refuseGeneralization_withElement (kind : ValueTypeKind)
    (h : Alike [packagedTag] n.element e) :
    refuseGeneralization kind (n.withElement e) = refuseGeneralization kind n := by
  have hfirst := h.rel_firstNamed? (t := "generalization") (by decide)
  unfold refuseGeneralization Declaration.withElement
  dsimp only
  generalize n.element.firstNamed? "generalization" = first at hfirst ⊢
  generalize e.firstNamed? "generalization" = first' at hfirst ⊢
  cases hfirst with
  | some hg => simp only [hg.attrElseIdref?_eq (t := "general") (by decide)]
  | none => rfl

theorem addImports_withElement (h : Alike [packagedTag] n.element e) :
    d.addImports (n.withElement e) = d.addImports n := by
  simp only [addImports, Declaration.withElement, h.elementImports_eq]

theorem addValueType_withElement {α : Type} {kind : ValueTypeKind} {known : OrderedMap ElementId α}
    {added : Except ModelError Model} (h : Alike [packagedTag] n.element e) :
    d.addValueType (n.withElement e) kind known added = d.addValueType n kind known added := by
  unfold addValueType
  rw [refuseGeneralization_withElement kind h]
  rfl

theorem addClass_withElement (h : Alike [packagedTag] n.element e) :
    d.addClass config (n.withElement e) = d.addClass config n := by
  unfold addClass
  rw [Declaration.toClass_withElement h, Declaration.attributes_withElement h]
  simp only [Declaration.withElement, h.generals_eq]

theorem addPackage_withElement (h : Alike [packagedTag] n.element e) :
    d.addPackage config (n.withElement e) = d.addPackage config n := by
  unfold addPackage
  rw [Declaration.toPackage_withElement h (by decide) (by decide)]
  simp only [addImports_withElement h]
  rfl

/-- A package that is not entered takes the same step if its name and its comments are the same. -/
theorem addExcluded_withElement {skipped : List String} (h : Alike skipped n.element e)
    (hname : "name" ∉ skipped) (hcomments : "ownedComment" ∉ skipped) :
    d.addExcluded config (n.withElement e) = d.addExcluded config n := by
  unfold addExcluded
  rw [Declaration.toPackage_withElement h hname hcomments]

/-- What is not read by its packaged elements is taken in alike. -/
theorem add_withElement (h : Alike [packagedTag] n.element e) (hkind : n.kind ≠ .viewPackage) :
    d.add config (n.withElement e) = d.add config n := by
  have hsame : (n.withElement e).kind = n.kind := rfl
  unfold add
  rw [hsame]
  cases hn : n.kind with
  | umlClass => exact addClass_withElement h
  | enumeration =>
      rw [addEnumeration, addEnumeration, Declaration.toEnumeration_withElement h,
        addValueType_withElement h]
  | datatype =>
      rw [addDatatype, addDatatype, Declaration.toDatatype_withElement h,
        addValueType_withElement h]
  | package => exact addPackage_withElement h
  | excludedPackage => exact addExcluded_withElement h (by decide) (by decide)
  | viewPackage => exact absurd hn hkind
  | association =>
      rw [addAssociation, addAssociation, Declaration.toAssociation_withElement h]
      rfl
  | other type => rfl

end Draft
end UmlCatalog
