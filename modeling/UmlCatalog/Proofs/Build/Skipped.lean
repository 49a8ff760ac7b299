import UmlCatalog.Proofs.Build.Alike
import UmlCatalog.Proofs.Build.Rearranged

/-!
# Skipped content

A build skips parts of a document: what lies in nested packages that are left out, packaged elements
without an identifier, elements of types that models do not hold, and whatever a package of views
has besides its views. Documents that differ in such parts only are built alike, with the same error
or with the same model and the same findings.

## Implementation notes

Two documents are compared along the walk, which enters packages from the model down. What is
packaged in an element that the walk does not enter is not compared at all. What lies directly in a
package of views is a view, whatever its type, and the model itself is no packaged element of
anything.
-/

namespace UmlCatalog
open Markup (Element Alike)
open Markup.Element (packagedTag)
open Declaration

/-- The tag of what a package imports. -/
def importTag : String := "elementImport"

namespace Markup.Element

/-- The packaged elements that have an identifier. -/
def identified (e : Element) : List Element :=
  (e.childrenNamed packagedTag).filter fun c => c.id? ≠ none

/-- What is read of a package of views: for each packaged element with an identifier, this, the name,
what the imports show, and the comments. -/
def shownViews (e : Element) : List (String × Option String × List String × List String) :=
  (e.childrenNamed packagedTag).filterMap fun v => v.id?.map fun id =>
    (id, v.attrElseText? "name", (v.childrenNamed importTag).filterMap importedElement?, v.comments)

/-- Two elements have the same tag, identifier and type. -/
structure SameHeading (e e' : Element) : Prop where
  tag : e'.tag = e.tag
  id? : e'.id? = e.id?
  type? : e'.type? = e.type?

end Markup.Element

/-- Two packaged elements differ in skipped content only. The flag tells whether there is a package
around them. -/
inductive SameKept (config : BuildConfig) : Bool → Element → Element → Prop
  /-- Elements of a type that models do not hold keep their heading. -/
  | unheld {nested : Bool} {e e' : Element} (type : typeName e ∉ heldTypes)
      (heading : e.SameHeading e') : SameKept config nested e e'
  /-- Packages of views keep their heading and their views. -/
  | views {nested : Bool} {e e' : Element} {id : String} (type : typeName e ∈ packageTypes)
      (id? : e.id? = some id) (holdsViews : config.holdsViews id = true)
      (heading : e.SameHeading e') (views : e'.shownViews = e.shownViews) :
      SameKept config nested e e'
  /-- Nested packages that are left out keep all but what they contain and import. -/
  | excluded {e e' : Element} {id : String} (type : typeName e ∈ packageTypes)
      (id? : e.id? = some id) (noViews : config.holdsViews id = false)
      (excludes : config.excludes id = true) (outside : Alike [packagedTag, importTag] e e') :
      SameKept config true e e'
  /-- Nothing is visited in elements that are no packages. -/
  | record {nested : Bool} {e e' : Element} (type : typeName e ∉ packageTypes)
      (outside : Alike [packagedTag] e e') : SameKept config nested e e'
  /-- Packages keep everything outside their packaged elements, and among these those that have an
  identifier. -/
  | package {nested : Bool} {e e' : Element}
      (noViews : ∀ id, e.id? = some id → config.holdsViews id = false)
      (outside : Alike [packagedTag] e e')
      (inside : List.Forall₂ (SameKept config true) e.identified e'.identified) :
      SameKept config nested e e'

/-- Two models differ in skipped content only. -/
structure SameKeptModel (config : BuildConfig) (root root' : Element) : Prop where
  outside : Alike [packagedTag] root root'
  inside : List.Forall₂ (SameKept config false) root.identified root'.identified

/-- Two documents differ in skipped content only, wherever they have their model. -/
structure SameKeptDocument (config : BuildConfig) (document document' : Element) : Prop where
  tag : document'.tag = document.tag
  type? : document'.type? = document.type?
  model : if document.tag = wrapperTag then
      Option.Rel (SameKeptModel config) (document.firstNamed? modelTag)
        (document'.firstNamed? modelTag)
    else SameKeptModel config document document'

namespace Markup.Element
variable {e e' : Element}

theorem SameHeading.of_alike {skipped : List String} (h : Alike skipped e e') : e.SameHeading e' :=
  ⟨h.tag_eq, h.id?_eq, h.type?_eq⟩

theorem SameHeading.typeOf_eq (h : e.SameHeading e') :
    Declaration.typeOf e' = Declaration.typeOf e := by
  rw [Declaration.typeOf, Declaration.typeOf, h.type?, h.tag]

theorem SameHeading.kindOf_eq (h : e.SameHeading e') (config : BuildConfig)
    (chain : List ElementId) (id : String) :
    Declaration.kindOf config chain id e' = Declaration.kindOf config chain id e := by
  rw [Declaration.kindOf, Declaration.kindOf, h.typeOf_eq]

/-- The views of a package are told by what is read of it. -/
theorem views_eq_map_shownViews (config : BuildConfig) (e : Element) :
    e.views config = e.shownViews.map fun v => {
      id := ⟨v.1⟩
      name := v.2.1.bind fun raw =>
        if raw.isEmpty then none else some (config.displayName raw)
      members := v.2.2.1.map ElementId.mk
      comments := v.2.2.2 } := by
  rw [views, shownViews, List.map_filterMap]
  refine congrArg (List.filterMap · _) (funext fun v => ?_)
  rw [Option.map_map]
  refine congrArg (Option.map · _) (funext fun id => ?_)
  simp only [Function.comp_apply, List.map_filterMap]
  rfl

end Markup.Element

namespace SameKept
variable {config : BuildConfig} {nested : Bool} {e e' : Element}

/-- Comparison of packaged elements by comparison of those inside. -/
@[elab_as_elim]
theorem induction {P : Bool → Element → Element → Prop}
    (unheld : ∀ nested e e', typeName e ∉ heldTypes → e.SameHeading e' → P nested e e')
    (views : ∀ nested e e' id, typeName e ∈ packageTypes → e.id? = some id →
      config.holdsViews id = true → e.SameHeading e' → e'.shownViews = e.shownViews →
      P nested e e')
    (excluded : ∀ e e' id, typeName e ∈ packageTypes → e.id? = some id →
      config.holdsViews id = false → config.excludes id = true →
      Alike [packagedTag, importTag] e e' → P true e e')
    (record : ∀ nested e e', typeName e ∉ packageTypes → Alike [packagedTag] e e' → P nested e e')
    (package : ∀ nested e e', (∀ id, e.id? = some id → config.holdsViews id = false) →
      Alike [packagedTag] e e' → List.Forall₂ (P true) e.identified e'.identified → P nested e e')
    (h : SameKept config nested e e') : P nested e e' := by
  refine @SameKept.rec config (fun nested e e' _ => P nested e e')
    (fun cs cs' _ => List.Forall₂ (P true) cs cs') (fun type heading => unheld _ _ _ type heading)
    (fun type id? holdsViews heading same => views _ _ _ _ type id? holdsViews heading same)
    (fun type id? noViews excludes outside => excluded _ _ _ type id? noViews excludes outside)
    (fun type outside => record _ _ _ type outside)
    (fun noViews outside _ ih => package _ _ _ noViews outside ih) .nil
    (fun _ _ hc ih => .cons hc ih) _ _ _ h

theorem refl (config : BuildConfig) (nested : Bool) (e : Element) : SameKept config nested e e := by
  by_cases htype : typeName e ∈ packageTypes
  · by_cases hviews : ∃ id, e.id? = some id ∧ config.holdsViews id = true
    · obtain ⟨id, hid, hviews⟩ := hviews
      exact .views htype hid hviews ⟨rfl, rfl, rfl⟩ rfl
    · refine .package (fun id hid => ?_) (.refl _ e)
        (List.forall₂_same.mpr fun c _hc => refl config true c)
      exact Bool.eq_false_iff.mpr fun hholds => hviews ⟨id, hid, hholds⟩
  · exact .record htype (.refl _ e)
termination_by sizeOf e
decreasing_by exact Element.sizeOf_lt_of_mem_childrenNamed (List.mem_of_mem_filter _hc)

end SameKept

namespace Declaration
variable {config : BuildConfig} {chain : List ElementId} {e e' : Element}

/-- What an element declares together with what it contains is told by its identified packaged
elements. -/
theorem listIn_eq_flatMap_identified (config : BuildConfig) (chain : List ElementId) (e : Element) :
    listIn config chain e.children = e.identified.flatMap (listOf config chain) := by
  have hchildren : listIn config chain e.children =
      (e.childrenNamed packagedTag).flatMap (listOf config chain) :=
    listIn_eq_flatMap config chain e.children
  rw [hchildren, Element.identified, flatMap_filter]
  refine List.flatMap_congr fun c _ => ?_
  split
  · rfl
  · rename_i hid
    exact listOf_of_id?_eq_none (not_not.mp hid)

/-- Two declarations take the same step on every draft. -/
def SameStep (config : BuildConfig) (n n' : Declaration) : Prop :=
  ∀ d : Draft, d.add config n' = d.add config n

theorem SameStep.of_alike {n : Declaration} (hkind : n.kind ≠ .viewPackage)
    (h : Alike [packagedTag] n.element e') : SameStep config n (n.withElement e') :=
  fun _ => Draft.add_withElement h hkind

/-- Elements that are not entered take the same step if their own declarations do. -/
theorem forall₂_listOf_of_sameStep (heading : e.SameHeading e')
    (step : ∀ id, e.id? = some id → kindOf config chain id e ≠ .package ∧
      SameStep config ⟨kindOf config chain id e, ⟨id⟩, chain, e⟩
        ⟨kindOf config chain id e, ⟨id⟩, chain, e'⟩) :
    List.Forall₂ (SameStep config) (listOf config chain e) (listOf config chain e') := by
  cases hid : e.id? with
  | none =>
      rw [listOf_of_id?_eq_none hid, listOf_of_id?_eq_none (heading.id?.trans hid)]
      exact .nil
  | some id =>
      obtain ⟨hkind, hstep⟩ := step id hid
      have hsame := heading.kindOf_eq config chain id
      rw [listOf_other hid hkind, listOf_other (heading.id?.trans hid) (hsame ▸ hkind), hsame]
      exact .cons hstep .nil

/-- Packages outside of which nothing differs take the same steps if what is packaged in them does. -/
theorem forall₂_listOf_of_package
    (noViews : ∀ id, e.id? = some id → config.holdsViews id = false)
    (outside : Alike [packagedTag] e e')
    (inside : ∀ id, e.id? = some id → List.Forall₂ (SameStep config)
      (listIn config (⟨id⟩ :: chain) e.children) (listIn config (⟨id⟩ :: chain) e'.children)) :
    List.Forall₂ (SameStep config) (listOf config chain e) (listOf config chain e') := by
  have heading := Element.SameHeading.of_alike outside
  by_cases hpackage : ∃ id, e.id? = some id ∧ kindOf config chain id e = .package
  · obtain ⟨id, hid, hkind⟩ := hpackage
    have hkind' := (heading.kindOf_eq config chain id).trans hkind
    rw [listOf_package hid hkind, listOf_package (heading.id?.trans hid) hkind']
    exact .cons (SameStep.of_alike (n := ⟨.package, ⟨id⟩, chain, e⟩) nofun outside) (inside id hid)
  · refine forall₂_listOf_of_sameStep heading fun id hid => ⟨fun hkind => hpackage ⟨id, hid, hkind⟩,
      SameStep.of_alike (n := ⟨_, ⟨id⟩, chain, e⟩) (fun hviews => ?_) outside⟩
    have hholds := packageKind_eq_viewPackage_iff.mp
      ((kindOf_eq_iff_packageKind (.inr (.inr rfl))).mp hviews).2
    cases (noViews id hid).symm.trans hholds

end Declaration

namespace SameKept
variable {config : BuildConfig} {nested : Bool} {e e' : Element}

/-- Packaged elements that differ in skipped content only take the same steps. -/
theorem forall₂_listOf (h : SameKept config nested e e') :
    ∀ chain : List ElementId, nested = !chain.isEmpty →
      List.Forall₂ (SameStep config) (listOf config chain e) (listOf config chain e') := by
  -- By induction on the comparison, for every chain: inside a package the chain grows.
  refine SameKept.induction (P := fun nested e e' => ∀ chain : List ElementId,
    nested = !chain.isEmpty →
      List.Forall₂ (SameStep config) (listOf config chain e) (listOf config chain e'))
    ?unheld ?views ?excluded ?record ?package h
  case unheld =>
    intro nested e e' type heading chain _
    refine forall₂_listOf_of_sameStep heading fun id _ => ?_
    rw [kindOf_eq_other_iff.mpr ⟨type, rfl⟩]
    exact ⟨nofun, fun _ => rfl⟩
  case views =>
    intro nested e e' id type hid holdsViews heading views chain _
    refine forall₂_listOf_of_sameStep heading fun id' hid' => ?_
    obtain rfl := Option.some.inj (hid.symm.trans hid')
    rw [(kindOf_eq_iff_packageKind (.inr (.inr rfl))).mpr
      ⟨type, packageKind_eq_viewPackage_iff.mpr holdsViews⟩]
    refine ⟨nofun, fun d => ?_⟩
    show Except.ok _ = Except.ok _
    rw [e'.views_eq_map_shownViews, views, ← e.views_eq_map_shownViews]
  case excluded =>
    intro e e' id type hid noViews excludes outside chain hnested
    refine forall₂_listOf_of_sameStep (.of_alike outside) fun id' hid' => ?_
    obtain rfl := Option.some.inj (hid.symm.trans hid')
    have hchain : chain ≠ [] := by
      rintro rfl
      cases hnested
    rw [(kindOf_eq_iff_packageKind (.inr (.inl rfl))).mpr
      ⟨type, packageKind_eq_excludedPackage_iff.mpr ⟨noViews, hchain, excludes⟩⟩]
    exact ⟨nofun, fun d => Draft.addExcluded_withElement (n := ⟨_, _, _, e⟩) outside (by decide)
      (by decide)⟩
  case record =>
    intro nested e e' type outside chain _
    have hkind : ∀ id kind, (kind = .package ∨ kind = .excludedPackage ∨ kind = .viewPackage) →
        kindOf config chain id e ≠ kind :=
      fun id kind hpackage he => type ((kindOf_eq_iff_packageKind hpackage).mp he).1
    exact forall₂_listOf_of_sameStep (.of_alike outside) fun id _ =>
      ⟨hkind id _ (.inl rfl), SameStep.of_alike (n := ⟨_, ⟨id⟩, chain, e⟩)
        (hkind id _ (.inr (.inr rfl))) outside⟩
  case package =>
    intro nested e e' noViews outside inside chain _
    refine forall₂_listOf_of_package noViews outside fun id _ => ?_
    rw [listIn_eq_flatMap_identified, listIn_eq_flatMap_identified]
    exact List.rel_flatMap inside fun c c' hc => hc (⟨id⟩ :: chain) rfl

end SameKept

/-- Declarations that take the same steps one by one are taken in alike. -/
theorem Draft.foldlM_eq_of_forall₂ {config : BuildConfig} {ds ds' : List Declaration}
    (h : List.Forall₂ (SameStep config) ds ds') (d : Draft) :
    ds'.foldlM (add config) d = ds.foldlM (add config) d := by
  induction h generalizing d with
  | nil => rfl
  | cons hn _ ih =>
      rw [List.foldlM_cons, List.foldlM_cons, hn d]
      exact bind_congr fun d' => ih d'

section Documents
variable {config : BuildConfig} {resource : Option String} {document document' root root' : Element}

theorem SameKeptModel.forall₂_declarations (h : SameKeptModel config root root') :
    List.Forall₂ (SameStep config) (declarations config root) (declarations config root') := by
  rw [declarations, declarations, listIn_eq_flatMap_identified, listIn_eq_flatMap_identified]
  exact List.rel_flatMap h.inside fun _ _ hc => hc.forall₂_listOf [] rfl

/-- Documents that differ in skipped content only have such models, or none for the same reason. -/
theorem SameKeptDocument.modelRoot_cases (h : SameKeptDocument config document document') :
    (∃ root root', modelRoot document = .ok root ∧ modelRoot document' = .ok root' ∧
      SameKeptModel config root root') ∨
    ∃ e, modelRoot document = .error e ∧ modelRoot document' = .error e := by
  have hmodel := h.model
  unfold modelRoot
  rw [h.tag, h.type?]
  by_cases hwrapper : document.tag = wrapperTag
  · rw [if_pos hwrapper] at hmodel
    simp only [if_pos hwrapper]
    generalize document.firstNamed? modelTag = first at hmodel ⊢
    generalize document'.firstNamed? modelTag = first' at hmodel ⊢
    cases hmodel with
    | some hroot => exact Or.inl ⟨_, _, rfl, rfl, hroot⟩
    | none => exact Or.inr ⟨_, rfl, rfl⟩
  · rw [if_neg hwrapper] at hmodel
    simp only [if_neg hwrapper]
    split
    · exact Or.inl ⟨_, _, rfl, rfl, hmodel⟩
    · exact Or.inr ⟨_, rfl, rfl⟩

/-- Skipped content is inert. Documents that differ in nothing else are built with the same error, or
with the same model and the same findings in the same order, whatever the configuration. -/
theorem build_of_sameKept (h : SameKeptDocument config document document') :
    build config resource document' = build config resource document := by
  rcases h.modelRoot_cases with ⟨root, root', hroot, hroot', hmodel⟩ | ⟨e, he, he'⟩
  · have htaken : (declarations config root').foldlM (Draft.add config)
          (.start config resource root') =
        (declarations config root).foldlM (Draft.add config) (.start config resource root) := by
      rw [Draft.start_eq_of_alike resource hmodel.outside,
        Draft.foldlM_eq_of_forall₂ hmodel.forall₂_declarations]
    rw [build, build, hroot, hroot']
    exact congrArg (Except.bind · fun d => .ok d.finish) htaken
  · rw [build, build, he, he']

end Documents

/-- What no build would take: a class that repeats an identifier and inherits from itself. Beside it
stands an import. -/
def intruders : List Element := [
  packaged "uml:Class" "A" [⟨"generalization", .ofList [("general", "A")], none, []⟩],
  ⟨importTag, .ofList [("xmi:id", "i"), ("importedElement", "A")], none, []⟩]

/-- A document with room for skipped content: in a package that is left out, in an element without an
identifier, in one that models do not hold and in a view. -/
def roomyDocument (content : List Element) : Element :=
  ⟨wrapperTag, ∅, none, [⟨modelTag, .ofList [("xmi:id", "m")], none, [
    packaged "uml:Package" "p" [
      packaged "uml:Class" "A" [],
      packaged "uml:Package" "old" content,
      ⟨packagedTag, .ofList [("xmi:type", "uml:Package")], none, content⟩,
      packaged "uml:Actor" "x" content],
    packaged "uml:Package" "views" [
      packaged "uml:Class" "V" [
        ⟨importTag, .ofList [("importedElement", "A")], none, []⟩,
        ⟨"ownedAttribute", ∅, none, content⟩]]]⟩]⟩

theorem sameKept_roomyDocument :
    SameKeptDocument filedConfig (roomyDocument []) (roomyDocument intruders) := by
  have hold : SameKept filedConfig true (packaged "uml:Package" "old" [])
      (packaged "uml:Package" "old" intruders) :=
    .excluded (by decide) rfl (by decide) (by decide) (.of_filter_eq rfl rfl rfl rfl)
  have hactor : SameKept filedConfig true (packaged "uml:Actor" "x" [])
      (packaged "uml:Actor" "x" intruders) :=
    .unheld (by decide) ⟨rfl, rfl, rfl⟩
  have hwrapper : (roomyDocument []).tag = wrapperTag := rfl
  refine ⟨rfl, rfl, ?_⟩
  rw [if_pos hwrapper]
  refine .some ⟨.of_filter_eq rfl rfl rfl rfl, .cons (.package ?_ (.of_filter_eq rfl rfl rfl rfl)
    (.cons (.refl _ _ _) (.cons hold (.cons hactor .nil)))) (.cons ?_ .nil)⟩
  · rintro id hid
    obtain rfl := Option.some.inj hid
    decide
  · exact .views (by decide) rfl (by decide) ⟨rfl, rfl, rfl⟩ rfl

theorem build_of_sameKept_roomyDocument :
    SameKeptDocument filedConfig (roomyDocument []) (roomyDocument intruders) ∧
      build filedConfig none (roomyDocument intruders) =
        build filedConfig none (roomyDocument []) ∧
      ∃ result, build filedConfig none (roomyDocument intruders) = .ok result ∧
        result.model.classes.keys = [⟨"A"⟩] ∧
        result.model.packages.keys = [⟨"p"⟩, ⟨"old"⟩] ∧
        result.model.views.map View.members = [[⟨"A"⟩]] ∧
        result.diagnostics = [.unknownElementType ⟨"x"⟩ "uml:Actor"] := by
  have hsame : build filedConfig none (roomyDocument intruders) =
      build filedConfig none (roomyDocument []) := build_of_sameKept sameKept_roomyDocument
  obtain ⟨result, h, hrun⟩ := exists_of_any_eq_true (x := build filedConfig none (roomyDocument []))
    (p := fun r => decide (r.model.classes.keys = [⟨"A"⟩] ∧
      r.model.packages.keys = [⟨"p"⟩, ⟨"old"⟩] ∧
      r.model.views.map View.members = [[⟨"A"⟩]] ∧
      r.diagnostics = [.unknownElementType ⟨"x"⟩ "uml:Actor"]))
    (by decide +kernel)
  exact ⟨sameKept_roomyDocument, hsame, result, hsame.trans h, of_decide_eq_true hrun⟩

end UmlCatalog
