import UmlCatalog.Proofs.Build.Contents
import UmlCatalog.Proofs.Build.Rearranged
import UmlCatalog.Proofs.Build.Resolution

/-!
# The order of declarations does not matter

A document may put its packaged elements in any order, as long as its attributes and imports have
names of their own and its associations select different ends. Then rearranging it changes neither
whether it is accepted nor, apart from order, the model that is built.

## Implementation notes

Each table of a draft is described by the declarations that it was made from, and so two drafts of the
same declarations have the same tables up to order. Only associations are resolved by what earlier
ones have left; there the order is shown not to matter.
-/

namespace UmlCatalog
open Markup (Element Rearranged)
open Declaration (inArena HasDistinctEnds)

/-- Records of the same declarations agree. -/
theorem IsFiled.agrees {α : Type} {records records' : OrderedMap ElementId α}
    {Describes Describes' : Declaration → α → Prop} {ns ns' : List Declaration}
    (h : IsFiled records Describes ns) (h' : IsFiled records' Describes' ns')
    (hns : SameDeclarations ns ns') {R : α → α → Prop}
    (hR : ∀ n n' r r', n'.bare = n.bare → Describes n r → Describes' n' r' → R r r') :
    records.Agrees R records' where
  keys := by
    rw [h.keys, h'.keys]
    exact hns.map fun _ => rfl
  values := by
    intro k r r' hr hr'
    obtain ⟨n, hn, rfl, hdescribes⟩ := h.exists_of_get? hr
    obtain ⟨n', hn', hbare⟩ := hns.exists_mem hn
    obtain ⟨found, hfound, hdescribes'⟩ := h'.exists_get? n' hn'
    rw [Declaration.id_eq_of_bare_eq hbare] at hfound
    obtain rfl := Option.some.inj (hr'.symm.trans hfound)
    exact hR n n' r r' hbare hdescribes hdescribes'

/-- Records that ignore the packaged elements are the same. -/
theorem IsFiled.agrees_eq {α : Type} {records records' : OrderedMap ElementId α}
    {ns ns' : List Declaration} {g : Declaration → α}
    (h : IsFiled records (fun n r => r = g n) ns) (h' : IsFiled records' (fun n r => r = g n) ns')
    (hns : SameDeclarations ns ns') (hg : ∀ n, g n.bare = g n) : records.Agrees Eq records' := by
  refine h.agrees h' hns ?_
  rintro n n' _ _ hbare rfl rfl
  exact (Declaration.eq_of_bare_eq hg hbare).symm

/-- A package that is entered is entered wherever it is declared. -/
theorem SameDeclarations.exists_entered {ds ds' : List Declaration} (h : SameDeclarations ds ds')
    {k : ElementId} :
    (∃ n ∈ ds, n.kind = .package ∧ n.id = k) → ∃ n ∈ ds', n.kind = .package ∧ n.id = k := by
  rintro ⟨n, hn, hkind, rfl⟩
  obtain ⟨n', hn', hbare⟩ := h.exists_mem hn
  exact ⟨n', hn', (Declaration.kind_eq_of_bare_eq hbare).trans hkind,
    Declaration.id_eq_of_bare_eq hbare⟩

/-- The packages around a package do not depend on the order of its elements. -/
theorem Model.chain?_eq_of_agrees {m m' : Model}
    (h : m.packages.Agrees Package.SameUpToOrder m'.packages) (k : ElementId) :
    m'.chain? k = m.chain? k := by
  refine (map_eq_of_rel (h.rel k) fun hsame => ?_).symm
  rw [hsame.2]

/-- The identity of a model: all of it that declarations have no influence on. -/
def Model.identity (m : Model) : Option ElementId × Option String × ModelSource :=
  (m.id, m.name, m.source)

namespace Draft
variable {config : BuildConfig} {d d' : Draft} {n : Declaration}

theorem identity_listIn (d : Draft) (chain : List ElementId) (e : ElementRef) :
    (d.listIn chain e).model.identity = d.model.identity := by
  cases chain <;> rfl

theorem identity_addImports (d : Draft) (n : Declaration) :
    (d.addImports n).model.identity = d.model.identity := by
  apply List.foldlRecOn (motive := fun m : Model => m.identity = d.model.identity)
  · rfl
  · exact fun m hm i _ => hm

theorem Added.identity_eq (h : Added config d n d') : d'.model.identity = d.model.identity := by
  cases h with
  | umlClass _ _ _ | enumeration _ _ _ | datatype _ _ _ => exact identity_listIn _ _ _
  | topPackage _ _ _ => exact identity_addImports _ _
  | nestedPackage _ _ _ _ => exact (identity_addImports _ _).trans (identity_listIn _ _ _)
  | excludedPackage _ _ | viewPackage _ | association _ _ | other _ => rfl

theorem identity_of_foldlM {resource : Option String} {root : Element} {ds : List Declaration}
    (h : ds.foldlM (add config) (start config resource root) = .ok d) :
    d.model.identity = (start config resource root).model.identity :=
  foldlM_induction (P := fun _ s => s.model.identity = (start config resource root).model.identity)
    (fun _ _ _ _ _ _ hs hadd => (added_of_add_eq_ok hadd).identity_eq.trans hs) rfl h

end Draft

namespace Declaration
variable {config : BuildConfig} {ds ds' : List Declaration} {n n' : Declaration}

/-- A package lists the same elements when declarations come in another order. -/
theorem elementsIn_perm (h : SameDeclarations ds ds') (hbare : n'.bare = n.bare) :
    (elementsIn ds n).Perm (elementsIn ds' n') := by
  have himports : n'.importEntries = n.importEntries := eq_of_bare_eq importEntries_bare hbare
  unfold elementsIn
  rw [himports, id_eq_of_bare_eq hbare]
  exact (h.filterMap fun _ => rfl).append_left _

theorem filled_sameUpToOrder (h : SameDeclarations ds ds') (hbare : n'.bare = n.bare) :
    (n.filled config (elementsIn ds)).SameUpToOrder (n'.filled config (elementsIn ds')) := by
  refine ⟨elementsIn_perm h hbare, ?_⟩
  rw [filled, eq_of_bare_eq (toPackage_bare config) hbare]
  rfl

theorem ownedEnds_perm (h : SameDeclarations ds ds') :
    (ownedEnds config ds).Perm (ownedEnds config ds') :=
  (h.inArena .classes).flatMap fun n => by rw [toClass_bare]; rfl

theorem namedImports_perm (h : SameDeclarations ds ds') :
    (namedImports ds).Perm (namedImports ds') := by
  refine (h.filter fun _ => rfl).flatMap fun n => ?_
  rw [bare, (Markup.Alike.withoutPackaged n.element).elementImports_eq]

end Declaration

namespace Draft
variable {config : BuildConfig} {resource : Option String} {root root' : Element} {d d' : Draft}

section SameDeclarations
variable {ds ds' : List Declaration} (hsame : SameDeclarations ds ds')
  (hnested : Declaration.IsNested [] ds) (hnested' : Declaration.IsNested [] ds')
  (hd : ds.foldlM (add config) (start config resource root) = .ok d)
  (hd' : ds'.foldlM (add config) (start config resource root') = .ok d')
include hsame hnested hnested' hd hd'

theorem agrees_packages_of_foldlM :
    d.model.packages.Agrees Package.SameUpToOrder d'.model.packages := by
  have hfiles := (files_of_foldlM hnested hd).packages
  have hfiles' := (files_of_foldlM hnested' hd').packages
  refine IsFiled.agrees hfiles hfiles' (hsame.inArena .packages) ?_
  rintro n n' _ _ hbare rfl rfl
  exact Declaration.filled_sameUpToOrder hsame hbare

/-- The closures of inheritance and containment do not depend on the order of declarations. -/
theorem sameNodes_classHierarchy_of_foldlM :
    d.model.classHierarchy.SameNodes d'.model.classHierarchy := by
  obtain ⟨hsound, _⟩ := isSound_of_isNested hnested hd
  obtain ⟨hsound', _⟩ := isSound_of_isNested hnested' hd'
  refine hsound.classHierarchy.sameNodes (hsound'.classHierarchy.congr fun x y => ?_)
  rw [(files_of_foldlM hnested hd).superEdge_iff, (files_of_foldlM hnested' hd').superEdge_iff]
  exact ⟨fun he => he.of_sameDeclarations hsame, fun he => he.of_sameDeclarations hsame.symm⟩

theorem sameNodes_packageHierarchy_of_foldlM :
    d.model.packageHierarchy.SameNodes d'.model.packageHierarchy := by
  obtain ⟨hsound, _⟩ := isSound_of_isNested hnested hd
  obtain ⟨hsound', _⟩ := isSound_of_isNested hnested' hd'
  have hpackages := agrees_packages_of_foldlM hsame hnested hnested' hd hd'
  have hcontains : ∀ k, d.model.packageHierarchy.contains k = true ↔
      d'.model.packageHierarchy.contains k = true := by
    intro k
    rw [registersEntered_of_foldlM hnested hd, registersEntered_of_foldlM hnested' hd']
    exact ⟨hsame.exists_entered, hsame.symm.exists_entered⟩
  have hsingle : (fun k => d'.model.packageHierarchy.contains k = true) =
      fun k => d.model.packageHierarchy.contains k = true :=
    funext fun k => propext (hcontains k).symm
  have hclosure := hsound'.packageHierarchy
  rw [hsingle] at hclosure
  refine hsound.packageHierarchy.sameNodes (hclosure.congr fun x y => ?_)
  rw [Model.PackageEdge, Model.PackageEdge, hcontains, Model.chain?_eq_of_agrees hpackages]

/-- Classes have the same properties once associations that select different ends are resolved. -/
theorem agrees_classes_applyAssociations (hdistinct : HasDistinctEnds config ds) :
    d.applyAssociations.model.classes.Agrees Eq d'.applyAssociations.model.classes := by
  have hfiles := files_of_foldlM hnested hd
  have hfiles' := files_of_foldlM hnested' hd'
  have hclasses := hfiles.classes.agrees_eq hfiles'.classes (hsame.inArena .classes)
    (Declaration.toClass_bare config)
  have hassociations := hfiles.associations.agrees_eq hfiles'.associations
    (hsame.inArena .associations) (Declaration.toAssociation_bare config)
  have howners : ∀ id, d'.owners.get? id = d.owners.get? id := by
    rw [owners_of_foldlM hd, owners_of_foldlM hd']
    exact OrderedMap.get?_ofList_perm (Declaration.ownedEnds_perm hsame) hdistinct.nodup_ownedEnds
  have hends : (d.model.associations.values.filterMap Association.source).Nodup := by
    rw [hfiles.associations.values_eq, List.filterMap_map]
    exact hdistinct.ends
  exact hfiles.agrees_applyAssociations howners hclasses hassociations hends

omit hnested hnested' in
theorem agrees_imports_of_foldlM (hdistinct : HasDistinctEnds config ds) :
    d.model.imports.Agrees Eq d'.model.imports := by
  rw [OrderedMap.agrees_eq_iff, imports_of_foldlM hd, imports_of_foldlM hd']
  exact OrderedMap.get?_ofList_perm (Declaration.namedImports_perm hsame)
    hdistinct.nodup_namedImports

end SameDeclarations

/-- Drafts of rearranged models have the same identity. -/
theorem identity_start_of_rearranged (config : BuildConfig) (resource : Option String)
    (hroot : Rearranged root root') :
    (start config resource root').model.identity = (start config resource root).model.identity := by
  rw [start_eq_of_alike resource (.of_rearranged hroot)]

/-- Drafts of rearranged models have the same contents once their associations are resolved. -/
theorem sameDeclared_applyAssociations (hroot : Rearranged root root')
    (hdistinct : HasDistinctEnds config (visited config root))
    (hd : (visited config root).foldlM (add config) (start config resource root) = .ok d)
    (hd' : (visited config root').foldlM (add config) (start config resource root') = .ok d') :
    d.applyAssociations.model.SameDeclared d'.applyAssociations.model := by
  have hsame := sameDeclarations_visited config hroot
  have hnested := isNested_visited config root
  have hnested' := isNested_visited config root'
  have hfiles := files_of_foldlM hnested hd
  have hfiles' := files_of_foldlM hnested' hd'
  have hidentity : d.model.identity = d'.model.identity := by
    rw [identity_of_foldlM hd, identity_of_foldlM hd', identity_start_of_rearranged _ _ hroot]
  have hclasses := agrees_classes_applyAssociations hsame hnested hnested' hd hd' hdistinct
  rw [applyAssociations_frame d, applyAssociations_frame d']
  exact {
    id := congrArg Prod.fst hidentity
    name := congrArg (fun i => i.2.1) hidentity
    source := congrArg (fun i => i.2.2) hidentity
    packages := agrees_packages_of_foldlM hsame hnested hnested' hd hd'
    classes := hclasses
    enums := hfiles.enums.agrees_eq hfiles'.enums (hsame.inArena .enumerations)
      (Declaration.toEnumeration_bare config)
    datatypes := hfiles.datatypes.agrees_eq hfiles'.datatypes (hsame.inArena .datatypes)
      (Declaration.toDatatype_bare config)
    imports := agrees_imports_of_foldlM hsame hd hd' hdistinct
    associations := hfiles.associations.agrees_eq hfiles'.associations
      (hsame.inArena .associations) (Declaration.toAssociation_bare config)
    classHierarchy := sameNodes_classHierarchy_of_foldlM hsame hnested hnested' hd hd'
    packageHierarchy := sameNodes_packageHierarchy_of_foldlM hsame hnested hnested' hd hd'
    views := by
      show d.model.views.Perm d'.model.views
      rw [hfiles.views, hfiles'.views]
      exact flatMap_views_perm hroot }

end Draft

/-- The packaged elements of a document may come in any order: its model, its packages and its
packages of views may be rearranged without any influence on whether it is accepted. If its
attributes and imports have names of their own and no two associations select one end, then both
models agree up to order: they have the same identifiers, the same records under them, the same
hierarchies and the same index. -/
theorem build_rearranged {config : BuildConfig} {resource : Option String}
    {document document' : Element} (hdocument : RearrangedDocument document document')
    (hdistinct : ∀ root, IsModelRoot document root → HasDistinctEnds config (visited config root)) :
    ((∃ result, build config resource document = .ok result) ↔
      ∃ result', build config resource document' = .ok result') ∧
    ∀ result result', build config resource document = .ok result →
      build config resource document' = .ok result' →
      result.model.SameUpToOrder result'.model := by
  constructor
  · rcases hdocument.sameModelRoots with ⟨root, root', hroot, hroot', hinside⟩ | ⟨hnone, hnone'⟩
    · have hsame := sameDeclarations_visited config hinside
      constructor
      · rintro ⟨result, h⟩
        exact exists_build_eq_ok hroot' ((isValid_of_build hroot h).of_sameDeclarations hsame)
      · rintro ⟨result', h'⟩
        exact exists_build_eq_ok hroot ((isValid_of_build hroot' h').of_sameDeclarations hsame.symm)
    · constructor
      · rintro ⟨result, h⟩
        obtain ⟨root, hroot, _⟩ := exists_isValid_of_build h
        exact absurd hroot (hnone root)
      · rintro ⟨result', h'⟩
        obtain ⟨root', hroot', _⟩ := exists_isValid_of_build h'
        exact absurd hroot' (hnone' root')
  · intro result result' h h'
    obtain ⟨root, d, hroot, rfl, hd⟩ := exists_draft_of_build h
    obtain ⟨root', d', hroot', rfl, hd'⟩ := exists_draft_of_build h'
    have hmodel := modelRoot_eq_ok_iff.mp hroot
    have hmodel' := modelRoot_eq_ok_iff.mp hroot'
    rcases hdocument.sameModelRoots with ⟨r, r', hr, hr', hinside⟩ | ⟨hnone, _⟩
    · obtain rfl := hmodel.eq hr
      obtain rfl := hmodel'.eq hr'
      exact (Draft.sameDeclared_applyAssociations hinside (hdistinct root hmodel) hd hd').withReferees
    · exact absurd hmodel (hnone root)

/-- An association whose end is an attribute of A, and A itself, which is below B. -/
def crowd : List Element := [
  packaged "uml:Association" "r" [⟨"memberEnd", .ofList [("xmi:idref", "e")], none, []⟩],
  packaged "uml:Class" "A" [
    ⟨"generalization", .ofList [("general", "B")], none, []⟩,
    ⟨"ownedAttribute", .ofList [("xmi:id", "e"), ("type", "B"), ("association", "r")], none, []⟩],
  packaged "uml:Class" "B" []]

/-- A model in which everything is named before it is declared. -/
def forwardDocument : Element :=
  packaged "uml:Model" "m" [packaged "uml:Package" "p" crowd, packaged "uml:Package" "q" []]

/-- The same model in which everything is declared before it is named. -/
def backwardDocument : Element :=
  packaged "uml:Model" "m" [packaged "uml:Package" "q" [], packaged "uml:Package" "p" crowd.reverse]

theorem rearranged_backwardDocument : Rearranged forwardDocument backwardDocument := by
  have hinside : Rearranged (packaged "uml:Package" "p" crowd)
      (packaged "uml:Package" "p" crowd.reverse) :=
    .intro rfl (List.forall₂_same.mpr fun c _ => .refl c) (List.reverse_perm crowd).symm
  exact .intro rfl (.cons hinside (.cons (.refl _) .nil)) (.swap _ _ _)

theorem build_rearranged_backwardDocument :
    ∃ result result', build .standard none forwardDocument = .ok result ∧
      build .standard none backwardDocument = .ok result' ∧
      RearrangedDocument forwardDocument backwardDocument ∧
      HasDistinctEnds .standard (visited .standard forwardDocument) ∧
      result.model.SameUpToOrder result'.model ∧
      result.model.classes.keys = [⟨"A"⟩, ⟨"B"⟩] ∧ result'.model.classes.keys = [⟨"B"⟩, ⟨"A"⟩] ∧
      (result.model.property? ⟨⟨"A"⟩, 0⟩).map Property.association = some (some ⟨"r"⟩) := by
  obtain ⟨result, h, hrun⟩ :=
    exists_of_any_eq_true (x := build .standard none forwardDocument) (p := fun r => decide (
      r.model.classes.keys = [⟨"A"⟩, ⟨"B"⟩] ∧
      (r.model.property? ⟨⟨"A"⟩, 0⟩).map Property.association = some (some ⟨"r"⟩)))
      (by decide +kernel)
  obtain ⟨result', h', hrun'⟩ :=
    exists_of_any_eq_true (x := build .standard none backwardDocument) (p := fun r => decide (
      r.model.classes.keys = [⟨"B"⟩, ⟨"A"⟩])) (by decide +kernel)
  obtain ⟨hkeys, hproperty⟩ := of_decide_eq_true hrun
  have hmodel : IsModelRoot forwardDocument forwardDocument := by
    rw [IsModelRoot, if_neg (by decide)]
    exact ⟨Or.inr (by decide), rfl⟩
  have hdistinct : HasDistinctEnds .standard (visited .standard forwardDocument) :=
    ⟨by decide +kernel, by decide +kernel, by decide +kernel⟩
  have hdocument := RearrangedDocument.model rearranged_backwardDocument
  have hsame : result.model.SameUpToOrder result'.model :=
    (build_rearranged hdocument fun root hroot => hroot.eq hmodel ▸ hdistinct).2 result result' h h'
  exact ⟨result, result', h, h', hdocument, hdistinct, hsame, hkeys, of_decide_eq_true hrun',
    hproperty⟩

end UmlCatalog
