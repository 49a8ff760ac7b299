import Mathlib.Data.List.Nodup
import UmlCatalog.Proofs.Build.Records
import UmlCatalog.Proofs.Build.Visited

/-!
# Every element is filed once

A built model has one record for each visited element of a kind that models hold, in document
order and with the packages around it, and each package lists what lies directly inside it. What
happens after the last declaration is taken in leaves all this as it is. Elements that are not
visited are not filed, wherever they lie.
-/

namespace UmlCatalog
open Declaration (inArena idsIn listingIn?)

/-- A model files the declarations: nothing is lost, listed twice or put in another place. -/
structure Model.FilesAll (m : Model) (config : BuildConfig) (ds : List Declaration) : Prop where
  classes : IsFiled m.classes (fun n c => c.id = n.id ∧ c.packages = n.chain)
    (inArena ds .classes)
  enums : IsFiled m.enums (fun n e => e.id = n.id ∧ e.packages = n.chain)
    (inArena ds .enumerations)
  datatypes : IsFiled m.datatypes (fun n t => t.id = n.id ∧ t.packages = n.chain)
    (inArena ds .datatypes)
  associations : IsFiled m.associations (fun n a => a.id = n.id) (inArena ds .associations)
  packages : IsFiled m.packages (fun n p => p.id = n.id ∧ p.packages = n.chain)
    (inArena ds .packages)
  imports : ∀ k i, m.imports.get? k = some i → i.id = k
  /-- Packages of views leave nothing but their views. -/
  views : m.views =
    (ds.filter fun n => n.kind = .viewPackage).flatMap fun n => n.element.views config
  /-- A package lists what lies directly inside it, besides its imports. -/
  elements : ∀ k p, m.packages.get? k = some p →
    p.elements.filter (fun e => e.kind ≠ .elementImport) = ds.filterMap (listingIn? k) ∧
      (ds.filterMap (listingIn? k)).Nodup
  /-- What lies in a package is listed there once, and in no other package. -/
  listed : ∀ n ∈ ds, ∀ e, n.listing? = some e → ∀ package, n.chain.head? = some package →
    ∃ p, m.packages.get? package = some p ∧ p.elements.count e = 1 ∧
      ∀ k q, m.packages.get? k = some q → e ∈ q.elements → k = package

namespace Declaration
variable {ds : List Declaration} {n n' : Declaration} {arena : Arena} {e : ElementRef}

theorem pairwise_of_nodup_idsIn (h : (idsIn ds arena).Nodup) :
    ds.Pairwise fun n n' => n.kind.arena? = some arena → n'.kind.arena? = some arena →
      n.id ≠ n'.id := by
  have hfilter := List.pairwise_filter.mp (List.pairwise_map.mp h)
  exact hfilter.imp fun hne hn hn' => hne (decide_eq_true hn) (decide_eq_true hn')

/-- Declarations with the same entry are of one kind and have one identifier. -/
theorem of_listing?_eq (h : n.listing? = some e) (h' : n'.listing? = some e) :
    n.kind = n'.kind ∧ n.id = n'.id ∧ ∃ arena, n.kind.arena? = some arena := by
  obtain ⟨kind, hkind, rfl⟩ := Option.map_eq_some_iff.mp h
  obtain ⟨kind', hkind', he⟩ := Option.map_eq_some_iff.mp h'
  obtain ⟨rfl, hid⟩ := ElementRef.mk.inj he
  exact ⟨DeclarationKind.element?_inj hkind hkind', hid.symm, DeclarationKind.exists_arena? hkind⟩

theorem eq_of_listing?_eq (hnodup : ∀ arena, (idsIn ds arena).Nodup) (hn : n ∈ ds) (hn' : n' ∈ ds)
    (h : n.listing? = some e) (h' : n'.listing? = some e) : n = n' := by
  obtain ⟨hkind, hid, arena, harena⟩ := of_listing?_eq h h'
  have hinj := List.inj_on_of_nodup_map (hnodup arena)
  exact hinj (mem_inArena.mpr ⟨hn, harena⟩) (mem_inArena.mpr ⟨hn', hkind ▸ harena⟩) hid

theorem listing?_of_listingIn? {package : ElementId} (h : listingIn? package n = some e) :
    n.chain.head? = some package ∧ n.listing? = some e := by
  unfold listingIn? at h
  split at h
  · exact ⟨‹_›, h⟩
  · cases h

theorem kind_ne_of_listing? (h : n.listing? = some e) : e.kind ≠ .elementImport := by
  obtain ⟨kind, hkind, rfl⟩ := Option.map_eq_some_iff.mp h
  cases hn : n.kind <;> rw [hn] at hkind <;> cases hkind <;> nofun

theorem kind_eq_of_mem_importEntries (h : e ∈ n.importEntries) : e.kind = .elementImport := by
  unfold importEntries at h
  split at h
  · obtain ⟨i, _, rfl⟩ := List.mem_map.mp h
    rfl
  · cases h

/-- Nothing has two entries in a package. -/
theorem nodup_filterMap_listingIn? (hnodup : ∀ arena, (idsIn ds arena).Nodup)
    (package : ElementId) : (ds.filterMap (listingIn? package)).Nodup := by
  refine List.pairwise_filterMap.mpr (List.pairwise_iff_forall_sublist.mpr fun {n n'} hsub => ?_)
  rintro e he e' he' rfl
  obtain ⟨hkind, hid, arena, harena⟩ :=
    of_listing?_eq (listing?_of_listingIn? he).2 (listing?_of_listingIn? he').2
  have hpair := List.pairwise_iff_forall_sublist.mp (pairwise_of_nodup_idsIn (hnodup arena)) hsub
  exact hpair harena (hkind ▸ harena) hid

/-- Without the imports, a package lists the entries of what lies in it. -/
theorem filter_elementsIn (ds : List Declaration) (n : Declaration) :
    (elementsIn ds n).filter (fun e => e.kind ≠ .elementImport) =
      ds.filterMap (listingIn? n.id) := by
  unfold elementsIn
  rw [List.filter_append, List.filter_eq_nil_iff.mpr, List.nil_append, List.filter_eq_self.mpr]
  · intro e he
    obtain ⟨x, _, hx⟩ := List.mem_filterMap.mp he
    exact decide_eq_true (kind_ne_of_listing? (listing?_of_listingIn? hx).2)
  · intro e he
    rw [kind_eq_of_mem_importEntries he]
    nofun

end Declaration

namespace Draft
variable {config : BuildConfig} {d : Draft} {ds : List Declaration} {k : ElementId}

/-- No identifier is declared twice in an arena. -/
theorem Files.nodup_idsIn (hd : d.Files config ds) (arena : Arena) : (idsIn ds arena).Nodup := by
  cases arena with
  | classes => exact hd.classes.keys_eq_idsIn ▸ OrderedMap.keys_nodup _
  | enumerations => exact hd.enums.keys_eq_idsIn ▸ OrderedMap.keys_nodup _
  | datatypes => exact hd.datatypes.keys_eq_idsIn ▸ OrderedMap.keys_nodup _
  | packages => exact hd.packages.keys_eq_idsIn ▸ OrderedMap.keys_nodup _
  | associations => exact hd.associations.keys_eq_idsIn ▸ OrderedMap.keys_nodup _

/-- Every package has the elements that the declarations put in it. -/
theorem Files.elements_eq (hd : d.Files config ds) {p : Package}
    (hp : d.model.packages.get? k = some p) :
    ∃ n, n.id = k ∧ p.elements = Declaration.elementsIn ds n := by
  obtain ⟨n, _, hid, rfl⟩ := hd.packages.exists_of_get? hp
  exact ⟨n, hid, rfl⟩

theorem Files.mem_elements_iff (hd : d.Files config ds) {p : Package} {e : ElementRef}
    (hp : d.model.packages.get? k = some p) (he : e.kind ≠ .elementImport) :
    e ∈ p.elements ↔ ∃ n ∈ ds, listingIn? k n = some e := by
  obtain ⟨n, rfl, helements⟩ := hd.elements_eq hp
  rw [helements, Declaration.elementsIn, List.mem_append, List.mem_filterMap]
  exact or_iff_right fun hi => he (Declaration.kind_eq_of_mem_importEntries hi)

/-- What lies in a package is listed there and nowhere else. -/
theorem Files.listed (hd : d.Files config ds) (hnested : Declaration.IsNested [] ds)
    {n : Declaration} (hn : n ∈ ds) {e : ElementRef} (he : n.listing? = some e)
    {package : ElementId} (hhead : n.chain.head? = some package) :
    ∃ p, d.model.packages.get? package = some p ∧ p.elements.count e = 1 ∧
      ∀ k q, d.model.packages.get? k = some q → e ∈ q.elements → k = package := by
  have hkind := Declaration.kind_ne_of_listing? he
  have hentry : listingIn? package n = some e := (if_pos hhead).trans he
  obtain ⟨x, hx, hpackage, rfl⟩ := hnested.exists_package hn hhead
  have harena : x ∈ inArena ds .packages := Declaration.mem_inArena.mpr ⟨hx, by rw [hpackage]; rfl⟩
  obtain ⟨p, hp, rfl⟩ := hd.packages.exists_get? x harena
  refine ⟨_, hp, ?_, fun k q hq heq => ?_⟩
  · show (x.importEntries ++ ds.filterMap (listingIn? x.id)).count e = 1
    have himports : e ∉ x.importEntries := fun hi =>
      hkind (Declaration.kind_eq_of_mem_importEntries hi)
    rw [List.count_append, List.count_eq_zero_of_not_mem himports, Nat.zero_add]
    exact List.count_eq_one_of_mem
      (Declaration.nodup_filterMap_listingIn? hd.nodup_idsIn x.id)
      (List.mem_filterMap.mpr ⟨n, hn, hentry⟩)
  · obtain ⟨n', hn', hentry'⟩ := (hd.mem_elements_iff hq hkind).mp heq
    obtain ⟨hhead', he'⟩ := Declaration.listing?_of_listingIn? hentry'
    obtain rfl := Declaration.eq_of_listing?_eq hd.nodup_idsIn hn hn' he he'
    exact Option.some.inj (hhead'.symm.trans hhead)

/-- The owner of an end is a class that is there. -/
theorem of_ownerOf? {a : Association} {source classId : ElementId} {c : Class}
    (h : d.ownerOf? a = some (source, classId, c)) : a.source = some source ∧
      d.owners.get? source = some classId ∧ d.model.classes.get? classId = some c := by
  obtain ⟨_, hsource, h⟩ := Option.bind_eq_some_iff.mp h
  obtain ⟨_, howner, h⟩ := Option.bind_eq_some_iff.mp h
  obtain ⟨_, hc, he⟩ := Option.map_eq_some_iff.mp h
  cases he
  exact ⟨hsource, howner, hc⟩

/-- Resolving an association changes a property of a class at most. -/
theorem resolve_cases (d : Draft) (a : Association) : d.resolve a = d ∨
    (∃ found, d.resolve a = d.report found) ∨
    ∃ id position f, d.resolve a = { d with model := { d.model with
      classes := d.model.classes.modify id fun c => c.modifyProperty position f } } := by
  unfold resolve
  split
  · exact Or.inr (Or.inl ⟨_, rfl⟩)
  · split
    · exact Or.inl rfl
    · exact Or.inr (Or.inr ⟨_, _, _, rfl⟩)

theorem applyAssociations_frame (d : Draft) : d.applyAssociations.model =
    { d.model with classes := d.applyAssociations.model.classes } := by
  apply List.foldlRecOn (motive := fun d' : Draft =>
    d'.model = { d.model with classes := d'.model.classes })
  · rfl
  · intro d' hd' a _
    rcases d'.resolve_cases a with he | ⟨found, he⟩ | ⟨id, position, f, he⟩
    · rw [he]
      exact hd'
    · rw [he]
      exact hd'
    · rw [he, hd']

theorem isFiled_applyAssociations {ns : List Declaration}
    (h : IsFiled d.model.classes (fun n c => c.id = n.id ∧ c.packages = n.chain) ns) :
    IsFiled d.applyAssociations.model.classes
      (fun n c => c.id = n.id ∧ c.packages = n.chain) ns := by
  apply List.foldlRecOn (motive := fun d' : Draft => IsFiled d'.model.classes
    (fun n c => c.id = n.id ∧ c.packages = n.chain) ns)
  · exact h
  · intro d' hd' a _
    rcases d'.resolve_cases a with he | ⟨found, he⟩ | ⟨id, position, f, he⟩
    · rw [he]
      exact hd'
    · rw [he]
      exact hd'
    · rw [he]
      dsimp only
      refine IsFiled.modify hd' fun n _ c hc => ?_
      split
      · exact hc
      · exact hc

/-- What is indexed at the end are back references. -/
theorem finish_frame (d : Draft) : ∃ properties, ∃ classes enums datatypes : ElementId → List Referee,
    d.finish.model = { d.model with
      classes := d.applyAssociations.model.classes.mapWithKey fun id c =>
        { c with referees := classes id }
      properties := properties
      enums := d.model.enums.mapWithKey fun id e => { e with referees := enums id }
      datatypes := d.model.datatypes.mapWithKey fun id t =>
        { t with referees := datatypes id } } := by
  have hfinish : d.finish.model = d.applyAssociations.model.withPropertyIndex.withReferees := rfl
  rw [hfinish, applyAssociations_frame]
  exact ⟨_, _, _, _, rfl⟩

/-- A finished draft still files its declarations. -/
theorem Files.filesAll (hd : d.Files config ds) (hnested : Declaration.IsNested [] ds) :
    d.finish.model.FilesAll config ds := by
  obtain ⟨properties, classes, enums, datatypes, hframe⟩ := d.finish_frame
  rw [hframe]
  have hclasses : IsFiled d.model.classes (fun n c => c.id = n.id ∧ c.packages = n.chain)
      (inArena ds .classes) := by
    refine hd.classes.imp ?_
    rintro n _ c rfl
    exact ⟨rfl, rfl⟩
  exact {
    classes := by
      dsimp only
      exact (isFiled_applyAssociations hclasses).mapWithKey fun _ _ _ h => h
    enums := by
      dsimp only
      refine IsFiled.mapWithKey hd.enums ?_
      rintro n _ e rfl
      exact ⟨rfl, rfl⟩
    datatypes := by
      dsimp only
      refine IsFiled.mapWithKey hd.datatypes ?_
      rintro n _ t rfl
      exact ⟨rfl, rfl⟩
    associations := by
      refine hd.associations.imp ?_
      rintro n _ a rfl
      rfl
    packages := by
      refine IsFiled.imp hd.packages ?_
      rintro n _ p rfl
      exact ⟨rfl, rfl⟩
    imports := hd.imports
    views := hd.views
    elements := by
      intro k p hp
      obtain ⟨n, rfl, helements⟩ := hd.elements_eq hp
      rw [helements, Declaration.filter_elementsIn]
      exact ⟨rfl, Declaration.nodup_filterMap_listingIn? hd.nodup_idsIn n.id⟩
    listed := fun n hn e he package hhead => hd.listed hnested hn he hhead }

end Draft

/-- A built model is a finished draft that has taken in the visited elements. -/
theorem exists_draft_of_build {config : BuildConfig} {resource : Option String}
    {document : Markup.Element} {result : BuildResult}
    (h : build config resource document = .ok result) :
    ∃ root d, modelRoot document = .ok root ∧ result = d.finish ∧
      (visited config root).foldlM (Draft.add config) (.start config resource root) = .ok d := by
  obtain ⟨root, hroot, h⟩ := exists_of_bind_eq_ok h
  obtain ⟨d, hd, h⟩ := exists_of_bind_eq_ok h
  rw [declarations_eq_visited] at hd
  exact ⟨root, d, hroot, (Except.ok.inj h).symm, hd⟩

theorem isNested_visited (config : BuildConfig) (root : Markup.Element) :
    Declaration.IsNested [] (visited config root) := by
  rw [← declarations_eq_visited]
  exact Declaration.isNested_listIn config [] root.children

/-- A built model files the visited elements of its document. Its arenas have a record for each
one of their kind, in document order, under its own identifier and with the packages around it.
Each package lists, besides its imports, exactly what lies directly inside it, and nothing is
listed twice. -/
theorem build_filesAll {config : BuildConfig} {resource : Option String}
    {document : Markup.Element} {result : BuildResult}
    (h : build config resource document = .ok result) :
    ∃ root, modelRoot document = .ok root ∧
      result.model.FilesAll config (visited config root) := by
  obtain ⟨root, d, hroot, rfl, hd⟩ := exists_draft_of_build h
  have hnested := isNested_visited config root
  exact ⟨root, hroot, (Draft.files_of_foldlM hnested hd).filesAll hnested⟩

/-- A model does not file declarations if its classes are not those that are declared. -/
theorem exists_build_not_filesAll {config : BuildConfig} {id : String}
    {children : List Markup.Element} {ds : Markup.Element → List Declaration} {k : List ElementId}
    (hkept : (build config none (packaged "uml:Model" id children)).toOption.map
      (fun r => r.model.classes.keys) = some k)
    (hne : k ≠ idsIn (ds (packaged "uml:Model" id children)) .classes) :
    ∃ result, build config none (packaged "uml:Model" id children) = .ok result ∧
      ¬ ∃ root, modelRoot (packaged "uml:Model" id children) = .ok root ∧
        result.model.FilesAll config (ds root) := by
  obtain ⟨result, h, hkeys⟩ := exists_of_map_toOption_eq_some hkept
  refine ⟨result, h, ?_⟩
  rintro ⟨root, hroot, hfiles⟩
  obtain rfl := Except.ok.inj ((modelRoot_packaged id children).symm.trans hroot)
  exact hne (hkeys.symm.trans hfiles.classes.keys_eq_idsIn)

/-- A class in a package without an identifier. -/
def hiddenClassDocument : Markup.Element :=
  packaged "uml:Model" "m" [anonymousPackage [packaged "uml:Class" "A" []]]

/-- A class inside a class. -/
def innerClassDocument : Markup.Element :=
  packaged "uml:Model" "m" [packaged "uml:Class" "A" [packaged "uml:Class" "B" []]]

/-- What lies in a package without an identifier is not filed, and neither is what lies in a class,
although no package of views and no package that is left out covers it. -/
theorem exists_build_not_filesAll_uncovered :
    (∃ result, build .standard none hiddenClassDocument = .ok result ∧
      ¬ ∃ root, modelRoot hiddenClassDocument = .ok root ∧
        result.model.FilesAll .standard (uncovered .standard root)) ∧
    ∃ result, build .standard none innerClassDocument = .ok result ∧
      ¬ ∃ root, modelRoot innerClassDocument = .ok root ∧
        result.model.FilesAll .standard (uncovered .standard root) := by
  constructor
  · exact exists_build_not_filesAll (k := []) (by decide +kernel) (by decide +kernel)
  · exact exists_build_not_filesAll (k := [⟨"A"⟩]) (by decide +kernel) (by decide +kernel)

/-- A class, two packages and what they contain: one is entered and the other one is left out. Beside
them are an association, an element without an identifier and a package of views. -/
def filedDocument : Markup.Element :=
  ⟨"uml:Model", .ofList [("xmi:id", "m")], none, [
    packaged "uml:Package" "p" [
      packaged "uml:Class" "A" [],
      packaged "uml:Package" "q" [
        packaged "uml:Enumeration" "E" [],
        packaged "uml:DataType" "D" []],
      packaged "uml:Package" "old" [packaged "uml:Class" "B" []],
      ⟨"packagedElement", .ofList [("xmi:type", "uml:Class")], none, []⟩],
    packaged "uml:Association" "r" [],
    packaged "uml:Package" "views" [packaged "uml:Class" "V" []]]⟩

/-- A configuration that tells packages of views by a v and leaves out those with an o. -/
def filedConfig : BuildConfig :=
  { BuildConfig.standard with
    viewPattern := some (.literal 'v')
    excludePattern := some (.literal 'o') }

theorem build_filedDocument_filesAll :
    ∃ result root, build filedConfig none filedDocument = .ok result ∧
      modelRoot filedDocument = .ok root ∧
      result.model.FilesAll filedConfig (visited filedConfig root) ∧
      result.model.packages.keys = [⟨"p"⟩, ⟨"q"⟩, ⟨"old"⟩] ∧
      result.model.classes.keys = [⟨"A"⟩] := by
  have hkeys : (build filedConfig none filedDocument).toOption.map (fun r =>
      (r.model.packages.keys, r.model.classes.keys)) =
        some ([⟨"p"⟩, ⟨"q"⟩, ⟨"old"⟩], [⟨"A"⟩]) := by
    decide +kernel
  cases h : build filedConfig none filedDocument with
  | error e =>
      rw [h] at hkeys
      cases hkeys
  | ok result =>
      rw [h] at hkeys
      obtain ⟨hpackages, hclasses⟩ := Prod.ext_iff.mp (Option.some.inj hkeys)
      obtain ⟨root, hroot, hfiles⟩ := build_filesAll h
      exact ⟨result, root, rfl, hroot, hfiles, hpackages, hclasses⟩

end UmlCatalog
