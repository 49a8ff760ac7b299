import UmlCatalog.Proofs.Build.Filing
import UmlCatalog.Proofs.Build.Placement
import UmlCatalog.Proofs.Model.Contents

/-!
# Built models list their contents

The packages that a built model registers are those that were entered. Whatever lies in one of them
is listed there, because both the list and the record follow from one declaration.
-/

namespace UmlCatalog
open Declaration (inArena listingIn?)

/-- The arena that has the records of a kind of listed element. Imports have none. -/
def ElementKind.arena? : ElementKind → Option Arena
  | umlClass => some .classes
  | enumeration => some .enumerations
  | datatype => some .datatypes
  | package => some .packages
  | elementImport => none

/-- Listed are all declarations with a record of the kind, unless they are left out. -/
theorem DeclarationKind.element?_eq_some_iff {kind : DeclarationKind} {e : ElementKind} :
    kind.element? = some e ↔
      kind ≠ .excludedPackage ∧ ∃ arena, e.arena? = some arena ∧ kind.arena? = some arena := by
  cases kind <;> cases e <;> simp [element?, arena?, ElementKind.arena?]

/-- The packages around a record are those around its declaration. -/
theorem IsFiled.map_get?_eq_some_iff {α : Type} {records : OrderedMap ElementId α}
    {packages : α → List ElementId} {Describes : Declaration → α → Prop} {ns : List Declaration}
    {k : ElementId} {chain : List ElementId} (h : IsFiled records Describes ns)
    (hd : ∀ n r, Describes n r → packages r = n.chain) :
    (records.get? k).map packages = some chain ↔ ∃ n ∈ ns, n.id = k ∧ n.chain = chain := by
  constructor
  · intro hchain
    obtain ⟨r, hr, rfl⟩ := Option.map_eq_some_iff.mp hchain
    obtain ⟨n, hn, hid, hdescribes⟩ := h.exists_of_get? hr
    exact ⟨n, hn, hid, (hd n r hdescribes).symm⟩
  · rintro ⟨n, hn, rfl, rfl⟩
    obtain ⟨r, hr, hdescribes⟩ := h.exists_get? n hn
    rw [hr, Option.map_some, hd n r hdescribes]

namespace Model
variable {m : Model} {config : BuildConfig} {ds : List Declaration} {e : ElementRef}

/-- What is recorded in a built model was declared, with the same packages around it. -/
theorem FilesAll.chainOf?_eq_some_iff (hm : m.FilesAll config ds) {chain : List ElementId} :
    m.chainOf? e = some chain ↔
      ∃ arena, e.kind.arena? = some arena ∧
        ∃ n ∈ inArena ds arena, n.id = e.id ∧ n.chain = chain := by
  have hone (a : Arena) : (∃ n ∈ inArena ds a, n.id = e.id ∧ n.chain = chain) ↔
      ∃ arena, some a = some arena ∧ ∃ n ∈ inArena ds arena, n.id = e.id ∧ n.chain = chain := by
    simp
  obtain ⟨kind, id⟩ := e
  cases kind with
  | package => exact (hm.packages.map_get?_eq_some_iff fun _ _ h => h.2).trans (hone _)
  | umlClass => exact (hm.classes.map_get?_eq_some_iff fun _ _ h => h.2).trans (hone _)
  | enumeration => exact (hm.enums.map_get?_eq_some_iff fun _ _ h => h.2).trans (hone _)
  | datatype => exact (hm.datatypes.map_get?_eq_some_iff fun _ _ h => h.2).trans (hone _)
  | elementImport => exact iff_of_false nofun nofun

/-- A package of the name of one that was entered was entered itself. -/
theorem FilesAll.kind_ne_excludedPackage (hm : m.FilesAll config ds)
    (hreg : m.RegistersEntered ds) {n : Declaration} (hn : n ∈ ds)
    (hid : m.packageHierarchy.contains n.id = true) : n.kind ≠ .excludedPackage := by
  intro hkind
  obtain ⟨n', hn', hkind', hid'⟩ := (hreg n.id).mp hid
  have hnodup : (Declaration.idsIn ds .packages).Nodup :=
    hm.packages.keys_eq_idsIn ▸ OrderedMap.keys_nodup _
  have hinj := List.inj_on_of_nodup_map hnodup
  obtain rfl := hinj (Declaration.mem_inArena.mpr ⟨hn, by rw [hkind]; rfl⟩)
    (Declaration.mem_inArena.mpr ⟨hn', by rw [hkind']; rfl⟩) hid'.symm
  cases hkind.symm.trans hkind'

/-- A declaration is listed in a package exactly if its record lies there. -/
theorem FilesAll.exists_listingIn?_iff (hm : m.FilesAll config ds) (hreg : m.RegistersEntered ds)
    (k : ElementId) : (∃ n ∈ ds, listingIn? k n = some e) ↔ m.Holds k e := by
  constructor
  · rintro ⟨n, hn, hentry⟩
    obtain ⟨hhead, hlisting⟩ := Declaration.listing?_of_listingIn? hentry
    obtain ⟨kind, hkind, rfl⟩ := Option.map_eq_some_iff.mp hlisting
    obtain ⟨_, arena, harena, harena'⟩ := DeclarationKind.element?_eq_some_iff.mp hkind
    have hchain := hm.chainOf?_eq_some_iff (e := ⟨kind, n.id⟩).mpr
      ⟨arena, harena, n, Declaration.mem_inArena.mpr ⟨hn, harena'⟩, rfl, rfl⟩
    refine ⟨?_, fun hpackage => (hreg _).mpr ⟨n, hn, ?_, rfl⟩⟩
    · rw [nearest?, hchain]
      exact hhead
    · obtain rfl : kind = .package := hpackage
      exact DeclarationKind.element?_inj hkind rfl
  · rintro ⟨hnearest, hregistered⟩
    obtain ⟨outer, houter⟩ := exists_of_nearest? hnearest
    obtain ⟨arena, harena, n, hfiled, hid, hchain⟩ := hm.chainOf?_eq_some_iff.mp houter
    obtain ⟨hn, harena'⟩ := Declaration.mem_inArena.mp hfiled
    have hentered : n.kind ≠ .excludedPackage := by
      intro hkind
      rw [hkind] at harena'
      obtain rfl := Option.some.inj harena'
      have hpackage : e.kind = .package := by
        cases he : e.kind <;> rw [he] at harena <;> first | rfl | cases harena
      exact hm.kind_ne_excludedPackage hreg hn (hid ▸ hregistered hpackage) hkind
    refine ⟨n, hn, ?_⟩
    have helement := DeclarationKind.element?_eq_some_iff.mpr ⟨hentered, arena, harena, harena'⟩
    rw [listingIn?, if_pos (by rw [hchain]; rfl), Declaration.listing?, helement, hid]
    rfl

theorem FilesAll.listsContents (hm : m.FilesAll config ds) (hreg : m.RegistersEntered ds) :
    m.ListsContents := by
  intro k p e hp hkind
  calc e ∈ p.elements
    _ ↔ e ∈ p.elements.filter fun e => e.kind ≠ .elementImport := by
        rw [List.mem_filter]
        exact (and_iff_left (decide_eq_true hkind)).symm
    _ ↔ ∃ n ∈ ds, listingIn? k n = some e := by
        rw [(hm.elements k p hp).1]
        exact List.mem_filterMap
    _ ↔ m.Holds k e := hm.exists_listingIn?_iff hreg k

theorem FilesAll.keepsIds (hm : m.FilesAll config ds) : m.KeepsIds where
  packages := by
    intro k p hp
    obtain ⟨n, _, hid, hdescribes⟩ := hm.packages.exists_of_get? hp
    exact hdescribes.1.trans hid
  enums := by
    intro k e he
    obtain ⟨n, _, hid, hdescribes⟩ := hm.enums.exists_of_get? he
    exact hdescribes.1.trans hid
  datatypes := by
    intro k d hd
    obtain ⟨n, _, hid, hdescribes⟩ := hm.datatypes.exists_of_get? hd
    exact hdescribes.1.trans hid

/-- Every built model keeps the identifiers of its records. -/
theorem keepsIds_of_build {resource : Option String} {document : Markup.Element}
    {result : BuildResult} (h : build config resource document = .ok result) :
    result.model.KeepsIds := by
  obtain ⟨root, d, _, rfl, hd⟩ := exists_draft_of_build h
  have hnested := isNested_visited config root
  exact ((Draft.files_of_foldlM hnested hd).filesAll hnested).keepsIds

/-- Every built model lists its contents. -/
theorem listsContents_of_build {resource : Option String} {document : Markup.Element}
    {result : BuildResult} (h : build config resource document = .ok result) :
    result.model.ListsContents := by
  obtain ⟨root, d, _, rfl, hd⟩ := exists_draft_of_build h
  have hnested := isNested_visited config root
  have hsame : d.finish.model.packageHierarchy = d.model.packageHierarchy :=
    (Draft.sameOutline_applyAssociations d).packageHierarchy
  refine ((Draft.files_of_foldlM hnested hd).filesAll hnested).listsContents fun k => ?_
  rw [hsame]
  exact Draft.registersEntered_of_foldlM hnested hd k

end Model
end UmlCatalog
