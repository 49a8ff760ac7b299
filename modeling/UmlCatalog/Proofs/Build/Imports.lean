import UmlCatalog.Proofs.Build.Ends

/-!
# What imports show

A package that is entered lists its imports first, one entry for each. The model keeps one import
for each identifier, the last one of the document, whichever package has it. So an import still shows
its target exactly if the last import of its name shows the same one.
-/

namespace UmlCatalog
open Markup (Element)

/-- Following an import by its identifier gives the element that it shows. -/
def Model.KeepsTarget (m : Model) (i : ElementImport) : Prop :=
  (m.imports.get? i.id).map ElementImport.idref = some i.idref

namespace Declaration
variable {config : BuildConfig} {ds : List Declaration} {n : Declaration}

/-- The complete imports of the packages that are entered, in document order. -/
def importsIn (ds : List Declaration) : List ElementImport :=
  (ds.filter fun n => n.kind = .package).flatMap fun n => n.element.elementImports

/-- The last import under an identifier. -/
def lastImport? (ds : List Declaration) (id : ElementId) : Option ElementImport :=
  (importsIn ds).findRev? fun i => i.id = id

theorem lookup_namedImports (ds : List Declaration) (id : ElementId) :
    (namedImports ds).reverse.lookup id = lastImport? ds id := by
  have hreverse : (namedImports ds).reverse =
      (importsIn ds).reverse.flatMap fun i => [i.id].map (·, i) := by
    simp only [namedImports, importsIn, List.map_singleton, ← List.map_eq_flatMap,
      ← List.map_flatMap, List.map_reverse]
  rw [hreverse, lookup_flatMap_map, lastImport?, List.findRev?_eq_find?_reverse, Option.map_id']
  simp only [List.mem_singleton, eq_comm]

/-- The imports that a package lists are its own, each as often as it has it. -/
theorem filter_elementsIn_imports (ds : List Declaration) (h : n.kind = .package) :
    (elementsIn ds n).filter (fun e => e.kind = .elementImport) =
      n.element.elementImports.map fun i => ⟨.elementImport, i.id⟩ := by
  unfold elementsIn
  rw [List.filter_append, List.filter_eq_self.mpr, List.filter_eq_nil_iff.mpr, List.append_nil,
    importEntries, if_pos h]
  · intro e he hkind
    obtain ⟨x, _, hx⟩ := List.mem_filterMap.mp he
    exact kind_ne_of_listing? (listing?_of_listingIn? hx).2 (of_decide_eq_true hkind)
  · exact fun e he => decide_eq_true (kind_eq_of_mem_importEntries he)

end Declaration

namespace Draft
variable {config : BuildConfig} {resource : Option String} {root : Element} {d : Draft}
  {ds : List Declaration} {n : Declaration}

/-- A finished draft has the last import under every identifier. -/
theorem get?_imports_finish (h : ds.foldlM (add config) (start config resource root) = .ok d)
    (id : ElementId) : d.finish.model.imports.get? id = Declaration.lastImport? ds id := by
  obtain ⟨properties, classes, enums, datatypes, hframe⟩ := d.finish_frame
  rw [hframe]
  dsimp only
  rw [imports_of_foldlM h, OrderedMap.get?_ofList, Declaration.lookup_namedImports]

/-- A package that was entered lists its imports. -/
theorem Files.lists_imports (hd : d.Files config ds) (hn : n ∈ ds) (hkind : n.kind = .package) :
    ∃ p, d.finish.model.packages.get? n.id = some p ∧
      p.elements.filter (fun e => e.kind = .elementImport) =
        n.element.elementImports.map fun i => ⟨.elementImport, i.id⟩ := by
  have hmem : n ∈ Declaration.inArena ds .packages :=
    Declaration.mem_inArena.mpr ⟨hn, by rw [hkind]; rfl⟩
  obtain ⟨p, hp, rfl⟩ := hd.packages.exists_get? n hmem
  obtain ⟨properties, classes, enums, datatypes, hframe⟩ := d.finish_frame
  refine ⟨_, by rw [hframe]; exact hp, ?_⟩
  exact Declaration.filter_elementsIn_imports ds hkind

end Draft

/-- What becomes of the imports of a package that is entered. The package lists them all, in their
order. Following one of them in the model leads to the last import of its name, so it keeps its
target exactly if that one shows the same element. -/
theorem build_keepsTarget_iff {config : BuildConfig} {resource : Option String}
    {document : Element} {result : BuildResult}
    (h : build config resource document = .ok result) :
    ∃ root, modelRoot document = .ok root ∧
      ∀ n ∈ visited config root, n.kind = .package →
        (∃ p, result.model.packages.get? n.id = some p ∧
          p.elements.filter (fun e => e.kind = .elementImport) =
            n.element.elementImports.map fun i => ⟨.elementImport, i.id⟩) ∧
        ∀ i ∈ n.element.elementImports, ∃ j,
          Declaration.lastImport? (visited config root) i.id = some j ∧
          result.model.imports.get? i.id = some j ∧
          (result.model.KeepsTarget i ↔ j.idref = i.idref) := by
  obtain ⟨root, d, hroot, rfl, hd⟩ := exists_draft_of_build h
  have hfiles := Draft.files_of_foldlM (isNested_visited config root) hd
  refine ⟨root, hroot, fun n hn hkind => ⟨hfiles.lists_imports hn hkind, fun i hi => ?_⟩⟩
  have hmem : i ∈ Declaration.importsIn (visited config root) :=
    List.mem_flatMap.mpr ⟨n, List.mem_filter.mpr ⟨hn, decide_eq_true hkind⟩, hi⟩
  obtain ⟨j, hj⟩ : ∃ j, Declaration.lastImport? (visited config root) i.id = some j := by
    rw [Declaration.lastImport?, List.findRev?_eq_find?_reverse]
    exact Option.isSome_iff_exists.mp
      (List.find?_isSome.mpr ⟨i, List.mem_reverse.mpr hmem, decide_eq_true rfl⟩)
  have hget := (Draft.get?_imports_finish hd i.id).trans hj
  refine ⟨j, hj, hget, ?_⟩
  rw [Model.KeepsTarget, hget, Option.map_some, Option.some.injEq]

/-- Two packages, each with an import of its own class, and both imports have one identifier. -/
def sharedImportDocument : Element :=
  packaged "uml:Model" "m" [
    packaged "uml:Package" "P" [packaged "uml:Class" "A" [],
      ⟨"elementImport", .ofList [("xmi:id", "i"), ("importedElement", "A")], none, []⟩],
    packaged "uml:Package" "Q" [packaged "uml:Class" "B" [],
      ⟨"elementImport", .ofList [("xmi:id", "i"), ("importedElement", "B")], none, []⟩]]

theorem build_keepsTarget_iff_sharedImportDocument :
    ∃ result, build .standard none sharedImportDocument = .ok result ∧
      (∃ p, result.model.packages.get? ⟨"P"⟩ = some p ∧
        p.elements.filter (fun e => e.kind = .elementImport) = [⟨.elementImport, ⟨"i"⟩⟩]) ∧
      result.model.imports.get? ⟨"i"⟩ = some ⟨⟨"i"⟩, ⟨"B"⟩⟩ ∧
      ¬ result.model.KeepsTarget ⟨⟨"i"⟩, ⟨"A"⟩⟩ ∧ result.model.KeepsTarget ⟨⟨"i"⟩, ⟨"B"⟩⟩ := by
  obtain ⟨result, h, _⟩ := exists_of_any_eq_true (x := build .standard none sharedImportDocument)
    (p := fun _ => true) (by decide +kernel)
  obtain ⟨root, hroot, himports⟩ := build_keepsTarget_iff h
  obtain rfl : sharedImportDocument = root :=
    Except.ok.inj ((modelRoot_packaged _ _).symm.trans hroot)
  have hfirst : ∃ n ∈ visited .standard sharedImportDocument, n.kind = .package ∧ n.id = ⟨"P"⟩ ∧
      n.element.elementImports = [⟨⟨"i"⟩, ⟨"A"⟩⟩] := by
    decide +kernel
  have hsecond : ∃ n ∈ visited .standard sharedImportDocument, n.kind = .package ∧
      n.element.elementImports = [⟨⟨"i"⟩, ⟨"B"⟩⟩] := by
    decide +kernel
  have hlast : Declaration.lastImport? (visited .standard sharedImportDocument) ⟨"i"⟩ =
      some ⟨⟨"i"⟩, ⟨"B"⟩⟩ := by
    decide +kernel
  obtain ⟨n, hn, hkind, hid, hshown⟩ := hfirst
  obtain ⟨hlists, hkeeps⟩ := himports n hn hkind
  rw [hshown] at hlists hkeeps
  obtain ⟨j, hj, hget, hA⟩ := hkeeps _ List.mem_cons_self
  obtain rfl := Option.some.inj (hlast.symm.trans hj)
  obtain ⟨n', hn', hkind', hshown'⟩ := hsecond
  obtain ⟨_, hkeeps'⟩ := himports n' hn' hkind'
  rw [hshown'] at hkeeps'
  obtain ⟨j', hj', _, hB⟩ := hkeeps' _ List.mem_cons_self
  obtain rfl := Option.some.inj (hlast.symm.trans hj')
  exact ⟨result, h, hid ▸ hlists, hget, fun hkept => absurd (hA.mp hkept) (by decide), hB.mpr rfl⟩

/-- An import may show another element than the one it was declared with. -/
theorem exists_not_keepsTarget_sharedImportDocument :
    ∃ result root n i, build .standard none sharedImportDocument = .ok result ∧
      modelRoot sharedImportDocument = .ok root ∧ n ∈ visited .standard root ∧
      n.kind = .package ∧ i ∈ n.element.elementImports ∧ ¬ result.model.KeepsTarget i := by
  obtain ⟨result, h, hrun⟩ := exists_of_any_eq_true
    (x := build .standard none sharedImportDocument)
    (p := fun r => decide ((r.model.imports.get? ⟨"i"⟩).map ElementImport.idref = some ⟨"B"⟩))
    (by decide +kernel)
  have htarget := of_decide_eq_true hrun
  have hshown : ∃ n ∈ visited .standard sharedImportDocument, n.kind = .package ∧
      ⟨⟨"i"⟩, ⟨"A"⟩⟩ ∈ n.element.elementImports := by
    decide +kernel
  obtain ⟨n, hn, hkind, hi⟩ := hshown
  refine ⟨result, sharedImportDocument, n, ⟨⟨"i"⟩, ⟨"A"⟩⟩, h, modelRoot_packaged _ _, hn, hkind, hi,
    fun hkept => ?_⟩
  exact absurd (htarget.symm.trans hkept) (by decide)

end UmlCatalog
