import UmlCatalog.Build.Model
import UmlCatalog.Proofs.Build.Insertion
import UmlCatalog.Proofs.Build.Nesting

/-!
# Built models are sound

Every declaration that is taken in keeps the model sound, and the steps that finish a model
change nothing that its outline shows. So the hierarchies of a built model are the closures of
its records, and every chain of packages in it is made of registered packages.
-/

namespace UmlCatalog

namespace Model
variable {m m' : Model} {id : ElementId} {chain : List ElementId}

/-- The model without elements is sound. -/
theorem isSound_start (config : BuildConfig) (resource : Option String) (root : Markup.Element) :
    (Draft.start config resource root).model.IsSound := by
  have hcontains : ∀ k, (∅ : Hierarchy).contains k ≠ true := by
    intro k hk
    cases Hierarchy.contains_iff.mp hk
  exact {
    id_of_get? := fun hk => nomatch hk
    classHierarchy := by
      apply Hierarchy.isClosure_empty.congr
      rintro x y
      exact iff_of_false (fun ⟨_, hc, _⟩ => nomatch hc) fun h => h
    packageHierarchy := by
      have hclosure : (∅ : Hierarchy).IsClosure (fun _ _ => False)
          fun k => (∅ : Hierarchy).contains k = true := by
        apply Hierarchy.isClosure_empty.of_single
        intro x
        simp [hcontains x]
      apply hclosure.congr
      intro x y
      exact iff_of_false (fun h => hcontains y h.1) fun h => h
    isRecorded := fun hk => absurd hk (hcontains _)
    isChain_of_package := fun hk => nomatch hk
    isChain_of_class := fun hk => nomatch hk
    isChain_of_enum := fun hk => nomatch hk
    isChain_of_datatype := fun hk => nomatch hk }

/-- Listing an element in a package changes no chain. -/
theorem sameOutline_listElement (m : Model) (package : ElementId) (element : ElementRef) :
    (m.listElement package element).SameOutline m where
  classes := fun _ => rfl
  enums := fun _ => rfl
  datatypes := fun _ => rfl
  chain? := by
    intro k
    unfold chain? listElement
    rw [OrderedMap.get?_modify]
    split
    · cases m.packages.get? k <;> rfl
    · rfl
  classHierarchy := rfl
  packageHierarchy := rfl

theorem SameOutline.isChain (h : m'.SameOutline m) (hchain : m.IsChain chain) :
    m'.IsChain chain :=
  h.isChain_iff.mpr hchain

end Model

namespace Draft
variable {config : BuildConfig} {d d' : Draft} {n : Declaration}

theorem sameOutline_listIn (d : Draft) (chain : List ElementId) (element : ElementRef) :
    (d.listIn chain element).model.SameOutline d.model := by
  cases chain with
  | nil => exact Model.SameOutline.refl _
  | cons package outer => exact Model.sameOutline_listElement _ _ _

theorem sameOutline_addImports (d : Draft) (n : Declaration) :
    (d.addImports n).model.SameOutline d.model := by
  have hstep : ∀ (m : Model) (i : ElementImport), (addImport n.id m i).SameOutline m := by
    intro m i
    have hlist := Model.sameOutline_listElement
      { m with imports := m.imports.insert i.id i } n.id ⟨.elementImport, i.id⟩
    exact ⟨hlist.classes, hlist.enums, hlist.datatypes, hlist.chain?, hlist.classHierarchy,
      hlist.packageHierarchy⟩
  apply List.foldlRecOn (motive := fun m : Model => m.SameOutline d.model)
  · exact Model.SameOutline.refl _
  · exact fun m hm i _ => (hstep m i).trans hm

/-- A declaration inside registered packages keeps the model sound and every chain a chain. A
package that is entered can be the innermost one of a chain from then on. -/
theorem Added.isSound (h : Added config d n d') (hd : d.model.IsSound)
    (hchain : d.model.IsChain n.chain) :
    d'.model.IsSound ∧ (∀ {l}, d.model.IsChain l → d'.model.IsChain l) ∧
      (n.kind = .package → d'.model.IsChain (n.id :: n.chain)) := by
  have hother : n.kind ≠ .package →
      n.kind = .package → d'.model.IsChain (n.id :: n.chain) := fun hne he => absurd he hne
  cases h with
  | umlClass kind new edges =>
      refine ⟨?_, fun hl => ?_, hother (by rw [kind]; nofun)⟩
      · exact (hd.insertClass new rfl edges hchain).of_sameOutline (sameOutline_listIn _ _ _)
      · apply (sameOutline_listIn _ _ _).isChain
        exact Model.IsChain.mono (m := d.model) (fun hk => hk) (fun hk => hk) hl
  | enumeration kind new plain =>
      refine ⟨?_, fun hl => ?_, hother (by rw [kind]; nofun)⟩
      · exact (hd.insertEnum hchain).of_sameOutline (sameOutline_listIn _ _ _)
      · apply (sameOutline_listIn _ _ _).isChain
        exact Model.IsChain.mono (m := d.model) (fun hk => hk) (fun hk => hk) hl
  | datatype kind new plain =>
      refine ⟨?_, fun hl => ?_, hother (by rw [kind]; nofun)⟩
      · exact (hd.insertDatatype hchain).of_sameOutline (sameOutline_listIn _ _ _)
      · apply (sameOutline_listIn _ _ _).isChain
        exact Model.IsChain.mono (m := d.model) (fun hk => hk) (fun hk => hk) hl
  | topPackage kind new chain =>
      obtain ⟨hsound, hkeep⟩ := hd.insertTopPackage (p := n.toPackage config) new chain
      refine ⟨hsound.of_sameOutline (sameOutline_addImports _ n),
        fun hl => (sameOutline_addImports _ n).isChain (hkeep hl), fun _ => ?_⟩
      apply (sameOutline_addImports _ n).isChain
      rw [chain]
      refine ⟨Hierarchy.contains_insert_iff.mpr (Or.inr rfl), ?_, trivial⟩
      show Option.map Package.packages _ = _
      rw [OrderedMap.get?_insert_self, Option.map_some]
      exact congrArg some chain
  | nestedPackage kind new chain edge =>
      rw [chain] at hchain
      obtain ⟨hsound, hkeep, hid⟩ :=
        hd.insertNestedPackage (p := n.toPackage config) new chain hchain edge
      refine ⟨(hsound.of_sameOutline (sameOutline_listIn _ _ _)).of_sameOutline
          (sameOutline_addImports _ n),
        fun hl => (sameOutline_addImports _ n).isChain
          ((sameOutline_listIn _ _ _).isChain (hkeep hl)), fun _ => ?_⟩
      apply (sameOutline_addImports _ n).isChain
      apply (sameOutline_listIn _ _ _).isChain
      rw [chain]
      refine ⟨hid, ?_, hkeep hchain⟩
      show Option.map Package.packages _ = _
      rw [OrderedMap.get?_insert_self, Option.map_some]
      exact congrArg some chain
  | excludedPackage kind new =>
      obtain ⟨hsound, hkeep⟩ := hd.insertExcludedPackage (p := n.toPackage config) new hchain
      exact ⟨hsound, hkeep, hother (by rw [kind]; nofun)⟩
  | viewPackage kind =>
      have hout : Model.SameOutline
          { d.model with views := d.model.views ++ n.element.views config } d.model :=
        ⟨fun _ => rfl, fun _ => rfl, fun _ => rfl, fun _ => rfl, rfl, rfl⟩
      exact ⟨hd.of_sameOutline hout, hout.isChain, hother (by rw [kind]; nofun)⟩
  | association kind new =>
      have hout : Model.SameOutline
          { d.model with
            associations := d.model.associations.insert n.id (n.toAssociation config) }
          d.model :=
        ⟨fun _ => rfl, fun _ => rfl, fun _ => rfl, fun _ => rfl, rfl, rfl⟩
      exact ⟨hd.of_sameOutline hout, hout.isChain, hother (by rw [kind]; nofun)⟩
  | other kind => exact ⟨hd, fun hl => hl, hother (by rw [kind]; nofun)⟩

/-- A draft is sound once nested declarations are taken in, and the packages that are entered make
up chains. -/
theorem isSound_of_isNested {resource : Option String} {root : Markup.Element}
    {ds : List Declaration} (hnested : Declaration.IsNested [] ds)
    (h : ds.foldlM (add config) (start config resource root) = .ok d) :
    d.model.IsSound ∧ ∀ p ∈ ds, p.kind = .package → d.model.IsChain (p.id :: p.chain) := by
  refine foldlM_induction (P := fun before d => d.model.IsSound ∧ ∀ p ∈ before,
    p.kind = .package → d.model.IsChain (p.id :: p.chain)) ?_ ?_ h
  · rintro before n after s t hsplit ⟨hs, hbefore⟩ hadd
    have hchain : s.model.IsChain n.chain := by
      rcases hnested before n after hsplit with hn | ⟨p, hp, hkind, hn⟩
      · rw [hn]
        trivial
      · rw [hn]
        exact hbefore p hp hkind
    obtain ⟨ht, hkeep, hnew⟩ := (added_of_add_eq_ok hadd).isSound hs hchain
    refine ⟨ht, fun p hp hkind => ?_⟩
    rcases List.mem_append.mp hp with hp | hp
    · exact hkeep (hbefore p hp hkind)
    · obtain rfl := List.mem_singleton.mp hp
      exact hnew hkind
  · exact ⟨Model.isSound_start config resource root, fun p hp => nomatch hp⟩

/-- A draft is sound once its declarations are taken in. -/
theorem isSound_of_foldlM {resource : Option String} {root : Markup.Element}
    (h : (declarations config root).foldlM (add config) (start config resource root) = .ok d) :
    d.model.IsSound :=
  (isSound_of_isNested (Declaration.isNested_listIn config [] root.children) h).1

/-- An association changes properties only. -/
theorem sameOutline_resolve (d : Draft) (a : Association) :
    (d.resolve a).model.SameOutline d.model := by
  unfold resolve
  split
  · exact Model.SameOutline.refl _
  · split
    · exact Model.SameOutline.refl _
    · refine ⟨fun k => ?_, fun _ => rfl, fun _ => rfl, fun _ => rfl, rfl, rfl⟩
      rw [OrderedMap.get?_modify]
      split
      · cases d.model.classes.get? k <;> rfl
      · rfl

theorem sameOutline_applyAssociations (d : Draft) :
    d.applyAssociations.model.SameOutline d.model := by
  apply List.foldlRecOn (motive := fun d' : Draft => d'.model.SameOutline d.model)
  · exact Model.SameOutline.refl _
  · exact fun d' hd' a _ => (sameOutline_resolve d' a).trans hd'

end Draft

namespace Model

theorem sameOutline_withPropertyIndex (m : Model) : m.withPropertyIndex.SameOutline m :=
  ⟨fun _ => rfl, fun _ => rfl, fun _ => rfl, fun _ => rfl, rfl, rfl⟩

/-- Back references are no part of the outline. -/
theorem sameOutline_withReferees (m : Model) : m.withReferees.SameOutline m := by
  constructor
  · intro k
    show ((OrderedMap.mapWithKey _ m.classes).get? k).map _ = _
    rw [OrderedMap.get?_mapWithKey]
    cases m.classes.get? k <;> rfl
  · intro k
    show ((OrderedMap.mapWithKey _ m.enums).get? k).map _ = _
    rw [OrderedMap.get?_mapWithKey]
    cases m.enums.get? k <;> rfl
  · intro k
    show ((OrderedMap.mapWithKey _ m.datatypes).get? k).map _ = _
    rw [OrderedMap.get?_mapWithKey]
    cases m.datatypes.get? k <;> rfl
  · exact fun _ => rfl
  · rfl
  · rfl

/-- Every built model is sound. -/
theorem isSound_of_build {config : BuildConfig} {resource : Option String}
    {document : Markup.Element} {result : BuildResult}
    (h : build config resource document = .ok result) : result.model.IsSound := by
  obtain ⟨root, _, h⟩ := exists_of_bind_eq_ok h
  obtain ⟨d, hd, h⟩ := exists_of_bind_eq_ok h
  obtain rfl := Except.ok.inj h
  apply (Draft.isSound_of_foldlM hd).of_sameOutline
  exact (sameOutline_withReferees _).trans
    ((sameOutline_withPropertyIndex _).trans (Draft.sameOutline_applyAssociations d))

end Model
end UmlCatalog
