import UmlCatalog.Proofs.Build.Records
import UmlCatalog.Proofs.Build.Sound
import UmlCatalog.Proofs.Hierarchy.Forest

/-!
# Where packages are registered

A package that is entered is new, and the packages around it were entered before it. So the hierarchy
of packages grows downwards: it registers what was entered and nothing else, in the order of the
declarations.
-/

namespace UmlCatalog

namespace Declaration
variable {ds : List Declaration} {n : Declaration}

/-- The packages that are entered, each with the packages around it. -/
def placed (ds : List Declaration) : List (ElementId × List ElementId) :=
  (ds.filter fun n => n.kind = .package).map fun n => (n.id, n.chain)

theorem mem_placed_iff {p : ElementId × List ElementId} :
    p ∈ placed ds ↔ ∃ n ∈ ds, n.kind = .package ∧ (n.id, n.chain) = p := by
  simp [placed, and_assoc]

theorem placed_append_package (h : n.kind = .package) :
    placed (ds ++ [n]) = placed ds ++ [(n.id, n.chain)] := by
  simp [placed, h]

theorem placed_append_other (h : n.kind ≠ .package) : placed (ds ++ [n]) = placed ds := by
  simp [placed, h]

end Declaration

/-- Registered are exactly the packages that were entered. -/
def Model.RegistersEntered (m : Model) (ds : List Declaration) : Prop :=
  ∀ k, m.packageHierarchy.contains k = true ↔ ∃ n ∈ ds, n.kind = .package ∧ n.id = k

theorem Model.registersEntered_of_isForest {m : Model} {ds : List Declaration}
    (hforest : m.packageHierarchy.IsForest (Declaration.placed ds)) : m.RegistersEntered ds := by
  intro k
  rw [Hierarchy.contains_iff, hforest.keys_parents, Declaration.placed, List.map_map]
  simp [and_assoc]

namespace Draft
variable {config : BuildConfig} {d d' : Draft} {n : Declaration} {before : List Declaration}

/-- A package that is entered is placed below the package around it. -/
theorem Added.isForest (h : Added config d n d')
    (hnested : Declaration.IsNested [] (before ++ [n])) (hd : d.Files config before)
    (hforest : d.model.packageHierarchy.IsForest (Declaration.placed before)) :
    d'.model.packageHierarchy.IsForest (Declaration.placed (before ++ [n])) := by
  have hfresh : n.id ∉ d.model.packages.keys → n.id ∉ d.model.packageHierarchy.parents.keys := by
    intro hnew hid
    rw [hforest.keys_parents] at hid
    obtain ⟨_, hplaced, he⟩ := List.mem_map.mp hid
    obtain ⟨p, hp, hkind, rfl⟩ := Declaration.mem_placed_iff.mp hplaced
    refine hnew (he ▸ hd.packages.id_mem_keys (Declaration.mem_inArena.mpr ⟨hp, ?_⟩))
    rw [hkind]
    rfl
  cases h with
  | umlClass kind _ _ | enumeration kind _ _ | datatype kind _ _ =>
      rw [Declaration.placed_append_other (by rw [kind]; nofun),
        (sameOutline_listIn _ _ _).packageHierarchy]
      exact hforest
  | topPackage kind new chain =>
      rw [Declaration.placed_append_package kind, chain,
        (sameOutline_addImports _ _).packageHierarchy]
      exact hforest.insert (hfresh new)
  | nestedPackage kind new chain edge =>
      rw [Declaration.placed_append_package kind, chain,
        (sameOutline_addImports _ _).packageHierarchy, (sameOutline_listIn _ _ _).packageHierarchy]
      refine hforest.of_add_eq_ok (Declaration.mem_placed_iff.mpr ?_) (hfresh new) edge
      rcases hnested before n [] rfl with hnil | ⟨p, hp, hpackage, hchain⟩
      · cases chain.symm.trans hnil
      · obtain ⟨rfl, rfl⟩ := List.cons.inj (chain.symm.trans hchain)
        exact ⟨p, hp, hpackage, rfl⟩
  | excludedPackage kind _ | viewPackage kind | association kind _ | other kind =>
      rw [Declaration.placed_append_other (by rw [kind]; nofun)]
      exact hforest

/-- The hierarchy of packages lists what was entered, in the order of the declarations. -/
theorem isForest_of_foldlM {resource : Option String} {root : Markup.Element}
    {ds : List Declaration} (hnested : Declaration.IsNested [] ds)
    (h : ds.foldlM (add config) (start config resource root) = .ok d) :
    d.model.packageHierarchy.IsForest (Declaration.placed ds) := by
  have hboth : d.Files config ds ∧ d.model.packageHierarchy.IsForest (Declaration.placed ds) := by
    refine foldlM_induction (P := fun before d => d.Files config before ∧
      d.model.packageHierarchy.IsForest (Declaration.placed before)) ?_
      ⟨files_start config resource root, Hierarchy.isForest_empty⟩ h
    rintro before n after s t hsplit ⟨hfiles, hforest⟩ hadd
    rw [hsplit, List.append_cons] at hnested
    have hadded := added_of_add_eq_ok hadd
    exact ⟨hadded.files hnested.of_append hfiles, hadded.isForest hnested.of_append hfiles hforest⟩
  exact hboth.2

theorem registersEntered_of_foldlM {resource : Option String} {root : Markup.Element}
    {ds : List Declaration} (hnested : Declaration.IsNested [] ds)
    (h : ds.foldlM (add config) (start config resource root) = .ok d) :
    d.model.RegistersEntered ds :=
  Model.registersEntered_of_isForest (isForest_of_foldlM hnested h)

end Draft
end UmlCatalog
