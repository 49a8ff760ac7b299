import UmlCatalog.Proofs.Build.Filing
import UmlCatalog.Proofs.ObjectGraph.Reachability
import UmlCatalog.Proofs.View.Walk

/-!
# Models with exact object graphs

Packages list datatypes that the model has, in built models because a package lists what was taken
in, and in extracted ones because a datatype is copied together with its entry. So the object
graphs of both are made of what the top-level packages reach.
-/

namespace UmlCatalog

/-- A built model has every datatype that its packages list. -/
theorem Model.FilesAll.listsKnownDatatypes {m : Model} {config : BuildConfig}
    {ds : List Declaration} (hm : m.FilesAll config ds) : m.ListsKnownDatatypes := by
  intro p hp e he hkind
  obtain ⟨k, hk⟩ := OrderedMap.exists_get?_of_mem_values hp
  have hlisted : e ∈ ds.filterMap (Declaration.listingIn? k) := by
    rw [← (hm.elements k p hk).1]
    exact List.mem_filter.mpr ⟨he, decide_eq_true (by rw [hkind]; nofun)⟩
  obtain ⟨n, hn, hentry⟩ := List.mem_filterMap.mp hlisted
  obtain ⟨kind, hn', rfl⟩ := Option.map_eq_some_iff.mp (Declaration.listing?_of_listingIn? hentry).2
  obtain rfl : kind = .datatype := hkind
  have hdatatype : n.kind = .datatype := DeclarationKind.element?_inj hn' rfl
  refine hm.datatypes.id_mem_keys (Declaration.mem_inArena.mpr ⟨hn, ?_⟩)
  rw [hdatatype]
  rfl

namespace View
namespace Surroundings
variable {source : Model} {s t : Surroundings} {known : List ElementId}

/-- The given datatypes are there, and so is every datatype that a package lists. -/
structure ListsKnown (known : List ElementId) (s : Surroundings) : Prop where
  known : ∀ id ∈ known, id ∈ s.datatypes.keys
  listed : ∀ k p, s.packages.get? k = some p → ∀ e ∈ p.elements, e.kind = .datatype →
    e.id ∈ s.datatypes.keys

theorem listsKnown_empty : ListsKnown [] .empty :=
  ⟨nofun, nofun⟩

theorem ListsKnown.listElement (hs : s.ListsKnown known) (package : ElementId) {e : ElementRef}
    (he : e.kind = .datatype → e.id ∈ known) : (s.listElement package e).ListsKnown known := by
  refine ⟨hs.known, fun k p hp x hx hkind => ?_⟩
  unfold Surroundings.listElement at hp
  dsimp only at hp
  rw [OrderedMap.get?_modify] at hp
  split at hp
  · obtain ⟨q, hq, rfl⟩ := Option.map_eq_some_iff.mp hp
    rcases List.mem_append.mp hx with hx | hx
    · exact hs.listed k q hq x hx hkind
    · obtain rfl := List.mem_singleton.mp hx
      exact hs.known _ (he hkind)
  · exact hs.listed k p hp x hx hkind

theorem ListsKnown.listIn (hs : s.ListsKnown known) (chain : List ElementId) {e : ElementRef}
    (he : e.kind = .datatype → e.id ∈ known) : (s.listIn chain e).ListsKnown known := by
  cases chain with
  | nil => exact hs
  | cons package outer => exact hs.listElement package he

/-- Packages are copied without their elements. -/
theorem ListsKnown.copyPackages (chain : List ElementId) :
    ∀ {s : Surroundings}, s.ListsKnown known →
      (copyPackages source s chain).1.ListsKnown known := by
  induction chain with
  | nil => exact fun hs => hs
  | cons id outer ih =>
      intro s hs
      cases hold : if s.packages.contains id then none else source.packages.get? id with
      | none =>
          simp only [Surroundings.copyPackages, hold]
          exact ih hs
      | some old =>
          simp only [Surroundings.copyPackages, hold]
          refine ih ⟨hs.known, fun k p hp e he hkind => ?_⟩
          rcases OrderedMap.of_get?_insert hp with ⟨_, rfl⟩ | ⟨_, hp⟩
          · cases he
          · exact hs.listed k p hp e he hkind

theorem ListsKnown.linkPackages {pairs : List (ElementId × Bool)} :
    ∀ {s : Surroundings}, s.ListsKnown known → linkPackages s pairs = .ok t →
      t.ListsKnown known := by
  induction pairs with
  | nil =>
      intro s hs h
      obtain rfl := Except.ok.inj h
      exact hs
  | cons pair pairs ih =>
      obtain ⟨child, copied⟩ := pair
      intro s hs h
      cases pairs with
      | nil =>
          obtain rfl := Except.ok.inj h
          exact ⟨hs.known, hs.listed⟩
      | cons next rest =>
          obtain ⟨parent, c⟩ := next
          obtain ⟨hierarchy, _, h⟩ := exists_of_bind_eq_ok h
          have hlinked : ListsKnown known { s with packageHierarchy := hierarchy } :=
            ⟨hs.known, hs.listed⟩
          refine ih ?_ h
          split
          · exact hlinked.listElement parent fun hkind => nomatch hkind
          · exact hlinked

theorem ListsKnown.addListed (hs : s.ListsKnown known) {chain : List ElementId} {e : ElementRef}
    (he : e.kind = .datatype → e.id ∈ known) (h : s.addListed source chain e = .ok t) :
    t.ListsKnown known := by
  obtain ⟨u, hu, h⟩ := exists_of_bind_eq_ok h
  obtain rfl := Except.ok.inj h
  exact ((hs.copyPackages chain).linkPackages hu).listIn chain he

/-- A walk lists no datatype that it does not copy. A datatype is there before it is listed. -/
theorem isKept_listsKnown (known : List ElementId) : IsKept source (ListsKnown known) where
  enumeration := by
    intro s t id old _ hs h
    refine ListsKnown.addListed ?_ ?_ h
    · exact ⟨hs.known, hs.listed⟩
    · nofun
  datatype := by
    intro s t id old _ hs h
    have hmore : ListsKnown (old.id :: known) { s with
        datatypes := s.datatypes.insert old.id { old with referees := [] } } := by
      refine ⟨fun x hx => ?_, fun k p hp e he hkind => ?_⟩
      · rcases List.mem_cons.mp hx with rfl | hx
        · exact OrderedMap.mem_keys_insert.mpr (Or.inr rfl)
        · exact OrderedMap.mem_keys_insert.mpr (Or.inl (hs.known x hx))
      · exact OrderedMap.mem_keys_insert.mpr (Or.inl (hs.listed k p hp e he hkind))
    have ht := hmore.addListed (fun _ => List.mem_cons_self) h
    exact ⟨fun x hx => ht.known x (List.mem_cons_of_mem _ hx), ht.listed⟩
  umlClass := by
    intro s t id c _ hs h
    refine hs.addListed ?_ h
    nofun
  classHierarchy _ hs := ⟨hs.known, hs.listed⟩

end Surroundings
end View

/-- An extracted model has every datatype that its packages list. -/
theorem Model.listsKnownDatatypes_of_extractView {source m : Model} {origin : ModelSource}
    {names : List String} {options : ViewOptions}
    (h : source.extractView origin names options = .ok m) : m.ListsKnownDatatypes := by
  obtain ⟨⟨classes, s⟩, hwalk, h⟩ := exists_of_bind_eq_ok h
  obtain rfl := Except.ok.inj h
  have hwalks := View.walks_of_walk_eq_ok _ _ _ _ hwalk
  have hs := (View.Surroundings.isKept_listsKnown []).walks hwalks
    View.Surroundings.listsKnown_empty
  intro p hp e he hkind
  obtain ⟨k, hk⟩ := OrderedMap.exists_get?_of_mem_values hp
  show e.id ∈ (OrderedMap.mapWithKey _ s.datatypes).keys
  rw [OrderedMap.keys_mapWithKey]
  exact hs.listed k p hk e he hkind

namespace ObjectGraph

/-- The object graph of a model has a node for each key that the top-level packages reach and for
no other key. Its edges are the steps between keys, and lead from the top-level packages to every
node. All that is asked for is that the datatypes which packages list have records, as they do in
every built and in every extracted model. -/
theorem ofModel_isReachablePart :
    (∀ m : Model, m.ListsKnownDatatypes → IsReachablePart m (ofModel m)) ∧
    (∀ config resource document result, build config resource document = .ok result →
      result.model.ListsKnownDatatypes) ∧
    ∀ (source m : Model) origin names options, source.extractView origin names options = .ok m →
      m.ListsKnownDatatypes := by
  refine ⟨fun m hm => isReachablePart_of_listsKnownDatatypes hm, ?_,
    fun source m origin names options h => Model.listsKnownDatatypes_of_extractView h⟩
  intro config resource document result h
  obtain ⟨root, d, _, rfl, hd⟩ := exists_draft_of_build h
  have hnested := isNested_visited config root
  exact ((Draft.files_of_foldlM hnested hd).filesAll hnested).listsKnownDatatypes

/-- A package that lists itself, a class A and an unknown import. The classes A and B are above each
other and above them is one that is not there. A class C is listed nowhere. -/
def crossedModel : Model :=
  { (∅ : Model) with
    packages := .ofList [(⟨"p"⟩, ⟨⟨"p"⟩, none, [], [⟨.package, ⟨"p"⟩⟩, ⟨.umlClass, ⟨"A"⟩⟩,
      ⟨.elementImport, ⟨"i"⟩⟩], []⟩)]
    classes := .ofList [
      (⟨"A"⟩, { Class.bare ⟨"A"⟩ none with superClasses := [⟨"B"⟩] }),
      (⟨"B"⟩, { Class.bare ⟨"B"⟩ none with superClasses := [⟨"A"⟩, ⟨"gone"⟩] }),
      (⟨"C"⟩, Class.bare ⟨"C"⟩ none)]
    packageHierarchy := (∅ : Hierarchy).insert ⟨"p"⟩ }

theorem ofModel_crossedModel_isReachablePart :
    crossedModel.ListsKnownDatatypes ∧ IsReachablePart crossedModel (ofModel crossedModel) ∧
      (ofModel crossedModel).classes.keys = [⟨"A"⟩, ⟨"B"⟩] ∧
      (ofModel crossedModel).missing.keys = [⟨"gone"⟩] := by
  have hlists : crossedModel.ListsKnownDatatypes := by decide
  have hkeys : (ofModel crossedModel).classes.keys = [⟨"A"⟩, ⟨"B"⟩] ∧
      (ofModel crossedModel).missing.keys = [⟨"gone"⟩] := by
    decide +kernel
  exact ⟨hlists, ofModel_isReachablePart.1 crossedModel hlists, hkeys⟩

end ObjectGraph
end UmlCatalog
