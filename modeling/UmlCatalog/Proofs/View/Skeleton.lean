import UmlCatalog.Proofs.Hierarchy.Ascent
import UmlCatalog.Proofs.View.Copies

/-!
# The packages around the elements of a view

A view has the packages around its classes, enumerations and datatypes and no others. They list
what the view has and are arranged as in its source. Above each package, the hierarchy lists the
chain of its packages in order, although a package may be recorded long before those around it.

## Implementation notes

Which packages there are, and what they list, is kept by every element that is taken in. The order
of the ancestors is not: only when all chains are recorded does every package have all its
ancestors. So the order is stated of hierarchies in general, and a walk just has to record nothing
but edges of its source.
-/

namespace UmlCatalog
open Relation

namespace Model
variable {m : Model} {k x : ElementId} {outer : List ElementId}

theorem PackageEdge.unique {y : ElementId} (hx : m.PackageEdge x k) (hy : m.PackageEdge y k) :
    x = y := by
  obtain ⟨_, _, hx⟩ := hx
  obtain ⟨_, _, hy⟩ := hy
  exact (List.cons.inj (Option.some.inj (hx.symm.trans hy))).1

/-- Above a package are those of its chain. -/
theorem IsSound.mem_parentsOf_iff_mem_chain (hm : m.IsSound) (hk : m.IsChain (k :: outer)) :
    x ∈ m.packageHierarchy.parentsOf k ↔ x ∈ outer := by
  induction outer generalizing k with
  | nil =>
      refine iff_of_false (fun hx => ?_) List.not_mem_nil
      obtain ⟨y, _, _, rest, hrest⟩ :=
        TransGen.tail'_iff.mp (hm.packageHierarchy.mem_parentsOf_iff.mp hx)
      cases hk.2.1.symm.trans hrest
  | cons parent rest ih =>
      have hparent : m.PackageEdge parent k := hk.packageEdge
      calc x ∈ m.packageHierarchy.parentsOf k
        _ ↔ TransGen m.PackageEdge x k := hm.packageHierarchy.mem_parentsOf_iff
        _ ↔ ReflTransGen m.PackageEdge x parent := by
            rw [TransGen.tail'_iff]
            refine ⟨?_, fun hx => ⟨parent, hx, hparent⟩⟩
            rintro ⟨y, hx, hy⟩
            exact hy.unique hparent ▸ hx
        _ ↔ x = parent ∨ x ∈ m.packageHierarchy.parentsOf parent := by
            rw [reflTransGen_iff_eq_or_transGen, hm.packageHierarchy.mem_parentsOf_iff, eq_comm]
        _ ↔ x ∈ parent :: rest := by
            rw [ih hk.2.2, List.mem_cons]

/-- Each package of a chain lies above those before it. -/
theorem IsSound.pairwise_chain (hm : m.IsSound) (h : m.IsChain outer) :
    outer.Pairwise fun a b => b ∈ m.packageHierarchy.parentsOf a := by
  induction outer with
  | nil => exact List.Pairwise.nil
  | cons k rest ih =>
      exact List.pairwise_cons.mpr ⟨fun x => (hm.mem_parentsOf_iff_mem_chain h).mpr, ih h.2.2⟩

/-- If ancestors are listed upwards, those of a package are listed as its chain. -/
theorem IsSound.toList_parentsOf_eq (hm : m.IsSound) (hascends : m.packageHierarchy.Ascends)
    (hk : m.packageHierarchy.contains k = true) (houter : m.chain? k = some outer) :
    (m.packageHierarchy.parentsOf k).toList = outer := by
  have hchain : m.IsChain outer := hm.isChain_of_package houter
  refine hascends.toList_eq hm.packageHierarchy (fun x => ?_) (hm.pairwise_chain hchain)
  exact (hm.mem_parentsOf_iff_mem_chain ⟨hk, houter, hchain⟩).symm

/-- Roots are the packages that no other ones are around. -/
theorem IsSound.mem_roots_packageHierarchy_iff (hm : m.IsSound) :
    k ∈ m.packageHierarchy.roots ↔
      m.packageHierarchy.contains k = true ∧ m.chain? k = some [] := by
  rw [hm.packageHierarchy.mem_roots_iff]
  refine and_congr_right fun hk => ?_
  obtain ⟨outer, houter⟩ := hm.isRecorded hk
  cases outer with
  | nil =>
      refine iff_of_true (fun x hx => ?_) houter
      obtain ⟨_, rest, hrest⟩ := hx
      cases houter.symm.trans hrest
  | cons parent rest =>
      refine iff_of_false (fun hnone => hnone parent ⟨hk, rest, houter⟩) fun hnil => ?_
      cases houter.symm.trans hnil

end Model

namespace View

/-! ### A walk records edges of its source -/

namespace Surroundings
variable {source : Model} {s t : Surroundings} {chain : List ElementId}

/-- The packages were registered and joined as in the source. -/
def IsGrown (source : Model) (s : Surroundings) : Prop :=
  s.packageHierarchy.IsGrown source.PackageEdge

theorem IsGrown.linkPackages {pairs : List (ElementId × Bool)} :
    ∀ {s : Surroundings}, s.IsGrown source → source.IsChain (pairs.map Prod.fst) →
      linkPackages s pairs = .ok t → t.IsGrown source := by
  induction pairs with
  | nil =>
      intro s hs _ h
      obtain rfl := Except.ok.inj h
      exact hs
  | cons pair pairs ih =>
      obtain ⟨child, copied⟩ := pair
      intro s hs hchain h
      cases pairs with
      | nil =>
          obtain rfl := Except.ok.inj h
          exact Hierarchy.IsGrown.insert hs child
      | cons next rest =>
          obtain ⟨parent, c⟩ := next
          obtain ⟨hierarchy, hadd, h⟩ := exists_of_bind_eq_ok h
          have hgrown : hierarchy.IsGrown source.PackageEdge :=
            Hierarchy.IsGrown.add hs hchain.packageEdge hadd
          refine ih ?_ hchain.2.2 h
          split
          · exact hgrown
          · exact hgrown

theorem IsGrown.addListed (hs : s.IsGrown source) (hchain : source.IsChain chain)
    {e : ElementRef} (h : s.addListed source chain e = .ok t) : t.IsGrown source := by
  obtain ⟨u, hu, h⟩ := exists_of_bind_eq_ok h
  obtain rfl := Except.ok.inj h
  have hcopied : (copyPackages source s chain).1.IsGrown source := by
    rw [copyPackages_frame]
    exact hs
  have hpairs : source.IsChain ((copyPackages source s chain).2.map Prod.fst) := by
    rw [map_fst_copyPackages]
    exact hchain
  have hu' : u.IsGrown source := hcopied.linkPackages hpairs hu
  cases chain with
  | nil => exact hu'
  | cons package outer => exact hu'

theorem isKept_isGrown (hm : source.IsSound) : IsKept source (IsGrown source) where
  enumeration hold hs h := by
    refine IsGrown.addListed ?_ (hm.isChain_of_enum hold) h
    exact hs
  datatype hold hs h := by
    refine IsGrown.addListed ?_ (hm.isChain_of_datatype hold) h
    exact hs
  umlClass hc hs h := hs.addListed (hm.isChain_of_class hc) h
  classHierarchy _ hs := hs

end Surroundings

section Gathered
variable {source : Model} {copies : OrderedMap ElementId Class} {s : Surroundings}

/-- Nothing but classes and value types is wanted by itself. -/
theorem Wanted.kind_mem {e : ElementRef} (h : Wanted copies e) :
    e.kind ∈ [.umlClass, .enumeration, .datatype] := by
  rcases h with _ | ⟨value, _, _, _⟩
  · exact List.mem_cons_self
  · rcases value with rfl | rfl
    · exact List.mem_cons_of_mem _ List.mem_cons_self
    · exact List.mem_cons_of_mem _ (List.mem_cons_of_mem _ List.mem_cons_self)

end Gathered
end View

namespace Model

/-- The packages of a view are those around its classes, enumerations and datatypes, as its source
has them but for what they list. -/
structure InducesPackages (v m : Model) : Prop where
  mem_packages_iff : ∀ k, k ∈ v.packages.keys ↔ ∃ e chain,
    e.kind ∈ [.umlClass, .enumeration, .datatype] ∧ v.chainOf? e = some chain ∧ k ∈ chain
  packages : ∀ k p, v.packages.get? k = some p → ∃ old, m.packages.get? k = some old ∧
    p = { old with elements := p.elements }
  /-- What lies directly in a package of the view is listed there once, and nothing else is. -/
  elements : ∀ k p, v.packages.get? k = some p →
    p.elements.Nodup ∧ ∀ e, e ∈ p.elements ↔ v.nearest? e = some k
  contains_iff : ∀ k, v.packageHierarchy.contains k = true ↔ k ∈ v.packages.keys
  /-- Above a package is its chain, in the same order. -/
  parentsOf_eq : ∀ k p, v.packages.get? k = some p →
    (v.packageHierarchy.parentsOf k).toList = p.packages
  mem_roots_iff : ∀ k, k ∈ v.packageHierarchy.roots ↔
    ∃ p, v.packages.get? k = some p ∧ p.packages = []

end Model

namespace View
open Surroundings (Present)
variable {source : Model} {copies : OrderedMap ElementId Class} {s : Surroundings}
  {origin : ModelSource} {names : List String}

/-- The packages that are there are those around something that is wanted. -/
theorem Gathered.mem_packages_iff (hg : Gathered source copies s) {k : ElementId} :
    k ∈ s.packages.keys ↔ ∃ e chain, e.kind ∈ [.umlClass, .enumeration, .datatype] ∧
      (assemble source origin names copies s).chainOf? e = some chain ∧ k ∈ chain := by
  simp only [hg.chainOf?_eq_some_iff]
  rw [hg.packages.mem_keys_iff]
  constructor
  · rintro (⟨hwanted, _⟩ | @⟨e, chain, _, hwanted, hchain, hk⟩)
    · exact absurd hwanted.kind_mem (by simp)
    · exact ⟨e, chain, hwanted.kind_mem, ⟨.wanted hwanted hchain, hchain⟩, hk⟩
  · rintro ⟨e, chain, hkind, hpresent, hk⟩
    have hnot : e.kind ≠ .package := by
      rintro hpackage
      rw [hpackage] at hkind
      exact absurd hkind (by decide)
    obtain ⟨hwanted, hchain⟩ := (Surroundings.present_and_iff hnot).mp hpresent
    exact .around hwanted hchain hk

/-- A package of a view is one of its source, but for what it lists. -/
theorem Gathered.exists_package (hg : Gathered source copies s) (hids : source.KeepsIds)
    {k : ElementId} {p : Package} (hp : s.packages.get? k = some p) :
    ∃ old, source.packages.get? k = some old ∧ p = { old with elements := p.elements } := by
  have hcopied := hg.packages.copied k (OrderedMap.mem_keys_of_get? hp)
  rw [hp] at hcopied
  obtain ⟨old, hold, hsame⟩ := Option.map_eq_some_iff.mp hcopied.symm
  refine ⟨old, hold, ?_⟩
  obtain rfl := hids.packages hold
  obtain ⟨id, name, packages, elements, comments⟩ := p
  cases hsame
  rfl

theorem Gathered.inducesPackages (hg : Gathered source copies s) (hm : source.IsSound)
    (hids : source.KeepsIds) (hgrown : s.IsGrown source) :
    (assemble source origin names copies s).withPropertyIndex.withReferees.InducesPackages
      source := by
  have hsame := Model.sameOutline_indexed (assemble source origin names copies s)
  have hsound : (assemble source origin names copies s).withPropertyIndex.withReferees.IsSound :=
    (hg.isSound hm).of_sameOutline hsame
  have hcontains : ∀ k, s.packageHierarchy.contains k = true ↔ k ∈ s.packages.keys := fun k =>
    (hg.contains_iff hm).trans hg.packages.mem_keys_iff.symm
  have hascends : s.packageHierarchy.Ascends := hgrown.ascends Model.PackageEdge.unique
  exact {
    mem_packages_iff := by
      intro k
      simp only [hsame.chainOf?_eq]
      exact hg.mem_packages_iff
    packages := fun _ _ => hg.exists_package hids
    elements := by
      intro k p hp
      refine ⟨(hg.packages.lists k p hp).1, fun e => ?_⟩
      rw [(hg.packages.lists k p hp).2, hsame.nearest?_eq]
      exact hg.nearest?_eq_some_iff.symm
    contains_iff := hcontains
    parentsOf_eq := by
      intro k p hp
      have hk := (hcontains k).mpr (OrderedMap.mem_keys_of_get? hp)
      exact hsound.toList_parentsOf_eq hascends hk (congrArg (Option.map Package.packages) hp)
    mem_roots_iff := by
      intro k
      refine hsound.mem_roots_packageHierarchy_iff.trans ?_
      refine Iff.trans (and_iff_right_of_imp fun hroot => ?_) Option.map_eq_some_iff
      obtain ⟨p, hp, _⟩ := Option.map_eq_some_iff.mp hroot
      exact (hcontains k).mpr (OrderedMap.mem_keys_of_get? hp) }

end View

/-- The packages of a view of an obtained model are those around its classes, enumerations and
datatypes. They list what the view has, each element once, and lie in each other as in the model. -/
theorem extractView_inducesPackages {m : Model} (h : m.IsObtained) (origin : ModelSource)
    (names : List String) (options : ViewOptions) :
    ∃ v, m.extractView origin names options = .ok v ∧ v.InducesPackages m := by
  obtain ⟨hsound, hids⟩ := h.isSound
  obtain ⟨v, hv, _⟩ := hsound.isLeast_extractView origin names options
  obtain ⟨⟨copies, s⟩, hwalk, hassemble⟩ := exists_of_bind_eq_ok hv
  obtain rfl := Except.ok.inj hassemble
  have hwalks := View.walks_of_walk_eq_ok _ _ _ _ hwalk
  have hg := hwalks.gathered hsound hids (View.gathered_empty m)
  have hgrown := (View.Surroundings.isKept_isGrown hsound).walks hwalks Hierarchy.IsGrown.empty
  exact ⟨_, hv, hg.inducesPackages hsound hids hgrown⟩

/-- A class A in a package p, typed by an enumeration E two packages further in. The only view has A
as its only member. -/
def chainedDocument : Markup.Element :=
  ⟨"uml:Model", .ofList [("xmi:id", "m")], none, [
    packaged "uml:Package" "p" [
      packaged "uml:Class" "A" [
        ⟨"ownedAttribute", .ofList [("xmi:id", "a"), ("type", "E")], none, []⟩],
      packaged "uml:Package" "q" [
        packaged "uml:Package" "r" [
          packaged "uml:Enumeration" "E" []]]],
    packaged "uml:Package" "views" [
      packaged "uml:Class" "V" [
        ⟨"elementImport", .ofList [("importedElement", "A")], none, []⟩]]]⟩

/-- The view has the package r of the enumeration, and lists above it q before p. -/
theorem extractView_chainedDocument_inducesPackages :
    ∃ result v, build viewedConfig none chainedDocument = .ok result ∧ result.model.IsObtained ∧
      result.model.extractView .unknown ["V"] ⟨false, false⟩ = .ok v ∧
      v.InducesPackages result.model ∧ ⟨"r"⟩ ∈ v.packages.keys ∧
      (v.packageHierarchy.parentsOf ⟨"r"⟩).toList = [⟨"q"⟩, ⟨"p"⟩] := by
  have hfacts : (build viewedConfig none chainedDocument).toOption.map (fun r =>
      (View.seeds r.model (View.selected r.model ["V"]), r.model.chain? ⟨"r"⟩,
        r.model.chainOf? ⟨.enumeration, ⟨"E"⟩⟩,
        (r.model.classes.get? ⟨"A"⟩).map fun c => c.properties.filterMap Property.targetKey?)) =
        some ([⟨"A"⟩], some [⟨"q"⟩, ⟨"p"⟩], some [⟨"r"⟩, ⟨"q"⟩, ⟨"p"⟩], some ["E"]) := by
    decide +kernel
  obtain ⟨result, h, hfacts⟩ := exists_of_map_toOption_eq_some hfacts
  have hseeds : View.seeds result.model (View.selected result.model ["V"]) = [⟨"A"⟩] :=
    congrArg Prod.fst hfacts
  have hchain : result.model.chain? ⟨"r"⟩ = some [⟨"q"⟩, ⟨"p"⟩] :=
    congrArg (fun r => r.2.1) hfacts
  obtain ⟨enum, henum, hpackages⟩ :=
    Option.map_eq_some_iff.mp (congrArg (fun r => r.2.2.1) hfacts)
  obtain ⟨old, hold, htargets⟩ := Option.map_eq_some_iff.mp (congrArg (fun r => r.2.2.2) hfacts)
  have hbuilt : result.model.IsObtained := .built h
  obtain ⟨hsound, hids⟩ := hbuilt.isSound
  obtain ⟨v, hv, hinduces⟩ := extractView_inducesPackages hbuilt .unknown ["V"] ⟨false, false⟩
  have hcopies := Model.copiesRecords_of_extractView hsound hids hv
  have hA : ⟨"A"⟩ ∈ v.classes.keys := by
    rw [hsound.mem_keys_of_nothing_followed hv rfl, hseeds]
    exact ⟨List.mem_cons_self, OrderedMap.mem_keys_of_get? hold⟩
  have hE : ⟨"E"⟩ ∈ v.enums.keys := by
    rw [hcopies.mem_enums_iff, hcopies.isTargetKey_iff]
    refine ⟨OrderedMap.mem_keys_of_get? henum, ⟨"A"⟩, old, hA, hold, ?_⟩
    rw [htargets]
    exact List.mem_cons_self
  obtain ⟨e, he⟩ := Option.isSome_iff_exists.mp (OrderedMap.get?_isSome_iff.mpr hE)
  have hepackages : e.packages = [⟨"r"⟩, ⟨"q"⟩, ⟨"p"⟩] := by
    obtain ⟨enum', henum', hcopy⟩ := hcopies.enums _ e he
    obtain rfl := Option.some.inj (henum.symm.trans henum')
    rw [hcopy]
    exact hpackages
  have hr : ⟨"r"⟩ ∈ v.packages.keys := by
    refine (hinduces.mem_packages_iff _).mpr
      ⟨⟨.enumeration, ⟨"E"⟩⟩, e.packages, by simp, congrArg (Option.map _) he, ?_⟩
    rw [hepackages]
    exact List.mem_cons_self
  obtain ⟨p, hp⟩ := Option.isSome_iff_exists.mp (OrderedMap.get?_isSome_iff.mpr hr)
  refine ⟨result, v, h, hbuilt, hv, hinduces, hr, (hinduces.parentsOf_eq _ p hp).trans ?_⟩
  obtain ⟨q, hq, hcopy⟩ := hinduces.packages _ p hp
  rw [hcopy]
  exact Option.some.inj ((congrArg (Option.map Package.packages) hq).symm.trans hchain)

end UmlCatalog
