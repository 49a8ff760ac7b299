import UmlCatalog.Proofs.Build.Sound
import UmlCatalog.Proofs.View.Contents

/-!
# Views are models of their own

A view is a part of its source that contains the packages around whatever it has. So it inherits
what the source is: it is sound, keeps the identifiers of its records and lists its contents. All
its packages are registered.
-/

namespace UmlCatalog

/-- Every package that is recorded is registered. -/
def Model.RegistersPackages (m : Model) : Prop :=
  ∀ k ∈ m.packages.keys, m.packageHierarchy.contains k = true

namespace View
open Surroundings (Present)

section Gathered
variable {source : Model} {copies : OrderedMap ElementId Class} {s : Surroundings}
  {origin : ModelSource} {names : List String} {e : ElementRef} {chain : List ElementId}
  {k : ElementId}

theorem wanted_umlClass_iff : Wanted copies ⟨.umlClass, k⟩ ↔ k ∈ copies.keys := by
  refine ⟨?_, .umlClass⟩
  rintro (hmem | ⟨hkind | hkind, _, _, _⟩)
  · exact hmem
  · cases hkind
  · cases hkind

/-- Registered are the packages that are there. -/
theorem Gathered.contains_iff (hg : Gathered source copies s) (hm : source.IsSound) :
    s.packageHierarchy.contains k = true ↔ Present source (Wanted copies) ⟨.package, k⟩ := by
  refine (Hierarchy.IsClosure.contains_iff hg.packages.links).trans (or_iff_left_of_imp ?_)
  rintro ⟨x, ⟨hx, hnearest⟩ | ⟨hk, _⟩⟩
  · exact hx.nearest hm hnearest
  · exact hk

/-- The packages of a view lie where those of its source lie. -/
theorem Gathered.chain?_eq (hg : Gathered source copies s) (hk : k ∈ s.packages.keys) :
    (assemble source origin names copies s).chain? k = source.chain? k :=
  calc (s.packages.get? k).map Package.packages
    _ = ((s.packages.get? k).map Package.emptied).map Package.packages := by
        rw [Option.map_map]
        rfl
    _ = ((source.packages.get? k).map (Package.copiedAs k)).map Package.packages := by
        rw [hg.packages.copied k hk]
    _ = (source.packages.get? k).map Package.packages := by
        rw [Option.map_map]
        rfl

/-- A view says of the packages around an element what its source says. -/
theorem Gathered.chainOf?_eq_some_iff (hg : Gathered source copies s) :
    (assemble source origin names copies s).chainOf? e = some chain ↔
      Present source (Wanted copies) e ∧ source.chainOf? e = some chain := by
  obtain ⟨kind, id⟩ := e
  cases kind with
  | package =>
      show (assemble source origin names copies s).chain? id = some chain ↔
        _ ∧ source.chain? id = some chain
      rw [← hg.packages.mem_keys_iff]
      constructor
      · intro h
        obtain ⟨p, hp, _⟩ := Option.map_eq_some_iff.mp h
        have hid : id ∈ s.packages.keys := OrderedMap.mem_keys_of_get? hp
        rw [hg.chain?_eq hid] at h
        exact ⟨hid, h⟩
      · rintro ⟨hid, h⟩
        rw [hg.chain?_eq hid]
        exact h
  | umlClass =>
      rw [Surroundings.present_and_iff (e := ⟨.umlClass, id⟩) (by simp)]
      exact (hg.classes.map_get?_eq_some_iff Class.packages fun _ => rfl).trans
        (and_congr_left' wanted_umlClass_iff.symm)
  | enumeration =>
      rw [Surroundings.present_and_iff (e := ⟨.enumeration, id⟩) (by simp)]
      exact hg.enums.map_get?_eq_some_iff Enumeration.packages fun _ => rfl
  | datatype =>
      rw [Surroundings.present_and_iff (e := ⟨.datatype, id⟩) (by simp)]
      exact hg.datatypes.map_get?_eq_some_iff Datatype.packages fun _ => rfl
  | elementImport =>
      have hnone : none ≠ some chain := (Option.some_ne_none chain).symm
      exact iff_of_false hnone fun h => hnone h.2

/-- A chain of the source is one of the view if its packages are there. -/
theorem Gathered.isChain (hg : Gathered source copies s) (hm : source.IsSound) :
    ∀ {chain : List ElementId}, source.IsChain chain →
      (∀ k ∈ chain, Present source (Wanted copies) ⟨.package, k⟩) →
        (assemble source origin names copies s).IsChain chain := by
  intro chain
  induction chain with
  | nil => exact fun _ _ => trivial
  | cons k outer ih =>
      rintro ⟨_, hchain, houter⟩ hpresent
      have hk := hpresent k List.mem_cons_self
      refine ⟨(hg.contains_iff hm).mpr hk, ?_, ih houter fun x hx => ?_⟩
      · rw [hg.chain?_eq (hg.packages.mem_keys_iff.mpr hk)]
        exact hchain
      · exact hpresent x (List.mem_cons_of_mem k hx)

theorem Gathered.isChain_of_chainOf? (hg : Gathered source copies s) (hm : source.IsSound)
    (h : (assemble source origin names copies s).chainOf? e = some chain) :
    (assemble source origin names copies s).IsChain chain := by
  obtain ⟨hpresent, hchain⟩ := hg.chainOf?_eq_some_iff.mp h
  exact hg.isChain hm (hm.isChain_of_chainOf? hchain) fun k hk =>
    hpresent.of_mem_chain hm hchain hk

theorem Gathered.nearest?_eq_some_iff (hg : Gathered source copies s) :
    (assemble source origin names copies s).nearest? e = some k ↔
      Present source (Wanted copies) e ∧ source.nearest? e = some k := by
  unfold Model.nearest?
  rw [Option.bind_eq_some_iff, Option.bind_eq_some_iff]
  simp only [hg.chainOf?_eq_some_iff, and_assoc, exists_and_left]

/-- What was gathered from a sound source is sound. -/
theorem Gathered.isSound (hg : Gathered source copies s) (hm : source.IsSound) :
    (assemble source origin names copies s).IsSound where
  id_of_get? := by
    intro k c hc
    obtain ⟨_, hcopy⟩ := (hg.classes k c).mp hc
    obtain ⟨old, hold, rfl⟩ := Option.map_eq_some_iff.mp hcopy
    have hid : old.id = k := hm.id_of_get? hold
    exact hid
  classHierarchy := by
    refine hg.classHierarchy.congr fun general k => ?_
    constructor
    · rintro ⟨c, hc, hgeneral⟩
      obtain ⟨hk, hcopy⟩ := (hg.classes k c).mp hc
      obtain ⟨old, hold, rfl⟩ := Option.map_eq_some_iff.mp hcopy
      exact ⟨hk, old, hold, hgeneral⟩
    · rintro ⟨hk, old, hold, hgeneral⟩
      exact ⟨copyClass old, (hg.classes k _).mpr ⟨hk, congrArg _ hold⟩, hgeneral⟩
  packageHierarchy := by
    have hclosure := Hierarchy.IsClosure.of_single hg.packages.links fun x =>
      or_congr_left (hg.contains_iff hm (k := x)).symm
    refine hclosure.congr fun parent k => ?_
    constructor
    · rintro ⟨_, houter⟩
      exact hg.nearest?_eq_some_iff.mp (Model.nearest?_package_eq_some_iff.mpr houter)
    · intro h
      exact ⟨(hg.contains_iff hm).mpr h.1,
        Model.nearest?_package_eq_some_iff.mp (hg.nearest?_eq_some_iff.mpr h)⟩
  isRecorded := by
    intro k hk
    have hmem := hg.packages.mem_keys_iff.mpr ((hg.contains_iff hm).mp hk)
    obtain ⟨p, hp⟩ := Option.isSome_iff_exists.mp (OrderedMap.get?_isSome_iff.mpr hmem)
    exact ⟨p.packages, congrArg (Option.map Package.packages) hp⟩
  isChain_of_package := fun {k outer} h => hg.isChain_of_chainOf? hm (e := ⟨.package, k⟩) h
  isChain_of_class := fun {k c} h =>
    hg.isChain_of_chainOf? hm (e := ⟨.umlClass, k⟩) (congrArg (Option.map Class.packages) h)
  isChain_of_enum := fun {k x} h =>
    hg.isChain_of_chainOf? hm (e := ⟨.enumeration, k⟩)
      (congrArg (Option.map Enumeration.packages) h)
  isChain_of_datatype := fun {k d} h =>
    hg.isChain_of_chainOf? hm (e := ⟨.datatype, k⟩) (congrArg (Option.map Datatype.packages) h)

/-- What was gathered lists its contents, because what lies in a package is there and wanted. -/
theorem Gathered.listsContents (hg : Gathered source copies s) (hm : source.IsSound) :
    (assemble source origin names copies s).ListsContents := by
  intro k p e hp hkind
  calc e ∈ p.elements
    _ ↔ Present source (Wanted copies) e ∧ source.nearest? e = some k :=
        (hg.packages.lists k p hp).2 e
    _ ↔ (assemble source origin names copies s).nearest? e = some k :=
        hg.nearest?_eq_some_iff.symm
    _ ↔ (assemble source origin names copies s).Holds k e := by
        refine (and_iff_left_of_imp fun hnearest hpackage => ?_).symm
        obtain ⟨hpresent, _⟩ := hg.nearest?_eq_some_iff.mp hnearest
        obtain ⟨kind, id⟩ := e
        obtain rfl : kind = .package := hpackage
        exact (hg.contains_iff hm).mpr hpresent

theorem Gathered.registersPackages (hg : Gathered source copies s) (hm : source.IsSound) :
    (assemble source origin names copies s).RegistersPackages :=
  fun _ hk => (hg.contains_iff hm).mpr (hg.packages.mem_keys_iff.mp hk)

theorem Gathered.keepsIds (hg : Gathered source copies s) (hids : source.KeepsIds) :
    (assemble source origin names copies s).KeepsIds where
  packages := by
    intro k p hp
    have hcopied := hg.packages.copied k (OrderedMap.mem_keys_of_get? hp)
    obtain ⟨q, _, hq⟩ := Option.map_eq_some_iff.mp
      (hcopied.symm.trans (congrArg (Option.map Package.emptied) hp))
    exact (congrArg Package.id hq).symm
  enums := by
    intro k e he
    obtain ⟨_, hcopy⟩ := (hg.enums k e).mp he
    obtain ⟨old, hold, rfl⟩ := Option.map_eq_some_iff.mp hcopy
    have hid : old.id = k := hids.enums hold
    exact hid
  datatypes := by
    intro k d hd
    obtain ⟨_, hcopy⟩ := (hg.datatypes k d).mp hd
    obtain ⟨old, hold, rfl⟩ := Option.map_eq_some_iff.mp hcopy
    have hid : old.id = k := hids.datatypes hold
    exact hid

end Gathered
end View

namespace Model
variable {m m' v : Model} {source : Model} {origin : ModelSource} {names : List String}
  {options : ViewOptions}

/-- What lies where is a matter of the outline. -/
theorem SameOutline.chainOf?_eq (h : m'.SameOutline m) (e : ElementRef) :
    m'.chainOf? e = m.chainOf? e := by
  obtain ⟨kind, id⟩ := e
  cases kind with
  | package => exact h.chain? id
  | umlClass =>
      have hpackages := congrArg (Option.map fun o => o.2.2) (h.classes id)
      rw [Option.map_map, Option.map_map] at hpackages
      exact hpackages
  | enumeration => exact h.enums id
  | datatype => exact h.datatypes id
  | elementImport => rfl

theorem SameOutline.nearest?_eq (h : m'.SameOutline m) (e : ElementRef) :
    m'.nearest? e = m.nearest? e :=
  congrArg (fun chain => chain.bind List.head?) (h.chainOf?_eq e)

theorem ListsContents.of_sameOutline (hl : m.ListsContents) (h : m'.SameOutline m)
    (hp : m'.packages = m.packages) : m'.ListsContents := by
  intro k p e hk hkind
  rw [hp] at hk
  unfold Holds
  rw [h.nearest?_eq, h.packageHierarchy]
  exact hl k p e hk hkind

theorem KeepsIds.withReferees (h : m.KeepsIds) : m.withReferees.KeepsIds where
  packages := h.packages
  enums := by
    intro k e he
    have hmap := (OrderedMap.get?_mapWithKey _ m.enums k).symm.trans he
    obtain ⟨x, hx, rfl⟩ := Option.map_eq_some_iff.mp hmap
    have hid : x.id = k := h.enums hx
    exact hid
  datatypes := by
    intro k d hd
    have hmap := (OrderedMap.get?_mapWithKey _ m.datatypes k).symm.trans hd
    obtain ⟨x, hx, rfl⟩ := Option.map_eq_some_iff.mp hmap
    have hid : x.id = k := h.datatypes hx
    exact hid

/-- A view is indexed anew from what its walk has gathered. -/
theorem exists_gathered_of_extractView (hm : source.IsSound) (hids : source.KeepsIds)
    (h : source.extractView origin names options = .ok v) :
    ∃ copies s, View.Gathered source copies s ∧
      v = (View.assemble source origin names copies s).withPropertyIndex.withReferees := by
  obtain ⟨⟨copies, s⟩, hwalk, h⟩ := exists_of_bind_eq_ok h
  have hwalks := View.walks_of_walk_eq_ok _ _ _ _ hwalk
  exact ⟨copies, s, hwalks.gathered hm hids (View.gathered_empty source), (Except.ok.inj h).symm⟩

/-- Indexing is no part of the outline. -/
theorem sameOutline_indexed (m : Model) : m.withPropertyIndex.withReferees.SameOutline m :=
  (sameOutline_withReferees _).trans (sameOutline_withPropertyIndex m)

/-- A view of a sound model that keeps its identifiers is such a model itself, lists its contents
and registers its packages. -/
theorem IsSound.of_extractView (hm : source.IsSound) (hids : source.KeepsIds)
    (h : source.extractView origin names options = .ok v) :
    v.IsSound ∧ v.KeepsIds ∧ v.ListsContents ∧ v.RegistersPackages := by
  obtain ⟨copies, s, hg, rfl⟩ := exists_gathered_of_extractView hm hids h
  have hsame := sameOutline_indexed (View.assemble source origin names copies s)
  have hids' : KeepsIds (View.assemble source origin names copies s) := hg.keepsIds hids
  have hregisters : RegistersPackages (View.assemble source origin names copies s) :=
    hg.registersPackages hm
  have hindexed : KeepsIds (View.assemble source origin names copies s).withPropertyIndex :=
    ⟨hids'.packages, hids'.enums, hids'.datatypes⟩
  exact ⟨(hg.isSound hm).of_sameOutline hsame, hindexed.withReferees,
    (hg.listsContents hm).of_sameOutline hsame rfl, hregisters⟩

/-- The classes of a view declare what the classes of its source declare. -/
theorem exists_class_of_extractView (hm : source.IsSound) (hids : source.KeepsIds)
    (h : source.extractView origin names options = .ok v) {k : ElementId} {c : Class}
    (hc : v.classes.get? k = some c) :
    ∃ old, source.classes.get? k = some old ∧ c.properties = old.properties ∧
      c.superClasses = old.superClasses := by
  obtain ⟨copies, s, hg, rfl⟩ := exists_gathered_of_extractView hm hids h
  obtain ⟨old, hold, rfl⟩ := hg.classes.exists_of_get?_mapWithKey hc
  exact ⟨old, hold, rfl, rfl⟩

end Model
end UmlCatalog
