import UmlCatalog.Proofs.Build.Contents
import UmlCatalog.Proofs.ObjectGraph.Reachability

/-!
# Object graphs of models that list their contents

In a sound model that lists its contents, a package is reached from the top-level package around it,
along the chain between them, and so is everything that lies in a package. Nothing that a package
lists is missing then, so the gaps of the object graph are the unknown identifiers that classes,
properties and imports refer to.
-/

namespace UmlCatalog

namespace Model
variable {m : Model} {e : ElementRef} {k : ElementId}

/-- No record that an identifier can name. -/
def IsUnknown (m : Model) (id : ElementId) : Prop :=
  id ∉ m.packages.keys ∧ id ∉ m.enums.keys ∧ id ∉ m.datatypes.keys ∧ id ∉ m.classes.keys

/-- What lies in a package has its record. -/
theorem isMade_of_chainOf? {chain : List ElementId} (h : m.chainOf? e = some chain) :
    ObjectGraph.Key.isMade m e.id (.ofKind e.kind) = true := by
  obtain ⟨kind, id⟩ := e
  cases kind with
  | package | umlClass | enumeration | datatype =>
      obtain ⟨r, hr, _⟩ := Option.map_eq_some_iff.mp h
      exact OrderedMap.contains_iff.mpr (OrderedMap.mem_keys_of_get? hr)
  | elementImport => rfl

/-- In a model that lists its contents, whatever is listed has its record. -/
theorem ListsContents.isMade (hl : m.ListsContents) {p : Package}
    (hp : m.packages.get? k = some p) (he : e ∈ p.elements) :
    ObjectGraph.Key.isMade m e.id (.ofKind e.kind) = true := by
  by_cases hkind : e.kind = .elementImport
  · rw [hkind]
    rfl
  · obtain ⟨outer, houter⟩ := exists_of_nearest? ((hl k p e hp hkind).mp he).1
    exact isMade_of_chainOf? houter

theorem ListsContents.listsKnownDatatypes (hl : m.ListsContents) : m.ListsKnownDatatypes := by
  intro p hp e he hkind
  obtain ⟨k, hk⟩ := OrderedMap.exists_get?_of_mem_values hp
  have hmade := hl.isMade hk he
  rw [hkind] at hmade
  exact OrderedMap.contains_iff.mp hmade

end Model

namespace ObjectGraph
variable {m : Model} {k id : ElementId} {e : ElementRef}

namespace Key

theorem listed_of_isMade (h : isMade m e.id (.ofKind e.kind) = true) :
    listed m e = .element (.ofKind e.kind) e.id :=
  if_pos h

/-- The steps from a key to the next one, each with the record that leads there. -/
inductive Step (m : Model) : Key → Key → Prop
  | listing {k p e} (record : m.packages.get? k = some p) (element : e ∈ p.elements) :
      Step m (.element .packages k) (listed m e)
  | showing {k i} (record : m.imports.get? k = some i) :
      Step m (.element .imports k) (named m i.idref)
  | inheriting {k c id} (record : m.classes.get? k = some c) (general : id ∈ c.superClasses) :
      Step m (.element .classes k) (named m id)
  | owning {k c place} (record : m.classes.get? k = some c)
      (place_lt : place < c.properties.length) : Step m (.element .classes k) (.property k place)
  | typing {k c place p target} (record : m.classes.get? k = some c)
      (property : c.properties[place]? = some p) (type : p.target = some target) :
      Step m (.property k place) (targeted m target)

theorem Step.mem_next {before key : Key} (h : Step m before key) : key ∈ before.next m := by
  cases h with
  | listing record element =>
      simp only [Key.next, record, Option.toList_some, List.flatMap_singleton]
      exact List.mem_map_of_mem element
  | showing record => simp [Key.next, record]
  | inheriting record general =>
      simp only [Key.next, record, Option.toList_some, List.flatMap_singleton]
      exact List.mem_append_left _ (List.mem_map_of_mem general)
  | owning record place_lt =>
      simp only [Key.next, record, Option.toList_some, List.flatMap_singleton]
      exact List.mem_append_right _ (List.mem_map_of_mem (List.mem_range.mpr place_lt))
  | typing record property type => simp [Key.next, record, property, type]

theorem step_of_mem_next {before key : Key} (h : key ∈ before.next m) : Step m before key := by
  cases before with
  | property k place =>
      simp only [Key.next, List.mem_map, Option.mem_toList, Option.bind_eq_some_iff] at h
      obtain ⟨target, ⟨p, ⟨c, hc, hp⟩, htarget⟩, rfl⟩ := h
      exact .typing hc hp htarget
  | element kind k =>
      cases kind with
      | packages =>
          simp only [Key.next, List.mem_flatMap, Option.mem_toList, List.mem_map] at h
          obtain ⟨p, hp, e, he, rfl⟩ := h
          exact .listing hp he
      | imports =>
          simp only [Key.next, Option.mem_toList, List.mem_map] at h
          obtain ⟨i, hi, rfl⟩ := h
          exact .showing hi
      | classes =>
          simp only [Key.next, List.mem_flatMap, Option.mem_toList, List.mem_append, List.mem_map,
            List.mem_range] at h
          obtain ⟨c, hc, ⟨general, hgeneral, rfl⟩ | ⟨place, hplace, rfl⟩⟩ := h
          · exact .inheriting hc hgeneral
          · exact .owning hc hplace
      | enums | datatypes | missing => cases h

/-- A reachable key is that of a top-level package, or one step from another reachable key. -/
theorem IsReachable.cases_last {key : Key} (h : key.IsReachable m) :
    (∃ root ∈ m.packageHierarchy.roots, key = listed m ⟨.package, root⟩) ∨
      ∃ before : Key, before.IsReachable m ∧ Step m before key := by
  obtain ⟨root, hroot, hpath⟩ := h
  rcases Relation.ReflTransGen.cases_tail hpath with heq | ⟨before, hbefore, hstep⟩
  · exact Or.inl ⟨root, hroot, heq⟩
  · exact Or.inr ⟨before, ⟨root, hroot, hbefore⟩, step_of_mem_next hstep⟩

theorem IsReachable.step {before key : Key} (h : before.IsReachable m) (hstep : Step m before key) :
    key.IsReachable m := by
  obtain ⟨root, hroot, hpath⟩ := h
  exact ⟨root, hroot, hpath.tail hstep.mem_next⟩

/-- A name leads to a gap if there is no record, and to its own gap. -/
theorem named_eq_gap_iff : named m k = gap id ↔ k = id ∧ m.IsUnknown id := by
  unfold named Model.IsUnknown gap
  simp only [← OrderedMap.contains_iff]
  repeat' split
  all_goals grind

/-- What a package lists is no gap if it has a record. -/
theorem listed_ne_gap (h : isMade m e.id (.ofKind e.kind) = true) : listed m e ≠ gap id := by
  rw [listed_of_isMade h]
  intro heq
  cases hkind : e.kind <;> rw [hkind] at heq <;> cases heq

theorem property_ne_named {place : Nat} (id : ElementId) : Key.property k place ≠ named m id := by
  intro heq
  unfold named at heq
  repeat' split at heq
  all_goals cases heq

theorem property_ne_listed {place : Nat} (e : ElementRef) : Key.property k place ≠ listed m e := by
  intro heq
  unfold listed at heq
  split at heq <;> cases heq

end Key

/-- The graph has a node for all that lies in the packages of a model: for every registered package,
and for the classes, enumerations and datatypes with packages around them. -/
structure ShowsContents (m : Model) (g : ObjectGraph) : Prop where
  packages : ∀ id, m.packageHierarchy.contains id = true → ∃ n, g.IsEntity .packages id n
  classes : ∀ id c, m.classes.get? id = some c → c.packages ≠ [] → ∃ n, g.IsEntity .classes id n
  enums : ∀ id e, m.enums.get? id = some e → e.packages ≠ [] → ∃ n, g.IsEntity .enums id n
  datatypes : ∀ id d, m.datatypes.get? id = some d → d.packages ≠ [] →
    ∃ n, g.IsEntity .datatypes id n

/-- The records of what the graph shows refer to an identifier: a class as a superclass or as the
type of a property, or a package as what one of its imports shows. -/
inductive RefersTo (m : Model) (g : ObjectGraph) (id : ElementId) : Prop
  | superClass {k n c} (node : g.IsEntity .classes k n) (record : m.classes.get? k = some c)
      (general : id ∈ c.superClasses) : RefersTo m g id
  | type {k n c p} (node : g.IsEntity .classes k n) (record : m.classes.get? k = some c)
      (property : p ∈ c.properties) (target : p.target = some (.idref id)) : RefersTo m g id
  | elementImport {k n p i x} (node : g.IsEntity .packages k n)
      (record : m.packages.get? k = some p) (listed : ⟨.elementImport, i⟩ ∈ p.elements)
      (found : m.imports.get? i = some x) (shown : x.idref = id) : RefersTo m g id

section Sound
variable (hm : m.IsSound) (hl : m.ListsContents)
include hm

/-- A registered package without packages around it is listed at the top. -/
theorem Key.isReachable_of_isChain_singleton (h : m.IsChain [k]) :
    (Key.element .packages k).IsReachable m := by
  have hroot : k ∈ m.packageHierarchy.roots := by
    refine hm.packageHierarchy.mem_roots_iff.mpr ⟨h.1, ?_⟩
    rintro parent ⟨_, outer, houter⟩
    cases h.2.1.symm.trans houter
  refine ⟨k, hroot, ?_⟩
  rw [Key.listed_of_isMade (m.isMade_of_chainOf? (e := ⟨.package, k⟩) h.2.1)]
  exact .refl

include hl

/-- A package leads to what lies in it. -/
theorem Key.IsReachable.of_holds (hk : (Key.element .packages k).IsReachable m)
    (h : m.Holds k e) : (Key.element (.ofKind e.kind) e.id).IsReachable m := by
  obtain ⟨_, p, hp⟩ := hm.exists_package_of_nearest? h.1
  obtain ⟨outer, houter⟩ := Model.exists_of_nearest? h.1
  have hkind : e.kind ≠ .elementImport := by
    intro hkind
    rw [Model.chainOf?, hkind] at houter
    cases houter
  have hmade := m.isMade_of_chainOf? houter
  rw [← Key.listed_of_isMade hmade]
  exact hk.step (.listing hp ((hl k p e hp hkind).mpr h))

/-- Every package of a chain is reachable: the outermost one is at the top, and each one leads to
the next. -/
theorem Key.isReachable_of_isChain {outer : List ElementId} (h : m.IsChain (k :: outer)) :
    (Key.element .packages k).IsReachable m := by
  induction outer generalizing k with
  | nil => exact Key.isReachable_of_isChain_singleton hm h
  | cons parent outer ih =>
      have hnearest : m.nearest? ⟨.package, k⟩ = some parent := by
        show (m.chain? k).bind List.head? = _
        rw [h.2.1]
        rfl
      exact (ih h.2.2).of_holds hm hl (e := ⟨.package, k⟩) ⟨hnearest, fun _ => h.1⟩

/-- All that lies in a package is reachable. -/
theorem Key.isReachable_of_holds (h : m.Holds k e) :
    (Key.element (.ofKind e.kind) e.id).IsReachable m := by
  obtain ⟨outer, houter⟩ := Model.exists_of_nearest? h.1
  exact (Key.isReachable_of_isChain hm hl (hm.isChain_of_chainOf? houter)).of_holds hm hl h

theorem ofModel_showsContents : ShowsContents m (ofModel m) := by
  have hpart := isReachablePart_of_listsKnownDatatypes hl.listsKnownDatatypes
  have hlies : ∀ kind id chain, kind ≠ .package → m.chainOf? ⟨kind, id⟩ = some chain →
      chain ≠ [] → ∃ n, (ofModel m).IsEntity (.ofKind kind) id n := by
    intro kind id chain hkind hchain hne
    obtain ⟨k, outer, rfl⟩ := List.exists_cons_of_ne_nil hne
    have hheld : m.Holds k ⟨kind, id⟩ := by
      refine ⟨?_, fun hpackage => absurd hpackage hkind⟩
      rw [Model.nearest?, hchain]
      rfl
    exact (hpart.exists_node_iff _).mpr (Key.isReachable_of_holds hm hl hheld)
  refine ⟨fun id hid => ?_, fun id c hc => ?_, fun id x hx => ?_, fun id d hd => ?_⟩
  · obtain ⟨outer, houter⟩ := hm.isRecorded hid
    have hchain : m.IsChain (id :: outer) := ⟨hid, houter, hm.isChain_of_package houter⟩
    exact (hpart.exists_node_iff _).mpr (Key.isReachable_of_isChain hm hl hchain)
  · exact hlies .umlClass id _ (by decide) (congrArg (Option.map Class.packages) hc)
  · exact hlies .enumeration id _ (by decide) (congrArg (Option.map Enumeration.packages) hx)
  · exact hlies .datatype id _ (by decide) (congrArg (Option.map Datatype.packages) hd)

omit hm hl in
/-- An import that is reached is listed by a package that is reached. -/
theorem Key.IsReachable.exists_listing (h : (Key.element .imports k).IsReachable m) :
    ∃ package p, (Key.element .packages package).IsReachable m ∧
      m.packages.get? package = some p ∧ ⟨.elementImport, k⟩ ∈ p.elements := by
  have hlisted : ∀ e, Key.element .imports k = Key.listed m e → e = ⟨.elementImport, k⟩ := by
    rintro ⟨kind, id⟩ heq
    unfold Key.listed at heq
    split at heq
    · cases kind <;> cases heq
      rfl
    · cases heq
  have hnamed : ∀ id, Key.element .imports k ≠ Key.named m id := by
    intro id heq
    unfold Key.named at heq
    repeat' split at heq
    all_goals cases heq
  rcases h.cases_last with ⟨root, _, heq⟩ | ⟨before, hbefore, hstep⟩
  · cases hlisted _ heq
  · generalize hkey : Key.element .imports k = key at hstep
    cases hstep with
    | @listing package p e record element =>
        obtain rfl := hlisted e hkey
        exact ⟨package, p, hbefore, record, element⟩
    | showing _ | inheriting _ _ => exact absurd hkey (hnamed _)
    | owning _ _ => cases hkey
    | @typing _ _ _ _ target _ _ _ =>
        cases target with
        | idref id => exact absurd hkey (hnamed id)
        | href designator => cases hkey

omit hm hl in
/-- A property that is reached belongs to a class that is reached. -/
theorem Key.IsReachable.of_property {place : Nat} (h : (Key.property k place).IsReachable m) :
    (Key.element .classes k).IsReachable m ∧ ∃ p, m.property? ⟨k, place⟩ = some p := by
  rcases h.cases_last with ⟨root, _, heq⟩ | ⟨before, hbefore, hstep⟩
  · exact absurd heq (Key.property_ne_listed _)
  · generalize hkey : Key.property k place = key at hstep
    cases hstep with
    | listing _ _ => exact absurd hkey (Key.property_ne_listed _)
    | showing _ | inheriting _ _ => exact absurd hkey (Key.property_ne_named _)
    | @owning _ c _ record place_lt =>
        cases hkey
        refine ⟨hbefore, c.properties[place], ?_⟩
        rw [Model.property?, record]
        exact List.getElem?_eq_getElem place_lt
    | @typing _ _ _ _ target _ _ _ =>
        cases target with
        | idref id => exact absurd hkey (Key.property_ne_named id)
        | href designator => cases hkey

/-- A gap is reached from a class or a package that refers to an unknown identifier. -/
theorem Key.IsReachable.refersTo (h : (Key.gap id).IsReachable m) :
    m.IsUnknown id ∧ RefersTo m (ofModel m) id := by
  have hpart := isReachablePart_of_listsKnownDatatypes hl.listsKnownDatatypes
  rcases h.cases_last with ⟨root, hroot, heq⟩ | ⟨before, hbefore, hstep⟩
  · obtain ⟨_, houter⟩ := hm.isRecorded (hm.packageHierarchy.mem_roots_iff.mp hroot).1
    have hmade := m.isMade_of_chainOf? (e := ⟨.package, root⟩) houter
    exact absurd heq.symm (Key.listed_ne_gap hmade)
  · generalize hkey : Key.gap id = key at hstep
    cases hstep with
    | listing record element =>
        exact absurd hkey.symm (Key.listed_ne_gap (hl.isMade record element))
    | @showing i x record =>
        obtain ⟨rfl, hunknown⟩ := Key.named_eq_gap_iff.mp hkey.symm
        obtain ⟨k, p, hk, hp, hlisted⟩ := hbefore.exists_listing
        obtain ⟨n, hn⟩ := (hpart.exists_node_iff _).mpr hk
        exact ⟨hunknown, .elementImport hn hp hlisted record rfl⟩
    | inheriting record general =>
        obtain ⟨rfl, hunknown⟩ := Key.named_eq_gap_iff.mp hkey.symm
        obtain ⟨n, hn⟩ := (hpart.exists_node_iff _).mpr hbefore
        exact ⟨hunknown, .superClass hn record general⟩
    | owning _ _ => cases hkey
    | @typing _ _ _ _ target record property type =>
        cases target with
        | idref id' =>
            obtain ⟨rfl, hunknown⟩ := Key.named_eq_gap_iff.mp hkey.symm
            obtain ⟨n, hn⟩ := (hpart.exists_node_iff _).mpr hbefore.of_property.1
            exact ⟨hunknown, .type hn record (List.mem_of_getElem? property) type⟩
        | href designator => cases hkey

omit hm in
/-- What refers to an unknown identifier leads to its gap. -/
theorem RefersTo.isReachable_gap (h : RefersTo m (ofModel m) id) (hid : m.IsUnknown id) :
    (Key.gap id).IsReachable m := by
  have hpart := isReachablePart_of_listsKnownDatatypes hl.listsKnownDatatypes
  rw [← Key.named_eq_gap_iff.mpr ⟨rfl, hid⟩]
  cases h with
  | superClass node record general =>
      have hclass := (hpart.exists_node_iff (.element .classes _)).mp ⟨_, node⟩
      exact hclass.step (.inheriting record general)
  | type node record property target =>
      have hclass := (hpart.exists_node_iff (.element .classes _)).mp ⟨_, node⟩
      obtain ⟨place, hlt, rfl⟩ := List.getElem_of_mem property
      exact (hclass.step (.owning record hlt)).step
        (.typing record (List.getElem?_eq_getElem hlt) target)
  | elementImport node record listed found shown =>
      have himport := ((hpart.exists_node_iff (.element .packages _)).mp ⟨_, node⟩).step
        (.listing record listed)
      rw [Key.listed_of_isMade rfl] at himport
      rw [← shown]
      exact himport.step (.showing found)

/-- The gaps of the graph are the unknown identifiers that it refers to. -/
theorem mem_missing_iff (id : ElementId) :
    id ∈ (ofModel m).missing.keys ↔ m.IsUnknown id ∧ RefersTo m (ofModel m) id := by
  have hpart := isReachablePart_of_listsKnownDatatypes hl.listsKnownDatatypes
  obtain ⟨a, ha, he⟩ := Arena.exists_isFaithful m
  calc id ∈ (ofModel m).missing.keys
    _ ↔ ∃ n, (ofModel m).missing.get? id = some n := by
        rw [← OrderedMap.get?_isSome_iff, Option.isSome_iff_exists]
    _ ↔ ∃ n, (ofModel m).IsEntity .missing id n := by
        rw [he]
        exact exists_congr fun n => ha.isSettled.isIndexed .missing id n
    _ ↔ (Key.gap id).IsReachable m := hpart.exists_node_iff (.gap id)
    _ ↔ m.IsUnknown id ∧ RefersTo m (ofModel m) id :=
        ⟨fun h => h.refersTo hm hl, fun h => h.2.isReachable_gap hl h.1⟩

end Sound

/-- The object graph of a built model has a node for every registered package and for all that lies
in packages. Missing are exactly the identifiers without a record that a class of the graph inherits
from, a property of such a class is typed by, or an import of a package of the graph shows. -/
theorem ofModel_build_showsContents {config : BuildConfig} {resource : Option String}
    {document : Markup.Element} {result : BuildResult}
    (h : build config resource document = .ok result) :
    ShowsContents result.model (ofModel result.model) ∧
    ∀ id, id ∈ (ofModel result.model).missing.keys ↔
      result.model.IsUnknown id ∧ RefersTo result.model (ofModel result.model) id := by
  have hm := Model.isSound_of_build h
  have hl := Model.listsContents_of_build h
  exact ⟨ofModel_showsContents hm hl, mem_missing_iff hm hl⟩

/-- A package with an import and an inner package, in which a class lies. The class, its attribute
and the import refer to nothing in the document. A package that is left out stands beside them. -/
def gapDocument : Markup.Element :=
  ⟨"uml:Model", .ofList [("xmi:id", "m")], none, [
    packaged "uml:Package" "p" [
      ⟨"elementImport", .ofList [("xmi:id", "i"), ("importedElement", "away")], none, []⟩,
      packaged "uml:Package" "q" [
        packaged "uml:Class" "A" [
          ⟨"generalization", .ofList [("general", "gone")], none, []⟩,
          ⟨"ownedAttribute", .ofList [("xmi:id", "a"), ("type", "lost")], none, []⟩]],
      packaged "uml:Package" "old" [packaged "uml:Class" "B" []]]]⟩

theorem ofModel_gapDocument_showsContents :
    ∃ result, build filedConfig none gapDocument = .ok result ∧
      ShowsContents result.model (ofModel result.model) ∧
      (∀ id, id ∈ (ofModel result.model).missing.keys ↔
        result.model.IsUnknown id ∧ RefersTo result.model (ofModel result.model) id) ∧
      (ofModel result.model).packages.keys = [⟨"p"⟩, ⟨"q"⟩] ∧
      (ofModel result.model).missing.keys = [⟨"away"⟩, ⟨"gone"⟩, ⟨"lost"⟩] := by
  have hkeys : (build filedConfig none gapDocument).toOption.map (fun r =>
      ((ofModel r.model).packages.keys, (ofModel r.model).missing.keys)) =
        some ([⟨"p"⟩, ⟨"q"⟩], [⟨"away"⟩, ⟨"gone"⟩, ⟨"lost"⟩]) := by
    decide +kernel
  cases h : build filedConfig none gapDocument with
  | error e =>
      rw [h] at hkeys
      cases hkeys
  | ok result =>
      rw [h] at hkeys
      obtain ⟨hpackages, hmissing⟩ := Prod.ext_iff.mp (Option.some.inj hkeys)
      obtain ⟨hshows, hgaps⟩ := ofModel_build_showsContents h
      exact ⟨result, rfl, hshows, hgaps, hpackages, hmissing⟩

end ObjectGraph
end UmlCatalog
