import UmlCatalog.Proofs.View.BackReferences

/-!
# The index partitions the properties

Every property of every class is named by one entry of the index, which is the entry of its key, and
no entry names anything else. Places stand in the order of classes and then of positions, inside an
entry and from one entry to the next. Building a model and extracting a view end with rebuilding the
index, so the index of what they return is of this kind.

## Implementation notes

The index is rebuilt in one pass over the places of a model. The places of an entry are a sublist of
these, and so are the first places of all entries; both orders follow from that.
-/

namespace UmlCatalog

/-- A new value under a known key changes nothing that cannot be told of the old value. -/
theorem OrderedMap.map_upsert_of_lookup {κ α β : Type} [DecidableEq κ] {k : κ} {a b : α}
    {l : List (κ × α)} (h : l.lookup k = some b) {f : α → β} (hf : f a = f b) :
    (upsert k a l).map (fun e => f e.2) = l.map fun e => f e.2 := by
  induction l with
  | nil => cases h
  | cons e rest ih =>
      obtain ⟨j, c⟩ := e
      by_cases hj : j = k
      · subst hj
        rw [List.lookup_cons_self, Option.some.injEq] at h
        subst h
        simp [upsert, hf]
      · have hkj : (k == j) = false := beq_eq_false_iff_ne.mpr (Ne.symm hj)
        rw [List.lookup_cons, hkj] at h
        simp [upsert, hj, ih h]

namespace Model

/-- The keys of the index, each with the places that it names. -/
def sourceLists (m : Model) : List (String × List PropertySource) :=
  m.properties.entries.map fun e => (e.1, e.2.sources)

/-- One place stands before another one: its class comes first, or its position in the same class
does. -/
def Precedes (m : Model) (s t : PropertySource) : Prop :=
  m.classes.keys.idxOf s.classId < m.classes.keys.idxOf t.classId ∨
    s.classId = t.classId ∧ s.index < t.index

/-- The index of a model partitions the properties of its classes by their keys. -/
structure HasExactIndex (m : Model) : Prop where
  /-- Every property is named by one entry, once. -/
  count_eq_one : ∀ s p, m.property? s = some p → (m.sourceLists.flatMap Prod.snd).count s = 1
  /-- An entry names properties that have its key. -/
  indexKey_eq : ∀ e ∈ m.sourceLists, ∀ s ∈ e.2, (m.property? s).map Property.indexKey = some e.1
  ne_nil : ∀ e ∈ m.sourceLists, e.2 ≠ []
  /-- Under a name are found the properties that have it as their key. -/
  propertiesNamed_eq : ∀ key, m.propertiesNamed key =
    m.allProperties.filter fun p => p.indexKey = key
  /-- The entries stand in the order in which their keys are first used. -/
  pairwise_first : (m.sourceLists.filterMap fun e => e.2.head?).Pairwise m.Precedes
  pairwise_sources : ∀ e ∈ m.sourceLists, e.2.Pairwise m.Precedes

variable {m : Model}

/-- Classes with different keys come one after the other, and so do the properties of a class. -/
theorem pairwise_propertyPlaces (m : Model) :
    (m.propertyPlaces.map Prod.snd).Pairwise m.Precedes := by
  have hkeys : m.classes.keys.Pairwise fun k k' =>
      m.classes.keys.idxOf k < m.classes.keys.idxOf k' := by
    have hself : (OrderedSet.ofList m.classes.keys).toList = m.classes.keys :=
      OrderedSet.toList_insertMany_of_nodup m.classes.keys_nodup
    have hfirst := (OrderedSet.isFirstMention_ofList m.classes.keys).pairwise
    rwa [hself] at hfirst
  rw [List.pairwise_map, propertyPlaces, List.pairwise_flatMap]
  refine ⟨fun e _ => ?_, (List.pairwise_map.mp hkeys).imp fun hlt place hplace place' hplace' => ?_⟩
  · have hpositions : (e.2.properties.zipIdx.map Prod.snd).Pairwise (· < ·) := by
      rw [List.zipIdx_map_snd]
      exact List.pairwise_lt_range'
    rw [List.pairwise_map]
    exact (List.pairwise_map.mp hpositions).imp fun hlt => Or.inr ⟨rfl, hlt⟩
  · obtain ⟨_, _, rfl⟩ := List.mem_map.mp hplace
    obtain ⟨_, _, rfl⟩ := List.mem_map.mp hplace'
    exact Or.inl hlt

/-- Whatever a pass over places names first under some key, it met in this order. -/
theorem sublist_first_foldl_appendSource (places : List (String × PropertySource)) :
    ((places.foldl appendSource ∅).entries.filterMap fun e => e.2.sources.head?).Sublist
      (places.map Prod.snd) := by
  induction places using List.reverseRecOn with
  | nil => exact .refl _
  | append_singleton places place ih =>
      rw [List.foldl_append, List.foldl_cons, List.foldl_nil, List.map_append]
      have hget := get?_foldl_appendSource places place.1
      generalize places.foldl appendSource ∅ = index at ih hget ⊢
      by_cases hnil : placesNamed places place.1 = []
      · -- a new key: its entry and its first place both go to the end
        rw [if_pos hnil] at hget
        have hnew : place.1 ∉ index.entries.map Prod.fst := OrderedMap.get?_eq_none_iff.mp hget
        have hentries : (appendSource index place).entries =
            index.entries ++ [(place.1, ⟨[place.2], []⟩)] := by
          rw [appendSource, hget]
          exact OrderedMap.upsert_of_notMem _ hnew
        rw [hentries, List.filterMap_append]
        exact ih.append (.refl _)
      · -- a known key: its entry has a first place already
        rw [if_neg hnil] at hget
        have hheads : (appendSource index place).entries.map (fun e => e.2.sources.head?) =
            index.entries.map fun e => e.2.sources.head? := by
          rw [appendSource, hget]
          refine OrderedMap.map_upsert_of_lookup (f := fun e => e.sources.head?) hget ?_
          exact List.head?_append_of_ne_nil _ hnil
        have hfirst := congrArg (List.filterMap fun s : Option PropertySource => s) hheads
        rw [List.filterMap_map, List.filterMap_map] at hfirst
        exact (hfirst ▸ ih).trans (List.sublist_append_left _ _)

/-- An entry of a rebuilt index names the places that have its key. -/
theorem of_mem_sourceLists_withPropertyIndex {e : String × List PropertySource}
    (he : e ∈ m.withPropertyIndex.sourceLists) :
    e.2 = placesNamed m.propertyPlaces e.1 ∧ e.2 ≠ [] := by
  obtain ⟨⟨key, entry⟩, hentry, rfl⟩ := List.mem_map.mp he
  have hget := OrderedMap.mem_entries_iff.mp hentry
  rw [withPropertyIndex, get?_foldl_appendSource] at hget
  split at hget
  · cases hget
  · rename_i hne
    obtain rfl := Option.some.inj hget
    exact ⟨rfl, hne⟩

/-- The properties at the places of a key are those that have it. -/
theorem filterMap_placesNamed (m : Model) (key : String) :
    (placesNamed m.propertyPlaces key).filterMap m.property? =
      m.allProperties.filter fun p => p.indexKey = key := by
  rw [placesNamed, List.filterMap_map, List.filterMap_filter, propertyPlaces, allProperties,
    List.filterMap_flatMap, List.filter_flatMap, OrderedMap.values, List.flatMap_map]
  refine List.flatMap_congr fun e he => ?_
  rw [List.filterMap_map, ← List.filterMap_eq_filter]
  conv_rhs => rw [← List.zipIdx_map_fst 0 e.2.properties, List.filterMap_map]
  refine List.filterMap_congr fun p hp => ?_
  simp [property?_of_mem_zipIdx (OrderedMap.mem_entries_iff.mp he) hp, Option.guard]

/-- The index that is made in one pass over the places of a model partitions its properties. -/
theorem hasExactIndex_withPropertyIndex (m : Model) : m.withPropertyIndex.HasExactIndex where
  count_eq_one s p hp := by
    have hplaces : (m.withPropertyIndex.sourceLists.flatMap Prod.snd).Perm
        (m.propertyPlaces.map Prod.snd) := by
      refine .trans (.of_eq ?_) (m.indexedPlaces_withPropertyIndex_perm.map Prod.snd)
      rw [sourceLists, List.flatMap_map, indexedPlaces, placesIn, List.map_flatMap]
      simp [Function.comp_def]
    have hmem : (p.indexKey, s) ∈ m.propertyPlaces :=
      mem_propertyPlaces_iff.mpr (congrArg (Option.map Property.indexKey) hp)
    have hnodup : (m.propertyPlaces.map Prod.snd).Nodup := by
      refine m.pairwise_propertyPlaces.imp fun hst he => ?_
      subst he
      exact hst.elim (Nat.lt_irrefl _) fun h => Nat.lt_irrefl _ h.2
    rw [hplaces.count_eq]
    exact List.count_eq_one_of_mem hnodup (List.mem_map_of_mem hmem)
  indexKey_eq e he s hs := by
    rw [(of_mem_sourceLists_withPropertyIndex he).1] at hs
    obtain ⟨⟨key, s'⟩, hplace, rfl⟩ := List.mem_map.mp hs
    obtain ⟨hplace, hkey⟩ := List.mem_filter.mp hplace
    obtain rfl : key = e.1 := of_decide_eq_true hkey
    exact mem_propertyPlaces_iff.mp hplace
  ne_nil e he := (of_mem_sourceLists_withPropertyIndex he).2
  propertiesNamed_eq key := by
    rw [propertiesNamed, withPropertyIndex, get?_foldl_appendSource]
    refine .trans ?_ (m.filterMap_placesNamed key)
    by_cases hnil : placesNamed m.propertyPlaces key = []
    · rw [if_pos hnil, hnil]
      rfl
    · rw [if_neg hnil]
      rfl
  pairwise_first := by
    rw [sourceLists, List.filterMap_map]
    exact m.pairwise_propertyPlaces.sublist (sublist_first_foldl_appendSource m.propertyPlaces)
  pairwise_sources e he := by
    rw [(of_mem_sourceLists_withPropertyIndex he).1]
    exact m.pairwise_propertyPlaces.sublist (List.filter_sublist.map Prod.snd)

/-- Back references are no part of the index. -/
theorem HasExactIndex.withReferees (hm : m.HasExactIndex) : m.withReferees.HasExactIndex := by
  have hlists : m.withReferees.sourceLists = m.sourceLists := List.map_map
  have hprecedes : m.withReferees.Precedes = m.Precedes := by
    have hkeys : m.withReferees.classes.keys = m.classes.keys := OrderedMap.keys_mapWithKey _ _
    funext s t
    rw [Precedes, Precedes, hkeys]
  have hnamed : ∀ key, m.withReferees.propertiesNamed key = m.propertiesNamed key := by
    intro key
    rw [propertiesNamed, properties_withReferees, OrderedMap.map, OrderedMap.get?_mapWithKey,
      propertiesNamed]
    cases m.properties.get? key with
    | none => rfl
    | some entry => exact List.filterMap_congr fun s _ => m.property?_withReferees s
  have hproperties : m.withReferees.allProperties = m.allProperties := by
    simp only [allProperties, classes_withReferees, OrderedMap.values, OrderedMap.mapWithKey,
      List.map_map, List.flatMap_map, Function.comp_apply]
  constructor
  · simpa only [hlists, property?_withReferees] using hm.count_eq_one
  · simpa only [hlists, property?_withReferees] using hm.indexKey_eq
  · simpa only [hlists] using hm.ne_nil
  · simpa only [hnamed, hproperties] using hm.propertiesNamed_eq
  · simpa only [hlists, hprecedes] using hm.pairwise_first
  · simpa only [hlists, hprecedes] using hm.pairwise_sources

/-- Whatever index a model has, rebuilding it gives one that partitions the properties. Whatever
building and extracting return has such an index. -/
theorem withPropertyIndex_partitions (m : Model) :
    m.withPropertyIndex.HasExactIndex ∧
      (∀ index, { m with properties := index }.withPropertyIndex = m.withPropertyIndex) ∧
      (∀ config resource document result, build config resource document = .ok result →
        result.model.HasExactIndex) ∧
      ∀ origin names options v, m.extractView origin names options = .ok v → v.HasExactIndex := by
  refine ⟨m.hasExactIndex_withPropertyIndex, fun _ => rfl, ?_, ?_⟩
  · intro config resource document result h
    obtain ⟨_, d, _, rfl, _⟩ := exists_draft_of_build h
    exact (hasExactIndex_withPropertyIndex d.applyAssociations.model).withReferees
  · intro origin names options v h
    obtain ⟨_, _, h⟩ := exists_of_bind_eq_ok h
    obtain rfl := Except.ok.inj h
    exact (hasExactIndex_withPropertyIndex _).withReferees

/-- A model with two names, of which two classes share the first one, and its view of one class. -/
theorem withPropertyIndex_partitions_sharedDocument :
    ∃ result v, build viewedConfig none sharedDocument = .ok result ∧
      result.model.HasExactIndex ∧
      result.model.sourceLists =
        [("x", [⟨⟨"A"⟩, 0⟩, ⟨⟨"B"⟩, 0⟩]), ("y", [⟨⟨"B"⟩, 1⟩])] ∧
      result.model.extractView .unknown ["V"] ⟨false, false⟩ = .ok v ∧ v.HasExactIndex := by
  obtain ⟨result, h, hlists⟩ := exists_of_map_toOption_eq_some
    (x := build viewedConfig none sharedDocument) (f := fun r => r.model.sourceLists)
    (b := [("x", [⟨⟨"A"⟩, 0⟩, ⟨⟨"B"⟩, 0⟩]), ("y", [⟨⟨"B"⟩, 1⟩])]) (by decide +kernel)
  obtain ⟨v, hv, _⟩ :=
    (isSound_of_build h).isLeast_extractView .unknown ["V"] ⟨false, false⟩
  obtain ⟨_, _, hbuilt, hextracted⟩ := withPropertyIndex_partitions result.model
  exact ⟨result, v, h, hbuilt _ _ _ _ h, hlists, hv, hextracted _ _ _ _ hv⟩

end Model
end UmlCatalog
