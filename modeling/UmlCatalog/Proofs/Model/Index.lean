import Mathlib.Data.List.Nodup
import Mathlib.Data.List.Perm.Basic
import UmlCatalog.Model.Index

/-!
# The places of the property index

An index names places, each a property of a class. Rebuilding the index takes in the places of a
model one after the other, so in the end it names each of them once, under the key of its property.
-/

namespace UmlCatalog

/-- Elements in the order in which a list first mentions them. -/
structure IsFirstMention {α : Type} [DecidableEq α] (firsts l : List α) : Prop where
  mem_iff : ∀ x, x ∈ firsts ↔ x ∈ l
  /-- What comes first is mentioned first, so nothing comes twice. -/
  pairwise : firsts.Pairwise fun x y => l.idxOf x < l.idxOf y

namespace IsFirstMention
variable {α : Type} [DecidableEq α] {firsts l : List α} {x : α}

theorem nodup (h : IsFirstMention firsts l) : firsts.Nodup := by
  refine h.pairwise.imp fun {a b} hlt heq => ?_
  rw [heq] at hlt
  exact Nat.lt_irrefl _ hlt

/-- At most one element is mentioned if all that is mentioned is the same. -/
theorem length_le_one_iff (h : IsFirstMention firsts l) :
    firsts.length ≤ 1 ↔ ∀ x ∈ l, ∀ y ∈ l, x = y := by
  have hmem : (∀ x ∈ l, ∀ y ∈ l, x = y) ↔ ∀ x ∈ firsts, ∀ y ∈ firsts, x = y := by
    simp only [h.mem_iff]
  rw [hmem]
  have hnodup := h.nodup
  clear hmem h
  match firsts with
  | [] => simp
  | [a] => simp
  | a :: b :: rest =>
      have hab : a ≠ b := fun he => (List.nodup_cons.mp hnodup).1 (he ▸ List.mem_cons_self)
      refine iff_of_false (by simp) fun hall => hab ?_
      exact hall a List.mem_cons_self b (List.mem_cons_of_mem a List.mem_cons_self)

/-- Mentioning an element again adds nothing. -/
theorem append_of_mem (h : IsFirstMention firsts l) (hx : x ∈ l) :
    IsFirstMention firsts (l ++ [x]) where
  mem_iff y := by
    rw [h.mem_iff, List.mem_append, List.mem_singleton]
    exact ⟨Or.inl, fun hy => hy.elim id fun he => he ▸ hx⟩
  pairwise := by
    refine h.pairwise.imp_of_mem fun {a b} ha hb hlt => ?_
    rw [List.idxOf_append_of_mem ((h.mem_iff a).mp ha),
      List.idxOf_append_of_mem ((h.mem_iff b).mp hb)]
    exact hlt

/-- An element that was not mentioned goes behind the others. -/
theorem append_of_not_mem (h : IsFirstMention firsts l) (hx : x ∉ l) :
    IsFirstMention (firsts ++ [x]) (l ++ [x]) where
  mem_iff y := by rw [List.mem_append, List.mem_append, h.mem_iff]
  pairwise := by
    have hold : ∀ a ∈ firsts, (l ++ [x]).idxOf a = l.idxOf a := fun a ha =>
      List.idxOf_append_of_mem ((h.mem_iff a).mp ha)
    refine List.pairwise_append.mpr ⟨?_, List.pairwise_singleton _ _, fun a ha b hb => ?_⟩
    · refine h.pairwise.imp_of_mem fun {a b} ha hb hlt => ?_
      rw [hold a ha, hold b hb]
      exact hlt
    · obtain rfl := List.mem_singleton.mp hb
      calc (l ++ [b]).idxOf a = l.idxOf a := hold a ha
        _ < l.length := List.idxOf_lt_length_iff.mpr ((h.mem_iff a).mp ha)
        _ ≤ l.length + [b].idxOf b := Nat.le_add_right _ _
        _ = (l ++ [b]).idxOf b := (List.idxOf_append_of_notMem hx).symm

end IsFirstMention

namespace OrderedSet
variable {κ : Type} [DecidableEq κ]

theorem isFirstMention_insert {s : OrderedSet κ} {l : List κ} (h : IsFirstMention s.toList l)
    (k : κ) : IsFirstMention (s.insert k).toList (l ++ [k]) := by
  unfold insert
  split
  · rename_i hk
    exact h.append_of_mem ((h.mem_iff k).mp hk)
  · rename_i hk
    exact h.append_of_not_mem fun hmem => hk ((h.mem_iff k).mpr hmem)

/-- The set of a list has its elements in the order of their first mention. -/
theorem isFirstMention_ofList (l : List κ) : IsFirstMention (ofList l).toList l := by
  have hinsert : ∀ (l before : List κ) (s : OrderedSet κ), IsFirstMention s.toList before →
      IsFirstMention (s.insertMany l).toList (before ++ l) := by
    intro l
    induction l with
    | nil =>
        intro before s h
        rw [List.append_nil]
        exact h
    | cons k l ih =>
        intro before s h
        rw [insertMany_cons, List.append_cons]
        exact ih (before ++ [k]) (s.insert k) (isFirstMention_insert h k)
  exact hinsert l [] ∅ ⟨fun _ => Iff.rfl, .nil⟩

end OrderedSet

namespace Model

/-- The properties of all classes. -/
def allProperties (m : Model) : List Property := m.classes.values.flatMap Class.properties

/-- The places that an index names, each with the key under which it is found. -/
def placesIn (index : OrderedMap String PropertyEntry) : List (String × PropertySource) :=
  index.entries.flatMap fun e => e.2.sources.map fun source => (e.1, source)

/-- The places that the index of a model names. -/
def indexedPlaces (m : Model) : List (String × PropertySource) := placesIn m.properties

/-- An index that takes in one more place names it besides the others. -/
theorem placesIn_appendSource_perm (index : OrderedMap String PropertyEntry)
    (place : String × PropertySource) :
    (placesIn (appendSource index place)).Perm (placesIn index ++ [place]) := by
  obtain ⟨key, source⟩ := place
  obtain ⟨entries, hnodup⟩ := index
  let found : String × PropertyEntry → List (String × PropertySource) := fun e =>
    e.2.sources.map fun source => (e.1, source)
  let grown (old : PropertyEntry) : PropertyEntry :=
    { old with sources := old.sources ++ [source] }
  show ((OrderedMap.upsert key (grown ((entries.lookup key).getD ⟨[], []⟩)) entries).flatMap
    found).Perm (entries.flatMap found ++ [(key, source)])
  clear hnodup
  induction entries with
  | nil => exact .refl _
  | cons e rest ih =>
      obtain ⟨k, old⟩ := e
      by_cases hk : k = key
      · subst hk
        have hfound : found (k, grown old) = found (k, old) ++ [(k, source)] := by
          simp [found, grown]
        simp only [OrderedMap.upsert, List.lookup_cons_self, Option.getD_some, if_true,
          List.flatMap_cons, hfound, List.append_assoc]
        exact List.perm_append_comm.append_left _
      · have hne : (key == k) = false := beq_eq_false_iff_ne.mpr fun h => hk h.symm
        simp only [OrderedMap.upsert, List.lookup_cons, hne, hk, if_false, List.flatMap_cons,
          List.append_assoc]
        exact ih.append_left _

theorem indexedPlaces_withPropertyIndex_perm (m : Model) :
    m.withPropertyIndex.indexedPlaces.Perm m.propertyPlaces := by
  have hfold : ∀ (places : List (String × PropertySource)) (index),
      (placesIn (places.foldl appendSource index)).Perm (placesIn index ++ places) := by
    intro places
    induction places with
    | nil =>
        intro index
        rw [List.append_nil]
        exact .refl _
    | cons place places ih =>
        intro index
        rw [List.append_cons]
        exact (ih _).trans ((placesIn_appendSource_perm index place).append_right places)
  exact hfold m.propertyPlaces ∅

theorem mem_propertyPlaces_iff {m : Model} {place : String × PropertySource} :
    place ∈ m.propertyPlaces ↔ (m.property? place.2).map Property.indexKey = some place.1 := by
  obtain ⟨key, k, i⟩ := place
  simp only [propertyPlaces, property?, List.mem_flatMap, List.mem_map, Option.map_eq_some_iff,
    Option.bind_eq_some_iff]
  constructor
  · rintro ⟨⟨k', c⟩, hc, ⟨p, i'⟩, hp, heq⟩
    obtain ⟨rfl, hsource⟩ := Prod.mk.inj heq
    obtain ⟨rfl, rfl⟩ := PropertySource.mk.inj hsource
    exact ⟨p, ⟨c, OrderedMap.mem_entries_iff.mp hc, List.mk_mem_zipIdx_iff_getElem?.mp hp⟩, rfl⟩
  · rintro ⟨p, ⟨c, hc, hp⟩, rfl⟩
    exact ⟨(k, c), OrderedMap.mem_entries_iff.mpr hc, (p, i),
      List.mk_mem_zipIdx_iff_getElem?.mpr hp, rfl⟩

/-- At the positions of a class stand its properties. -/
theorem property?_of_mem_zipIdx {m : Model} {k : ElementId} {c : Class}
    (hc : m.classes.get? k = some c) {p : Property × Nat} (hp : p ∈ c.properties.zipIdx) :
    m.property? ⟨k, p.2⟩ = some p.1 := by
  rw [property?, hc, Option.bind_some]
  exact List.mk_mem_zipIdx_iff_getElem?.mp hp

/-- No place is named twice: the classes differ in their keys, and the properties of one class in
their positions. -/
theorem nodup_propertyPlaces (m : Model) : m.propertyPlaces.Nodup := by
  refine List.nodup_flatMap.mpr ⟨fun e _ => ?_, ?_⟩
  · refine List.Nodup.of_map (fun place => place.2.index) ?_
    rw [List.map_map]
    show ((e.2.properties.zipIdx.map Prod.snd)).Nodup
    rw [List.zipIdx_map_snd]
    exact List.nodup_range' ..
  · refine (List.pairwise_map.mp m.classes.nodup_keys).imp fun hne => ?_
    intro place hleft hright
    obtain ⟨_, _, rfl⟩ := List.mem_map.mp hleft
    obtain ⟨_, _, heq⟩ := List.mem_map.mp hright
    exact hne (congrArg (fun place => place.2.classId) heq).symm

/-- A rebuilt index names each property once, under its own key, and nothing else. -/
theorem count_indexedPlaces_withPropertyIndex (m : Model) (place : String × PropertySource) :
    m.withPropertyIndex.indexedPlaces.count place =
      if (m.property? place.2).map Property.indexKey = some place.1 then 1 else 0 := by
  calc m.withPropertyIndex.indexedPlaces.count place
    _ = m.propertyPlaces.count place := m.indexedPlaces_withPropertyIndex_perm.count_eq place
    _ = if place ∈ m.propertyPlaces then 1 else 0 := m.nodup_propertyPlaces.count
    _ = _ := if_congr mem_propertyPlaces_iff rfl rfl

end Model
end UmlCatalog
