import Mathlib.Data.List.Induction
import UmlCatalog.Proofs.Hierarchy.Closure
import UmlCatalog.Proofs.Model.Referees

/-!
# Models that agree up to order

Two models agree up to order if they have the same identifiers in every arena and the same records
under them, apart from the order in which packages list their elements, index entries their places
and records their back references. Rebuilding the index and the back references of models with the
same contents gives models that agree up to order.
-/

namespace UmlCatalog
open Relation

/-- Related results are both there or both missing. -/
theorem isSome_iff_of_rel {α β : Type} {R : α → β → Prop} {o : Option α} {o' : Option β}
    (h : Option.Rel R o o') : o.isSome ↔ o'.isSome := by
  cases h with
  | some _ => exact Iff.rfl
  | none => exact Iff.rfl

/-- What related results have in common is the same. -/
theorem map_eq_of_rel {α β γ : Type} {R : α → β → Prop} {o : Option α} {o' : Option β}
    (h : Option.Rel R o o') {f : α → γ} {g : β → γ} (hfg : ∀ {a b}, R a b → f a = g b) :
    o.map f = o'.map g := by
  cases h with
  | some hr => exact congrArg some (hfg hr)
  | none => rfl

namespace OrderedMap
variable {κ α β : Type} [DecidableEq κ] {m m' : OrderedMap κ α} {R : α → α → Prop}

/-- Two maps have the same keys, and related values under each of them. -/
structure Agrees (R : α → α → Prop) (m m' : OrderedMap κ α) : Prop where
  keys : m.keys.Perm m'.keys
  values : ∀ {k a a'}, m.get? k = some a → m'.get? k = some a' → R a a'

/-- Maps agree if whatever is found in one of them has its counterpart in the other. -/
theorem agrees_of_rel (h : ∀ k, Option.Rel R (m.get? k) (m'.get? k)) : Agrees R m m' where
  keys := by
    refine (List.perm_ext_iff_of_nodup m.keys_nodup m'.keys_nodup).mpr fun k => ?_
    rw [← get?_isSome_iff, ← get?_isSome_iff]
    exact isSome_iff_of_rel (h k)
  values := by
    intro k a a' ha ha'
    have hk := h k
    rw [ha, ha'] at hk
    cases hk with
    | some hr => exact hr

theorem Agrees.rel (h : Agrees R m m') (k : κ) : Option.Rel R (m.get? k) (m'.get? k) := by
  have hsome : (m.get? k).isSome ↔ (m'.get? k).isSome := by
    rw [get?_isSome_iff, get?_isSome_iff]
    exact h.keys.mem_iff
  cases ha : m.get? k with
  | none =>
      have hnone : m'.get? k = none := by
        rw [ha] at hsome
        exact Option.not_isSome_iff_eq_none.mp fun hs => nomatch hsome.mpr hs
      rw [hnone]
      exact .none
  | some a =>
      rw [ha] at hsome
      obtain ⟨a', ha'⟩ := Option.isSome_iff_exists.mp (hsome.mp rfl)
      rw [ha']
      exact .some (h.values ha ha')

theorem agrees_eq_iff : Agrees Eq m m' ↔ ∀ k, m'.get? k = m.get? k := by
  constructor
  · intro h k
    rw [← Option.map_id' (x := m.get? k), ← Option.map_id' (x := m'.get? k)]
    exact (map_eq_of_rel (h.rel k) id).symm
  · intro h
    refine agrees_of_rel fun k => ?_
    rw [h k]
    cases m.get? k with
    | none => exact .none
    | some a => exact .some rfl

/-- Maps with the same values under each key have the same values in another order. -/
theorem Agrees.values_perm (h : Agrees Eq m m') : m.values.Perm m'.values := by
  refine List.Perm.map Prod.snd ?_
  refine (List.perm_ext_iff_of_nodup (.of_map _ m.nodup_keys) (.of_map _ m'.nodup_keys)).mpr ?_
  rintro ⟨k, a⟩
  rw [mem_entries_iff, mem_entries_iff, agrees_eq_iff.mp h]

/-- Values of maps that agree may be changed in ways that respect the agreement. -/
theorem Agrees.mapWithKey (h : Agrees R m m') {S : β → β → Prop} {f f' : κ → α → β}
    (hf : ∀ k a a', m.get? k = some a → R a a' → S (f k a) (f' k a')) :
    Agrees S (m.mapWithKey f) (m'.mapWithKey f') where
  keys := by
    rw [keys_mapWithKey, keys_mapWithKey]
    exact h.keys
  values := by
    intro k b b' hb hb'
    rw [get?_mapWithKey] at hb hb'
    obtain ⟨a, ha, rfl⟩ := Option.map_eq_some_iff.mp hb
    obtain ⟨a', ha', rfl⟩ := Option.map_eq_some_iff.mp hb'
    exact hf k a a' ha (h.values ha ha')

end OrderedMap

/-- Two hierarchies register the same elements, with the same ones above and below each of them. -/
structure Hierarchy.SameNodes (h h' : Hierarchy) : Prop where
  contains_iff : ∀ x, h.contains x = true ↔ h'.contains x = true
  mem_roots_iff : ∀ x, x ∈ h.roots ↔ x ∈ h'.roots
  mem_parentsOf_iff : ∀ x y, y ∈ h.parentsOf x ↔ y ∈ h'.parentsOf x
  mem_childrenOf_iff : ∀ x y, y ∈ h.childrenOf x ↔ y ∈ h'.childrenOf x

/-- Closures of the same edges have the same nodes, in whatever order the edges were recorded. -/
theorem Hierarchy.IsClosure.sameNodes {h h' : Hierarchy} {edge : ElementId → ElementId → Prop}
    {single : ElementId → Prop} (hh : h.IsClosure edge single) (hh' : h'.IsClosure edge single) :
    h.SameNodes h' where
  contains_iff x := by rw [hh.contains_iff, hh'.contains_iff]
  mem_roots_iff x := by
    rw [hh.mem_roots_iff, hh'.mem_roots_iff, hh.contains_iff, hh'.contains_iff]
  mem_parentsOf_iff x y := by rw [hh.mem_parentsOf_iff, hh'.mem_parentsOf_iff]
  mem_childrenOf_iff x y := by rw [hh.mem_childrenOf_iff, hh'.mem_childrenOf_iff]

/-- The same package with its elements in another order. -/
def Package.SameUpToOrder (p p' : Package) : Prop :=
  p.elements.Perm p'.elements ∧ p' = { p with elements := p'.elements }

/-- The same class with its back references in another order. -/
def Class.SameUpToOrder (c c' : Class) : Prop :=
  c.referees.Perm c'.referees ∧ c' = { c with referees := c'.referees }

/-- The same enumeration with its back references in another order. -/
def Enumeration.SameUpToOrder (e e' : Enumeration) : Prop :=
  e.referees.Perm e'.referees ∧ e' = { e with referees := e'.referees }

/-- The same datatype with its back references in another order. -/
def Datatype.SameUpToOrder (d d' : Datatype) : Prop :=
  d.referees.Perm d'.referees ∧ d' = { d with referees := d'.referees }

/-- The same places and the same types in another order. -/
def PropertyEntry.SameUpToOrder (e e' : PropertyEntry) : Prop :=
  e.sources.Perm e'.sources ∧ e.uniformType.Perm e'.uniformType

namespace Model
variable {m m' : Model}

/-- Two models agree in everything but the order of what they hold. -/
structure SameUpToOrder (m m' : Model) : Prop where
  id : m.id = m'.id
  name : m.name = m'.name
  source : m.source = m'.source
  packages : m.packages.Agrees Package.SameUpToOrder m'.packages
  classes : m.classes.Agrees Class.SameUpToOrder m'.classes
  properties : m.properties.Agrees PropertyEntry.SameUpToOrder m'.properties
  enums : m.enums.Agrees Enumeration.SameUpToOrder m'.enums
  datatypes : m.datatypes.Agrees Datatype.SameUpToOrder m'.datatypes
  imports : m.imports.Agrees Eq m'.imports
  associations : m.associations.Agrees Eq m'.associations
  classHierarchy : m.classHierarchy.SameNodes m'.classHierarchy
  packageHierarchy : m.packageHierarchy.SameNodes m'.packageHierarchy
  views : m.views.Perm m'.views

/-- Two models have the same contents in some order, whatever their indexes say. -/
structure SameDeclared (m m' : Model) : Prop where
  id : m.id = m'.id
  name : m.name = m'.name
  source : m.source = m'.source
  packages : m.packages.Agrees Package.SameUpToOrder m'.packages
  classes : m.classes.Agrees Eq m'.classes
  enums : m.enums.Agrees Eq m'.enums
  datatypes : m.datatypes.Agrees Eq m'.datatypes
  imports : m.imports.Agrees Eq m'.imports
  associations : m.associations.Agrees Eq m'.associations
  classHierarchy : m.classHierarchy.SameNodes m'.classHierarchy
  packageHierarchy : m.packageHierarchy.SameNodes m'.packageHierarchy
  views : m.views.Perm m'.views

/-- The places that are listed under a key, in their order. -/
def placesNamed (places : List (String × PropertySource)) (key : String) : List PropertySource :=
  (places.filter fun place => place.1 = key).map Prod.snd

/-- An index has an entry for each key that places are listed under, with these places. -/
theorem get?_foldl_appendSource (places : List (String × PropertySource)) (key : String) :
    (places.foldl appendSource ∅).get? key =
      if placesNamed places key = [] then none else some ⟨placesNamed places key, []⟩ := by
  induction places using List.reverseRecOn with
  | nil => rfl
  | append_singleton places place ih =>
      rw [List.foldl_append, List.foldl_cons, List.foldl_nil]
      have hnamed : placesNamed (places ++ [place]) key =
          placesNamed places key ++ if place.1 = key then [place.2] else [] := by
        by_cases hkey : place.1 = key
        · simp [placesNamed, hkey]
        · simp [placesNamed, hkey]
      by_cases hkey : place.1 = key
      · rw [hnamed, if_pos hkey, if_neg (by simp)]
        rw [← hkey] at ih ⊢
        rw [appendSource, OrderedMap.get?_insert_self, ih]
        by_cases hnil : placesNamed places place.1 = []
        · rw [if_pos hnil, hnil]
          rfl
        · rw [if_neg hnil]
          rfl
      · rw [hnamed, if_neg hkey, List.append_nil, ← ih]
        exact OrderedMap.get?_insert_of_ne _ _ (Ne.symm hkey)

/-- The same classes have the same properties at each place. -/
theorem property?_eq_of_agrees (h : m.classes.Agrees Eq m'.classes) (source : PropertySource) :
    m'.property? source = m.property? source := by
  rw [property?, property?, OrderedMap.agrees_eq_iff.mp h]

theorem propertyPlaces_perm (h : m.classes.Agrees Eq m'.classes) :
    m.propertyPlaces.Perm m'.propertyPlaces := by
  refine (List.perm_ext_iff_of_nodup m.nodup_propertyPlaces m'.nodup_propertyPlaces).mpr ?_
  intro place
  rw [mem_propertyPlaces_iff, mem_propertyPlaces_iff, property?_eq_of_agrees h]

/-- Models with the same classes have the same places in their indexes. -/
theorem agrees_properties_withPropertyIndex (h : m.classes.Agrees Eq m'.classes) :
    m.withPropertyIndex.properties.Agrees (fun e e' => e.sources.Perm e'.sources)
      m'.withPropertyIndex.properties := by
  refine OrderedMap.agrees_of_rel fun key => ?_
  show Option.Rel _ ((m.propertyPlaces.foldl appendSource ∅).get? key)
    ((m'.propertyPlaces.foldl appendSource ∅).get? key)
  have hnamed : (placesNamed m.propertyPlaces key).Perm (placesNamed m'.propertyPlaces key) :=
    ((propertyPlaces_perm h).filter _).map _
  rw [get?_foldl_appendSource, get?_foldl_appendSource]
  by_cases hnil : placesNamed m.propertyPlaces key = []
  · rw [if_pos hnil, if_pos (hnil ▸ hnamed).nil_eq.symm]
    exact .none
  · have hnil' : placesNamed m'.propertyPlaces key ≠ [] := fun hnil' =>
      hnil (hnamed.trans (.of_eq hnil')).eq_nil
    rw [if_neg hnil, if_neg hnil']
    exact .some hnamed

section Referees
variable (hc : m.classes.Agrees Eq m'.classes)
include hc

/-- The types of an entry depend on its places and not on their order. -/
theorem minimalTypes_perm {e e' : PropertyEntry} (he : e.sources.Perm e'.sources) :
    (m.minimalTypes e).Perm (m'.minimalTypes e') := by
  have hkeys : (m.targetKeys e).Perm (m'.targetKeys e') := by
    unfold targetKeys
    simp only [property?_eq_of_agrees hc]
    exact he.filterMap _
  refine (List.perm_ext_iff_of_nodup (OrderedSet.nodup _) (OrderedSet.nodup _)).mpr fun key => ?_
  rw [OrderedSet.mem_toList, OrderedSet.mem_toList, OrderedSet.mem_ofList, OrderedSet.mem_ofList]
  exact hkeys.mem_iff

theorem backReferences_withPropertyIndex_perm (id : ElementId) :
    (m.withPropertyIndex.backReferences id).Perm (m'.withPropertyIndex.backReferences id) := by
  have hplaces : m.withPropertyIndex.indexedPlaces.Perm m'.withPropertyIndex.indexedPlaces :=
    m.indexedPlaces_withPropertyIndex_perm.trans
      ((propertyPlaces_perm hc).trans m'.indexedPlaces_withPropertyIndex_perm.symm)
  have hproperty : ∀ source,
      m'.withPropertyIndex.property? source = m.withPropertyIndex.property? source :=
    property?_eq_of_agrees hc
  unfold backReferences
  simp only [hproperty]
  exact hplaces.filterMap _

/-- Models that declare the same give each element the same back references. -/
theorem refereesFor_withPropertyIndex_perm (he : m.enums.Agrees Eq m'.enums)
    (hd : m.datatypes.Agrees Eq m'.datatypes) (kind : ReferentKind) (id : ElementId) :
    (m.withPropertyIndex.refereesFor m.withPropertyIndex.refereeEdges kind id).Perm
      (m'.withPropertyIndex.refereesFor m'.withPropertyIndex.refereeEdges kind id) := by
  have hkind : m'.withPropertyIndex.referentKind? id = m.withPropertyIndex.referentKind? id :=
    referentKind?_congr hc.keys.symm he.keys.symm hd.keys.symm id
  rw [refereesFor, refereesFor, hkind, refereesAt_refereeEdges, refereesAt_refereeEdges]
  split
  · exact backReferences_withPropertyIndex_perm hc id
  · exact .refl _

end Referees

/-- Models with the same contents agree up to order once the index and the back references are
rebuilt. -/
theorem SameDeclared.withReferees (h : m.SameDeclared m') :
    m.withPropertyIndex.withReferees.SameUpToOrder m'.withPropertyIndex.withReferees where
  id := h.id
  name := h.name
  source := h.source
  packages := h.packages
  classes := by
    rw [classes_withReferees, classes_withReferees]
    refine h.classes.mapWithKey fun k c c' _ hc => ?_
    obtain rfl := hc
    exact ⟨refereesFor_withPropertyIndex_perm h.classes h.enums h.datatypes _ k, rfl⟩
  properties := by
    have hclasses : m.withPropertyIndex.classes.Agrees Eq m'.withPropertyIndex.classes := h.classes
    rw [properties_withReferees, properties_withReferees]
    refine (agrees_properties_withPropertyIndex h.classes).mapWithKey fun _ e e' _ he => ?_
    exact ⟨he, minimalTypes_perm hclasses he⟩
  enums := by
    rw [enums_withReferees, enums_withReferees]
    refine h.enums.mapWithKey fun k e e' _ he => ?_
    obtain rfl := he
    exact ⟨refereesFor_withPropertyIndex_perm h.classes h.enums h.datatypes _ k, rfl⟩
  datatypes := by
    rw [datatypes_withReferees, datatypes_withReferees]
    refine h.datatypes.mapWithKey fun k d d' _ hd => ?_
    obtain rfl := hd
    exact ⟨refereesFor_withPropertyIndex_perm h.classes h.enums h.datatypes _ k, rfl⟩
  imports := h.imports
  associations := h.associations
  classHierarchy := h.classHierarchy
  packageHierarchy := h.packageHierarchy
  views := h.views

end Model
end UmlCatalog
