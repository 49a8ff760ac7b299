import Mathlib.Algebra.GroupWithZero.Nat
import UmlCatalog.Proofs.View.BackReferences

/-!
# How often a back reference occurs

A class refers to an element once for each of its properties that is typed by it. So a back reference
says how many properties of one name and one type its class has, and it is repeated only if there are
several of them.
-/

namespace UmlCatalog

/-- The number of the properties of a class that have a key and are typed by an element. -/
def Class.usesOf (c : Class) (key : String) (id : ElementId) : Nat :=
  c.properties.countP fun p => p.indexKey = key ∧ p.targetKey? = some id.text

/-- What is summed up for one key only is what is found under it. -/
theorem OrderedMap.sum_map_entries {κ α : Type} [DecidableEq κ] (m : OrderedMap κ α) (k : κ)
    (f : α → Nat) :
    (m.entries.map fun e => if e.1 = k then f e.2 else 0).sum = ((m.get? k).map f).getD 0 := by
  obtain ⟨entries, hnodup⟩ := m
  show _ = ((entries.lookup k).map f).getD 0
  induction entries with
  | nil => rfl
  | cons e rest ih =>
      obtain ⟨j, a⟩ := e
      have hrest := List.nodup_cons.mp hnodup
      rw [List.map_cons, List.sum_cons, ih hrest.2]
      by_cases hj : j = k
      · subst hj
        have hnone : rest.lookup j = none := (get?_eq_none_iff (m := ⟨rest, hrest.2⟩)).mpr hrest.1
        rw [if_pos rfl, hnone, List.lookup_cons_self]
        rfl
      · have hkj : (k == j) = false := beq_eq_false_iff_ne.mpr (Ne.symm hj)
        rw [if_neg hj, List.lookup_cons, hkj, Nat.zero_add]

namespace Model
variable {m : Model}

/-- The back references of a model are one for each property, told by its class and its key. -/
structure RefersPerProperty (m : Model) : Prop where
  /-- An element that a target can name is referred to by a class, under a key, as often as the class
  has properties with this key that are typed by it. -/
  count_eq : ∀ c ∈ m.classes.values, ∀ id, m.referentKind? id ≠ none → ∀ key, ∃ referees,
    m.referees? id = some referees ∧ referees.count ⟨c.id, key⟩ = c.usesOf key id
  /-- Equal back references come from one class that has several such properties. -/
  exists_of_repeated : ∀ (kind : ReferentKind) id referees,
    kind.referees? m id = some referees → ∀ r, 1 < referees.count r →
      ∃ c ∈ m.classes.values, c.id = r.classId ∧ 1 < c.usesOf r.propName id

/-- Of the places in one class, as many have a key and a type as the class has such properties. -/
theorem countP_places {k : ElementId} {c : Class} (hc : m.classes.get? k = some c) (key : String)
    (id : ElementId) :
    (c.properties.zipIdx.countP fun p => p.1.indexKey = key ∧
      (m.property? ⟨k, p.2⟩).bind Property.targetKey? = some id.text) = c.usesOf key id := by
  rw [Class.usesOf]
  conv_rhs => rw [← List.zipIdx_map_fst 0 c.properties, List.countP_map]
  refine List.countP_congr fun p hp => ?_
  simp [property?_of_mem_zipIdx hc hp]

namespace HasExactReferees

/-- A class refers to an element once for each of its properties of that type. -/
theorem count_backReferences (hm : m.HasExactReferees) (id k : ElementId) (key : String) :
    (m.backReferences id).count ⟨k, key⟩ =
      ((m.classes.get? k).map fun c => c.usesOf key id).getD 0 := by
  let refers (place : String × PropertySource) : Bool :=
    place.2.classId = k ∧ place.1 = key ∧
      (m.property? place.2).bind Property.targetKey? = some id.text
  have hclass : ∀ e ∈ m.classes.entries,
      (e.2.properties.zipIdx.map fun p => (p.1.indexKey, PropertySource.mk e.1 p.2)).countP refers =
        if e.1 = k then e.2.usesOf key id else 0 := by
    intro e he
    rw [List.countP_map]
    split
    · rename_i hk
      rw [← countP_places (OrderedMap.mem_entries_iff.mp he)]
      refine List.countP_congr fun p _ => ?_
      simp [refers, hk]
    · rename_i hk
      refine List.countP_eq_zero.mpr fun p _ => ?_
      simp [refers, hk]
  calc (m.backReferences id).count ⟨k, key⟩
    _ = m.indexedPlaces.countP refers := by
        rw [backReferences, List.count_filterMap]
        refine List.countP_congr fun place _ => ?_
        by_cases htarget : (m.property? place.2).bind Property.targetKey? = some id.text
        · simp [refers, htarget]
        · simp [refers, htarget]
    _ = m.propertyPlaces.countP refers := hm.indexedPlaces_perm.countP_eq refers
    _ = (m.classes.entries.map fun e => if e.1 = k then e.2.usesOf key id else 0).sum := by
        rw [propertyPlaces, List.countP_flatMap]
        exact congrArg List.sum (List.map_congr_left hclass)
    _ = _ := m.classes.sum_map_entries k fun c => c.usesOf key id

/-- A record that has back references has those of its identifier. -/
theorem eq_backReferences (hm : m.HasExactReferees) {kind : ReferentKind} {id : ElementId}
    {referees : List Referee} (h : kind.referees? m id = some referees) (hne : referees ≠ []) :
    referees = m.backReferences id := by
  by_cases hkind : m.referentKind? id = some kind
  · have hreferees := hm.referees?_eq id (hkind ▸ nofun)
    rw [referees?_eq_of_referentKind? hkind, h] at hreferees
    exact Option.some.inj hreferees
  · refine absurd ?_ hne
    cases kind with
    | umlClass =>
        obtain ⟨c, hc, _⟩ := Option.map_eq_some_iff.mp h
        exact absurd (if_pos (OrderedMap.contains_iff.mpr (OrderedMap.mem_keys_of_get? hc))) hkind
    | enumeration =>
        obtain ⟨e, he, rfl⟩ := Option.map_eq_some_iff.mp h
        exact hm.enumeration_shadowed id e he hkind
    | datatype =>
        obtain ⟨d, hd, rfl⟩ := Option.map_eq_some_iff.mp h
        exact hm.datatype_shadowed id d hd hkind

theorem refersPerProperty (hm : m.HasExactReferees)
    (hids : ∀ {k c}, m.classes.get? k = some c → c.id = k) : m.RefersPerProperty where
  count_eq c hc id hid key := by
    obtain ⟨k, hk⟩ := OrderedMap.exists_get?_of_mem_values hc
    obtain rfl := hids hk
    refine ⟨_, hm.referees?_eq id hid, ?_⟩
    rw [hm.count_backReferences, hk]
    rfl
  exists_of_repeated kind id referees h := by
    rintro ⟨k, key⟩ hcount
    have hne : referees ≠ [] := by
      rintro rfl
      cases hcount
    rw [hm.eq_backReferences h hne, hm.count_backReferences] at hcount
    cases hk : m.classes.get? k with
    | none =>
        rw [hk] at hcount
        cases hcount
    | some c =>
        rw [hk] at hcount
        exact ⟨c, OrderedMap.mem_values_of_get? hk, hids hk, hcount⟩

end HasExactReferees
end Model

/-- A built model has one back reference for each property of a class whose target names an element,
under the class and the key of the property. So a back reference is there as often as the class has
properties with this key and this type, and only repeated properties make it repeated. -/
theorem build_refersPerProperty {config : BuildConfig} {resource : Option String}
    {document : Markup.Element} {result : BuildResult}
    (h : build config resource document = .ok result) : result.model.RefersPerProperty :=
  (Model.IsObtained.built h).isIndexed.hasExactReferees.refersPerProperty
    (Model.isSound_of_build h).id_of_get?

/-- A class with two properties of one name and one type, and another one of this type. -/
def repeatedNameDocument : Markup.Element :=
  let typed id name := ⟨"ownedAttribute",
    .ofList [("xmi:id", id), ("name", name), ("type", "D")], none, []⟩
  packaged "uml:Model" "m" [packaged "uml:Package" "p" [
    packaged "uml:Class" "C" [typed "a" "x", typed "b" "x", typed "c" "y"],
    packaged "uml:DataType" "D" []]]

theorem build_refersPerProperty_repeatedNameDocument :
    ∃ result, build .standard none repeatedNameDocument = .ok result ∧
      result.model.RefersPerProperty ∧
      result.model.classes.values.map (fun c => (c.id, c.usesOf "x" ⟨"D"⟩, c.usesOf "y" ⟨"D"⟩)) =
        [(⟨"C"⟩, 2, 1)] ∧
      result.model.referees? ⟨"D"⟩ = some [⟨⟨"C"⟩, "x"⟩, ⟨⟨"C"⟩, "x"⟩, ⟨⟨"C"⟩, "y"⟩] := by
  obtain ⟨result, h, hrun⟩ :=
    exists_of_any_eq_true (x := build .standard none repeatedNameDocument) (p := fun r => decide (
      r.model.classes.values.map (fun c => (c.id, c.usesOf "x" ⟨"D"⟩, c.usesOf "y" ⟨"D"⟩)) =
        [(⟨"C"⟩, 2, 1)] ∧
      r.model.referees? ⟨"D"⟩ = some [⟨⟨"C"⟩, "x"⟩, ⟨⟨"C"⟩, "x"⟩, ⟨⟨"C"⟩, "y"⟩]))
      (by decide +kernel)
  obtain ⟨huses, hreferees⟩ := of_decide_eq_true hrun
  exact ⟨result, h, build_refersPerProperty h, huses, hreferees⟩

/-- A property need not have a back reference of its own class and name that occurs once. -/
theorem exists_repeated_referee_repeatedNameDocument :
    ∃ result c p referees, build .standard none repeatedNameDocument = .ok result ∧
      c ∈ result.model.classes.values ∧ p ∈ c.properties ∧ p.targetKey? = some "D" ∧
      result.model.referees? ⟨"D"⟩ = some referees ∧ referees.count ⟨c.id, p.indexKey⟩ ≠ 1 ∧
      ¬ referees.Nodup := by
  obtain ⟨result, h, hrun⟩ :=
    exists_of_any_eq_true (x := build .standard none repeatedNameDocument) (p := fun r => decide (
      r.model.classes.values.map (fun c => (c.id,
        c.properties.map fun p => (p.indexKey, p.targetKey?))) =
          [(⟨"C"⟩, [("x", some "D"), ("x", some "D"), ("y", some "D")])] ∧
      r.model.referees? ⟨"D"⟩ = some [⟨⟨"C"⟩, "x"⟩, ⟨⟨"C"⟩, "x"⟩, ⟨⟨"C"⟩, "y"⟩]))
      (by decide +kernel)
  obtain ⟨hclasses, hreferees⟩ := of_decide_eq_true hrun
  obtain ⟨c, hc, hcontents⟩ := List.mem_map.mp (hclasses ▸ List.mem_cons_self)
  obtain ⟨hid, hproperties⟩ := Prod.mk.inj hcontents
  obtain ⟨p, hp, hkeys⟩ := List.mem_map.mp (hproperties ▸ List.mem_cons_self)
  obtain ⟨hkey, htarget⟩ := Prod.mk.inj hkeys
  refine ⟨result, c, p, _, h, hc, hp, htarget, hreferees, ?_, by decide⟩
  rw [hid, hkey]
  decide

end UmlCatalog
