import UmlCatalog.Proofs.Build.Insertion
import UmlCatalog.Proofs.View.Packages
import UmlCatalog.Proofs.View.Walk

/-!
# What a view takes in

A view wants the classes that its walk meets and the enumerations and datatypes that these are
typed by. Each class that is copied brings the value types of its properties, the packages around
them all and its superclasses. So a view of a sound model is sound itself and lists its contents.
-/

namespace UmlCatalog

/-- An enumeration without back references. -/
def Enumeration.unreferenced (e : Enumeration) : Enumeration := { e with referees := [] }

/-- A datatype without back references. -/
def Datatype.unreferenced (d : Datatype) : Datatype := { d with referees := [] }

/-- The records are copies of those of the source that are wanted. -/
def Copies {α : Type} (source : OrderedMap ElementId α) (copy : α → α) (wanted : ElementId → Prop)
    (records : OrderedMap ElementId α) : Prop :=
  ∀ k r, records.get? k = some r ↔ wanted k ∧ (source.get? k).map copy = some r

namespace Copies
variable {α : Type} {source records : OrderedMap ElementId α} {copy : α → α}
  {wanted wanted' : ElementId → Prop}

theorem empty (h : ∀ k, ¬ wanted k) : Copies source copy wanted ∅ :=
  fun k _ => iff_of_false nofun fun hk => h k hk.1

theorem mem_keys_iff (h : Copies source copy wanted records) {k : ElementId} :
    k ∈ records.keys ↔ wanted k ∧ k ∈ source.keys := by
  rw [← OrderedMap.get?_isSome_iff, ← OrderedMap.get?_isSome_iff, Option.isSome_iff_exists,
    ← Option.isSome_map (f := copy), Option.isSome_iff_exists]
  simp only [h k, exists_and_left]

/-- A copy that was given more afterwards comes from a record of the source. -/
theorem exists_of_get?_mapWithKey (h : Copies source copy wanted records)
    {f : ElementId → α → α} {id : ElementId} {r : α}
    (hr : (records.mapWithKey f).get? id = some r) :
    ∃ old, source.get? id = some old ∧ r = f id (copy old) := by
  rw [OrderedMap.get?_mapWithKey] at hr
  obtain ⟨x, hx, rfl⟩ := Option.map_eq_some_iff.mp hr
  obtain ⟨_, hcopied⟩ := (h id x).mp hx
  obtain ⟨old, hold, rfl⟩ := Option.map_eq_some_iff.mp hcopied
  exact ⟨old, hold, rfl⟩

/-- Copies say of the packages around them what the source says. -/
theorem map_get?_eq_some_iff (h : Copies source copy wanted records)
    (packages : α → List ElementId) (hcopy : ∀ r, packages (copy r) = packages r) {k : ElementId}
    {chain : List ElementId} :
    (records.get? k).map packages = some chain ↔
      wanted k ∧ (source.get? k).map packages = some chain := by
  constructor
  · intro hk
    obtain ⟨r, hr, rfl⟩ := Option.map_eq_some_iff.mp hk
    obtain ⟨hwanted, hold⟩ := (h k r).mp hr
    obtain ⟨x, hx, rfl⟩ := Option.map_eq_some_iff.mp hold
    rw [hx, Option.map_some, hcopy]
    exact ⟨hwanted, rfl⟩
  · rintro ⟨hwanted, hk⟩
    obtain ⟨x, hx, rfl⟩ := Option.map_eq_some_iff.mp hk
    have hr := (h k (copy x)).mpr ⟨hwanted, congrArg (Option.map copy) hx⟩
    rw [hr, Option.map_some, hcopy]

/-- What is recorded in the source and not copied is not wanted. -/
theorem not_of_not_contains (h : Copies source copy wanted records) {k : ElementId} {old : α}
    (hold : source.get? k = some old) (hnew : ¬ records.contains k = true) : ¬ wanted k := by
  intro hwanted
  apply hnew
  rw [OrderedMap.contains_iff, h.mem_keys_iff]
  exact ⟨hwanted, OrderedMap.mem_keys_of_get? hold⟩

/-- What has no record in the source does not matter. -/
theorem congr (h : Copies source copy wanted records)
    (hw : ∀ k ∈ source.keys, wanted' k ↔ wanted k) : Copies source copy wanted' records := by
  intro k r
  refine (h k r).trans (and_congr_left fun hk => ?_)
  obtain ⟨x, hx, _⟩ := Option.map_eq_some_iff.mp hk
  exact (hw k (OrderedMap.mem_keys_of_get? hx)).symm

/-- One more record is copied. -/
theorem insert (h : Copies source copy wanted records) {id : ElementId} {old : α}
    (hold : source.get? id = some old) :
    Copies source copy (fun k => k = id ∨ wanted k) (records.insert id (copy old)) := by
  intro k r
  by_cases hk : k = id
  · subst hk
    rw [OrderedMap.get?_insert_self, hold, Option.map_some]
    exact (and_iff_right (Or.inl rfl)).symm
  · rw [OrderedMap.get?_insert_of_ne _ _ hk, h k r]
    exact and_congr_left' (or_iff_right hk).symm

end Copies

namespace View

/-- What the given classes want in a view: themselves and the value types of their properties. -/
inductive Wanted (classes : OrderedMap ElementId Class) : ElementRef → Prop
  | umlClass {k : ElementId} (mem : k ∈ classes.keys) : Wanted classes ⟨.umlClass, k⟩
  | valueType {kind : ElementKind} {k id : ElementId} {c : Class} {p : Property}
      (value : kind = .enumeration ∨ kind = .datatype) (record : classes.get? k = some c)
      (property : p ∈ c.properties) (typed : p.targetKey? = some id.text) :
      Wanted classes ⟨kind, id⟩

namespace Surroundings
variable {source : Model} {s t : Surroundings} {wanted : ElementRef → Prop} {id : ElementId}

/-- Value types are there exactly if they are wanted and recorded in the source, with the packages
around all that is wanted. -/
structure Gathers (source : Model) (wanted : ElementRef → Prop) (s : Surroundings) : Prop where
  enums : Copies source.enums Enumeration.unreferenced (fun k => wanted ⟨.enumeration, k⟩) s.enums
  datatypes : Copies source.datatypes Datatype.unreferenced (fun k => wanted ⟨.datatype, k⟩)
    s.datatypes
  packages : s.IsInduced source (Present source wanted)

theorem gathers_empty (h : ∀ e, ¬ wanted e) : Gathers source wanted .empty where
  enums := Copies.empty fun _ => h _
  datatypes := Copies.empty fun _ => h _
  packages := isInduced_empty <| by
    rintro e (⟨he, _⟩ | ⟨he, _, _⟩)
    · exact h _ he
    · exact h _ he

/-- What has no record in the source does not matter. -/
theorem Gathers.congr {wanted' : ElementRef → Prop} (hs : s.Gathers source wanted)
    (h : ∀ e chain, source.chainOf? e = some chain → (wanted' e ↔ wanted e)) :
    s.Gathers source wanted' where
  enums := by
    refine hs.enums.congr fun k hk => ?_
    obtain ⟨x, hx⟩ := Option.isSome_iff_exists.mp (OrderedMap.get?_isSome_iff.mpr hk)
    exact h ⟨.enumeration, k⟩ x.packages (congrArg (Option.map Enumeration.packages) hx)
  datatypes := by
    refine hs.datatypes.congr fun k hk => ?_
    obtain ⟨x, hx⟩ := Option.isSome_iff_exists.mp (OrderedMap.get?_isSome_iff.mpr hk)
    exact h ⟨.datatype, k⟩ x.packages (congrArg (Option.map Datatype.packages) hx)
  packages := hs.packages.congr fun x => present_congr h

/-- What is wanted already can be wanted again. -/
theorem Gathers.of_wanted {e : ElementRef} (hs : s.Gathers source wanted)
    (h : ∀ chain, source.chainOf? e = some chain → wanted e) :
    s.Gathers source fun x => x = e ∨ wanted x := by
  refine hs.congr fun x chain hchain => or_iff_right_of_imp ?_
  rintro rfl
  exact h chain hchain

/-- An element that was not wanted is listed with the packages around it. -/
theorem Gathers.addListed {u : Surroundings} {e : ElementRef} {chain : List ElementId}
    (hm : source.IsSound) (hs : s.Gathers source wanted) (hp : u.packages = s.packages)
    (hh : u.packageHierarchy = s.packageHierarchy) (hnew : ¬ wanted e) (hkind : e.kind ≠ .package)
    (hchain : source.chainOf? e = some chain) (h : u.addListed source chain e = .ok t) :
    t.IsInduced source (Present source fun x => x = e ∨ wanted x) ∧ t.SameEntities u := by
  refine (hs.packages.of_eq hp hh).addListed hm ?_ hkind hchain h
  rintro (⟨hwanted, _⟩ | _)
  · exact hnew hwanted
  · exact hkind rfl

/-- One more enumeration is wanted. -/
theorem Gathers.addEnumeration (hm : source.IsSound) (hids : source.KeepsIds)
    (hs : s.Gathers source wanted) (h : s.addEnumeration source id = .ok t) :
    t.Gathers source (fun e => e = ⟨.enumeration, id⟩ ∨ wanted e) ∧
      t.classHierarchy = s.classHierarchy := by
  unfold Surroundings.addEnumeration at h
  split at h
  · rename_i hnone
    obtain rfl := Except.ok.inj h
    refine ⟨hs.of_wanted fun chain hchain => ?_, rfl⟩
    rw [Model.chainOf?, hnone] at hchain
    cases hchain
  · rename_i old hold
    obtain rfl := hids.enums hold
    split at h
    · rename_i hknown
      obtain rfl := Except.ok.inj h
      have hwanted := (hs.enums.mem_keys_iff.mp (OrderedMap.contains_iff.mp hknown)).1
      exact ⟨hs.of_wanted fun _ _ => hwanted, rfl⟩
    · rename_i hnew
      have hunwanted : ¬ wanted ⟨.enumeration, old.id⟩ := hs.enums.not_of_not_contains hold hnew
      obtain ⟨hpackages, hsame⟩ := hs.addListed
        (u := { s with enums := s.enums.insert old.id old.unreferenced })
        hm rfl rfl hunwanted (by simp) (congrArg (Option.map Enumeration.packages) hold) h
      refine ⟨⟨?_, ?_, hpackages⟩, hsame.classHierarchy⟩
      · rw [hsame.enums]
        exact (hs.enums.insert hold).congr fun k _ => by simp
      · rw [hsame.datatypes]
        exact hs.datatypes.congr fun k _ => by simp

/-- One more datatype is wanted. -/
theorem Gathers.addDatatype (hm : source.IsSound) (hids : source.KeepsIds)
    (hs : s.Gathers source wanted) (h : s.addDatatype source id = .ok t) :
    t.Gathers source (fun e => e = ⟨.datatype, id⟩ ∨ wanted e) ∧
      t.classHierarchy = s.classHierarchy := by
  unfold Surroundings.addDatatype at h
  split at h
  · rename_i hnone
    obtain rfl := Except.ok.inj h
    refine ⟨hs.of_wanted fun chain hchain => ?_, rfl⟩
    rw [Model.chainOf?, hnone] at hchain
    cases hchain
  · rename_i old hold
    obtain rfl := hids.datatypes hold
    split at h
    · rename_i hknown
      obtain rfl := Except.ok.inj h
      have hwanted := (hs.datatypes.mem_keys_iff.mp (OrderedMap.contains_iff.mp hknown)).1
      exact ⟨hs.of_wanted fun _ _ => hwanted, rfl⟩
    · rename_i hnew
      have hunwanted : ¬ wanted ⟨.datatype, old.id⟩ := hs.datatypes.not_of_not_contains hold hnew
      obtain ⟨hpackages, hsame⟩ := hs.addListed
        (u := { s with datatypes := s.datatypes.insert old.id old.unreferenced })
        hm rfl rfl hunwanted (by simp) (congrArg (Option.map Datatype.packages) hold) h
      refine ⟨⟨?_, ?_, hpackages⟩, hsame.classHierarchy⟩
      · rw [hsame.enums]
        exact hs.enums.congr fun k _ => by simp
      · rw [hsame.datatypes]
        exact (hs.datatypes.insert hold).congr fun k _ => by simp

/-- The value types that target keys name are wanted. -/
def WantedKeys (keys : List String) (wanted : ElementRef → Prop) (e : ElementRef) : Prop :=
  (e.kind = .enumeration ∨ e.kind = .datatype) ∧ e.id.text ∈ keys ∨ wanted e

theorem Gathers.addValueTypes (hm : source.IsSound) (hids : source.KeepsIds) {keys : List String} :
    ∀ {s : Surroundings} {wanted : ElementRef → Prop}, s.Gathers source wanted →
      keys.foldlM (addValueTypes source) s = .ok t →
        t.Gathers source (WantedKeys keys wanted) ∧ t.classHierarchy = s.classHierarchy := by
  induction keys with
  | nil =>
      intro s wanted hs h
      obtain rfl := Except.ok.inj h
      exact ⟨hs.congr fun e _ _ => or_iff_right fun he => List.not_mem_nil he.2, rfl⟩
  | cons key keys ih =>
      intro s wanted hs h
      rw [List.foldlM_cons] at h
      obtain ⟨u, hu, h⟩ := exists_of_bind_eq_ok h
      obtain ⟨v, hv, hu⟩ := exists_of_bind_eq_ok hu
      obtain ⟨hv', hclasses⟩ := hs.addEnumeration hm hids hv
      obtain ⟨hu', hclasses'⟩ := hv'.addDatatype hm hids hu
      obtain ⟨ht, hclasses''⟩ := ih hu' h
      refine ⟨ht.congr ?_, hclasses''.trans (hclasses'.trans hclasses)⟩
      rintro ⟨kind, id⟩ _ _
      simp only [WantedKeys, List.mem_cons, ElementRef.mk.injEq, ElementId.ext_iff]
      tauto

end Surroundings

/-- The copies and the surroundings that a walk has gathered. -/
structure Gathered (source : Model) (copies : OrderedMap ElementId Class) (s : Surroundings) :
    Prop extends s.Gathers source (Wanted copies) where
  classes : Copies source.classes copyClass (· ∈ copies.keys) copies
  classHierarchy : s.classHierarchy.IsClosure
    (fun general id => id ∈ copies.keys ∧ source.SuperEdge general id) fun _ => False

section Walk
variable {source : Model} {classes : OrderedMap ElementId Class} {s t : Surroundings}
  {id : ElementId} {c : Class}

theorem gathered_empty (source : Model) : Gathered source ∅ .empty where
  toGathers := Surroundings.gathers_empty <| by
    rintro e (hmem | ⟨_, record, _, _⟩)
    · cases hmem
    · cases record
  classes := Copies.empty fun _ => List.not_mem_nil
  classHierarchy := Hierarchy.isClosure_empty.congr fun _ _ =>
    iff_of_false (fun he => List.not_mem_nil he.1) fun he => he

/-- One more class is wanted with the value types of its properties. -/
theorem wanted_insert_iff (hid : id ∉ classes.keys) (copy : Class) {e : ElementRef} :
    Wanted (classes.insert id copy) e ↔ e = ⟨.umlClass, id⟩ ∨
      Surroundings.WantedKeys (copy.properties.filterMap Property.targetKey?) (Wanted classes) e := by
  constructor
  · rintro (hmem | ⟨value, record, property, typed⟩)
    · rcases OrderedMap.mem_keys_insert.mp hmem with hmem | rfl
      · exact Or.inr (Or.inr (.umlClass hmem))
      · exact Or.inl rfl
    · rcases OrderedMap.of_get?_insert record with ⟨_, rfl⟩ | ⟨_, record⟩
      · exact Or.inr (Or.inl ⟨value, List.mem_filterMap.mpr ⟨_, property, typed⟩⟩)
      · exact Or.inr (Or.inr (.valueType value record property typed))
  · rintro (rfl | ⟨value, hkey⟩ | hmem | @⟨_, k, _, c, _, value, record, property, typed⟩)
    · exact .umlClass (OrderedMap.mem_keys_insert.mpr (Or.inr rfl))
    · obtain ⟨p, hp, htyped⟩ := List.mem_filterMap.mp hkey
      exact .valueType value (OrderedMap.get?_insert_self _ _ _) hp htyped
    · exact .umlClass (OrderedMap.mem_keys_insert.mpr (Or.inl hmem))
    · have hne : k ≠ id := by
        rintro rfl
        exact hid (OrderedMap.mem_keys_of_get? record)
      have hsame : (classes.insert id copy).get? k = some c := by
        rw [OrderedMap.get?_insert_of_ne _ _ hne, record]
      exact .valueType value hsame property typed

/-- Taking in a class of the source. -/
theorem Gathered.addClass (hm : source.IsSound) (hids : source.KeepsIds)
    (hs : Gathered source classes s) (hnew : id ∉ classes.keys)
    (hc : source.classes.get? id = some c) (h : s.addClass source c = .ok t) :
    Gathered source (classes.insert id (copyClass c)) t := by
  obtain ⟨u, hu, h⟩ := exists_of_bind_eq_ok h
  obtain ⟨v, hv, h⟩ := exists_of_bind_eq_ok h
  obtain ⟨hierarchy, hedges, h⟩ := exists_of_bind_eq_ok h
  obtain rfl := Except.ok.inj h
  obtain rfl := hm.id_of_get? hc
  obtain ⟨hgathers, hclasses⟩ := hs.toGathers.addValueTypes hm hids hu
  have hunwanted : ¬ Surroundings.WantedKeys (c.properties.filterMap Property.targetKey?)
      (Wanted classes) ⟨.umlClass, c.id⟩ := by
    rintro (⟨hkind | hkind, _⟩ | hmem | ⟨hkind | hkind, _, _, _⟩)
    · cases hkind
    · cases hkind
    · exact hnew hmem
    · cases hkind
    · cases hkind
  obtain ⟨hpackages, hsame⟩ := hgathers.addListed hm rfl rfl hunwanted (by simp)
    (congrArg (Option.map Class.packages) hc) hv
  have hclosure : v.classHierarchy.IsClosure
      (fun general id => id ∈ classes.keys ∧ source.SuperEdge general id) fun _ => False := by
    rw [hsame.classHierarchy, hclasses]
    exact hs.classHierarchy
  exact {
    enums := by
      rw [hsame.enums]
      refine hgathers.enums.congr fun k _ => ?_
      exact (wanted_insert_iff hnew (copyClass c)).trans (or_iff_right nofun)
    datatypes := by
      rw [hsame.datatypes]
      refine hgathers.datatypes.congr fun k _ => ?_
      exact (wanted_insert_iff hnew (copyClass c)).trans (or_iff_right nofun)
    packages := by
      have hpresent := hpackages.congr fun x =>
        Surroundings.present_congr fun x _ _ => wanted_insert_iff hnew (copyClass c)
      exact hpresent.of_eq rfl rfl
    classes := by
      refine (hs.classes.insert hc).congr fun k _ => ?_
      exact OrderedMap.mem_keys_insert.trans or_comm
    classHierarchy := by
      refine (Draft.isClosure_of_addEdges hclosure hedges).congr fun general k => ?_
      rw [OrderedMap.mem_keys_insert]
      constructor
      · rintro ⟨hk | rfl, hgeneral⟩
        · exact Or.inl ⟨hk, hgeneral⟩
        · obtain ⟨c', hc', hmem⟩ := hgeneral
          obtain rfl := Option.some.inj (hc.symm.trans hc')
          exact Or.inr ⟨rfl, hmem⟩
      · rintro (⟨hk, hgeneral⟩ | ⟨rfl, hmem⟩)
        · exact ⟨Or.inl hk, hgeneral⟩
        · exact ⟨Or.inr rfl, c, hc, hmem⟩ }

/-- A walk gathers what the classes that it meets want. -/
theorem Walks.gathered {options : ViewOptions} {pending : List (ElementId × Bool)}
    {r : OrderedMap ElementId Class × Surroundings} (hm : source.IsSound)
    (hids : source.KeepsIds) (h : Walks source options pending classes s r)
    (hs : Gathered source classes s) : Gathered source r.1 r.2 := by
  induction h with
  | nil => exact hs
  | known _ _ ih | foreign _ _ ih => exact ih hs
  | copy hid hc ht _ ih =>
      refine ih (hs.addClass hm hids (fun hmem => ?_) hc ht)
      rw [OrderedMap.contains_iff.mpr hmem] at hid
      cases hid

end Walk
end View
end UmlCatalog
