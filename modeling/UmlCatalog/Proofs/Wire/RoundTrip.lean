import UmlCatalog.Proofs.Model.Canonical
import UmlCatalog.Proofs.Wire.Representation

/-!
# Models are read back from what represents them

Each record is read back from every node that represents its written form, whatever the
format: its fields are known and stand in their order, each is read back by its own reader, and
a field that is left out has its value as default. Two fields are not read as they are
written, so a property must be canonical and a position must fit into a machine word.
-/

namespace UmlCatalog
open WireValue FieldTable

section Records
variable {ν : Type} [Readable ν]

/-! ## Parts -/

theorem ElementId.readsBack (id : ElementId) : ReadsBack (read : Reader ν ElementId) toWire id := by
  intro n hn
  rw [read, Reader.readsBack_text id.text n hn, map_pure]

theorem Reader.readsBack_ids (l : List ElementId) :
    ReadsBack (Reader.ids : Reader ν (List ElementId)) WireValue.ids l :=
  readsBack_listOf fun id _ => id.readsBack

theorem Reader.readsBack_texts (l : List String) :
    ReadsBack (Reader.texts : Reader ν (List String)) WireValue.texts l :=
  readsBack_listOf fun s _ => readsBack_text s

theorem Reader.readsBack_arena {α : Type} {read : Reader ν α} {write : α → WireValue}
    {m : OrderedMap ElementId α} (h : ∀ a ∈ m.values, ReadsBack read write a) :
    ReadsBack (Reader.arena read) (OrderedMap.toWire ElementId.text write) m :=
  readsBack_mapOf (fun _ => rfl) h

theorem Aggregation.readsBack {a : Aggregation} (h : a.IsCanonical) :
    ReadsBack (read : Reader ν Aggregation) toWire a := by
  intro n hn
  rw [read, Reader.readsBack_text a.word n hn, map_pure, (ofWord_word_iff a).mpr h]

theorem ElementKind.readsBack (k : ElementKind) :
    ReadsBack (read : Reader ν ElementKind) (fun k => .text k.word) k := by
  intro n hn
  refine Reader.take_of_isPresent hn.isPresent _ ?_
  rw [hn.word?, Option.bind_some, ofWord?_word]

/-- A set of identifiers. -/
theorem Reader.readsBack_idSet (s : OrderedSet ElementId) :
    ReadsBack (setOf ElementId.read : Reader ν _) (OrderedSet.toWire ElementId.toWire) s :=
  readsBack_setOf fun id _ => id.readsBack

/-- The sets of identifiers of a hierarchy, keyed by identifier. -/
theorem Reader.readsBack_idSets (m : OrderedMap ElementId (OrderedSet ElementId)) :
    ReadsBack (arena (setOf ElementId.read) : Reader ν _)
      (OrderedMap.toWire ElementId.text (OrderedSet.toWire ElementId.toWire)) m :=
  readsBack_arena fun s _ => readsBack_idSet s

/-- A target is put together again from the field that it was written to. -/
theorem Target.ofFields_fields (o : Option Target) :
    ofFields (o.bind idref?) (o.bind href?) = o := by
  cases o with
  | none => rfl
  | some t => cases t <;> rfl

/-! ## Fields of the usual kinds -/

namespace FieldTable.Holds
variable {t : FieldTable ν} {fs : List (String × WireValue)} (h : t.Holds fs) (name : String)
include h

theorem requiredId (id : ElementId) (hlookup : fs.lookup name = some id.toWire) :
    t.required name ElementId.read = pure id :=
  h.required name id id.readsBack hlookup

theorem requiredText (s : String) (hlookup : fs.lookup name = some (.text s)) :
    t.required name Reader.text = pure s :=
  h.required name s (Reader.readsBack_text s) hlookup

theorem optionalId (o : Option ElementId) (hlookup : fs.lookup name = o.map ElementId.toWire) :
    t.optional name ElementId.read = pure o :=
  h.optional name o (fun id _ => id.readsBack) hlookup

theorem optionalText (o : Option String) (hlookup : fs.lookup name = o.map .text) :
    t.optional name Reader.text = pure o :=
  h.optional name o (fun s _ => Reader.readsBack_text s) hlookup

theorem defaultIds (l : List ElementId) (hlookup : fs.lookup name = some (ids l)) :
    t.withDefault name [] Reader.ids = pure l :=
  h.withDefault name l (Reader.readsBack_ids l) hlookup

theorem defaultTexts (l : List String) (hlookup : fs.lookup name = some (texts l)) :
    t.withDefault name [] Reader.texts = pure l :=
  h.withDefault name l (Reader.readsBack_texts l) hlookup

/-- A map that is left out when it is empty is empty when it is left out. -/
theorem nonemptyMap {α : Type} {read : Reader ν α} {write : α → WireValue}
    (m : OrderedMap ElementId α)
    (hread : ReadsBack (Reader.arena read) (OrderedMap.toWire ElementId.text write) m)
    (hlookup : fs.lookup name =
      if m.isEmpty then none else some (m.toWire ElementId.text write)) :
    t.withDefault name ∅ (Reader.arena read) = pure m := by
  by_cases hempty : m.isEmpty
  · rw [if_pos hempty] at hlookup
    have hm : m = ∅ := OrderedMap.ext (List.isEmpty_iff.mp hempty)
    rw [hm]
    exact h.withDefault_of_absent name ∅ hlookup
  · rw [if_neg hempty] at hlookup
    exact h.withDefault name m hread hlookup

theorem nonemptyTexts (l : List String)
    (hlookup : fs.lookup name = if l.isEmpty then none else some (texts l)) :
    t.withDefault name [] Reader.texts = pure l := by
  cases l with
  | nil => exact h.withDefault_of_absent name [] hlookup
  | cons s l => exact h.defaultTexts name (s :: l) hlookup

end FieldTable.Holds

/-! ## Records -/

theorem ElementRef.readsBack (e : ElementRef) :
    ReadsBack (read : Reader ν ElementRef) toWire e := by
  intro n hn
  refine read_bind_eq_pure hn (within_field.append within_field) rfl (by simp) fun t ht => ?_
  rw [ht.required "type" e.kind e.kind.readsBack (by simp [List.lookup_append]),
    ht.requiredId "id" e.id (by simp [List.lookup_append])]
  simp only [pure_bind]

theorem Package.readsBack (p : Package) : ReadsBack (read : Reader ν Package) toWire p := by
  intro n hn
  refine read_bind_eq_pure hn
    (within_field.append within_optionalField |>.append within_field |>.append within_field
      |>.append within_field)
    rfl (by simp) fun t ht => ?_
  rw [ht.requiredId "id" p.id (by simp [List.lookup_append]),
    ht.optionalText "name" p.name (by simp [List.lookup_append]),
    ht.defaultIds "packages" p.packages (by simp [List.lookup_append]),
    ht.withDefault "elements" p.elements (Reader.readsBack_listOf fun e _ => e.readsBack)
      (by simp [List.lookup_append]),
    ht.defaultTexts "comments" p.comments (by simp [List.lookup_append])]
  simp only [pure_bind]

theorem Referee.readsBack (r : Referee) : ReadsBack (read : Reader ν Referee) toWire r := by
  intro n hn
  refine read_bind_eq_pure hn (within_field.append within_field) rfl (by simp) fun t ht => ?_
  rw [ht.requiredId "classId" r.classId (by simp [List.lookup_append]),
    ht.requiredText "propName" r.propName (by simp [List.lookup_append])]
  simp only [pure_bind]

theorem Property.readsBack {p : Property} (h : p.IsCanonical) :
    ReadsBack (read : Reader ν Property) toWire p := by
  intro n hn
  refine read_bind_eq_pure hn
    (within_field.append within_field |>.append within_optionalField
      |>.append within_optionalField |>.append within_optionalField |>.append within_field
      |>.append within_field |>.append within_optionalField |>.append within_optionalField
      |>.append within_field)
    rfl (by simp [fieldNames]) fun t ht => ?_
  rw [ht.requiredId "id" p.id (by simp [List.lookup_append]),
    ht.requiredId "classId" p.classId (by simp [List.lookup_append]),
    ht.optionalText "name" p.name (by simp [List.lookup_append]),
    ht.optionalId "idref" (p.target.bind Target.idref?) (by simp [List.lookup_append]),
    ht.optionalText "href" (p.target.bind Target.href?) (by simp [List.lookup_append]),
    ht.requiredText "lower" p.lower (by simp [List.lookup_append]),
    ht.requiredText "upper" p.upper (by simp [List.lookup_append]),
    ht.optional "aggregation" p.aggregation (fun a ha => Aggregation.readsBack (h.aggregation a ha))
      (by simp [List.lookup_append]),
    ht.optionalId "association" p.association (by simp [List.lookup_append]),
    ht.defaultTexts "comments" p.comments (by simp [List.lookup_append])]
  simp only [pure_bind, canonicalUpper_eq_self_iff.mpr h.upper, Target.ofFields_fields]

theorem AssociationLink.readsBack {l : AssociationLink} (h : l.IsCanonical)
    (hposition : l.property ≤ Json.maxIndex) :
    ReadsBack (read : Reader ν AssociationLink) toWire l := by
  intro n hn
  refine read_bind_eq_pure hn
    (within_field.append within_optionalField |>.append within_field
      |>.append within_optionalField |>.append within_field |>.append within_field
      |>.append within_field |>.append within_optionalField |>.append within_field)
    rfl (by simp [fieldNames]) fun t ht => ?_
  rw [ht.requiredId "id" l.id (by simp [List.lookup_append]),
    ht.optionalText "name" l.name (by simp [List.lookup_append]),
    ht.requiredId "classId" l.classId (by simp [List.lookup_append]),
    ht.optionalId "target" l.target (by simp [List.lookup_append]),
    ht.requiredText "lower" l.lower (by simp [List.lookup_append]),
    ht.requiredText "upper" l.upper (by simp [List.lookup_append]),
    ht.defaultTexts "comments" l.comments (by simp [List.lookup_append]),
    ht.optional "aggregation" l.aggregation (fun a ha => Aggregation.readsBack (h a ha))
      (by simp [List.lookup_append]),
    ht.required "property" l.property (Reader.readsBack_index hposition)
      (by simp [List.lookup_append])]
  simp only [pure_bind]

theorem Class.readsBack {c : Class} (h : c.IsCanonical)
    (hpositions : ∀ l ∈ c.associations.values, l.property ≤ Json.maxIndex) :
    ReadsBack (read : Reader ν Class) toWire c := by
  intro n hn
  refine read_bind_eq_pure hn
    (within_field.append within_optionalField |>.append within_field |>.append within_field
      |>.append within_nonemptyMapField |>.append within_field |>.append within_field
      |>.append within_field |>.append within_field)
    rfl (by simp [fieldNames]) fun t ht => ?_
  rw [ht.requiredId "id" c.id (by simp [List.lookup_append]),
    ht.optionalText "name" c.name (by simp [List.lookup_append]),
    ht.withDefault "isAbstract" c.isAbstract (Reader.readsBack_flag _)
      (by simp [List.lookup_append]),
    ht.withDefault "properties" c.properties
      (Reader.readsBack_listOf fun p hp => Property.readsBack (h.properties p hp))
      (by simp [List.lookup_append]),
    ht.nonemptyMap "associations" c.associations
      (Reader.readsBack_arena fun l hl =>
        AssociationLink.readsBack (h.associations l hl) (hpositions l hl))
      (by simp [List.lookup_append]),
    ht.defaultIds "superClasses" c.superClasses (by simp [List.lookup_append]),
    ht.withDefault "referees" c.referees (Reader.readsBack_listOf fun r _ => r.readsBack)
      (by simp [List.lookup_append]),
    ht.defaultTexts "comments" c.comments (by simp [List.lookup_append]),
    ht.defaultIds "packages" c.packages (by simp [List.lookup_append])]
  simp only [pure_bind]

theorem Association.readsBack (a : Association) :
    ReadsBack (read : Reader ν Association) toWire a := by
  intro n hn
  refine read_bind_eq_pure hn
    (within_field.append within_optionalField |>.append within_optionalField
      |>.append within_field)
    rfl (by simp) fun t ht => ?_
  rw [ht.requiredId "id" a.id (by simp [List.lookup_append]),
    ht.optionalText "name" a.name (by simp [List.lookup_append]),
    ht.optionalId "from" a.source (by simp [List.lookup_append]),
    ht.defaultTexts "comments" a.comments (by simp [List.lookup_append])]
  simp only [pure_bind]

theorem Enumeration.readsBack (e : Enumeration) :
    ReadsBack (read : Reader ν Enumeration) toWire e := by
  intro n hn
  refine read_bind_eq_pure hn
    (within_field.append within_optionalField |>.append within_field |>.append within_field
      |>.append within_field |>.append within_field)
    rfl (by simp) fun t ht => ?_
  rw [ht.requiredId "id" e.id (by simp [List.lookup_append]),
    ht.optionalText "name" e.name (by simp [List.lookup_append]),
    ht.defaultTexts "values" e.values (by simp [List.lookup_append]),
    ht.defaultIds "packages" e.packages (by simp [List.lookup_append]),
    ht.withDefault "referees" e.referees (Reader.readsBack_listOf fun r _ => r.readsBack)
      (by simp [List.lookup_append]),
    ht.defaultTexts "comments" e.comments (by simp [List.lookup_append])]
  simp only [pure_bind]

theorem Datatype.readsBack (d : Datatype) : ReadsBack (read : Reader ν Datatype) toWire d := by
  intro n hn
  refine read_bind_eq_pure hn
    (within_field.append within_optionalField |>.append within_field |>.append within_field
      |>.append within_field)
    rfl (by simp) fun t ht => ?_
  rw [ht.requiredId "id" d.id (by simp [List.lookup_append]),
    ht.optionalText "name" d.name (by simp [List.lookup_append]),
    ht.defaultIds "packages" d.packages (by simp [List.lookup_append]),
    ht.withDefault "referees" d.referees (Reader.readsBack_listOf fun r _ => r.readsBack)
      (by simp [List.lookup_append]),
    ht.defaultTexts "comments" d.comments (by simp [List.lookup_append])]
  simp only [pure_bind]

theorem ElementImport.readsBack (i : ElementImport) :
    ReadsBack (read : Reader ν ElementImport) toWire i := by
  intro n hn
  refine read_bind_eq_pure hn (within_field.append within_field) rfl (by simp) fun t ht => ?_
  rw [ht.requiredId "id" i.id (by simp [List.lookup_append]),
    ht.requiredId "idref" i.idref (by simp [List.lookup_append])]
  simp only [pure_bind]

theorem View.readsBack (v : View) : ReadsBack (read : Reader ν View) toWire v := by
  intro n hn
  refine read_bind_eq_pure hn
    (within_field.append within_optionalField |>.append within_field |>.append within_field)
    rfl (by simp) fun t ht => ?_
  rw [ht.requiredId "id" v.id (by simp [List.lookup_append]),
    ht.optionalText "name" v.name (by simp [List.lookup_append]),
    ht.defaultIds "members" v.members (by simp [List.lookup_append]),
    ht.defaultTexts "comments" v.comments (by simp [List.lookup_append])]
  simp only [pure_bind]

theorem PropertySource.readsBack {s : PropertySource} (h : s.index ≤ Json.maxIndex) :
    ReadsBack (read : Reader ν PropertySource) toWire s := by
  intro n hn
  refine read_bind_eq_pure hn (within_field.append within_field) rfl (by simp) fun t ht => ?_
  rw [ht.requiredId "classId" s.classId (by simp [List.lookup_append]),
    ht.required "index" s.index (Reader.readsBack_index h) (by simp [List.lookup_append])]
  simp only [pure_bind]

theorem PropertyEntry.readsBack {e : PropertyEntry} (h : ∀ s ∈ e.sources, s.index ≤ Json.maxIndex) :
    ReadsBack (read : Reader ν PropertyEntry) toWire e := by
  intro n hn
  refine read_bind_eq_pure hn (within_field.append within_field) rfl (by simp) fun t ht => ?_
  rw [ht.required "sources" e.sources
      (Reader.readsBack_listOf fun s hs => PropertySource.readsBack (h s hs))
      (by simp [List.lookup_append]),
    ht.defaultTexts "uniformType" e.uniformType (by simp [List.lookup_append])]
  simp only [pure_bind]

theorem ModelSource.readsBack (s : ModelSource) :
    ReadsBack (read : Reader ν ModelSource) toWire s := by
  intro n hn
  refine read_bind_eq_pure hn
    (within_optionalField.append within_nonemptyTextsField) rfl (by simp) fun t ht => ?_
  rw [ht.optionalText "resource" s.resource (by simp [List.lookup_append]),
    ht.nonemptyTexts "viewLabels" s.viewLabels (by simp [List.lookup_append])]
  simp only [pure_bind]

theorem Hierarchy.readsBack (h : Hierarchy) : ReadsBack (read : Reader ν Hierarchy) toWire h := by
  intro n hn
  refine read_bind_eq_pure hn
    (within_field.append within_field |>.append within_field) rfl (by simp) fun t ht => ?_
  rw [ht.required "roots" h.roots (Reader.readsBack_idSet _) (by simp [List.lookup_append]),
    ht.required "parents" h.parents (Reader.readsBack_idSets _) (by simp [List.lookup_append]),
    ht.required "children" h.children (Reader.readsBack_idSets _) (by simp [List.lookup_append])]
  simp only [pure_bind]

/-- A canonical model is read back from every node that represents it. -/
theorem Model.readsBack {m : Model} (h : m.IsCanonical) (hpositions : m.HasWordPositions) :
    ReadsBack (read : Reader ν Model) toWire m := by
  intro n hn
  refine read_bind_eq_pure hn
    (within_optionalField.append within_optionalField |>.append within_field
      |>.append within_field |>.append within_field |>.append within_field |>.append within_field
      |>.append within_field |>.append within_field |>.append within_field |>.append within_field
      |>.append within_field |>.append within_field)
    rfl (by simp [fieldNames]) fun t ht => ?_
  rw [ht.optionalId "id" m.id (by simp [List.lookup_append]),
    ht.optionalText "name" m.name (by simp [List.lookup_append]),
    ht.withDefault "source" m.source m.source.readsBack (by simp [List.lookup_append]),
    ht.withDefault "packages" m.packages (Reader.readsBack_arena fun p _ => p.readsBack)
      (by simp [List.lookup_append]),
    ht.withDefault "classes" m.classes
      (Reader.readsBack_arena fun c hc => Class.readsBack (h c hc) (hpositions.links c hc))
      (by simp [List.lookup_append]),
    ht.withDefault "properties" m.properties
      (Reader.readsBack_mapOf (fun _ => rfl) fun e he =>
        PropertyEntry.readsBack (hpositions.sources e he))
      (by simp [List.lookup_append]),
    ht.withDefault "enums" m.enums (Reader.readsBack_arena fun e _ => e.readsBack)
      (by simp [List.lookup_append]),
    ht.withDefault "datatypes" m.datatypes (Reader.readsBack_arena fun d _ => d.readsBack)
      (by simp [List.lookup_append]),
    ht.withDefault "imports" m.imports (Reader.readsBack_arena fun i _ => i.readsBack)
      (by simp [List.lookup_append]),
    ht.withDefault "associations" m.associations (Reader.readsBack_arena fun a _ => a.readsBack)
      (by simp [List.lookup_append]),
    ht.withDefault "classHierarchy" m.classHierarchy m.classHierarchy.readsBack
      (by simp [List.lookup_append]),
    ht.withDefault "packageHierarchy" m.packageHierarchy m.packageHierarchy.readsBack
      (by simp [List.lookup_append]),
    ht.withDefault "views" m.views (Reader.readsBack_listOf fun v _ => v.readsBack)
      (by simp [List.lookup_append])]
  simp only [pure_bind]

end Records
end UmlCatalog
