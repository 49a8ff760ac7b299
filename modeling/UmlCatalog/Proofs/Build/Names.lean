import UmlCatalog.Proofs.Build.Reports

/-!
# What is found about names

Names are looked at while attributes are read, and associations name properties afterwards. An
attribute that is the end of an association is passed over, as an association may still name it, and
no later step makes up for that. So the findings tell the names at the end of all properties without
a link, and say nothing about the others, whether or not an association has named them.

## Implementation notes

A finding has the identifier of a property, not its place. So all of this takes it that no two
properties have one identifier.
-/

namespace UmlCatalog
open Markup (Element)
open Declaration (inArena endingAt)

namespace Property

/-- Whether a property has a name that starts with an upper-case letter. -/
def startsUppercase (p : Property) : Bool :=
  p.name.any fun name => name.toList.head?.any Text.isUppercase

/-- What there is to find about the name of a property. -/
def nameFinding? (config : BuildConfig) (p : Property) : Option Diagnostic :=
  match p.name with
  | none => some (.unnamedProperty p.classId p.id)
  | some name =>
      if config.checkPropertyNameCase ∧ name.toList.head?.any Text.isUppercase then
        some (.propertyNameCase p.classId p.id name)
      else none

end Property

namespace BuildResult

/-- Something is found about an element under a code. -/
def Reports (r : BuildResult) (code : DiagnosticCode) (id : ElementId) : Prop :=
  ∃ found ∈ r.diagnostics, found.code = code ∧ found.element = some id

/-- The findings tell of a property whether it has no name and, if that is checked, whether its name
starts with an upper-case letter. -/
structure DescribesName (r : BuildResult) (config : BuildConfig) (p : Property) : Prop where
  unnamed : r.Reports .unnamedProperty p.id ↔ p.name = none
  nameCase : config.checkPropertyNameCase = true →
    (r.Reports .propertyNameCase p.id ↔ p.startsUppercase = true)

theorem reports_iff_mem_withCode {r : BuildResult} {code : DiagnosticCode} {id : ElementId} :
    r.Reports code id ↔
      ∃ found ∈ Diagnostic.withCode code r.diagnostics, found.element = some id := by
  simp only [Reports, Diagnostic.withCode, List.mem_filter, decide_eq_true_eq, and_assoc]

end BuildResult

namespace Property
variable {config : BuildConfig} {p : Property} {found : Diagnostic}

theorem element_of_nameFinding? (h : p.nameFinding? config = some found) :
    found.element = some p.id := by
  unfold nameFinding? at h
  split at h
  · obtain rfl := Option.some.inj h
    rfl
  · split at h
    · obtain rfl := Option.some.inj h
      rfl
    · cases h

/-- A property is found to have no name exactly if it has none. -/
theorem exists_unnamedProperty_iff :
    (∃ found, p.nameFinding? config = some found ∧ found.code = .unnamedProperty) ↔
      p.name = none := by
  unfold nameFinding?
  cases p.name with
  | none => exact iff_of_true ⟨_, rfl, rfl⟩ rfl
  | some name =>
      refine iff_of_false ?_ nofun
      rintro ⟨found, h, hcode⟩
      dsimp only at h
      split at h
      · obtain rfl := Option.some.inj h
        cases hcode
      · cases h

/-- The first letter of a name is found only if it is checked. -/
theorem exists_propertyNameCase_iff :
    (∃ found, p.nameFinding? config = some found ∧ found.code = .propertyNameCase) ↔
      config.checkPropertyNameCase = true ∧ p.startsUppercase = true := by
  unfold nameFinding? startsUppercase
  cases p.name with
  | none =>
      refine iff_of_false ?_ nofun
      rintro ⟨found, h, hcode⟩
      obtain rfl := Option.some.inj h
      cases hcode
  | some name =>
      rw [Option.any_some]
      dsimp only
      split
      · rename_i hcase
        exact iff_of_true ⟨_, rfl, rfl⟩ hcase
      · rename_i hcase
        exact iff_of_false nofun hcase

end Property

namespace OwnedAttribute
variable {config : BuildConfig} {classId : ElementId} {e : Element} {code : DiagnosticCode}
  {a : OwnedAttribute}

theorem nameFindings_eq (config : BuildConfig) (e : Element) (p : Property) :
    nameFindings config e p =
      if isAssociationEnd e then [] else (p.nameFinding? config).toList := by
  unfold nameFindings Property.nameFinding?
  cases p.name with
  | none => rfl
  | some name =>
      dsimp only
      split
      · rfl
      · split <;> rfl

/-- The name of an attribute is looked at if it is no end. -/
theorem diagnostics_read (config : BuildConfig) (classId : ElementId) (e : Element)
    (position : Nat) : (read config classId e position).diagnostics =
      typeFindings (read config classId e position).property ++
        if (read config classId e position).link = none then
          ((read config classId e position).property.nameFinding? config).toList
        else [] := by
  refine congrArg (typeFindings _ ++ ·) ?_
  rw [nameFindings_eq]
  by_cases hend : isAssociationEnd e = true
  · simp [read, hend]
  · simp [read, hend]

/-- What is found about names at an attribute. -/
theorem withCode_names (hcode : code = .unnamedProperty ∨ code = .propertyNameCase)
    (ha : a ∈ readAll config classId e) :
    Diagnostic.withCode code a.diagnostics =
      if a.link = none then Diagnostic.withCode code (a.property.nameFinding? config).toList
      else [] := by
  obtain ⟨⟨child, position⟩, _, rfl⟩ := List.mem_map.mp ha
  rw [diagnostics_read, Diagnostic.withCode_append, Diagnostic.withCode_eq_nil, List.nil_append]
  · split <;> rfl
  · intro found hfound hfoundCode
    subst hfoundCode
    rcases code_of_mem_typeFindings hfound with h | h
    all_goals
      rw [h] at hcode
      revert hcode
      decide

end OwnedAttribute

namespace Declaration
variable {config : BuildConfig} {ds : List Declaration} {n : Declaration} {i : Nat}
  {a : OwnedAttribute}

/-- The attributes of all classes. -/
def allAttributes (config : BuildConfig) (ds : List Declaration) : List OwnedAttribute :=
  (inArena ds .classes).flatMap (attributes config)

theorem mem_allAttributes (hn : n ∈ inArena ds .classes) (ha : a ∈ n.attributes config) :
    a ∈ allAttributes config ds :=
  List.mem_flatMap.mpr ⟨n, hn, ha⟩

/-- If all attributes have different identifiers, a class has links for exactly those that are
ends. -/
theorem mem_keys_iff_link_ne_none
    (hids : ((allAttributes config ds).map fun a => a.property.id).Nodup)
    (hn : n ∈ inArena ds .classes) (ha : a ∈ n.attributes config) :
    a.property.id ∈ (n.toClass config).associations.keys ↔ a.link ≠ none := by
  rw [mem_keys_associations_iff, ownsEnd, List.any_eq_true]
  constructor
  · rintro ⟨b, hb, hend⟩
    obtain ⟨hlink, hid⟩ := of_decide_eq_true hend
    obtain rfl := List.inj_on_of_nodup_map hids (mem_allAttributes hn hb) (mem_allAttributes hn ha)
      hid
    exact Option.isSome_iff_ne_none.mp hlink
  · intro hlink
    exact ⟨a, ha, decide_eq_true ⟨Option.isSome_iff_ne_none.mpr hlink, rfl⟩⟩

/-- No association ends at an attribute that is no end. -/
theorem endingAt_eq_nil (hnodup : (idsIn ds .classes).Nodup) (hn : n ∈ inArena ds .classes)
    (ha : (n.attributes config)[i]? = some a) (hlink : a.link = none) :
    endingAt config ds ⟨n.id, i⟩ = [] := by
  refine List.filter_eq_nil_iff.mpr fun b _ hend => ?_
  obtain ⟨n', hn', _, link, hget, hplace⟩ := exists_of_endOf?_eq_some (of_decide_eq_true hend)
  obtain ⟨hid, rfl⟩ := PropertySource.mk.inj hplace
  obtain rfl : n = n' := List.inj_on_of_nodup_map hnodup hn hn' hid
  obtain ⟨_, child, hchild, hread⟩ := OwnedAttribute.exists_of_get?_links hget
  rw [attributes, OwnedAttribute.getElem?_readAll, hchild] at ha
  obtain rfl := Option.some.inj ha
  rw [hread] at hlink
  cases hlink

end Declaration

namespace Draft
variable {config : BuildConfig} {d : Draft} {ds : List Declaration} {code : DiagnosticCode}
variable (hd : d.Files config ds)
  (howners : d.owners = .ofList (Declaration.ownedEnds config ds))
include hd howners

/-- Something is found about a name exactly if it is found at an attribute that is no end. -/
theorem Files.reports_iff (hfound : d.diagnostics = ds.flatMap (Declaration.findings config))
    (hcode : code = .unnamedProperty ∨ code = .propertyNameCase) (id : ElementId) :
    d.finish.Reports code id ↔ ∃ a ∈ Declaration.allAttributes config ds, a.link = none ∧
      (∃ found, a.property.nameFinding? config = some found ∧ found.code = code) ∧
      a.property.id = id := by
  have hattributes : code ∈ DiagnosticCode.ofAttributes := by
    rcases hcode with rfl | rfl <;> decide
  rw [BuildResult.reports_iff_mem_withCode,
    hd.withCode_finish howners hfound (List.mem_append_left _ hattributes),
    Declaration.withCode_flatMap_findings_eq hattributes]
  simp only [Diagnostic.withCode_flatMap, List.mem_flatMap]
  constructor
  · rintro ⟨found, ⟨n, hn, a, ha, hmem⟩, hid⟩
    rw [OwnedAttribute.withCode_names hcode ha] at hmem
    split at hmem
    · rename_i hlink
      obtain ⟨hmem, hfoundCode⟩ := List.mem_filter.mp hmem
      have hname := Option.mem_toList.mp hmem
      have helement := Property.element_of_nameFinding? hname
      exact ⟨a, Declaration.mem_allAttributes hn ha, hlink,
        ⟨found, hname, of_decide_eq_true hfoundCode⟩,
        Option.some.inj (helement.symm.trans hid)⟩
    · cases hmem
  · rintro ⟨a, ha, hlink, ⟨found, hname, hfoundCode⟩, rfl⟩
    obtain ⟨n, hn, ha⟩ := List.mem_flatMap.mp ha
    refine ⟨found, ⟨n, hn, a, ha, ?_⟩, Property.element_of_nameFinding? hname⟩
    rw [OwnedAttribute.withCode_names hcode ha, if_pos hlink]
    exact List.mem_filter.mpr ⟨Option.mem_toList.mpr hname, decide_eq_true hfoundCode⟩

variable (hnested : Declaration.IsNested [] ds)
include hnested

/-- The properties of a finished draft go by the identifiers of the attributes. -/
theorem Files.map_id_allProperties : d.finish.model.allProperties.map Property.id =
    (Declaration.allAttributes config ds).map fun a => a.property.id := by
  have hids := hd.filterMap_allProperties howners hnested (f := fun p => some p.id)
    fun _ _ => rfl
  simp only [List.filterMap_eq_map'] at hids
  rw [hids, Declaration.allAttributes, List.map_flatMap]
  refine List.flatMap_congr fun n _ => ?_
  rw [Declaration.toClass, List.map_map]
  rfl

/-- Every property of a finished draft is that of an attribute, joined with associations. -/
theorem Files.exists_of_mem_properties {c : Class} (hc : c ∈ d.finish.model.classes.values)
    {p : Property} (hp : p ∈ c.properties) :
    ∃ n ∈ inArena ds .classes, ∃ i, ∃ a : OwnedAttribute, (n.attributes config)[i]? = some a ∧
      p = a.property.joined (endingAt config ds ⟨n.id, i⟩) ∧
      c.associations = (n.toClass config).associations := by
  obtain ⟨k, hk⟩ := OrderedMap.exists_get?_of_mem_values hc
  obtain ⟨n, hn, rfl, _⟩ := (hd.isFiled_finish howners hnested).exists_of_get? hk
  obtain ⟨referees, hget⟩ := hd.get?_classes_finish howners hn
  obtain rfl := Option.some.inj (hk.symm.trans hget)
  obtain ⟨i, hi⟩ := List.mem_iff_getElem?.mp hp
  rw [Class.joined, List.getElem?_mapIdx, Declaration.toClass, List.getElem?_map,
    Option.map_map] at hi
  obtain ⟨a, ha, rfl⟩ := Option.map_eq_some_iff.mp hi
  exact ⟨n, hn, i, a, ha, rfl, rfl⟩

/-- The findings about names are those that the properties without a link call for at the end. -/
theorem Files.reports_iff_of_mem_properties
    (hfound : d.diagnostics = ds.flatMap (Declaration.findings config))
    (hids : (d.finish.model.allProperties.map Property.id).Nodup)
    (hcode : code = .unnamedProperty ∨ code = .propertyNameCase)
    {c : Class} (hc : c ∈ d.finish.model.classes.values) {p : Property} (hp : p ∈ c.properties) :
    d.finish.Reports code p.id ↔ p.id ∉ c.associations.keys ∧
      ∃ found, p.nameFinding? config = some found ∧ found.code = code := by
  rw [hd.map_id_allProperties howners hnested] at hids
  obtain ⟨n, hn, i, a, ha, rfl, hassociations⟩ := hd.exists_of_mem_properties howners hnested hc hp
  have hmem := List.mem_of_getElem? ha
  have hkeys := Declaration.mem_keys_iff_link_ne_none hids hn hmem
  have hid : ∀ as, (a.property.joined as).id = a.property.id := fun _ => rfl
  rw [hassociations, hid, hkeys, not_not, hd.reports_iff howners hfound hcode]
  -- Without a link, the property is still what the attribute declares.
  have hjoined (hlink : a.link = none) :
      a.property.joined (endingAt config ds ⟨n.id, i⟩) = a.property := by
    rw [Declaration.endingAt_eq_nil (hd.nodup_idsIn .classes) hn ha hlink]
    exact Property.joined_nil (Declaration.association_of_mem_properties (List.mem_map_of_mem hmem))
  constructor
  · rintro ⟨b, hb, hlink, hname, hsame⟩
    obtain rfl := List.inj_on_of_nodup_map hids hb (Declaration.mem_allAttributes hn hmem) hsame
    exact ⟨hlink, by rwa [hjoined hlink]⟩
  · rintro ⟨hlink, hname⟩
    rw [hjoined hlink] at hname
    exact ⟨a, Declaration.mem_allAttributes hn hmem, hlink, hname, rfl⟩

end Draft

/-- What a build finds about names. A property is found to have no name, or to have one that starts
with an upper-case letter if that is checked, exactly if this is so at the end and its class has no
link for it. So the findings describe the names of all properties but those with a link that have no
name at the end, or have one that starts with an upper-case letter while this is checked. -/
theorem build_describesName_iff {config : BuildConfig} {resource : Option String}
    {document : Element} {result : BuildResult}
    (h : build config resource document = .ok result)
    (hids : (result.model.allProperties.map Property.id).Nodup)
    {c : Class} (hc : c ∈ result.model.classes.values) {p : Property} (hp : p ∈ c.properties) :
    (result.Reports .unnamedProperty p.id ↔ p.id ∉ c.associations.keys ∧ p.name = none) ∧
    (result.Reports .propertyNameCase p.id ↔ p.id ∉ c.associations.keys ∧
      config.checkPropertyNameCase = true ∧ p.startsUppercase = true) ∧
    (result.DescribesName config p ↔ (p.id ∈ c.associations.keys → p.name ≠ none ∧
      ¬ (config.checkPropertyNameCase = true ∧ p.startsUppercase = true))) := by
  obtain ⟨root, d, _, rfl, hd⟩ := exists_draft_of_build h
  have hnested := isNested_visited config root
  have hfiles := Draft.files_of_foldlM hnested hd
  have hreports {code : DiagnosticCode}
      (hcode : code = .unnamedProperty ∨ code = .propertyNameCase) :=
    hfiles.reports_iff_of_mem_properties (Draft.owners_of_foldlM hd) hnested
      (Draft.diagnostics_of_foldlM hd) hids hcode hc hp
  have hunnamed := hreports (Or.inl rfl)
  have hcase := hreports (Or.inr rfl)
  rw [Property.exists_unnamedProperty_iff] at hunnamed
  rw [Property.exists_propertyNameCase_iff] at hcase
  refine ⟨hunnamed, hcase, fun hdescribes hlink => ⟨?_, ?_⟩, fun hlinked => ⟨?_, fun hcheck => ?_⟩⟩
  · exact fun hname => (hunnamed.mp (hdescribes.unnamed.mpr hname)).1 hlink
  · exact fun hupper => (hcase.mp ((hdescribes.nameCase hupper.1).mpr hupper.2)).1 hlink
  · rw [hunnamed]
    exact and_iff_right_of_imp fun hname hlink => (hlinked hlink).1 hname
  · rw [hcase]
    exact ⟨fun hupper => hupper.2.2,
      fun hupper => ⟨fun hlink => (hlinked hlink).2 ⟨hcheck, hupper⟩, hcheck, hupper⟩⟩

/-- The configuration that also checks the case of property names. -/
def BuildConfig.caseChecking : BuildConfig := { standard with checkPropertyNameCase := true }

/-- Two classes with one end each of an association, which names the first end only. Of two other
attributes, one has no name and one has a name that starts with an upper-case letter. -/
def bothEndsDocument : Element :=
  let typed id rest type := ⟨"ownedAttribute", .ofList ([("xmi:id", id), ("type", type)] ++ rest),
    none, []⟩
  let memberEnd id := ⟨"memberEnd", .ofList [("xmi:idref", id)], none, []⟩
  packaged "uml:Model" "m" [packaged "uml:Package" "p" [
    packaged "uml:Class" "A" [typed "a" [("association", "X")] "B"],
    packaged "uml:Class" "B" [typed "b" [("association", "X")] "A", typed "c" [] "A",
      typed "d" [("name", "Label")] "A"],
    packaged "uml:Association" "X" [memberEnd "a", memberEnd "b"]]]

theorem build_describesName_iff_bothEndsDocument :
    ∃ result, build .caseChecking none bothEndsDocument = .ok result ∧
      result.model.allProperties.map (fun p => (p.id, p.name)) =
        [(⟨"a"⟩, some "X"), (⟨"b"⟩, none), (⟨"c"⟩, none), (⟨"d"⟩, some "Label")] ∧
      (result.model.allProperties.map Property.id).Nodup ∧
      ∀ c ∈ result.model.classes.values, ∀ p ∈ c.properties,
        (result.Reports .unnamedProperty p.id ↔ p.id = ⟨"c"⟩) ∧
        (result.Reports .propertyNameCase p.id ↔ p.id = ⟨"d"⟩) ∧
        (result.DescribesName .caseChecking p ↔ p.id = ⟨"c"⟩ ∨ p.id = ⟨"d"⟩) := by
  obtain ⟨result, h, hrun⟩ := exists_of_any_eq_true
    (x := build .caseChecking none bothEndsDocument)
    (p := fun r => decide (
      r.model.allProperties.map (fun p => (p.id, p.name)) =
        [(⟨"a"⟩, some "X"), (⟨"b"⟩, none), (⟨"c"⟩, none), (⟨"d"⟩, some "Label")] ∧
      (r.model.allProperties.map Property.id).Nodup ∧
      ∀ c ∈ r.model.classes.values, ∀ p ∈ c.properties,
        (p.id ∉ c.associations.keys ∧ p.name = none ↔ p.id = ⟨"c"⟩) ∧
        (p.id ∉ c.associations.keys ∧ BuildConfig.caseChecking.checkPropertyNameCase = true ∧
          p.startsUppercase = true ↔ p.id = ⟨"d"⟩) ∧
        ((p.id ∈ c.associations.keys → p.name ≠ none ∧
          ¬ (BuildConfig.caseChecking.checkPropertyNameCase = true ∧ p.startsUppercase = true)) ↔
            p.id = ⟨"c"⟩ ∨ p.id = ⟨"d"⟩)))
    (by decide +kernel)
  obtain ⟨hnames, hids, hproperties⟩ := of_decide_eq_true hrun
  refine ⟨result, h, hnames, hids, fun c hc p hp => ?_⟩
  obtain ⟨hunnamed, hcase, hdescribes⟩ := build_describesName_iff h hids hc hp
  obtain ⟨hc, hd, hboth⟩ := hproperties c hc p hp
  exact ⟨hunnamed.trans hc, hcase.trans hd, hdescribes.trans hboth⟩

/-- Nothing is found about the end that stays without a name, nor about the one that is given a name
with an upper-case letter. -/
theorem exists_not_describesName_bothEndsDocument :
    ∃ result p q, build .caseChecking none bothEndsDocument = .ok result ∧
      (result.model.allProperties.map Property.id).Nodup ∧
      p ∈ result.model.allProperties ∧ p.name = none ∧ ¬ result.Reports .unnamedProperty p.id ∧
      q ∈ result.model.allProperties ∧ q.startsUppercase = true ∧
      ¬ result.Reports .propertyNameCase q.id := by
  obtain ⟨result, h, hrun⟩ := exists_of_any_eq_true
    (x := build .caseChecking none bothEndsDocument)
    (p := fun r => decide (
      (r.model.allProperties.map Property.id).Nodup ∧
      (∃ p ∈ r.model.allProperties, p.name = none ∧
        ¬ ∃ found ∈ r.diagnostics, found.code = .unnamedProperty ∧ found.element = some p.id) ∧
      ∃ q ∈ r.model.allProperties, q.startsUppercase = true ∧
        ¬ ∃ found ∈ r.diagnostics, found.code = .propertyNameCase ∧ found.element = some q.id))
    (by decide +kernel)
  obtain ⟨hids, ⟨p, hp, hname, hunnamed⟩, q, hq, hupper, hcase⟩ := of_decide_eq_true hrun
  exact ⟨result, p, q, h, hids, hp, hname, hunnamed, hq, hupper, hcase⟩

end UmlCatalog
