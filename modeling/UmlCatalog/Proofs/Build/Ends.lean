import UmlCatalog.Proofs.Build.Resolution

/-!
# Properties at the ends of associations

An association ends at a property of the last class that has an attribute under the identifier of
the end. All that resolving does to a model is to join each property with the associations that end
at it: the last of them names the property if it has no name, adds its comments and is recorded.

## Implementation notes

An association is resolved by a link, which repeats the name, the comments and the aggregation of
the attribute. So an association undoes what an earlier one has done to the same property, and
joining a property with one association after the other comes to joining it with the last one.
-/

namespace UmlCatalog
open Markup (Element)
open Declaration (inArena)

/-- A property with the associations that end at it, of which the last one counts. -/
def Property.joined (p : Property) (as : List Association) : Property :=
  { p with
    name := p.name.or (as.getLast?.bind Association.name)
    comments := p.comments ++ (as.getLast?.map Association.comments).getD []
    association := as.getLast?.map Association.id }

/-- A class with the associations that end at each place. -/
def Class.joined (c : Class) (ending : Nat → List Association) : Class :=
  { c with properties := c.properties.mapIdx fun i p => p.joined (ending i) }

namespace Declaration

/-- Whether an attribute under an identifier is the end of an association. -/
def ownsEnd (config : BuildConfig) (n : Declaration) (e : ElementId) : Bool :=
  (n.attributes config).any fun a => a.link.isSome ∧ a.property.id = e

/-- The last class that owns an end. -/
def ownerOf? (config : BuildConfig) (ds : List Declaration) (e : ElementId) : Option Declaration :=
  (inArena ds .classes).findRev? fun n => n.ownsEnd config e

/-- The property that an association ends at. -/
def endOf? (config : BuildConfig) (ds : List Declaration) (a : Association) :
    Option PropertySource :=
  a.source.bind fun e => (ownerOf? config ds e).bind fun n =>
    ((n.toClass config).associations.get? e).map fun link => ⟨n.id, link.property⟩

/-- The associations that are declared, in document order. -/
def associationsIn (config : BuildConfig) (ds : List Declaration) : List Association :=
  (inArena ds .associations).map (toAssociation config)

/-- The associations that end at a place, in document order. -/
def endingAt (config : BuildConfig) (ds : List Declaration) (place : PropertySource) :
    List Association :=
  (associationsIn config ds).filter fun a => endOf? config ds a = some place

end Declaration

namespace Property

theorem joined_nil {p : Property} (h : p.association = none) : p.joined [] = p := by
  obtain ⟨id, classId, name, target, lower, upper, aggregation, association, comments⟩ := p
  obtain rfl : association = none := h
  simp [joined]

/-- A link that repeats the property undoes what earlier associations have done. -/
theorem resolved_joined {p : Property} {link : AssociationLink} (hname : link.name = p.name)
    (hcomments : link.comments = p.comments) (haggregation : link.aggregation = p.aggregation)
    (as : List Association) (a : Association) :
    (p.joined as).resolved link a = p.joined (as ++ [a]) := by
  simp [joined, resolved, hname, hcomments, haggregation]

end Property

namespace OwnedAttribute
variable {config : BuildConfig} {classId : ElementId} {e : Element}

/-- A link repeats what the attribute says of its property. -/
theorem link_read_eq {position : Nat} {link : AssociationLink}
    (h : (read config classId e position).link = some link) :
    link.name = (read config classId e position).property.name ∧
      link.comments = (read config classId e position).property.comments ∧
      link.aggregation = (read config classId e position).property.aggregation := by
  simp only [read] at h ⊢
  split at h
  · obtain rfl := Option.some.inj h
    exact ⟨rfl, rfl, rfl⟩
  · cases h

theorem getElem?_readAll (i : Nat) : (readAll config classId e)[i]? =
    (e.childrenNamed "ownedAttribute")[i]?.map fun child => read config classId child i := by
  rw [readAll, List.getElem?_map, List.getElem?_zipIdx, Option.map_map]
  simp [Function.comp_def]

end OwnedAttribute

/-- Among keys that stand for one value each, the first one found gives its value. -/
theorem lookup_flatMap_map {α β κ : Type} [DecidableEq κ] (keys : α → List κ) (value : α → β)
    (xs : List α) (k : κ) : (xs.flatMap fun x => (keys x).map (·, value x)).lookup k =
      (xs.find? fun x => k ∈ keys x).map value := by
  have hone : ∀ (l : List κ) (b : β), (l.map (·, b)).lookup k = if k ∈ l then some b else none := by
    intro l b
    induction l with
    | nil => rfl
    | cons j l ih =>
        by_cases hk : k = j
        · simp [hk]
        · have hkj : (k == j) = false := by simpa using hk
          simp [List.lookup_cons, hk, hkj, ih]
  induction xs with
  | nil => rfl
  | cons x xs ih =>
      rw [List.flatMap_cons, List.lookup_append, hone, ih, List.find?_cons]
      by_cases hk : k ∈ keys x
      · simp [hk]
      · simp [hk]

namespace Declaration
variable {config : BuildConfig} {ds : List Declaration} {n : Declaration} {e : ElementId}

/-- A class has links for those of its attributes that are ends. -/
theorem mem_keys_associations_iff :
    e ∈ (n.toClass config).associations.keys ↔ n.ownsEnd config e = true := by
  have hkeys : e ∈ (n.toClass config).associations.keys ↔
      ∃ a ∈ n.attributes config, ∃ link, a.link = some link ∧ link.id = e := by
    show e ∈ (OrderedMap.ofList _).keys ↔ _
    simp only [OrderedMap.mem_keys_ofList, List.mem_map, List.mem_filterMap, Option.map_eq_some_iff]
    constructor
    · rintro ⟨_, ⟨a, ha, link, hlink, rfl⟩, rfl⟩
      exact ⟨a, ha, link, hlink, rfl⟩
    · rintro ⟨a, ha, link, hlink, rfl⟩
      exact ⟨_, ⟨a, ha, link, hlink, rfl⟩, rfl⟩
  rw [hkeys, ownsEnd, List.any_eq_true]
  refine exists_congr fun a => and_congr_right fun ha => ?_
  obtain ⟨⟨child, position⟩, _, rfl⟩ := List.mem_map.mp ha
  rw [decide_eq_true_iff, Option.isSome_iff_exists, ← exists_and_right]
  refine exists_congr fun link => and_congr_right fun hlink => ?_
  rw [OwnedAttribute.id_of_link_read hlink]

/-- The owner of an end is told by its identifier. -/
theorem lookup_ownedEnds (config : BuildConfig) (ds : List Declaration) (e : ElementId) :
    (ownedEnds config ds).reverse.lookup e = (ownerOf? config ds e).map Declaration.id := by
  have hreverse : (ownedEnds config ds).reverse = (inArena ds .classes).reverse.flatMap fun n =>
      (n.toClass config).associations.keys.reverse.map (·, n.id) := by
    simp [ownedEnds, List.reverse_flatMap, Function.comp_def]
  rw [hreverse, lookup_flatMap_map, ownerOf?, List.findRev?_eq_find?_reverse]
  simp only [List.mem_reverse, mem_keys_associations_iff, Bool.decide_eq_true]

/-- An owner of an end is a class that has a link for it. -/
theorem of_ownerOf?_eq_some (h : ownerOf? config ds e = some n) :
    n ∈ inArena ds .classes ∧ ∃ link, (n.toClass config).associations.get? e = some link := by
  rw [ownerOf?, List.findRev?_eq_find?_reverse] at h
  have howns : n.ownsEnd config e = true := by simpa using List.find?_some h
  refine ⟨List.mem_reverse.mp (List.mem_of_find?_eq_some h), Option.isSome_iff_exists.mp ?_⟩
  rw [OrderedMap.get?_isSome_iff, mem_keys_associations_iff]
  exact howns

/-- An association ends at the position of a link that a class has for its end. -/
theorem exists_of_endOf?_eq_some {a : Association} {place : PropertySource}
    (h : endOf? config ds a = some place) :
    ∃ n ∈ inArena ds .classes, ∃ e link, (n.toClass config).associations.get? e = some link ∧
      place = ⟨n.id, link.property⟩ := by
  obtain ⟨e, _, h⟩ := Option.bind_eq_some_iff.mp h
  obtain ⟨n, hn, h⟩ := Option.bind_eq_some_iff.mp h
  obtain ⟨link, hlink, rfl⟩ := Option.map_eq_some_iff.mp h
  exact ⟨n, (of_ownerOf?_eq_some hn).1, e, link, hlink, rfl⟩

/-- A link is read off the attribute that stands at its position. -/
theorem exists_read_of_get?_associations {link : AssociationLink}
    (h : (n.toClass config).associations.get? e = some link) :
    link.id = e ∧ ∃ child,
      (n.toClass config).properties[link.property]? =
        some (OwnedAttribute.read config n.id child link.property).property ∧
      (OwnedAttribute.read config n.id child link.property).link = some link := by
  obtain ⟨hid, child, hchild, hread⟩ := OwnedAttribute.exists_of_get?_links h
  refine ⟨hid, child, ?_, hread⟩
  show ((OwnedAttribute.readAll config n.id n.element).map OwnedAttribute.property)[_]? = _
  rw [List.getElem?_map, OwnedAttribute.getElem?_readAll, hchild]
  rfl

/-- A link stands at a property whose contents it repeats. -/
theorem exists_of_get?_associations {link : AssociationLink}
    (h : (n.toClass config).associations.get? e = some link) :
    ∃ p, (n.toClass config).properties[link.property]? = some p ∧ link.name = p.name ∧
      link.comments = p.comments ∧ link.aggregation = p.aggregation := by
  obtain ⟨_, child, hproperty, hread⟩ := exists_read_of_get?_associations h
  exact ⟨_, hproperty, OwnedAttribute.link_read_eq hread⟩

theorem association_of_mem_properties {p : Property} (h : p ∈ (n.toClass config).properties) :
    p.association = none := by
  obtain ⟨a, ha, rfl⟩ := List.mem_map.mp h
  obtain ⟨⟨child, position⟩, _, rfl⟩ := List.mem_map.mp ha
  rfl

end Declaration

namespace Class
variable {c : Class} {ending ending' : Nat → List Association}

theorem joined_nil (h : ∀ p ∈ c.properties, p.association = none) : c.joined (fun _ => []) = c := by
  have hproperties : (c.properties.mapIdx fun _ p => p.joined []) = c.properties := by
    refine List.ext_getElem? fun i => ?_
    rw [List.getElem?_mapIdx]
    cases hp : c.properties[i]? with
    | none => rfl
    | some p => rw [Option.map_some, Property.joined_nil (h p (List.mem_of_getElem? hp))]
  rw [joined, hproperties]

theorem joined_congr (h : ∀ i, ending' i = ending i) : c.joined ending' = c.joined ending := by
  rw [funext h]

/-- Changing one property of a class joins it with more associations. -/
theorem modifyProperty_joined {position : Nat} {f : Property → Property}
    (hat : ∀ p, c.properties[position]? = some p →
      f (p.joined (ending position)) = p.joined (ending' position))
    (hothers : ∀ i, i ≠ position → ending' i = ending i) :
    (c.joined ending).modifyProperty position f = c.joined ending' := by
  have hproperties : ((c.properties.mapIdx fun i p => p.joined (ending i)).modify position f) =
      c.properties.mapIdx fun i p => p.joined (ending' i) := by
    refine List.ext_getElem? fun i => ?_
    rw [List.getElem?_modify, List.getElem?_mapIdx, List.getElem?_mapIdx]
    cases hp : c.properties[i]? with
    | none => rfl
    | some p =>
        by_cases hi : position = i
        · subst hi
          simp [hat p hp]
        · simp [hi, hothers i (Ne.symm hi)]
  simp only [joined, modifyProperty, hproperties]

end Class

namespace Draft
variable {config : BuildConfig} {d : Draft} {ds : List Declaration} {n : Declaration}

/-- A finished draft has the associations that are declared. -/
theorem Files.values_associations_finish (hd : d.Files config ds) :
    d.finish.model.associations.values = Declaration.associationsIn config ds := by
  obtain ⟨properties, classes, enums, datatypes, hframe⟩ := d.finish_frame
  rw [hframe]
  exact hd.associations.values_eq

section Resolving
-- What is filed and what owns the ends tells how every association is resolved.
variable (hd : d.Files config ds)
  (howners : d.owners = .ofList (Declaration.ownedEnds config ds))
include hd howners

/-- A draft resolves an association at the property that the declarations tell. -/
theorem Files.endLink?_eq (a : Association) :
    d.endLink? a = a.source.bind fun e => (Declaration.ownerOf? config ds e).bind fun n =>
      ((n.toClass config).associations.get? e).map (n.id, ·) := by
  unfold endLink? ownerOf?
  cases a.source with
  | none => rfl
  | some e =>
      rw [Option.bind_some, Option.bind_some, howners, OrderedMap.get?_ofList,
        Declaration.lookup_ownedEnds]
      cases hn : Declaration.ownerOf? config ds e with
      | none => rfl
      | some n =>
          obtain ⟨hmem, _⟩ := Declaration.of_ownerOf?_eq_some hn
          obtain ⟨_, hc, rfl⟩ := hd.classes.exists_get? n hmem
          simp [hc]

/-- An association ends at the place of the link that resolves it. -/
theorem Files.endOf?_eq (a : Association) :
    Declaration.endOf? config ds a =
      (d.endLink? a).map fun owner => ⟨owner.1, owner.2.property⟩ := by
  rw [hd.endLink?_eq howners]
  simp [Declaration.endOf?, Option.map_bind, Function.comp_def]

/-- The link that resolves an association repeats a property of the class that owns the end. -/
theorem Files.exists_of_endLink? (hn : n ∈ inArena ds .classes) {a : Association}
    {link : AssociationLink} (h : d.endLink? a = some (n.id, link)) :
    ∃ p, (n.toClass config).properties[link.property]? = some p ∧ link.name = p.name ∧
      link.comments = p.comments ∧ link.aggregation = p.aggregation := by
  rw [hd.endLink?_eq howners] at h
  obtain ⟨e, _, h⟩ := Option.bind_eq_some_iff.mp h
  obtain ⟨n', hn', h⟩ := Option.bind_eq_some_iff.mp h
  obtain ⟨link', hlink, h⟩ := Option.map_eq_some_iff.mp h
  obtain ⟨hid, rfl⟩ := Prod.mk.inj h
  obtain rfl : n' = n := List.inj_on_of_nodup_map (hd.nodup_idsIn .classes)
    (Declaration.of_ownerOf?_eq_some hn').1 hn hid
  exact Declaration.exists_of_get?_associations hlink

/-- The associations join each property of a class with those among them that end at it. -/
theorem Files.foldl_amend (hn : n ∈ inArena ds .classes) (as : List Association) :
    as.foldl (d.amend n.id) (n.toClass config) = (n.toClass config).joined fun i =>
      as.filter fun a => Declaration.endOf? config ds a = some ⟨n.id, i⟩ := by
  induction as using List.reverseRecOn with
  | nil =>
      exact (Class.joined_nil fun p hp => Declaration.association_of_mem_properties hp).symm
  | append_singleton as a ih =>
      have hend := hd.endOf?_eq howners a
      rw [List.foldl_append, List.foldl_cons, List.foldl_nil, ih, amend]
      cases hlink : d.endLink? a with
      | none =>
          rw [hlink] at hend
          simp [hend]
      | some owner =>
          obtain ⟨k, link⟩ := owner
          rw [hlink, Option.map_some] at hend
          dsimp only
          split
          · rename_i hk
            subst hk
            obtain ⟨p, hp, hname, hcomments, haggregation⟩ :=
              hd.exists_of_endLink? howners hn hlink
            refine Class.modifyProperty_joined (fun q hq => ?_) fun i hi => ?_
            · obtain rfl := Option.some.inj (hp.symm.trans hq)
              rw [Property.resolved_joined hname hcomments haggregation, List.filter_append]
              simp [hend]
            · simp [hend, Ne.symm hi]
          · rename_i hk
            refine Class.joined_congr fun i => ?_
            simp [hend, Ne.symm hk]

/-- Resolving all associations joins each property with those that end at it and changes nothing
else. -/
theorem Files.applyAssociations_eq : d.applyAssociations.model = { d.model with
    classes := d.model.classes.mapWithKey fun k c =>
      c.joined fun i => Declaration.endingAt config ds ⟨k, i⟩ } := by
  rw [applyAssociations_frame]
  have hclasses : d.applyAssociations.model.classes = d.model.classes.mapWithKey fun k c =>
      c.joined fun i => Declaration.endingAt config ds ⟨k, i⟩ := by
    have hfiled : IsFiled d.model.classes (fun n c => c.id = n.id ∧ c.packages = n.chain)
        (inArena ds .classes) := by
      refine hd.classes.imp ?_
      rintro n _ c rfl
      exact ⟨rfl, rfl⟩
    refine OrderedMap.ext_get? ?_ fun k => ?_
    · rw [OrderedMap.keys_mapWithKey, hfiled.keys, (isFiled_applyAssociations hfiled).keys]
    · rw [applyAssociations, get?_foldl_resolve, OrderedMap.get?_mapWithKey,
        hd.associations.values_eq]
      cases hc : d.model.classes.get? k with
      | none => rfl
      | some c =>
          obtain ⟨n, hn, rfl, rfl⟩ := hd.classes.exists_of_get? hc
          rw [Option.map_some, Option.map_some, hd.foldl_amend howners hn]
          rfl
  rw [hclasses]

/-- A finished draft has the properties of its declarations, each joined with the associations that
end at it. -/
theorem Files.property?_finish (place : PropertySource) :
    d.finish.model.property? place =
      (d.model.property? place).map (Property.joined · (Declaration.endingAt config ds place)) := by
  obtain ⟨properties, referees, enums, datatypes, hframe⟩ := d.finish_frame
  have hclasses : d.finish.model.classes = d.applyAssociations.model.classes.mapWithKey fun k c =>
      { c with referees := referees k } := by rw [hframe]
  rw [Model.property?_mapWithKey_referees referees place hclasses, hd.applyAssociations_eq howners]
  dsimp only
  rw [OrderedMap.get?_mapWithKey, Model.property?]
  cases d.model.classes.get? place.classId with
  | none => rfl
  | some c =>
      rw [Option.map_some, Option.bind_some, Option.bind_some, Class.joined, List.getElem?_mapIdx]

/-- A finished draft has the class of every declaration, joined with the associations that end at
its properties. -/
theorem Files.get?_classes_finish (hn : n ∈ inArena ds .classes) :
    ∃ referees, d.finish.model.classes.get? n.id = some
      { (n.toClass config).joined fun i => Declaration.endingAt config ds ⟨n.id, i⟩ with
        referees := referees } := by
  obtain ⟨_, hc, rfl⟩ := hd.classes.exists_get? n hn
  obtain ⟨properties, referees, enums, datatypes, hframe⟩ := d.finish_frame
  refine ⟨referees n.id, ?_⟩
  rw [hframe, hd.applyAssociations_eq howners]
  dsimp only
  rw [OrderedMap.get?_mapWithKey, OrderedMap.get?_mapWithKey, hc]
  rfl

end Resolving
end Draft

/-- What a build makes of associations. The associations of the model are the visited ones, in
document order. Resolving them joins each property with those that end at it, of which the last one
counts, and changes nothing else. Later steps change no property: every class of the model is the
declared one joined with its associations, besides the back references to it. -/
theorem build_joins_associations {config : BuildConfig} {resource : Option String}
    {document : Element} {result : BuildResult}
    (h : build config resource document = .ok result) :
    ∃ root d, modelRoot document = .ok root ∧
      (visited config root).foldlM (Draft.add config) (.start config resource root) = .ok d ∧
      result = d.finish ∧
      d.applyAssociations.model = { d.model with
        classes := d.model.classes.mapWithKey fun k c =>
          c.joined fun i => Declaration.endingAt config (visited config root) ⟨k, i⟩ } ∧
      result.model.associations.values =
        Declaration.associationsIn config (visited config root) ∧
      result.model.classes.keys = Declaration.idsIn (visited config root) .classes ∧
      ∀ n ∈ inArena (visited config root) .classes, ∃ referees,
        result.model.classes.get? n.id = some
          { (n.toClass config).joined fun i =>
              Declaration.endingAt config (visited config root) ⟨n.id, i⟩ with
            referees := referees } := by
  obtain ⟨root, d, hroot, rfl, hd⟩ := exists_draft_of_build h
  have hnested := isNested_visited config root
  have hfiles := Draft.files_of_foldlM hnested hd
  have howners := Draft.owners_of_foldlM hd
  exact ⟨root, d, hroot, hd, rfl, hfiles.applyAssociations_eq howners,
    hfiles.values_associations_finish, (hfiles.filesAll hnested).classes.keys_eq_idsIn,
    fun n hn => hfiles.get?_classes_finish howners hn⟩

/-- A class with two attributes that are ends, the first of which has no name. Two of three
associations end at the first attribute and none at the second one. -/
def sharedEndDocument : Element :=
  packaged "uml:Model" "m" [packaged "uml:Package" "p" [
    packaged "uml:Class" "C" [
      ⟨"ownedAttribute", .ofList [("xmi:id", "a"), ("association", "X")], none, []⟩,
      ⟨"ownedAttribute", .ofList [("xmi:id", "b"), ("name", "b"), ("association", "Z")], none, []⟩],
    packaged "uml:Association" "X" [⟨"memberEnd", .ofList [("xmi:idref", "a")], none, []⟩],
    packaged "uml:Association" "Y" [⟨"memberEnd", .ofList [("xmi:idref", "a")], none, []⟩],
    packaged "uml:Association" "Z" [⟨"memberEnd", .ofList [("xmi:idref", "c")], none, []⟩]]]

theorem build_joins_associations_sharedEndDocument :
    ∃ result root, build .standard none sharedEndDocument = .ok result ∧
      modelRoot sharedEndDocument = .ok root ∧
      (∀ n ∈ inArena (visited .standard root) .classes, ∃ referees,
        result.model.classes.get? n.id = some
          { (n.toClass .standard).joined fun i =>
              Declaration.endingAt .standard (visited .standard root) ⟨n.id, i⟩ with
            referees := referees }) ∧
      (Declaration.endingAt .standard (visited .standard root) ⟨⟨"C"⟩, 0⟩).map Association.id =
        [⟨"X"⟩, ⟨"Y"⟩] ∧
      Declaration.endingAt .standard (visited .standard root) ⟨⟨"C"⟩, 1⟩ = [] ∧
      (result.model.property? ⟨⟨"C"⟩, 0⟩).map (fun p => (p.name, p.association)) =
        some (some "Y", some ⟨"Y"⟩) ∧
      (result.model.property? ⟨⟨"C"⟩, 1⟩).map (fun p => (p.name, p.association)) =
        some (some "b", none) := by
  obtain ⟨result, h, hrun⟩ :=
    exists_of_any_eq_true (x := build .standard none sharedEndDocument) (p := fun r => decide (
      (r.model.property? ⟨⟨"C"⟩, 0⟩).map (fun p => (p.name, p.association)) =
        some (some "Y", some ⟨"Y"⟩) ∧
      (r.model.property? ⟨⟨"C"⟩, 1⟩).map (fun p => (p.name, p.association)) =
        some (some "b", none)))
      (by decide +kernel)
  obtain ⟨hfirst, hsecond⟩ := of_decide_eq_true hrun
  obtain ⟨root, d, hroot, _, _, _, _, _, hclasses⟩ := build_joins_associations h
  obtain rfl : sharedEndDocument = root := Except.ok.inj ((modelRoot_packaged _ _).symm.trans hroot)
  exact ⟨result, sharedEndDocument, h, hroot, hclasses, by decide +kernel, by decide +kernel,
    hfirst, hsecond⟩

end UmlCatalog
