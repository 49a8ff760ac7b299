import UmlCatalog.Proofs.Build.Ends

/-!
# Links at the ends of associations

A link of a class stands at a property, by position. It is current if that property goes by the
identifier of the link and has its bounds. All links are current in every state of a build, and the
class that owns an end has a link for it. So an association whose end has an owner always changes a
property.

## Implementation notes

Attributes may share an identifier. Inside a class the last of them keeps the link, and among
classes the last one owns the end; the identifiers made for attributes without one are no exception.
A class is taken in with all its ends, or the build fails and leaves no state behind.
-/

namespace UmlCatalog
open Markup (Element)

/-- A link under an identifier repeats the identifiers and the bounds of the property at its
position. -/
structure Class.IsCurrentLink (c : Class) (k : ElementId) (link : AssociationLink) : Prop where
  id : link.id = k
  classId : link.classId = c.id
  property : ∃ p, c.properties[link.property]? = some p ∧ p.id = k ∧ p.lower = link.lower ∧
    p.upper = link.upper

/-- A class all of whose links are current. -/
def Class.HasCurrentLinks (c : Class) : Prop :=
  ∀ k link, c.associations.get? k = some link → c.IsCurrentLink k link

/-- What the links of a class rest on. -/
def Class.linkage (c : Class) : ElementId × OrderedMap ElementId AssociationLink ×
    List (ElementId × String × String) :=
  (c.id, c.associations, c.properties.map fun p => (p.id, p.lower, p.upper))

namespace Draft

/-- The links of all classes are current, and an end is owned by a class that has a link for it. -/
structure HasCurrentLinks (d : Draft) : Prop where
  classes : ∀ id c, d.model.classes.get? id = some c → c.HasCurrentLinks
  owners : ∀ k id, d.owners.get? k = some id →
    ∃ c, d.model.classes.get? id = some c ∧ k ∈ c.associations.keys

/-- The states of a build. Some of the declarations are taken in, or all of them and some of the
associations are resolved, or the properties are indexed, or the back references are given too. -/
inductive IsState (config : BuildConfig) (resource : Option String) (root : Element) : Draft → Prop
  | taking {before after : List Declaration} {d : Draft}
      (split : declarations config root = before ++ after)
      (taken : before.foldlM (add config) (start config resource root) = .ok d) :
      IsState config resource root d
  | resolving {d : Draft} {before after : List Association}
      (taken : (declarations config root).foldlM (add config) (start config resource root) = .ok d)
      (split : d.model.associations.values = before ++ after) :
      IsState config resource root (before.foldl resolve d)
  | indexed {d : Draft}
      (taken : (declarations config root).foldlM (add config) (start config resource root) = .ok d) :
      IsState config resource root
        { d.applyAssociations with model := d.applyAssociations.model.withPropertyIndex }
  | referred {d : Draft}
      (taken : (declarations config root).foldlM (add config) (start config resource root) = .ok d) :
      IsState config resource root { d.applyAssociations with
        model := d.applyAssociations.model.withPropertyIndex.withReferees }

end Draft

namespace OwnedAttribute
variable {config : BuildConfig} {classId : ElementId} {e : Element}

/-- A link is told by the class and the bounds of the attribute. -/
theorem bounds_of_link_read {position : Nat} {link : AssociationLink}
    (h : (read config classId e position).link = some link) :
    link.classId = classId ∧
      link.lower = (read config classId e position).property.lower ∧
      link.upper = (read config classId e position).property.upper := by
  simp only [read] at h ⊢
  split at h
  · obtain rfl := Option.some.inj h
    exact ⟨rfl, rfl, rfl⟩
  · cases h

end OwnedAttribute

/-- The links of a declared class are current. -/
theorem Declaration.hasCurrentLinks_toClass (config : BuildConfig) (n : Declaration) :
    (n.toClass config).HasCurrentLinks := by
  intro k link hlink
  obtain ⟨hid, child, hproperty, hread⟩ := exists_read_of_get?_associations hlink
  obtain ⟨hclass, hlower, hupper⟩ := OwnedAttribute.bounds_of_link_read hread
  exact {
    id := hid
    classId := hclass
    property := ⟨_, hproperty, (OwnedAttribute.id_of_link_read hread).symm.trans hid,
      hlower.symm, hupper.symm⟩ }

namespace Class
variable {c c' : Class} {k : ElementId} {link : AssociationLink}

theorem isCurrentLink_iff : c.IsCurrentLink k link ↔ link.id = k ∧ link.classId = c.linkage.1 ∧
    c.linkage.2.2[link.property]? = some (k, link.lower, link.upper) := by
  have hproperty : (∃ p, c.properties[link.property]? = some p ∧ p.id = k ∧ p.lower = link.lower ∧
      p.upper = link.upper) ↔
      c.linkage.2.2[link.property]? = some (k, link.lower, link.upper) := by
    simp [linkage]
  rw [← hproperty]
  exact ⟨fun h => ⟨h.id, h.classId, h.property⟩, fun ⟨hid, hclass, hp⟩ => ⟨hid, hclass, hp⟩⟩

/-- Whether links are current is told by what they rest on. -/
theorem HasCurrentLinks.congr (hc : c.HasCurrentLinks) (h : c'.linkage = c.linkage) :
    c'.HasCurrentLinks := by
  intro k link hlink
  have hassociations : c'.associations = c.associations := congrArg (fun l => l.2.1) h
  rw [hassociations] at hlink
  rw [isCurrentLink_iff, h, ← isCurrentLink_iff]
  exact hc k link hlink

/-- Changing a property in other respects leaves the links what they rest on. -/
theorem linkage_modifyProperty (c : Class) (position : Nat) {f : Property → Property}
    (hf : ∀ p, (f p).id = p.id ∧ (f p).lower = p.lower ∧ (f p).upper = p.upper) :
    (c.modifyProperty position f).linkage = c.linkage := by
  have hproperties : (c.properties.modify position f).map (fun p => (p.id, p.lower, p.upper)) =
      c.properties.map fun p => (p.id, p.lower, p.upper) := by
    refine List.ext_getElem? fun i => ?_
    rw [List.getElem?_map, List.getElem?_map, List.getElem?_modify, Option.map_eq_map,
      Option.map_map]
    refine congrArg (Option.map · _) (funext fun p => ?_)
    rw [Function.comp_apply]
    split
    · rw [(hf p).1, (hf p).2.1, (hf p).2.2]
    · rfl
  simp only [linkage, modifyProperty, hproperties]

end Class

namespace Draft
variable {config : BuildConfig} {resource : Option String} {root : Element} {d d' : Draft}
  {n : Declaration}

/-- Whether links are current is told by the owners and by what the links of each class rest on. -/
theorem HasCurrentLinks.congr (hd : d.HasCurrentLinks) (howners : d'.owners = d.owners)
    (hclasses : ∀ id, (d'.model.classes.get? id).map Class.linkage =
      (d.model.classes.get? id).map Class.linkage) : d'.HasCurrentLinks where
  classes := by
    intro id c' hc'
    have hlinkage := hclasses id
    rw [hc', Option.map_some] at hlinkage
    obtain ⟨c, hc, hsame⟩ := Option.map_eq_some_iff.mp hlinkage.symm
    exact (hd.classes id c hc).congr hsame.symm
  owners := by
    intro k id hk
    rw [howners] at hk
    obtain ⟨c, hc, hkey⟩ := hd.owners k id hk
    have hlinkage := hclasses id
    rw [hc, Option.map_some] at hlinkage
    obtain ⟨c', hc', hsame⟩ := Option.map_eq_some_iff.mp hlinkage
    have hassociations : c'.associations = c.associations := congrArg (fun l => l.2.1) hsame
    exact ⟨c', hc', hassociations ▸ hkey⟩

theorem hasCurrentLinks_start (config : BuildConfig) (resource : Option String) (root : Element) :
    (start config resource root).HasCurrentLinks where
  classes _ _ hc := nomatch hc
  owners _ _ hk := nomatch hk

/-- A declaration that is taken in keeps the links current. -/
theorem Added.hasCurrentLinks (h : Added config d n d') (hd : d.HasCurrentLinks) :
    d'.HasCurrentLinks := by
  by_cases hkind : n.kind.arena? = some .classes
  · have hclasses := h.classes_eq.trans (if_pos hkind)
    have howners : d'.owners = ((n.toClass config).associations.keys.map (·, n.id)).foldl
        (fun owners e => owners.insert e.1 e.2) d.owners := by
      rw [h.owners_eq, if_pos hkind, List.foldl_map]
    have hnew : n.id ∉ d.model.classes.keys := h.not_mem_keysOf hkind
    refine ⟨fun id c hc => ?_, fun k id hk => ?_⟩
    · rw [hclasses] at hc
      rcases OrderedMap.of_get?_insert hc with ⟨_, rfl⟩ | ⟨_, hc⟩
      · exact n.hasCurrentLinks_toClass config
      · exact hd.classes id c hc
    · rw [howners] at hk
      rw [hclasses]
      rcases OrderedMap.of_get?_foldl_insert hk with hend | hk
      · obtain ⟨_, hkey, he⟩ := List.mem_map.mp hend
        obtain ⟨rfl, rfl⟩ := Prod.mk.inj he
        exact ⟨_, OrderedMap.get?_insert_self _ _ _, hkey⟩
      · -- A class that owned an end before is not the new one.
        obtain ⟨c, hc, hkey⟩ := hd.owners k id hk
        have hne : id ≠ n.id := fun he => hnew (he ▸ OrderedMap.mem_keys_of_get? hc)
        exact ⟨c, (OrderedMap.get?_insert_of_ne _ _ hne).trans hc, hkey⟩
  · have hclasses := h.classes_eq.trans (if_neg hkind)
    exact hd.congr (h.owners_eq.trans (if_neg hkind)) fun id => by rw [hclasses]

theorem hasCurrentLinks_of_foldlM {ds : List Declaration}
    (h : ds.foldlM (add config) (start config resource root) = .ok d) : d.HasCurrentLinks :=
  foldlM_induction (P := fun _ d => d.HasCurrentLinks)
    (fun _ _ _ _ _ _ hs ht => (added_of_add_eq_ok ht).hasCurrentLinks hs)
    (hasCurrentLinks_start config resource root) h

/-- Resolving an association keeps the links current. -/
theorem HasCurrentLinks.resolve (hd : d.HasCurrentLinks) (a : Association) :
    (d.resolve a).HasCurrentLinks := by
  refine hd.congr (owners_resolve d a) fun id => ?_
  rw [get?_resolve, Option.map_map]
  refine congrArg (Option.map · _) (funext fun c => ?_)
  rw [Function.comp_apply, amend]
  split
  · rfl
  · split
    · exact c.linkage_modifyProperty _ fun p => ⟨rfl, rfl, rfl⟩
    · rfl

theorem HasCurrentLinks.foldl_resolve (hd : d.HasCurrentLinks) (as : List Association) :
    (as.foldl Draft.resolve d).HasCurrentLinks :=
  List.foldlRecOn as Draft.resolve hd fun _ hs a _ => hs.resolve a

/-- The links are current in every state of a build. -/
theorem IsState.hasCurrentLinks (h : IsState config resource root d) : d.HasCurrentLinks := by
  cases h with
  | taking _ taken => exact hasCurrentLinks_of_foldlM taken
  | resolving taken _ => exact (hasCurrentLinks_of_foldlM taken).foldl_resolve _
  | indexed taken =>
      exact ((hasCurrentLinks_of_foldlM taken).foldl_resolve _).congr rfl fun _ => rfl
  | @referred d taken =>
      refine ((hasCurrentLinks_of_foldlM taken).foldl_resolve _).congr rfl fun id => ?_
      show ((OrderedMap.mapWithKey _ d.applyAssociations.model.classes).get? id).map _ = _
      rw [OrderedMap.get?_mapWithKey, Option.map_map]
      rfl

/-- Where the links are current, an association whose end has an owner changes the property at the
link that the owner has for the end. -/
theorem HasCurrentLinks.property?_resolve (hd : d.HasCurrentLinks) {a : Association}
    {source id : ElementId} {c : Class} (howner : d.ownerOf? a = some (source, id, c)) :
    ∃ link p, c.associations.get? source = some link ∧ c.properties[link.property]? = some p ∧
      (d.resolve a).model.property? ⟨id, link.property⟩ = some (p.resolved link a) := by
  obtain ⟨_, hid, hc⟩ := of_ownerOf? howner
  obtain ⟨_, hc', hkey⟩ := hd.owners source id hid
  obtain rfl := Option.some.inj (hc.symm.trans hc')
  obtain ⟨link, hlink⟩ := Option.isSome_iff_exists.mp (OrderedMap.get?_isSome_iff.mpr hkey)
  obtain ⟨p, hp, _⟩ := (hd.classes id c hc source link hlink).property
  refine ⟨link, p, hlink, hp, ?_⟩
  have hend : d.endLink? a = some (id, link) := by simp [endLink?, howner, hlink]
  simp [Model.property?, get?_resolve, amend, hend, hc, Class.modifyProperty, hp]

end Draft

/-- Links are never stale. In every state of the build of a document all links are current, and every
known end is owned by a class that has a link for it. So whenever an association finds the owner of
its end, there is a link at a property of the owner, and this property becomes the association's. The
links of a built model are current too. -/
theorem build_keepsLinksCurrent (config : BuildConfig) (resource : Option String)
    (document : Element) :
    (∀ root d, modelRoot document = .ok root → Draft.IsState config resource root d →
      d.HasCurrentLinks ∧ ∀ a source id c, d.ownerOf? a = some (source, id, c) →
        ∃ link p, c.associations.get? source = some link ∧
          c.properties[link.property]? = some p ∧
          (d.resolve a).model.property? ⟨id, link.property⟩ = some (p.resolved link a)) ∧
    ∀ result, build config resource document = .ok result →
      ∀ id c, result.model.classes.get? id = some c → c.HasCurrentLinks := by
  constructor
  · intro root d _ hstate
    exact ⟨hstate.hasCurrentLinks,
      fun a source id c howner => hstate.hasCurrentLinks.property?_resolve howner⟩
  · intro result h
    obtain ⟨root, d, _, rfl, hd⟩ := exists_draft_of_build h
    rw [← declarations_eq_visited] at hd
    exact (Draft.IsState.referred hd).hasCurrentLinks.classes

/-- An end with an association, under an identifier or without one. -/
def associatedEnd (id : Option String) : Element where
  tag := "ownedAttribute"
  attributes := .ofList ((id.map ("xmi:id", ·)).toList ++ [("association", "X")])
  text := none
  children := []

/-- A class that has two attributes under one identifier and a third one under the identifier that
is made for its neighbour, and a later class that repeats the first identifier. -/
def repeatedEndDocument : Element :=
  packaged "uml:Model" "m" [packaged "uml:Package" "p" [
    packaged "uml:Class" "A" [associatedEnd (some "a"), associatedEnd (some "a"),
      associatedEnd none, associatedEnd (some "A-ownedAttribute-2")],
    packaged "uml:Class" "B" [associatedEnd (some "a")],
    packaged "uml:Association" "X" [⟨"memberEnd", .ofList [("xmi:idref", "a")], none, []⟩]]]

theorem build_keepsLinksCurrent_repeatedEndDocument :
    ∃ d, build .standard none repeatedEndDocument = .ok d.finish ∧
      Draft.IsState .standard none repeatedEndDocument d ∧ d.HasCurrentLinks ∧
      (∀ id c, d.finish.model.classes.get? id = some c → c.HasCurrentLinks) ∧
      d.owners.get? ⟨"a"⟩ = some ⟨"B"⟩ ∧
      (d.model.classes.get? ⟨"A"⟩).map (fun c =>
        c.associations.entries.map fun e => (e.1, e.2.property)) =
          some [(⟨"a"⟩, 1), (⟨"A-ownedAttribute-2"⟩, 3)] := by
  obtain ⟨d, hd, hrun⟩ := exists_of_any_eq_true
    (x := (declarations .standard repeatedEndDocument).foldlM (Draft.add .standard)
      (.start .standard none repeatedEndDocument))
    (p := fun d => decide (d.owners.get? ⟨"a"⟩ = some ⟨"B"⟩ ∧
      (d.model.classes.get? ⟨"A"⟩).map (fun c =>
        c.associations.entries.map fun e => (e.1, e.2.property)) =
          some [(⟨"a"⟩, 1), (⟨"A-ownedAttribute-2"⟩, 3)]))
    (by decide +kernel)
  have hbuild : build .standard none repeatedEndDocument = .ok d.finish := by
    rw [build, repeatedEndDocument, modelRoot_packaged]
    exact congrArg (Except.bind · fun d => .ok d.finish) hd
  have hstate : Draft.IsState .standard none repeatedEndDocument d :=
    .taking (List.append_nil _).symm hd
  obtain ⟨hstates, hresult⟩ := build_keepsLinksCurrent .standard none repeatedEndDocument
  obtain ⟨howner, hlinks⟩ := of_decide_eq_true hrun
  exact ⟨d, hbuild, hstate, (hstates _ d (modelRoot_packaged _ _) hstate).1, hresult _ hbuild,
    howner, hlinks⟩

end UmlCatalog
