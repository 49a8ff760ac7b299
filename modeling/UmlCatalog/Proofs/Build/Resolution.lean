import Mathlib.Data.List.Nodup
import Mathlib.Data.List.Pairwise
import UmlCatalog.Proofs.Build.Filing
import UmlCatalog.Proofs.Model.Agreement

/-!
# How associations are resolved

An association is resolved by the link at the attribute that it selects. Resolving it changes the
property at the position of that link, so what the associations make of a class is a fold over them.
Links of one class stand at different positions, and so associations that select different ends may
be resolved in any order.

## Implementation notes

Resolving looks classes up that earlier associations may have changed. It reads their links only, and
these stay as they are.
-/

namespace UmlCatalog
open Markup (Element)
open Declaration (inArena)

/-- Only one element gives a result that is not given twice. -/
theorem eq_of_nodup_filterMap {α β : Type} {f : α → Option β} {l : List α}
    (h : (l.filterMap f).Nodup) {a a' : α} (ha : a ∈ l) (ha' : a' ∈ l) {b : β}
    (hb : f a = some b) (hb' : f a' = some b) : a = a' := by
  have hsymm : Std.Symm fun a a' => ∀ b, f a = some b → ∀ b', f a' = some b' → b ≠ b' :=
    ⟨fun _ _ hne b hb b' hb' => (hne b' hb' b hb).symm⟩
  by_contra hne
  exact (List.pairwise_filterMap.mp h).forall ha ha' hne b hb b hb' rfl

namespace OwnedAttribute
variable {config : BuildConfig} {classId : ElementId} {e : Element}

/-- The link of an attribute tells where it stands. -/
theorem property_of_link_read {position : Nat} {link : AssociationLink}
    (h : (read config classId e position).link = some link) : link.property = position := by
  simp only [read] at h
  split at h
  · obtain rfl := Option.some.inj h
    rfl
  · cases h

theorem id_of_link_read {position : Nat} {link : AssociationLink}
    (h : (read config classId e position).link = some link) :
    link.id = (read config classId e position).property.id := by
  simp only [read] at h ⊢
  split at h
  · obtain rfl := Option.some.inj h
    rfl
  · cases h

/-- A link is that of the attribute at its position. -/
theorem exists_of_get?_links {id : ElementId} {link : AssociationLink}
    (h : (links (readAll config classId e)).get? id = some link) :
    link.id = id ∧ ∃ child, (e.childrenNamed "ownedAttribute")[link.property]? = some child ∧
      (read config classId child link.property).link = some link := by
  obtain ⟨a, ha, hlink⟩ := List.mem_filterMap.mp (OrderedMap.mem_of_get?_ofList h)
  obtain ⟨link', hlink', he⟩ := Option.map_eq_some_iff.mp hlink
  obtain ⟨rfl, rfl⟩ := Prod.mk.inj he
  obtain ⟨⟨child, position⟩, hchild, rfl⟩ := List.mem_map.mp ha
  obtain rfl := property_of_link_read hlink'
  exact ⟨rfl, child, List.mk_mem_zipIdx_iff_getElem?.mp hchild, hlink'⟩

/-- Links at different attributes stand at different positions. -/
theorem id_eq_of_property_eq {id id' : ElementId} {link link' : AssociationLink}
    (h : (links (readAll config classId e)).get? id = some link)
    (h' : (links (readAll config classId e)).get? id' = some link')
    (hposition : link.property = link'.property) : id = id' := by
  obtain ⟨rfl, child, hchild, hread⟩ := exists_of_get?_links h
  obtain ⟨rfl, child', hchild', hread'⟩ := exists_of_get?_links h'
  rw [hposition] at hchild hread
  obtain rfl := Option.some.inj (hchild.symm.trans hchild')
  obtain rfl := Option.some.inj (hread.symm.trans hread')
  rfl

/-- The ends among the attributes are named after them. -/
theorem mem_ids_of_mem_keys_links {id : ElementId}
    (h : id ∈ (links (readAll config classId e)).keys) :
    id ∈ (readAll config classId e).map fun a => a.property.id := by
  obtain ⟨link, hlink⟩ := Option.isSome_iff_exists.mp (OrderedMap.get?_isSome_iff.mpr h)
  obtain ⟨rfl, child, hchild, hread⟩ := exists_of_get?_links hlink
  rw [id_of_link_read hread]
  exact List.mem_map_of_mem (List.mem_map.mpr
    ⟨(child, link.property), List.mk_mem_zipIdx_iff_getElem?.mpr hchild, rfl⟩)

end OwnedAttribute

/-- Changes of a class at different positions may be made in any order. -/
theorem Class.modifyProperty_comm (c : Class) {i j : Nat} (hij : i ≠ j)
    (f g : Property → Property) :
    (c.modifyProperty i f).modifyProperty j g = (c.modifyProperty j g).modifyProperty i f := by
  have hproperties : (c.properties.modify i f).modify j g =
      (c.properties.modify j g).modify i f := by
    refine List.ext_getElem? fun k => ?_
    simp only [List.getElem?_modify]
    by_cases hi : i = k
    · subst hi
      simp [Ne.symm hij]
    · simp [hi]
  simp only [modifyProperty, hproperties]

namespace Draft
variable {config : BuildConfig} {d d' : Draft} {a b : Association} {k : ElementId}

/-- The link that resolves an association, with the class that has it. -/
def endLink? (d : Draft) (a : Association) : Option (ElementId × AssociationLink) :=
  (d.ownerOf? a).bind fun owner => (owner.2.2.associations.get? owner.1).map (owner.2.1, ·)

/-- What an association makes of the class under an identifier. -/
def amend (d : Draft) (k : ElementId) (c : Class) (a : Association) : Class :=
  match d.endLink? a with
  | none => c
  | some (classId, link) =>
      if k = classId then c.modifyProperty link.property fun p => p.resolved link a else c

theorem endLink?_eq_some_iff {link : AssociationLink} :
    d.endLink? a = some (k, link) ↔ ∃ source, a.source = some source ∧
      d.owners.get? source = some k ∧
      ((d.model.classes.get? k).map Class.associations).bind (OrderedMap.get? · source) =
        some link := by
  simp only [endLink?, ownerOf?, Option.bind_eq_some_iff, Option.map_eq_some_iff]
  constructor
  · rintro ⟨_, ⟨source, hsource, classId, howner, c, hc, rfl⟩, _, hlink, he⟩
    obtain ⟨rfl, rfl⟩ := Prod.mk.inj he
    exact ⟨source, hsource, howner, _, ⟨c, hc, rfl⟩, hlink⟩
  · rintro ⟨source, hsource, howner, _, ⟨c, hc, rfl⟩, hlink⟩
    exact ⟨_, ⟨source, hsource, k, howner, c, hc, rfl⟩, link, hlink, rfl⟩

/-- What resolves an association depends on the owners and on the links alone. -/
theorem endLink?_congr (howners : ∀ id, d'.owners.get? id = d.owners.get? id)
    (hlinks : ∀ k, (d'.model.classes.get? k).map Class.associations =
      (d.model.classes.get? k).map Class.associations) (a : Association) :
    d'.endLink? a = d.endLink? a := by
  refine Option.ext fun ⟨k, link⟩ => ?_
  rw [endLink?_eq_some_iff, endLink?_eq_some_iff]
  simp only [howners, hlinks]

theorem amend_congr (h : ∀ a, d'.endLink? a = d.endLink? a) : d'.amend = d.amend := by
  funext k c a
  rw [amend, amend, h]

theorem associations_amend (d : Draft) (k : ElementId) (c : Class) (a : Association) :
    (d.amend k c a).associations = c.associations := by
  unfold amend
  split
  · rfl
  · split
    · rfl
    · rfl

/-- Resolving an association amends each class. -/
theorem get?_resolve (d : Draft) (a : Association) (k : ElementId) :
    (d.resolve a).model.classes.get? k = (d.model.classes.get? k).map (d.amend k · a) := by
  unfold resolve amend endLink?
  cases howner : d.ownerOf? a with
  | none => simp [report]
  | some owner =>
      obtain ⟨source, classId, c⟩ := owner
      cases hlink : c.associations.get? source with
      | none => simp [hlink]
      | some link =>
          simp only [hlink, Option.bind_some, Option.map_some, OrderedMap.get?_modify]
          split
          · rfl
          · rw [Option.map_id']

theorem owners_resolve (d : Draft) (a : Association) : (d.resolve a).owners = d.owners := by
  rcases d.resolve_cases a with he | ⟨_, he⟩ | ⟨_, _, _, he⟩ <;> rw [he]
  rfl

theorem endLink?_resolve (d : Draft) (a b : Association) :
    (d.resolve a).endLink? b = d.endLink? b := by
  refine endLink?_congr (fun id => by rw [owners_resolve]) (fun k => ?_) b
  rw [get?_resolve, Option.map_map]
  refine congrArg (Option.map · _) (funext fun c => ?_)
  exact associations_amend d k c a

/-- What the associations make of the class under an identifier, one after the other. -/
theorem get?_foldl_resolve (as : List Association) (d : Draft) (k : ElementId) :
    (as.foldl resolve d).model.classes.get? k =
      (d.model.classes.get? k).map fun c => as.foldl (d.amend k) c := by
  induction as generalizing d with
  | nil => simp
  | cons a as ih =>
      -- The links stay, so the later associations amend a class as they would have before.
      have hamend : (d.resolve a).amend = d.amend := amend_congr (endLink?_resolve d a)
      rw [List.foldl_cons, ih, hamend, get?_resolve, Option.map_map]
      rfl

/-- Associations that select different ends change different properties. -/
theorem Files.property_ne {ds : List Declaration} (hd : d.Files config ds)
    {link link' : AssociationLink} (ha : d.endLink? a = some (k, link))
    (hb : d.endLink? b = some (k, link')) (hne : a.source ≠ b.source) :
    link.property ≠ link'.property := by
  obtain ⟨source, hsource, _, hlink⟩ := endLink?_eq_some_iff.mp ha
  obtain ⟨source', hsource', _, hlink'⟩ := endLink?_eq_some_iff.mp hb
  cases hc : d.model.classes.get? k with
  | none =>
      rw [hc] at hlink
      cases hlink
  | some c =>
      rw [hc] at hlink hlink'
      obtain ⟨n, _, _, rfl⟩ := hd.classes.exists_of_get? hc
      intro hposition
      apply hne
      rw [hsource, hsource', OwnedAttribute.id_eq_of_property_eq hlink hlink' hposition]

/-- Associations that select different ends may amend a class in any order. -/
theorem Files.amend_comm {ds : List Declaration} (hd : d.Files config ds)
    (hne : a.source = b.source → a.source = none ∨ a = b) (c : Class) :
    d.amend k (d.amend k c a) b = d.amend k (d.amend k c b) a := by
  by_cases hab : a = b
  · rw [hab]
  -- Both change the class only if it owns both ends, and then they change different properties.
  cases ha : d.endLink? a with
  | none => simp only [amend, ha]
  | some owner =>
      obtain ⟨classId, link⟩ := owner
      cases hb : d.endLink? b with
      | none => simp only [amend, hb]
      | some owner' =>
          obtain ⟨classId', link'⟩ := owner'
          simp only [amend, ha, hb]
          by_cases hk : k = classId
          · by_cases hk' : k = classId'
            · subst hk hk'
              simp only [if_true]
              refine Class.modifyProperty_comm c (hd.property_ne ha hb fun hsource => ?_) _ _
              rcases hne hsource with hnone | he
              · obtain ⟨source, hsome, _⟩ := endLink?_eq_some_iff.mp ha
                cases hnone.symm.trans hsome
              · exact hab he
            · rw [if_neg hk', if_neg hk']
          · rw [if_neg hk, if_neg hk]

/-- Resolving all associations keeps the agreement of drafts that know the same ends. -/
theorem Files.agrees_applyAssociations {ds : List Declaration} (hd : d.Files config ds)
    (howners : ∀ id, d'.owners.get? id = d.owners.get? id)
    (hclasses : d.model.classes.Agrees Eq d'.model.classes)
    (hassociations : d.model.associations.Agrees Eq d'.model.associations)
    (hends : (d.model.associations.values.filterMap Association.source).Nodup) :
    d.applyAssociations.model.classes.Agrees Eq d'.applyAssociations.model.classes := by
  rw [OrderedMap.agrees_eq_iff] at hclasses ⊢
  intro k
  have hamend : d'.amend = d.amend := by
    refine amend_congr (endLink?_congr howners fun k => ?_)
    rw [hclasses k]
  have hfold : ∀ c, d'.model.associations.values.foldl (d.amend k) c =
      d.model.associations.values.foldl (d.amend k) c := by
    intro c
    refine (hassociations.values_perm.foldl_eq' (fun a ha b hb c => ?_) c).symm
    refine hd.amend_comm (fun hsource => ?_) c
    cases hsome : a.source with
    | none => exact Or.inl rfl
    | some source =>
        exact Or.inr (eq_of_nodup_filterMap hends ha hb hsome (hsource.symm.trans hsome))
  unfold applyAssociations
  rw [get?_foldl_resolve, get?_foldl_resolve, hamend, hclasses k]
  simp only [hfold]

theorem owners_listIn (d : Draft) (chain : List ElementId) (e : ElementRef) :
    (d.listIn chain e).owners = d.owners := by
  cases chain <;> rfl

namespace Added
variable {n : Declaration}

/-- A class owns the ends among its attributes. -/
theorem owners_eq (h : Added config d n d') : d'.owners =
    if n.kind.arena? = some .classes then
      (n.toClass config).associations.keys.foldl (fun owners e => owners.insert e n.id) d.owners
    else d.owners := by
  cases h <;> simp [*, DeclarationKind.arena?, owners_listIn, report, addImports]

end Added
end Draft

namespace Declaration
variable {config : BuildConfig} {ds : List Declaration}

/-- The ends of associations among the attributes of classes, with the classes that own them. -/
def ownedEnds (config : BuildConfig) (ds : List Declaration) : List (ElementId × ElementId) :=
  (inArena ds .classes).flatMap fun n => (n.toClass config).associations.keys.map (·, n.id)

/-- The imports of the packages that are entered, under their identifiers. -/
def namedImports (ds : List Declaration) : List (ElementId × ElementImport) :=
  (ds.filter fun n => n.kind = .package).flatMap fun n =>
    n.element.elementImports.map fun i => (i.id, i)

/-- Attributes and imports are not named alike, and no two associations select one end. -/
structure HasDistinctEnds (config : BuildConfig) (ds : List Declaration) : Prop where
  attributes : ((inArena ds .classes).flatMap fun n =>
    (n.attributes config).map fun a => a.property.id).Nodup
  imports : ((ds.filter fun n => n.kind = .package).flatMap fun n =>
    n.element.elementImports.map ElementImport.id).Nodup
  ends : ((inArena ds .associations).filterMap fun n => n.element.foreignEnd?).Nodup

theorem HasDistinctEnds.nodup_ownedEnds (h : HasDistinctEnds config ds) :
    ((ownedEnds config ds).map Prod.fst).Nodup := by
  have hmap : (ownedEnds config ds).map Prod.fst =
      (inArena ds .classes).flatMap fun n => (n.toClass config).associations.keys := by
    simp [ownedEnds, List.map_flatMap, Function.comp_def]
  obtain ⟨_, hdisjoint⟩ := List.nodup_flatMap.mp h.attributes
  rw [hmap]
  refine List.nodup_flatMap.mpr ⟨fun n _ => OrderedMap.keys_nodup _, hdisjoint.imp ?_⟩
  intro n n' hapart id hid hid'
  exact hapart (OwnedAttribute.mem_ids_of_mem_keys_links hid)
    (OwnedAttribute.mem_ids_of_mem_keys_links hid')

theorem HasDistinctEnds.nodup_namedImports (h : HasDistinctEnds config ds) :
    ((namedImports ds).map Prod.fst).Nodup := by
  have hmap : (namedImports ds).map Prod.fst = (ds.filter fun n => n.kind = .package).flatMap
      fun n => n.element.elementImports.map ElementImport.id := by
    simp [namedImports, List.map_flatMap, Function.comp_def]
  rw [hmap]
  exact h.imports

end Declaration

namespace Draft
variable {config : BuildConfig} {resource : Option String} {root : Element}
  {ds : List Declaration} {d : Draft}

/-- Every end is owned by the last class that has it. -/
theorem owners_of_foldlM (h : ds.foldlM (add config) (start config resource root) = .ok d) :
    d.owners = .ofList (Declaration.ownedEnds config ds) := by
  refine foldlM_induction
    (P := fun before s => s.owners = .ofList (Declaration.ownedEnds config before)) ?_ rfl h
  intro before n after s t _ hs hadd
  rw [(added_of_add_eq_ok hadd).owners_eq, hs]
  by_cases hkind : n.kind.arena? = some .classes
  · rw [if_pos hkind, Declaration.ownedEnds, Declaration.ownedEnds,
      Declaration.inArena_append_of_mem hkind, List.flatMap_append, OrderedMap.ofList_append,
      List.flatMap_singleton, List.foldl_map]
  · rw [if_neg hkind, Declaration.ownedEnds, Declaration.ownedEnds,
      Declaration.inArena_append_of_not_mem hkind]

/-- Every import has the target that was read last for it. -/
theorem imports_of_foldlM (h : ds.foldlM (add config) (start config resource root) = .ok d) :
    d.model.imports = .ofList (Declaration.namedImports ds) := by
  refine foldlM_induction
    (P := fun before s => s.model.imports = .ofList (Declaration.namedImports before)) ?_ rfl h
  intro before n after s t _ hs hadd
  rw [(added_of_add_eq_ok hadd).imports_eq, hs, Declaration.namedImports, Declaration.namedImports,
    List.filter_append, List.flatMap_append, OrderedMap.ofList_append]
  by_cases hkind : n.kind = .package
  · rw [if_pos hkind, List.filter_singleton, decide_eq_true hkind, cond_true,
      List.flatMap_singleton, List.foldl_map]
  · rw [if_neg hkind, List.filter_singleton, decide_eq_false hkind]
    rfl

end Draft
end UmlCatalog
