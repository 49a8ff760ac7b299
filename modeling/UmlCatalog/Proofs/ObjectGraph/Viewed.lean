import UmlCatalog.Proofs.ObjectGraph.Contents
import UmlCatalog.Proofs.View.Copies

/-!
# Object graphs of views

A view has what its object graph needs. All that lies in its packages is shown, and a property is
typed by a gap only if its type was not to be taken in: because it is no class or value type of the
source, or because it is a class and references are not followed.
-/

namespace UmlCatalog
namespace ObjectGraph
variable {m : Model} {id : ElementId}

/-- Every property node stands for a property of the model, and its type is a node that marks no gap
if the property refers to one of the given identifiers. -/
def TypesWithoutGaps (m : Model) (resolved : ElementId → Prop) (g : ObjectGraph) : Prop :=
  ∀ n x name inClass type lower upper association aggregation comments,
    g.node? n = some x →
    x.content = .property name inClass type lower upper association aggregation comments →
    ∃ k place p, g.IsNodeOf (.property k place) n ∧ m.property? ⟨k, place⟩ = some p ∧
      ∀ id, p.target = some (.idref id) → resolved id →
        ∃ t y, type = some t ∧ g.node? t = some y ∧ y.content ≠ .missing

/-- What an identifier with a record names is no gap. -/
theorem IsNodeOf.content_ne_missing {g : ObjectGraph} {n : NodeId}
    (h : g.IsNodeOf (.named m id) n) (hid : ¬ m.IsUnknown id) :
    ∃ y, g.node? n = some y ∧ y.content ≠ .missing := by
  obtain ⟨t, hkey, _, _⟩ := Key.named_cases m id
  rw [hkey] at h
  obtain ⟨y, hy, rfl, htable⟩ := h
  refine ⟨y, hy, fun hmissing => ?_⟩
  rw [hmissing] at htable
  obtain rfl := Option.some.inj htable
  exact hid (Key.named_eq_gap_iff.mp hkey).2

/-- Properties that refer to identifiers with records are typed without gaps. -/
theorem ofModel_typesWithoutGaps (hl : m.ListsKnownDatatypes) {resolved : ElementId → Prop}
    (hresolved : ∀ k place p id, m.property? ⟨k, place⟩ = some p → p.target = some (.idref id) →
      resolved id → ¬ m.IsUnknown id) :
    TypesWithoutGaps m resolved (ofModel m) := by
  intro n x name inClass type lower upper association aggregation comments hx hcontent
  have hpart := isReachablePart_of_listsKnownDatatypes hl
  obtain ⟨key, hkey⟩ := hpart.exists_key n x hx
  cases key with
  | element kind id =>
      obtain ⟨y, hy, _, htable⟩ := hkey
      obtain rfl := Option.some.inj (hx.symm.trans hy)
      rw [hcontent] at htable
      cases htable
  | property k place =>
      obtain ⟨_, p, hp⟩ := ((hpart.exists_node_iff _).mp ⟨n, hkey⟩).of_property
      refine ⟨k, place, p, hkey, hp, fun id htarget hid => ?_⟩
      have hedges := hpart.edges _ n hkey
      have hnext : (Key.property k place).next m = [Key.named m id] := by
        show ((m.property? ⟨k, place⟩).bind Property.target).toList.map (Key.targeted m) = _
        rw [hp, Option.bind_some, htarget]
        rfl
      have htargets : (ofModel m).targets (.node n) = type.toList := by
        rw [targets_node_eq hx, hcontent]
        exact List.append_nil _
      rw [hnext, htargets] at hedges
      cases type with
      | none => cases hedges
      | some t =>
          obtain ⟨hnode, _⟩ := List.forall₂_cons.mp hedges
          obtain ⟨y, hy, hne⟩ := hnode.content_ne_missing (hresolved k place p id hp htarget hid)
          exact ⟨t, y, rfl, hy, hne⟩

end ObjectGraph

namespace Model
variable {source v : Model} {origin : ModelSource} {names : List String} {options : ViewOptions}
  {id : ElementId}

/-- What an extraction has to take in if a property refers to it: value types of the source, and
its classes if references are followed. -/
def Resolves (m : Model) (options : ViewOptions) (id : ElementId) : Prop :=
  id ∈ m.enums.keys ∨ id ∈ m.datatypes.keys ∨
    options.followReferencedClasses = true ∧ id ∈ m.classes.keys

theorem IsSound.isComplete_of_extractView (hm : source.IsSound)
    (h : source.extractView origin names options = .ok v) :
    source.IsComplete names options {x | x ∈ v.classes.keys} := by
  obtain ⟨v', hv', hleast⟩ := hm.isLeast_extractView origin names options
  obtain rfl := Except.ok.inj (h.symm.trans hv')
  exact hleast.1

/-- A view knows what its properties refer to, as far as it has to take that in. -/
theorem IsSound.not_isUnknown_of_target (hm : source.IsSound) (hids : source.KeepsIds)
    (h : source.extractView origin names options = .ok v) {k : ElementId} {c : Class} {p : Property}
    (hc : v.classes.get? k = some c) (hp : p ∈ c.properties) (htarget : p.target = some (.idref id))
    (hid : source.Resolves options id) : ¬ v.IsUnknown id := by
  have hkey : p.targetKey? = some id.text := by
    rw [Property.targetKey?, htarget]
    rfl
  have hcopies := copiesRecords_of_extractView hm hids h
  rintro ⟨_, hnoEnum, hnoDatatype, hnoClass⟩
  rcases hid with hid | hid | ⟨hfollow, hid⟩
  · exact hnoEnum ((hcopies.mem_enums_iff id).mpr ⟨hid, k, c, p, hc, hp, hkey⟩)
  · exact hnoDatatype ((hcopies.mem_datatypes_iff id).mpr ⟨hid, k, c, p, hc, hp, hkey⟩)
  · obtain ⟨old, hold, hproperties, _⟩ := exists_class_of_extractView hm hids h hc
    have hclosed := (hm.isComplete_of_extractView h).2.1 hfollow
    exact hnoClass (hclosed k (OrderedMap.mem_keys_of_get? hc) id
      ⟨⟨old, hold, p, hproperties ▸ hp, hkey⟩, hid⟩)

/-- A view that follows all references lacks no class that it refers to. -/
theorem IsSound.not_mem_missing_of_extractView (hm : source.IsSound) (hids : source.KeepsIds)
    (h : source.extractView origin names options = .ok v)
    (href : options.followReferencedClasses = true)
    (hup : options.followReferentHierarchy = true) (hid : id ∈ source.classes.keys) :
    id ∉ (ObjectGraph.ofModel v).missing.keys := by
  obtain ⟨hv, _, hl, _⟩ := hm.of_extractView hids h
  intro hmissing
  obtain ⟨hunknown, hrefers⟩ := (ObjectGraph.mem_missing_iff hv hl id).mp hmissing
  cases hrefers with
  | @superClass k _ c _ record general =>
      obtain ⟨old, hold, _, hgenerals⟩ := exists_class_of_extractView hm hids h record
      have hclosed := (hm.isComplete_of_extractView h).2.2 href hup
      exact hunknown.2.2.2 (hclosed k (OrderedMap.mem_keys_of_get? record) id
        ⟨⟨old, hold, hgenerals ▸ general⟩, hid⟩)
  | type _ record property target =>
      exact hm.not_isUnknown_of_target hids h record property target
        (Or.inr (Or.inr ⟨href, hid⟩)) hunknown
  | elementImport _ _ _ found _ =>
      rw [(copiesRecords_of_extractView hm hids h).imports] at found
      cases found

end Model

namespace ObjectGraph

/-- Every view of a built model can be extracted, and its object graph stands on its own. It shows
all packages of the view and all that lies in packages. No property node is typed by a gap if the
property refers to a value type of the model, nor if it refers to a class of the model and
references are followed. If superclasses are followed too, no class of the model is missing. -/
theorem ofModel_extractView_showsContents {config : BuildConfig} {resource : Option String}
    {document : Markup.Element} {result : BuildResult}
    (h : build config resource document = .ok result) (origin : ModelSource)
    (names : List String) (options : ViewOptions) :
    ∃ v, result.model.extractView origin names options = .ok v ∧
      ShowsContents v (ofModel v) ∧
      (∀ id ∈ v.packages.keys, ∃ n, (ofModel v).IsEntity .packages id n) ∧
      TypesWithoutGaps v (result.model.Resolves options) (ofModel v) ∧
      (options.followReferencedClasses = true → options.followReferentHierarchy = true →
        ∀ id ∈ result.model.classes.keys, id ∉ (ofModel v).missing.keys) := by
  have hm := Model.isSound_of_build h
  have hids := Model.keepsIds_of_build h
  obtain ⟨v, hv, _⟩ := hm.isLeast_extractView origin names options
  obtain ⟨hsound, _, hl, hregisters⟩ := hm.of_extractView hids hv
  have hshows := ofModel_showsContents hsound hl
  refine ⟨v, hv, hshows, fun id hid => hshows.packages id (hregisters id hid), ?_, ?_⟩
  · refine ofModel_typesWithoutGaps hl.listsKnownDatatypes ?_
    intro k place p id hp htarget hid
    obtain ⟨c, hc, hplace⟩ := Option.bind_eq_some_iff.mp hp
    exact hm.not_isUnknown_of_target hids hv hc (List.mem_of_getElem? hplace) htarget hid
  · intro href hup id hid
    exact hm.not_mem_missing_of_extractView hids hv href hup hid

/-- Two packages inside another one. A class A in the first is below a class B and has properties
typed by an enumeration and a class of the second, and that class is below a class D. The only view
has A as its only member. -/
def nestedDocument : Markup.Element :=
  ⟨"uml:Model", .ofList [("xmi:id", "m")], none, [
    packaged "uml:Package" "p" [
      packaged "uml:Package" "q" [
        packaged "uml:Class" "A" [
          ⟨"generalization", .ofList [("general", "B")], none, []⟩,
          ⟨"ownedAttribute", .ofList [("xmi:id", "a"), ("type", "E")], none, []⟩,
          ⟨"ownedAttribute", .ofList [("xmi:id", "b"), ("type", "C")], none, []⟩]],
      packaged "uml:Package" "r" [
        packaged "uml:Enumeration" "E" [],
        packaged "uml:Class" "C" [
          ⟨"generalization", .ofList [("general", "D")], none, []⟩],
        packaged "uml:Class" "F" []],
      packaged "uml:Class" "B" [],
      packaged "uml:Class" "D" []],
    packaged "uml:Package" "views" [
      packaged "uml:Class" "V" [
        ⟨"elementImport", .ofList [("importedElement", "A")], none, []⟩]]]⟩

theorem ofModel_nestedDocument_showsContents :
    ∃ result v, build viewedConfig none nestedDocument = .ok result ∧
      result.model.extractView .unknown ["V"] ⟨true, true⟩ = .ok v ∧
      ShowsContents v (ofModel v) ∧
      (∀ id ∈ v.packages.keys, ∃ n, (ofModel v).IsEntity .packages id n) ∧
      TypesWithoutGaps v (result.model.Resolves ⟨true, true⟩) (ofModel v) ∧
      ⟨"A"⟩ ∈ v.classes.keys ∧ result.model.Resolves ⟨true, true⟩ ⟨"E"⟩ ∧
      ∀ id ∈ [(⟨"B"⟩ : ElementId), ⟨"C"⟩, ⟨"D"⟩], id ∉ (ofModel v).missing.keys := by
  have hkeys : (build viewedConfig none nestedDocument).toOption.map (fun r =>
      (View.seeds r.model (View.selected r.model ["V"]), r.model.classes.keys,
        r.model.enums.keys)) =
        some ([⟨"A"⟩, ⟨"B"⟩], [⟨"A"⟩, ⟨"C"⟩, ⟨"F"⟩, ⟨"B"⟩, ⟨"D"⟩], [⟨"E"⟩]) := by
    decide +kernel
  cases h : build viewedConfig none nestedDocument with
  | error e =>
      rw [h] at hkeys
      cases hkeys
  | ok result =>
      rw [h] at hkeys
      have hpair := Option.some.inj hkeys
      have hseeds : View.seeds result.model (View.selected result.model ["V"]) = [⟨"A"⟩, ⟨"B"⟩] :=
        congrArg Prod.fst hpair
      have hclasses : result.model.classes.keys = [⟨"A"⟩, ⟨"C"⟩, ⟨"F"⟩, ⟨"B"⟩, ⟨"D"⟩] :=
        congrArg (fun r => r.2.1) hpair
      have henums : result.model.enums.keys = [⟨"E"⟩] := congrArg (fun r => r.2.2) hpair
      obtain ⟨v, hv, hshows, hall, htypes, hmissing⟩ :=
        ofModel_extractView_showsContents h .unknown ["V"] ⟨true, true⟩
      refine ⟨result, v, rfl, hv, hshows, hall, htypes, ?_, Or.inl ?_, fun id hid => ?_⟩
      · refine ((Model.isSound_of_build h).isComplete_of_extractView hv).1 ⟨?_, ?_⟩
        · refine Model.mem_seeds_iff.mp ?_
          rw [hseeds]
          exact List.mem_cons_self
        · rw [hclasses]
          exact List.mem_cons_self
      · rw [henums]
        exact List.mem_cons_self
      · refine hmissing rfl rfl id ?_
        rw [hclasses]
        have hlisted : [(⟨"B"⟩ : ElementId), ⟨"C"⟩, ⟨"D"⟩] ⊆
            [⟨"A"⟩, ⟨"C"⟩, ⟨"F"⟩, ⟨"B"⟩, ⟨"D"⟩] := by
          decide
        exact hlisted hid

end ObjectGraph
end UmlCatalog
