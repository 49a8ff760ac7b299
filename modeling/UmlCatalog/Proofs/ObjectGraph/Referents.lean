import UmlCatalog.Proofs.Build.Filing
import UmlCatalog.Proofs.Model.Referees
import UmlCatalog.Proofs.ObjectGraph.Reachability

/-!
# Types of properties and back references

A property typed by an identifier leaves a back reference on a class, an enumeration or a datatype,
in this order where several have the identifier. The type of its node is looked up in another order,
packages first and classes last, so the node is that of the element with the back reference unless
something of the same identifier comes before it.
-/

namespace UmlCatalog

/-- The node of the type of a property. -/
def NodeContent.type? : NodeContent → Option NodeId
  | property _ _ type _ _ _ _ _ => type
  | _ => none

/-- The index and the back references of a built model are exact. -/
theorem Model.hasExactReferees_of_build {config : BuildConfig} {resource : Option String}
    {document : Markup.Element} {result : BuildResult}
    (h : build config resource document = .ok result) : result.model.HasExactReferees := by
  obtain ⟨root, d, _, rfl, _⟩ := exists_draft_of_build h
  exact hasExactReferees_withReferees _ (count_indexedPlaces_withPropertyIndex _)

/-- A property typed by an element that a target can name is one of its back references. -/
theorem Model.HasExactReferees.exists_mem_referees {m : Model} (hm : m.HasExactReferees)
    {source : PropertySource} {p : Property} {id : ElementId} {kind : ReferentKind}
    (hp : m.property? source = some p) (ht : p.target = some (.idref id))
    (hkind : m.referentKind? id = some kind) :
    ∃ referees, m.referees? id = some referees ∧ ⟨source.classId, p.indexKey⟩ ∈ referees := by
  refine ⟨_, hm.referees?_eq id (hkind ▸ nofun), ?_⟩
  have hcount : m.indexedPlaces.count (p.indexKey, source) = 1 := by
    rw [hm.count_indexedPlaces, hp]
    exact if_pos rfl
  have hplace : (p.indexKey, source) ∈ m.indexedPlaces :=
    List.count_pos_iff.mp (hcount ▸ Nat.one_pos)
  refine List.mem_filterMap.mpr ⟨_, hplace, ?_⟩
  rw [hp, Option.bind_some, Property.targetKey?, ht]
  exact if_pos rfl

namespace ObjectGraph
variable {m : Model} {id : ElementId} {kind : Model.ReferentKind}

/-- The table for the nodes of what a property can be typed by. -/
def Table.ofReferent : Model.ReferentKind → Table
  | .umlClass => .classes
  | .enumeration => .enums
  | .datatype => .datatypes

/-- The type of a property, by the node of its class and its place there. -/
def typeNode? (g : ObjectGraph) (inClass : NodeId) (place : Nat) : Option NodeId := do
  let c ← g.node? inClass
  let p ← g.node? (← c.content.properties[place]?)
  p.content.type?

theorem isEntity_iff {g : ObjectGraph} {t : Table} {n : NodeId} :
    g.IsEntity t id n ↔
      (g.node? n).map (fun x => (x.id, x.content.table?)) = some (id, some t) := by
  simp only [IsEntity, Option.map_eq_some_iff, Prod.mk.injEq]

instance (g : ObjectGraph) (t : Table) (n : NodeId) : Decidable (g.IsEntity t id n) :=
  decidable_of_iff _ isEntity_iff.symm

/-- An identifier names what has its back references if no package and, in case of a class, no
enumeration and no datatype has the identifier as well. -/
theorem Key.named_eq_referent_iff (h : m.referentKind? id = some kind) :
    Key.named m id = .element (.ofReferent kind) id ↔
      id ∉ m.packages.keys ∧
        (kind = .umlClass → id ∉ m.enums.keys ∧ id ∉ m.datatypes.keys) := by
  simp only [← OrderedMap.contains_iff]
  unfold Model.referentKind? at h
  unfold Key.named
  cases hp : m.packages.contains id <;> cases he : m.enums.contains id <;>
    cases hd : m.datatypes.contains id <;> cases hc : m.classes.contains id <;>
    simp only [hc, he, hd] at h <;> cases h <;> simp [Table.ofReferent]

/-- The type of a property in the graph is the node of what its target names. -/
theorem exists_typeNode {n : NodeId} {place : Nat} {p : Property} {inClass : ElementId}
    {target : Target} (hc : (ofModel m).IsEntity .classes inClass n)
    (hp : m.property? ⟨inClass, place⟩ = some p) (ht : p.target = some target) :
    ∃ t, (ofModel m).typeNode? n place = some t ∧
      (ofModel m).IsNodeOf (.targeted m target) t := by
  obtain ⟨a, ha, he⟩ := Arena.exists_isFaithful m
  rw [he] at hc ⊢
  obtain ⟨x, hx, rfl, htable⟩ := hc
  obtain ⟨record, generals, nodes, hrecord, hcontent, _, hproperties⟩ := ha.umlClass hx htable
  rw [Model.property?, hrecord, Option.bind_some] at hp
  obtain ⟨k, hk, y, type, hy, _, hy', htype⟩ := exists_of_getElem?_right hproperties.flip hp
  rw [ht, Option.toList_some, List.map_singleton] at htype
  cases type with
  | none => cases htype
  | some t =>
      refine ⟨t, ?_, (List.forall₂_cons.mp htype).1.isNodeOf_targeted⟩
      simp [typeNode?, hx, hcontent, NodeContent.properties, hk, hy, hy', NodeContent.type?]

/-- In a built model, what a property with an identifier as its target can be typed by has the
property among its back references. The type of the property in the object graph is a node of that
identifier, and of what has the back reference if and only if no package and, in case of a class, no
enumeration and no datatype has the identifier as well. -/
theorem typeNode_isReferent_iff {config : BuildConfig} {resource : Option String}
    {document : Markup.Element} {result : BuildResult}
    (h : build config resource document = .ok result) {inClass : ElementId} {place : Nat}
    {p : Property} {id : ElementId} {kind : Model.ReferentKind} {n : NodeId}
    (hp : result.model.property? ⟨inClass, place⟩ = some p) (ht : p.target = some (.idref id))
    (hkind : result.model.referentKind? id = some kind)
    (hn : (ofModel result.model).IsEntity .classes inClass n) :
    (∃ referees, result.model.referees? id = some referees ∧
      ⟨inClass, p.indexKey⟩ ∈ referees) ∧
    ∃ t, (ofModel result.model).typeNode? n place = some t ∧
      (ofModel result.model).IsNodeOf (.named result.model id) t ∧
      ((ofModel result.model).IsEntity (.ofReferent kind) id t ↔
        id ∉ result.model.packages.keys ∧
          (kind = .umlClass →
            id ∉ result.model.enums.keys ∧ id ∉ result.model.datatypes.keys)) := by
  obtain ⟨t, htype, hnode⟩ := exists_typeNode hn hp ht
  refine ⟨(Model.hasExactReferees_of_build h).exists_mem_referees hp ht hkind, t, htype, hnode, ?_⟩
  rw [← Key.named_eq_referent_iff hkind]
  constructor
  · intro hentity
    have hkey : (ofModel result.model).IsNodeOf (.element (.ofReferent kind) id) t := hentity
    exact hkey.eq_element hnode
  · intro hnamed
    have hentity : (ofModel result.model).IsNodeOf (.named result.model id) t := hnode
    rw [hnamed] at hentity
    exact hentity

/-- A class C with properties typed by X and by D. There are a class and a package X, and a datatype
D. -/
def doubledDocument : Markup.Element :=
  ⟨"uml:Model", .ofList [("xmi:id", "m")], none, [
    packaged "uml:Package" "P" [
      packaged "uml:Class" "C" [
        ⟨"ownedAttribute", .ofList [("xmi:id", "a"), ("name", "a"), ("type", "X")], none, []⟩,
        ⟨"ownedAttribute", .ofList [("xmi:id", "b"), ("name", "b"), ("type", "D")], none, []⟩],
      packaged "uml:Class" "X" [],
      packaged "uml:DataType" "D" []],
    packaged "uml:Package" "X" []]⟩

/-- The property typed by D has the node of D as its type, as nothing else has its identifier. -/
theorem typeNode_isReferent_iff_doubledDocument :
    ∃ result p, build .standard none doubledDocument = .ok result ∧
      result.model.property? ⟨⟨"C"⟩, 1⟩ = some p ∧ p.target = some (.idref ⟨"D"⟩) ∧
      result.model.referentKind? ⟨"D"⟩ = some .datatype ∧
      (ofModel result.model).IsEntity .classes ⟨"C"⟩ 1 ∧
      (∃ referees, result.model.referees? ⟨"D"⟩ = some referees ∧
        ⟨⟨"C"⟩, p.indexKey⟩ ∈ referees) ∧
      ∃ t, (ofModel result.model).typeNode? 1 1 = some t ∧
        (ofModel result.model).IsEntity .datatypes ⟨"D"⟩ t := by
  obtain ⟨result, hbuild, hrun⟩ := exists_of_any_eq_true (x := build .standard none doubledDocument)
    (p := fun r => decide (
      (r.model.property? ⟨⟨"C"⟩, 1⟩).map Property.target = some (some (.idref ⟨"D"⟩)) ∧
      r.model.referentKind? ⟨"D"⟩ = some .datatype ∧
      (ofModel r.model).IsEntity .classes ⟨"C"⟩ 1 ∧
      ⟨"D"⟩ ∉ r.model.packages.keys)) (by decide +kernel)
  obtain ⟨hp, hkind, hn, hpackages⟩ := of_decide_eq_true hrun
  obtain ⟨p, hp, ht⟩ := Option.map_eq_some_iff.mp hp
  obtain ⟨hreferees, t, htype, _, hentity⟩ := typeNode_isReferent_iff hbuild hp ht hkind hn
  exact ⟨result, p, hbuild, hp, ht, hkind, hn, hreferees, t, htype,
    hentity.mpr ⟨hpackages, nofun⟩⟩

/-- The type of a property need not be the node of the element that has the back reference. -/
theorem typeNode_ne_referent_doubledDocument :
    ∃ result p, build .standard none doubledDocument = .ok result ∧
      result.model.property? ⟨⟨"C"⟩, 0⟩ = some p ∧ p.target = some (.idref ⟨"X"⟩) ∧
      result.model.referentKind? ⟨"X"⟩ = some .umlClass ∧
      result.model.referees? ⟨"X"⟩ = some [⟨⟨"C"⟩, "a"⟩] ∧
      (ofModel result.model).IsEntity .classes ⟨"C"⟩ 1 ∧
      (ofModel result.model).typeNode? 1 0 = some 3 ∧
      (ofModel result.model).IsEntity .packages ⟨"X"⟩ 3 ∧
      ¬ (ofModel result.model).IsEntity .classes ⟨"X"⟩ 3 := by
  obtain ⟨result, hbuild, hrun⟩ := exists_of_any_eq_true (x := build .standard none doubledDocument)
    (p := fun r => decide (
      (r.model.property? ⟨⟨"C"⟩, 0⟩).map Property.target = some (some (.idref ⟨"X"⟩)) ∧
      r.model.referentKind? ⟨"X"⟩ = some .umlClass ∧
      r.model.referees? ⟨"X"⟩ = some [⟨⟨"C"⟩, "a"⟩] ∧
      (ofModel r.model).IsEntity .classes ⟨"C"⟩ 1 ∧
      (ofModel r.model).typeNode? 1 0 = some 3 ∧
      (ofModel r.model).IsEntity .packages ⟨"X"⟩ 3 ∧
      ¬ (ofModel r.model).IsEntity .classes ⟨"X"⟩ 3)) (by decide +kernel)
  obtain ⟨hp, hrest⟩ := of_decide_eq_true hrun
  obtain ⟨p, hp, ht⟩ := Option.map_eq_some_iff.mp hp
  exact ⟨result, p, hbuild, hp, ht, hrest⟩

end ObjectGraph
end UmlCatalog
