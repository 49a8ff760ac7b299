import Mathlib.Logic.Relation
import UmlCatalog.Proofs.ObjectGraph.Entities

/-!
# What an object graph contains

A key is what an element is known by in a model: its kind and identifier or, for a property, the
class and its place there. Records lead from key to key. The nodes of an object graph stand for
the keys that the top-level packages reach in this way, and no others, and the edges between
nodes are the steps between their keys.

## Implementation notes

A datatype that a package lists is expected to have a record. Without one it would be found all
the same after an external datatype of the same designator had been made, so whether it is
missing would depend on the order of visits. Every other reference may lead nowhere.
-/

namespace UmlCatalog

/-- Every datatype that a package lists has a record. -/
def Model.ListsKnownDatatypes (m : Model) : Prop :=
  ∀ p ∈ m.packages.values, ∀ e ∈ p.elements, e.kind = .datatype → e.id ∈ m.datatypes.keys

instance (m : Model) : Decidable m.ListsKnownDatatypes :=
  inferInstanceAs (Decidable (∀ p ∈ m.packages.values, ∀ e ∈ p.elements,
    e.kind = .datatype → e.id ∈ m.datatypes.keys))

namespace ObjectGraph

/-- The table for the nodes of a kind of listed element. -/
def Table.ofKind : ElementKind → Table
  | .elementImport => .imports
  | .package => .packages
  | .enumeration => .enums
  | .datatype => .datatypes
  | .umlClass => .classes

/-- What an element is known by. -/
inductive Key where
  | element (kind : Table) (id : ElementId)
  /-- A property, by its class and its place there. -/
  | property (inClass : ElementId) (place : Nat)
  deriving DecidableEq

namespace Key

/-- The gap of an identifier. -/
def gap (id : ElementId) : Key := .element .missing id

/-- There is a node to be made for an identifier. Imports need no record, and gaps have none. -/
def isMade (m : Model) (id : ElementId) : Table → Bool
  | .packages => m.packages.contains id
  | .enums => m.enums.contains id
  | .datatypes => m.datatypes.contains id
  | .classes => m.classes.contains id
  | .imports => true
  | .missing => true

/-- What a package lists. -/
def listed (m : Model) (e : ElementRef) : Key :=
  if isMade m e.id (.ofKind e.kind) then .element (.ofKind e.kind) e.id else gap e.id

/-- What an identifier names, whichever kind of record it has. -/
def named (m : Model) (id : ElementId) : Key :=
  if m.packages.contains id then .element .packages id
  else if m.enums.contains id then .element .enums id
  else if m.datatypes.contains id then .element .datatypes id
  else if m.classes.contains id then .element .classes id
  else gap id

/-- What a property is typed by. A designator is the identifier of a datatype, with a record or
without. -/
def targeted (m : Model) : Target → Key
  | .href designator => .element .datatypes ⟨designator⟩
  | .idref id => named m id

/-- The keys that the record of a key leads to. -/
def next (m : Model) : Key → List Key
  | .element .packages id => (m.packages.get? id).toList.flatMap fun p => p.elements.map (listed m)
  | .element .imports id => (m.imports.get? id).toList.map fun i => named m i.idref
  | .element .classes id => (m.classes.get? id).toList.flatMap fun c =>
      c.superClasses.map (named m) ++ (List.range c.properties.length).map (.property id)
  | .element .enums _ => []
  | .element .datatypes _ => []
  | .element .missing _ => []
  | .property inClass place =>
      let property := (m.classes.get? inClass).bind fun c => c.properties[place]?
      (property.bind Property.target).toList.map (targeted m)

/-- The top-level packages lead to the key. -/
def IsReachable (m : Model) (key : Key) : Prop :=
  ∃ root ∈ m.packageHierarchy.roots.toList,
    Relation.ReflTransGen (fun k l => l ∈ k.next m) (listed m ⟨.package, root⟩) key

end Key

/-- A node stands for a key. A property stands at its place in the node of its class. -/
def IsNodeOf (g : ObjectGraph) : Key → NodeId → Prop
  | .element kind id, n => g.IsEntity kind id n
  | .property inClass place, n => ∃ c x y, g.node? c = some x ∧ x.id = inClass ∧
      x.content.table? = some .classes ∧ x.content.properties[place]? = some n ∧
      g.node? n = some y ∧ y.content.inClass? = some c

/-- There is an edge from a node to another: along the elements of a package, the generalizations
and properties of a class, the type of a property or the target of an import. -/
def HasEdge (g : ObjectGraph) (k n : NodeId) : Prop := n ∈ g.targets (.node k)

/-- Edges lead to the node from one of some nodes. -/
def IsBelow (g : ObjectGraph) (tops : List NodeId) (n : NodeId) : Prop :=
  ∃ top ∈ tops, Relation.ReflTransGen g.HasEdge top n

/-- A graph is made of the keys that the top-level packages of a model reach. -/
structure IsReachablePart (m : Model) (g : ObjectGraph) : Prop where
  /-- There is a node for each reachable key, and for no other key. -/
  exists_node_iff : ∀ key, (∃ n, g.IsNodeOf key n) ↔ key.IsReachable m
  /-- Every node stands for a key. -/
  exists_key : ∀ n x, g.node? n = some x → ∃ key, g.IsNodeOf key n
  /-- The edges of a node are the steps of its key, in order. -/
  edges : ∀ key n, g.IsNodeOf key n → List.Forall₂ g.IsNodeOf (key.next m) (g.targets (.node n))
  /-- Every node is found from the top-level packages along edges. -/
  isBelow : ∀ n x, g.node? n = some x → g.IsBelow g.elements n

section Edges
variable {m : Model} {a b : Arena} {r : Referrer} {xs : List Reference} {ns : List NodeId}
  {n k : NodeId}

theorem Arena.Extends.hasEdge (hba : b.Extends a) (h : a.graph.HasEdge k n) :
    b.graph.HasEdge k n := by
  obtain ⟨x, hx, hn⟩ := exists_of_mem_targets h
  obtain ⟨y, hy, _, hc⟩ := hba k x hx
  unfold HasEdge
  rw [targets_node_eq hy, hc]
  exact hn

theorem Arena.Extends.isBelow (hba : b.Extends a) {tops : List NodeId}
    (h : a.graph.IsBelow tops n) : b.graph.IsBelow tops n := by
  obtain ⟨top, htop, hpath⟩ := h
  exact ⟨top, htop, Relation.ReflTransGen.mono (fun _ _ he => hba.hasEdge he) _ _ hpath⟩

/-- Content for a node without edges adds edges and takes none away. -/
theorem Arena.hasEdge_modifyContent {y : Node} {f : NodeContent → NodeContent} {c d : NodeId}
    (hy : a.graph.node? n = some y) (hnone : y.content.children = [])
    (h : a.graph.HasEdge c d) : (a.modifyContent n f).graph.HasEdge c d := by
  unfold HasEdge at h ⊢
  rw [targets_modifyContent a hy]
  split
  · rename_i hcn
    rw [Referrer.node.inj hcn, targets_node_eq hy, hnone] at h
    cases h
  · exact h

/-- Every node that a visit makes is below the nodes that it finds. -/
theorem Visits.isBelow (h : Visits m a r xs b ns) :
    ∀ n, a.nextNode ≤ n → n < b.nextNode → b.graph.IsBelow ns n := by
  induction h with
  | nil =>
      intro n hle hlt
      exact absurd hlt (Nat.not_lt_of_le hle)
  | @cons a b c r x xs k ns hhead htail ih₁ ih₂ =>
      intro n hle hlt
      by_cases hn : n < b.nextNode
      · obtain ⟨top, htop, hpath⟩ := htail.extends.isBelow (ih₁ n hle hn)
        obtain rfl := List.mem_singleton.mp htop
        exact ⟨top, List.mem_cons_self, hpath⟩
      · obtain ⟨top, htop, hpath⟩ := ih₂ n (Nat.le_of_not_lt hn) hlt
        exact ⟨top, List.mem_cons_of_mem k htop, hpath⟩
  | @again a r x k hk =>
      intro n hle hlt
      have hsame : (a.refer k r).nextNode = a.nextNode := List.length_modify _ _ _
      rw [hsame] at hlt
      exact absurd hlt (Nat.not_lt_of_le hle)
  | @make a b r x p ns hk hp hchildren ih =>
      intro n hle hlt
      obtain ⟨y, hy, _, hc⟩ := hchildren.node?_nextNode
      have hnone : y.content.children = [] := by
        rw [hc]
        exact children_content_nil hp
      have hsame : (b.modifyContent a.nextNode fun _ => p.content ns).nextNode = b.nextNode :=
        List.length_modify _ _ _
      refine ⟨a.nextNode, List.mem_singleton_self _, ?_⟩
      rcases Nat.eq_or_lt_of_le hle with rfl | hgt
      · exact .refl
      · rw [hsame] at hlt
        have hcreated : (a.create x.id r (p.content [])).nextNode = a.nextNode + 1 :=
          Arena.nextNode_create ..
        obtain ⟨top, htop, hpath⟩ := ih n (hcreated ▸ hgt) hlt
        refine .head ?_ (Relation.ReflTransGen.mono
          (fun _ _ he => Arena.hasEdge_modifyContent hy hnone he) _ _ hpath)
        unfold HasEdge
        rw [Arena.targets_modifyContent b hy, if_pos rfl,
          children_content hp hchildren.length_eq]
        exact htop
  | unknown _ _ _ ih => exact ih

/-- Every node of an object graph is below its top-level packages. -/
theorem ofModel_isBelow (m : Model) {x : Node} (hn : (ofModel m).node? n = some x) :
    (ofModel m).IsBelow (ofModel m).elements n := by
  obtain ⟨a, ha, he⟩ := ofModel_induction (m := m)
    (P := fun _ a => ∀ n, n < a.nextNode → a.graph.IsBelow a.graph.elements n)
    (fun n hn => absurd hn (Nat.not_lt_zero n))
    (fun done a b id k ha h n hn => by
      show b.graph.IsBelow (b.graph.elements ++ [k]) n
      rw [h.elements_eq]
      by_cases hold : n < a.nextNode
      · obtain ⟨top, htop, hpath⟩ := h.extends.isBelow (ha n hold)
        exact ⟨top, List.mem_append_left [k] htop, hpath⟩
      · obtain ⟨top, htop, hpath⟩ := h.isBelow n (Nat.le_of_not_lt hold) hn
        exact ⟨top, List.mem_append_right _ htop, hpath⟩)
  rw [he] at hn ⊢
  exact ha n (Arena.lt_nextNode hn)

end Edges

/-- In lists of related elements, each place on the right has its counterpart. -/
theorem exists_of_getElem?_right {α β : Type} {R : α → β → Prop} {xs : List α} {ys : List β}
    (h : List.Forall₂ R xs ys) {i : Nat} {y : β} (hy : ys[i]? = some y) :
    ∃ x, xs[i]? = some x ∧ R x y := by
  obtain ⟨hi, rfl⟩ := List.getElem?_eq_some_iff.mp hy
  obtain ⟨hlen, hget⟩ := List.forall₂_iff_get.mp h
  have hi' : i < xs.length := hlen ▸ hi
  exact ⟨xs[i], List.getElem?_eq_getElem hi', hget i hi' hi⟩

theorem exists_of_mem_right {α β : Type} {R : α → β → Prop} {xs : List α} {ys : List β}
    (h : List.Forall₂ R xs ys) {y : β} (hy : y ∈ ys) : ∃ x ∈ xs, R x y := by
  obtain ⟨i, hi⟩ := List.mem_iff_getElem?.mp hy
  obtain ⟨x, hx, hr⟩ := exists_of_getElem?_right h hi
  exact ⟨x, List.mem_of_getElem? hx, hr⟩

theorem exists_of_mem_left {α β : Type} {R : α → β → Prop} {xs : List α} {ys : List β}
    (h : List.Forall₂ R xs ys) {x : α} (hx : x ∈ xs) : ∃ y ∈ ys, R x y :=
  exists_of_mem_right h.flip hx

section Keys
variable {m : Model} {a : Arena} {roots : List ElementId} {x : Reference} {t : Table}
  {id : ElementId} {n : NodeId}

theorem IsNodeOf.exists_node {g : ObjectGraph} {key : Key} (h : g.IsNodeOf key n) :
    ∃ x, g.node? n = some x := by
  cases key with
  | element kind id =>
      obtain ⟨x, hx, _⟩ := h
      exact ⟨x, hx⟩
  | property inClass place =>
      obtain ⟨_, _, y, _, _, _, _, hy, _⟩ := h
      exact ⟨y, hy⟩

theorem IsNodeOf.eq_element {g : ObjectGraph} {kind : Table} {key : Key}
    (h : g.IsNodeOf (.element kind id) n) (h' : g.IsNodeOf key n) : key = .element kind id := by
  obtain ⟨x, hx, rfl, ht⟩ := h
  cases key with
  | element kind' id' =>
      obtain ⟨x', hx', rfl, ht'⟩ := h'
      obtain rfl := Option.some.inj (hx.symm.trans hx')
      rw [Option.some.inj (ht.symm.trans ht')]
  | property inClass place =>
      obtain ⟨_, _, y, _, _, _, _, hy, hin⟩ := h'
      obtain rfl := Option.some.inj (hx.symm.trans hy)
      cases ht.symm.trans (NodeContent.table?_of_inClass? hin)

theorem Reference.not_isUnknown (ht : x.table? = some t) (h : Key.isMade m x.id t = true) :
    ¬ x.IsUnknown m := by
  intro hunknown
  have hnone := hunknown 0
  cases x with
  | package _ | enumeration _ | datatype _ | umlClass _ =>
      obtain rfl := Option.some.inj ht
      have hkey := OrderedMap.get?_eq_none_iff.mp (Option.map_eq_none_iff.mp hnone)
      exact hkey (OrderedMap.contains_iff.mp h)
  | _ => cases hnone

theorem Reference.table?_ofElement_eq (e : ElementRef) :
    (Reference.ofElement e).table? = some (.ofKind e.kind) := by
  unfold Reference.ofElement
  cases e.kind <;> rfl

theorem Reference.id_ofElement (e : ElementRef) : (Reference.ofElement e).id = e.id := by
  unfold Reference.ofElement
  cases e.kind <;> rfl

theorem Reference.id_ofId (m : Model) (id : ElementId) : (Reference.ofId m id).id = id := by
  unfold Reference.ofId
  repeat' split
  all_goals rfl

/-- What an identifier names has a record, or is a gap. -/
theorem Key.named_cases (m : Model) (id : ElementId) :
    ∃ t, Key.named m id = .element t id ∧ (Reference.ofId m id).table? = some t ∧
      Key.isMade m id t = true := by
  unfold Key.named Reference.ofId
  repeat' split
  · exact ⟨.packages, rfl, rfl, ‹_›⟩
  · exact ⟨.enums, rfl, rfl, ‹_›⟩
  · exact ⟨.datatypes, rfl, rfl, ‹_›⟩
  · exact ⟨.classes, rfl, rfl, ‹_›⟩
  · exact ⟨.missing, rfl, rfl, rfl⟩

namespace Arena

theorem Shows.isEntity (h : a.Shows m x n) (ht : x.table? = some t)
    (hmade : Key.isMade m x.id t = true) : a.graph.IsEntity t x.id n := by
  obtain ⟨z, hz, hid, htable | ⟨hunknown, _⟩⟩ := h
  · exact ⟨z, hz, hid, htable.trans ht⟩
  · exact absurd hunknown (Reference.not_isUnknown ht hmade)

theorem Shows.isNodeOf_named (h : a.Shows m (.ofId m id) n) :
    a.graph.IsNodeOf (.named m id) n := by
  obtain ⟨t, hkey, ht, hmade⟩ := Key.named_cases m id
  rw [hkey]
  have hentity := h.isEntity ht (by rw [Reference.id_ofId]; exact hmade)
  rw [Reference.id_ofId] at hentity
  exact hentity

theorem Shows.isNodeOf_targeted {target : Target} (h : a.Shows m (.ofTarget m target) n) :
    a.graph.IsNodeOf (.targeted m target) n := by
  cases target with
  | idref id => exact h.isNodeOf_named
  | href designator =>
      obtain ⟨z, hz, hid, htable | ⟨hunknown, _⟩⟩ := h
      · exact ⟨z, hz, hid, htable⟩
      · cases hunknown 0

namespace IsFaithful

/-- A node has a record unless it is that of an external datatype. -/
theorem isMade (ha : a.IsFaithful m roots) (h : a.graph.IsEntity t id n) (ht : t ≠ .datatypes) :
    Key.isMade m id t = true := by
  obtain ⟨z, hz, rfl, htable⟩ := h
  obtain ⟨x, p, ns, hx, hid, hc, _⟩ := ha.exists_blueprint hz
  rw [hc] at htable
  rw [hid]
  cases hx with
  | package hrecord | enumeration hrecord | umlClass hrecord =>
      obtain rfl := Option.some.inj htable
      exact OrderedMap.contains_iff.mpr (OrderedMap.mem_keys_of_get? hrecord)
  | datatype _ | external _ => exact absurd (Option.some.inj htable).symm ht
  | elementImport _ | missing _ =>
      obtain rfl := Option.some.inj htable
      rfl
  | property _ _ => cases htable

theorem isNodeOf_listed (ha : a.IsFaithful m roots) {e : ElementRef}
    (h : a.Shows m (.ofElement e) n) (he : e.kind = .datatype → e.id ∈ m.datatypes.keys) :
    a.graph.IsNodeOf (.listed m e) n := by
  have ht := Reference.table?_ofElement_eq e
  have hid := Reference.id_ofElement e
  unfold Key.listed
  split
  · rename_i hmade
    have hentity := h.isEntity ht (hid.symm ▸ hmade)
    rw [hid] at hentity
    exact hentity
  · rename_i hnew
    obtain ⟨z, hz, hzid, htable | ⟨_, hmissing⟩⟩ := h
    · refine absurd (ha.isMade ⟨z, hz, hzid.trans hid, htable.trans ht⟩ fun hkind => ?_) hnew
      refine hnew ?_
      rw [hkind]
      refine OrderedMap.contains_iff.mpr (he ?_)
      cases hk : e.kind <;> rw [hk] at hkind <;> first | rfl | cases hkind
    · exact ⟨z, hz, hzid.trans hid, hmissing⟩

theorem edges_package (ha : a.IsFaithful m roots) (hm : m.ListsKnownDatatypes) {x : Node}
    (hx : a.graph.node? n = some x) (ht : x.content.table? = some .packages) :
    List.Forall₂ a.graph.IsNodeOf ((Key.element .packages x.id).next m) x.content.children := by
  obtain ⟨p, ns, hp, hc, hns⟩ := ha.package hx ht
  have hlisted := hm p (OrderedMap.mem_values_of_get? hp)
  rw [List.forall₂_map_left_iff] at hns
  rw [hc, Key.next, hp, Option.toList_some, List.flatMap_singleton]
  show List.Forall₂ a.graph.IsNodeOf (p.elements.map (Key.listed m)) (ns ++ [])
  rw [List.append_nil, List.forall₂_map_left_iff]
  have hboth := (List.forall₂_and_left _ _).mpr ⟨hlisted, hns⟩
  exact hboth.imp fun _ _ h => ha.isNodeOf_listed h.2 h.1

theorem edges_elementImport (ha : a.IsFaithful m roots) {x : Node}
    (hx : a.graph.node? n = some x) (ht : x.content.table? = some .imports) :
    List.Forall₂ a.graph.IsNodeOf ((Key.element .imports x.id).next m) x.content.children := by
  obtain ⟨target, hc, htarget⟩ := ha.elementImport hx ht
  rw [List.forall₂_map_left_iff] at htarget
  rw [hc, Key.next]
  show List.Forall₂ a.graph.IsNodeOf _ (target.toList ++ [])
  rw [List.append_nil, List.forall₂_map_left_iff]
  exact htarget.imp fun _ _ h => h.isNodeOf_named

theorem edges_umlClass (ha : a.IsFaithful m roots) {x : Node}
    (hx : a.graph.node? n = some x) (ht : x.content.table? = some .classes) :
    List.Forall₂ a.graph.IsNodeOf ((Key.element .classes x.id).next m) x.content.children := by
  obtain ⟨c, generals, properties, hclass, hc, hgenerals, hproperties⟩ := ha.umlClass hx ht
  rw [Key.next, hclass, Option.toList_some, List.flatMap_singleton, hc]
  rw [List.forall₂_map_left_iff] at hgenerals
  refine List.rel_append (List.forall₂_map_left_iff.mpr ?_) (List.forall₂_map_left_iff.mpr ?_)
  · exact hgenerals.imp fun _ _ h => h.isNodeOf_named
  · refine List.forall₂_iff_get.mpr ⟨?_, fun i hi hi' => ?_⟩
    · rw [List.length_range]
      exact hproperties.length_eq
    · have hplace : x.content.properties[i]? = some properties[i] := by
        rw [hc]
        exact List.getElem?_eq_getElem hi'
      obtain ⟨p, _, hshow⟩ := exists_of_getElem?_right hproperties (List.getElem?_eq_getElem hi')
      have hproperty := hshow.isPropertyOf
      obtain ⟨y, _, hy, _⟩ := hshow
      rw [List.get_eq_getElem, List.getElem_range]
      exact ⟨n, x, y, hx, rfl, ht, hplace, hy, hproperty.inClass? hy⟩

theorem edges_property (ha : a.IsFaithful m roots) {inClass : ElementId} {place : Nat}
    (h : a.graph.IsNodeOf (.property inClass place) n) :
    List.Forall₂ a.graph.IsNodeOf ((Key.property inClass place).next m)
      (a.graph.targets (.node n)) := by
  obtain ⟨k, x, y, hx, rfl, ht, hplace, _, _⟩ := h
  obtain ⟨c, generals, properties, hclass, hc, _, hproperties⟩ := ha.umlClass hx ht
  rw [hc] at hplace
  obtain ⟨p, hp, z, type, hz, _, hcontent, htype⟩ := exists_of_getElem?_right hproperties hplace
  rw [List.forall₂_map_left_iff] at htype
  rw [targets_node_eq hz, hcontent, Key.next, hclass, Option.bind_some, hp, Option.bind_some]
  show List.Forall₂ a.graph.IsNodeOf _ (type.toList ++ [])
  rw [List.append_nil, List.forall₂_map_left_iff]
  exact htype.imp fun _ _ h => h.isNodeOf_targeted

/-- The edges of a node lead to the nodes of the keys that its own key leads to. -/
theorem edges (ha : a.IsFaithful m roots) (hm : m.ListsKnownDatatypes) {key : Key}
    (h : a.graph.IsNodeOf key n) :
    List.Forall₂ a.graph.IsNodeOf (key.next m) (a.graph.targets (.node n)) := by
  cases key with
  | property inClass place => exact ha.edges_property h
  | element kind id =>
      obtain ⟨x, hx, rfl, ht⟩ := h
      rw [targets_node_eq hx]
      cases kind with
      | packages => exact ha.edges_package hm hx ht
      | imports => exact ha.edges_elementImport hx ht
      | classes => exact ha.edges_umlClass hx ht
      | enums | datatypes | missing =>
          have hnone : x.content.children = [] := by
            cases hc : x.content <;> rw [hc] at ht <;> first | rfl | cases ht
          rw [hnone]
          exact .nil

/-- A node stands for one key only. -/
theorem eq_of_isNodeOf (ha : a.IsFaithful m roots) {key key' : Key}
    (h : a.graph.IsNodeOf key n) (h' : a.graph.IsNodeOf key' n) : key = key' := by
  cases key with
  | element kind id => exact (h.eq_element h').symm
  | property inClass place =>
      cases key' with
      | element kind id => exact h'.eq_element h
      | property inClass' place' =>
          obtain ⟨c, x, y, hc, rfl, ht, hplace, hy, hin⟩ := h
          obtain ⟨c', x', y', hc', rfl, ht', hplace', hy', hin'⟩ := h'
          obtain rfl := Option.some.inj (hy.symm.trans hy')
          obtain rfl := Option.some.inj (hin.symm.trans hin')
          obtain rfl := Option.some.inj (hc.symm.trans hc')
          have hlt := (List.getElem?_eq_some_iff.mp hplace).1
          rw [(List.getElem?_inj hlt (ha.nodup_properties hc ht)).mp (hplace.trans hplace'.symm)]

/-- A top-level package is listed by the node of its key. -/
theorem isNodeOf_roots (ha : a.IsFaithful m roots) :
    List.Forall₂ (fun root => a.graph.IsNodeOf (.listed m ⟨.package, root⟩)) roots
      a.graph.elements := by
  refine (List.forall₂_map_left_iff.mp ha.elements).imp fun root k h => ?_
  have hlisted : a.Shows m (.ofElement ⟨.package, root⟩) k := h
  exact ha.isNodeOf_listed hlisted fun hkind => nomatch hkind

/-- A reachable key has a node. -/
theorem exists_isNodeOf (ha : a.IsFaithful m m.packageHierarchy.roots.toList)
    (hm : m.ListsKnownDatatypes) {key : Key} (h : key.IsReachable m) :
    ∃ n, a.graph.IsNodeOf key n := by
  obtain ⟨root, hroot, hpath⟩ := h
  induction hpath with
  | refl =>
      obtain ⟨n, _, hn⟩ := exists_of_mem_left ha.isNodeOf_roots hroot
      exact ⟨n, hn⟩
  | tail _ hstep ih =>
      obtain ⟨n, hn⟩ := ih
      obtain ⟨k, _, hk⟩ := exists_of_mem_left (ha.edges hm hn) hstep
      exact ⟨k, hk⟩

/-- A node that is found along edges stands for a reachable key. -/
theorem exists_isReachable (ha : a.IsFaithful m m.packageHierarchy.roots.toList)
    (hm : m.ListsKnownDatatypes) (h : a.graph.IsBelow a.graph.elements n) :
    ∃ key, key.IsReachable m ∧ a.graph.IsNodeOf key n := by
  obtain ⟨top, htop, hpath⟩ := h
  induction hpath with
  | refl =>
      obtain ⟨root, hroot, hn⟩ := exists_of_mem_right ha.isNodeOf_roots htop
      exact ⟨_, ⟨root, hroot, .refl⟩, hn⟩
  | tail _ hstep ih =>
      obtain ⟨key, ⟨root, hroot, hkey⟩, hn⟩ := ih
      obtain ⟨key', hnext, hk⟩ := exists_of_mem_right (ha.edges hm hn) hstep
      exact ⟨key', ⟨root, hroot, hkey.tail hnext⟩, hk⟩

end IsFaithful
end Arena

end Keys

/-- The object graph of a model is made of the keys that its top-level packages reach. -/
theorem isReachablePart_of_listsKnownDatatypes {m : Model} (hm : m.ListsKnownDatatypes) :
    IsReachablePart m (ofModel m) := by
  obtain ⟨a, ha, he⟩ := Arena.exists_isFaithful m
  have hbelow : ∀ n x, a.graph.node? n = some x → a.graph.IsBelow a.graph.elements n := by
    intro n x hx
    rw [← he] at hx ⊢
    exact ofModel_isBelow m hx
  rw [he]
  refine ⟨fun key => ⟨?_, fun hkey => ha.exists_isNodeOf hm hkey⟩, fun n x hx => ?_,
    fun key n hn => ha.edges hm hn, hbelow⟩
  · rintro ⟨n, hn⟩
    obtain ⟨x, hx⟩ := hn.exists_node
    obtain ⟨key', hreachable, hn'⟩ := ha.exists_isReachable hm (hbelow n x hx)
    rw [ha.eq_of_isNodeOf hn hn']
    exact hreachable
  · obtain ⟨key, _, hn⟩ := ha.exists_isReachable hm (hbelow n x hx)
    exact ⟨key, hn⟩

end ObjectGraph
end UmlCatalog
