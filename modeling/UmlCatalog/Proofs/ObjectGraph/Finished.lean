import Mathlib.Data.List.Forall2
import UmlCatalog.Proofs.ObjectGraph.References

/-!
# Finished nodes

A node is finished when its content lists the nodes of its children. While an element is visited
its own node and those of the elements around it are not. Every visit finishes the nodes that it
makes and leaves finished ones as they are, so in the object graph every node is finished, and
its content can be read off its record.

## Implementation notes

The node of a child is known by its identifier and its table, except that of a property: two
properties may share an identifier, and no table holds them. What a class says about the nodes
of its properties therefore includes their types, and that these nodes are finished themselves.
-/

namespace UmlCatalog
namespace ObjectGraph

section Records
variable {m : Model} {node : NodeId} {x : Reference}

/-- There is no record to make a node from. -/
def Reference.IsUnknown (m : Model) (x : Reference) : Prop := ∀ node, x.blueprint? m node = none

/-- Whether there is a record does not depend on the place of the node. -/
theorem Reference.isUnknown_of_blueprint? (h : x.blueprint? m node = none) : x.IsUnknown m := by
  intro k
  cases x with
  | package _ | enumeration _ | datatype _ | umlClass _ =>
      exact Option.map_eq_none_iff.mpr (Option.map_eq_none_iff.mp h)
  | _ => cases h

theorem Reference.table?_ne_none_of_isUnknown (h : x.IsUnknown m) : x.table? ≠ none := by
  cases x with
  | property p inClass => cases h 0
  | _ => exact Option.some_ne_none _

end Records

namespace Arena
variable {m : Model} {a b : Arena} {unfinished unfinished' : NodeId → Prop} {x : Reference}
  {n k : NodeId}

/-- Every node keeps its identifier and its table. -/
def KeepsKinds (b a : Arena) : Prop :=
  ∀ n x, a.graph.node? n = some x →
    ∃ y, b.graph.node? n = some y ∧ y.id = x.id ∧ y.content.table? = x.content.table?

theorem Extends.keepsKinds (h : b.Extends a) : b.KeepsKinds a := by
  intro n x hx
  obtain ⟨y, hy, hid, hc⟩ := h n x hx
  exact ⟨y, hy, hid, congrArg NodeContent.table? hc⟩

theorem keepsKinds_modifyContent {f : NodeContent → NodeContent}
    (hf : ∀ x, a.graph.node? n = some x → (f x.content).table? = x.content.table?) :
    (a.modifyContent n f).KeepsKinds a := by
  intro k x hx
  rw [node?_modifyContent, hx]
  refine ⟨_, rfl, ?_⟩
  split
  · rename_i hkn
    subst hkn
    exact ⟨rfl, hf x hx⟩
  · exact ⟨rfl, rfl⟩

/-- A node shows what a reference leads to. Without a record that is the gap of the identifier. -/
def Shows (m : Model) (a : Arena) (x : Reference) (n : NodeId) : Prop :=
  ∃ z, a.graph.node? n = some z ∧ z.id = x.id ∧
    (z.content.table? = x.table? ∨ x.IsUnknown m ∧ z.content.table? = some .missing)

/-- A node of a class shows one of its properties, and is linked to the type. -/
def ShowsProperty (m : Model) (a : Arena) (inClass : NodeId) (p : Property) (n : NodeId) : Prop :=
  ∃ z type, a.graph.node? n = some z ∧ z.id = p.id ∧
    z.content = .property p.name inClass type p.lower p.upper p.association p.aggregation
      p.comments ∧
    List.Forall₂ (a.Shows m) (p.target.toList.map (.ofTarget m)) type.toList

/-- The node of a child. A property is finished before its class. -/
inductive Stands (m : Model) (unfinished : NodeId → Prop) (a : Arena) : Reference → NodeId → Prop
  | element {y : Reference} {j : NodeId} (hy : y.table? ≠ none) (shows : a.Shows m y j) :
      Stands m unfinished a y j
  | property {p : Property} {inClass j : NodeId} (done : ¬ unfinished j)
      (shows : a.ShowsProperty m inClass p j) : Stands m unfinished a (.property p inClass) j

/-- All nodes but some unfinished ones have the content of their blueprint, and the nodes of its
children. -/
def IsFinishedBut (m : Model) (unfinished : NodeId → Prop) (a : Arena) : Prop :=
  ∀ n z, ¬ unfinished n → a.graph.node? n = some z →
    ∃ (x : Reference) (p : Blueprint) (ns : List NodeId), x.blueprint? m n = some p ∧
      z.id = x.id ∧ z.content = p.content ns ∧
      List.Forall₂ (a.Stands m unfinished) p.children ns

theorem Shows.keepsKinds (h : a.Shows m x n) (hba : b.KeepsKinds a) : b.Shows m x n := by
  obtain ⟨z, hz, hid, ht⟩ := h
  obtain ⟨y, hy, hyid, hyt⟩ := hba n z hz
  refine ⟨y, hy, hyid.trans hid, ?_⟩
  rw [hyt]
  exact ht

theorem ShowsProperty.extends {p : Property} (h : a.ShowsProperty m k p n) (hba : b.Extends a) :
    b.ShowsProperty m k p n := by
  obtain ⟨z, type, hz, hid, hc, htype⟩ := h
  obtain ⟨y, hy, hyid, hyc⟩ := hba n z hz
  refine ⟨y, type, hy, hyid.trans hid, hyc.trans hc, ?_⟩
  exact htype.imp fun _ _ hs => hs.keepsKinds hba.keepsKinds

theorem ShowsProperty.lt_nextNode {p : Property} (h : a.ShowsProperty m k p n) :
    n < a.nextNode := by
  obtain ⟨z, _, hz, _⟩ := h
  exact Arena.lt_nextNode hz

/-- The node of a child stays what it is while the arena grows. -/
theorem Stands.extends (h : a.Stands m unfinished x n) (hba : b.Extends a)
    (hu : ∀ k, k < a.nextNode → unfinished' k → unfinished k) : b.Stands m unfinished' x n := by
  cases h with
  | element hx shows => exact .element hx (shows.keepsKinds hba.keepsKinds)
  | property done shows =>
      exact .property (fun hn => done (hu n shows.lt_nextNode hn)) (shows.extends hba)

/-- The node of a child stays what it is when an unfinished node is given its content. -/
theorem Stands.modifyContent {f : NodeContent → NodeContent}
    (h : a.Stands m (fun j => unfinished j ∨ j = k) x n)
    (hf : ∀ x, a.graph.node? k = some x → (f x.content).table? = x.content.table?) :
    (a.modifyContent k f).Stands m unfinished x n := by
  have hkinds := keepsKinds_modifyContent hf
  cases h with
  | element hx shows => exact .element hx (shows.keepsKinds hkinds)
  | property done shows =>
      obtain ⟨hn, hnk⟩ := not_or.mp done
      obtain ⟨z, type, hz, hid, hc, htype⟩ := shows
      refine .property hn ⟨z, type, ?_, hid, hc, htype.imp fun _ _ hs => hs.keepsKinds hkinds⟩
      rw [node?_modifyContent, hz, Option.map_some, if_neg hnk]

/-- A child that is no property is shown. -/
theorem Stands.shows (h : a.Stands m unfinished x n) (hx : x.table? ≠ none) : a.Shows m x n := by
  cases h with
  | element _ shows => exact shows
  | property _ _ => exact absurd rfl hx

theorem forall₂_shows {xs : List Reference} {ns : List NodeId}
    (h : List.Forall₂ (a.Stands m unfinished) xs ns) (hxs : ∀ x ∈ xs, x.table? ≠ none) :
    List.Forall₂ (a.Shows m) xs ns := by
  have hboth := (List.forall₂_and_left _ _).mpr ⟨hxs, h⟩
  exact hboth.imp fun _ _ hs => hs.2.shows hs.1

/-- Unfinished nodes are there already, also those that are new. -/
theorem lt_nextNode_create (hu : ∀ n, unfinished n → n < a.nextNode) (id : ElementId)
    (r : Referrer) (content : NodeContent) :
    ∀ n, unfinished n ∨ n = a.nextNode → n < (a.create id r content).nextNode := by
  rw [nextNode_create]
  rintro n (hn | rfl)
  · exact Nat.lt_succ_of_lt (hu n hn)
  · exact Nat.lt_succ_self _

/-- A new node is unfinished. -/
theorem IsFinishedBut.create (ha : a.IsFinishedBut m unfinished) (id : ElementId) (r : Referrer)
    (content : NodeContent) :
    (a.create id r content).IsFinishedBut m fun k => unfinished k ∨ k = a.nextNode := by
  intro n z hn hz
  obtain ⟨hn, hne⟩ := not_or.mp hn
  rw [node?_create, if_neg hne] at hz
  obtain ⟨x, p, ns, hp, hid, hc, hall⟩ := ha n z hn hz
  refine ⟨x, p, ns, hp, hid, hc, hall.imp fun _ _ hs => ?_⟩
  refine hs.extends (extends_create a id r content) fun k hk hk' => ?_
  exact hk'.resolve_right (Nat.ne_of_lt hk)

/-- Finished nodes stay finished while no node is made. -/
theorem IsFinishedBut.extends (ha : a.IsFinishedBut m unfinished) (hba : b.Extends a)
    (hold : ∀ n z, b.graph.node? n = some z → ∃ y, a.graph.node? n = some y) :
    b.IsFinishedBut m unfinished := by
  intro n z hn hz
  obtain ⟨y, hy⟩ := hold n z hz
  obtain ⟨z', hz', hzid, hzc⟩ := hba n y hy
  obtain rfl := Option.some.inj (hz.symm.trans hz')
  obtain ⟨x, p, ns, hp, hyid, hyc, hall⟩ := ha n y hn hy
  refine ⟨x, p, ns, hp, hzid.trans hyid, hzc.trans hyc, hall.imp fun _ _ hs => ?_⟩
  exact hs.extends hba fun _ _ hu => hu

theorem IsFinishedBut.refer (ha : a.IsFinishedBut m unfinished) (k : NodeId) (r : Referrer) :
    (a.refer k r).IsFinishedBut m unfinished := by
  refine ha.extends (extends_refer a k r) fun n z hz => ?_
  obtain ⟨y, hy, _⟩ := of_node?_refer hz
  exact ⟨y, hy⟩

theorem IsFinishedBut.addElement (ha : a.IsFinishedBut m unfinished) (k : NodeId) :
    (a.addElement k).IsFinishedBut m unfinished :=
  ha.extends (fun _ x hx => ⟨x, hx, rfl, rfl⟩) fun _ z hz => ⟨z, hz⟩

/-- An unfinished node is finished by the nodes of its children. -/
theorem IsFinishedBut.modifyContent {p : Blueprint} {ns : List NodeId} {y : Node}
    (ha : a.IsFinishedBut m fun j => unfinished j ∨ j = k) (hp : x.blueprint? m k = some p)
    (hy : a.graph.node? k = some y) (hid : y.id = x.id)
    (ht : (p.content ns).table? = y.content.table?)
    (hns : List.Forall₂ (a.Stands m fun j => unfinished j ∨ j = k) p.children ns) :
    (a.modifyContent k fun _ => p.content ns).IsFinishedBut m unfinished := by
  have hkeep : ∀ z, a.graph.node? k = some z → (p.content ns).table? = z.content.table? := by
    intro z hz
    obtain rfl := Option.some.inj (hy.symm.trans hz)
    exact ht
  intro n z hn hz
  rw [node?_modifyContent] at hz
  by_cases hnk : n = k
  · subst hnk
    rw [hy, Option.map_some, if_pos rfl] at hz
    obtain rfl := Option.some.inj hz
    exact ⟨x, p, ns, hp, hid, rfl, hns.imp fun _ _ hs => hs.modifyContent hkeep⟩
  · obtain ⟨z', hz', rfl⟩ := Option.map_eq_some_iff.mp hz
    rw [if_neg hnk]
    obtain ⟨x', p', ns', hp', hid', hc', hall⟩ := ha n z' (not_or.mpr ⟨hn, hnk⟩) hz'
    exact ⟨x', p', ns', hp', hid', hc', hall.imp fun _ _ hs => hs.modifyContent hkeep⟩

/-- An element that has a node already is shown by it. -/
theorem IsIndexed.stands (ha : a.IsIndexed) (hk : x.known? a = some n) :
    a.Stands m unfinished x n := by
  obtain ⟨t, ht, hn⟩ := Option.bind_eq_some_iff.mp hk
  obtain ⟨y, hy, hid, hyt⟩ := (ha t x.id n).mp hn
  have htable : x.table? ≠ none := by
    rw [ht]
    exact Option.some_ne_none t
  exact .element htable ⟨y, hy, hid, Or.inl (hyt.trans ht.symm)⟩

end Arena

section Visits
variable {m : Model} {a b : Arena} {r : Referrer} {x : Reference} {p : Blueprint}
  {xs : List Reference} {ns : List NodeId} {unfinished : NodeId → Prop}

/-- A finished node stands for the reference that it was made for. -/
theorem Arena.stands_of_node? {n : NodeId} {z : Node} (hp : x.blueprint? m n = some p)
    (hz : a.graph.node? n = some z) (hid : z.id = x.id) (hc : z.content = p.content ns)
    (hn : ¬ unfinished n) (hns : List.Forall₂ (a.Stands m unfinished) p.children ns) :
    a.Stands m unfinished x n := by
  by_cases hx : x.table? = none
  · cases Reference.drawn hp with
    | property q inClass =>
        have hlen : ns.length ≤ 1 := by
          rw [← hns.length_eq, Blueprint.ofProperty, List.length_map]
          exact Option.length_toList_le
        refine .property hn ⟨z, ns.head?, hz, hid, hc, ?_⟩
        rw [toList_head? hlen]
        refine Arena.forall₂_shows hns fun y hy => ?_
        obtain ⟨t, _, rfl⟩ := List.mem_map.mp hy
        exact Reference.table?_ofTarget m t
    | _ => cases hx
  · exact .element hx ⟨z, hz, hid, Or.inl ((congrArg _ hc).trans (table?_content hp ns))⟩

/-- A visit finishes the nodes that it makes, and what it finds stands for what it visits. -/
theorem Visits.isFinishedBut (h : Visits m a r xs b ns) (ha : a.IsIndexed) :
    ∀ {unfinished : NodeId → Prop}, (∀ n, unfinished n → n < a.nextNode) →
      a.IsFinishedBut m unfinished →
        b.IsFinishedBut m unfinished ∧ List.Forall₂ (b.Stands m unfinished) xs ns := by
  induction h with
  | nil =>
      intro unfinished _ hf
      exact ⟨hf, .nil⟩
  | cons hhead htail ih₁ ih₂ =>
      intro unfinished hu hf
      obtain ⟨hb, hn⟩ := ih₁ ha hu hf
      have hle := hhead.extends.nextNode_le
      obtain ⟨hc, hns⟩ := ih₂ (hhead.isIndexed ha) (fun n hn => Nat.lt_of_lt_of_le (hu n hn) hle) hb
      obtain ⟨hn, _⟩ := List.forall₂_cons.mp hn
      exact ⟨hc, .cons (hn.extends htail.extends fun _ _ hk => hk) hns⟩
  | @again a r x n hk =>
      intro unfinished _ hf
      refine ⟨hf.refer n r, .cons ?_ .nil⟩
      exact (ha.stands hk).extends (Arena.extends_refer a n r) fun _ _ hk => hk
  | @make a b r x p ns hk hp hchildren ih =>
      intro unfinished hu hf
      have hnew : ¬ unfinished a.nextNode := fun hn => Nat.lt_irrefl _ (hu _ hn)
      obtain ⟨hb, hns⟩ := ih (ha.create hk (table?_content hp []) r)
        (Arena.lt_nextNode_create hu _ _ _) (hf.create _ _ _)
      obtain ⟨y, hy, hid, _⟩ := hchildren.node?_nextNode
      have htable := hchildren.table?_nextNode hp
      refine ⟨hb.modifyContent hp hy hid (htable y hy) hns, .cons ?_ .nil⟩
      have hnode : (b.modifyContent a.nextNode fun _ => p.content ns).graph.node? a.nextNode =
          some { y with content := p.content ns } := by
        rw [Arena.node?_modifyContent, hy, Option.map_some, if_pos rfl]
      exact Arena.stands_of_node? hp hnode hid rfl hnew
        (hns.imp fun _ _ hs => hs.modifyContent htable)
  | @unknown a b r x n hk hp _ ih =>
      intro unfinished hu hf
      obtain ⟨hb, hn⟩ := ih ha hu hf
      obtain ⟨hn, _⟩ := List.forall₂_cons.mp hn
      obtain ⟨z, hz, hid, ht⟩ := hn.shows (Option.some_ne_none _)
      have hunknown := Reference.isUnknown_of_blueprint? hp
      have hmissing : z.content.table? = some .missing := ht.elim (fun h => h) And.right
      exact ⟨hb, .cons (.element (Reference.table?_ne_none_of_isUnknown hunknown)
        ⟨z, hz, hid, Or.inr ⟨hunknown, hmissing⟩⟩) .nil⟩

/-- A visit lists no top-level package. -/
theorem Visits.elements_eq (h : Visits m a r xs b ns) : b.graph.elements = a.graph.elements := by
  induction h with
  | nil => rfl
  | cons _ _ ih₁ ih₂ => exact ih₂.trans ih₁
  | again _ => rfl
  | make _ _ _ ih => exact ih.trans (Arena.elements_create _ _ _ _)
  | unknown _ _ _ ih => exact ih

end Visits

namespace Arena
variable {m : Model} {a b : Arena} {roots : List ElementId} {n : NodeId} {z : Node}

/-- An arena in which every node has the content that the model says, and the packages at its
top are shown. -/
structure IsFaithful (m : Model) (roots : List ElementId) (a : Arena) : Prop where
  isSettled : a.IsSettled
  isFinished : a.IsFinishedBut m fun _ => False
  elements : List.Forall₂ (a.Shows m) (roots.map .package) a.graph.elements

theorem isFaithful_start (m : Model) : (Arena.start m).IsFaithful m [] where
  isSettled := isSettled_start m
  isFinished := fun n z _ hz => by
    have hnone : (Arena.start m).graph.node? n = none := rfl
    cases hnone.symm.trans hz
  elements := .nil

/-- One more top-level package is visited and listed. -/
theorem IsFaithful.addElement {id : ElementId} (ha : a.IsFaithful m roots)
    (h : Visits m a .graph [.package id] b [n]) :
    (b.addElement n).IsFaithful m (roots ++ [id]) := by
  obtain ⟨hfinished, hn⟩ :=
    h.isFinishedBut ha.isSettled.isIndexed (fun _ hu => hu.elim) ha.isFinished
  obtain ⟨hn, _⟩ := List.forall₂_cons.mp hn
  refine ⟨ha.isSettled.addElement h, hfinished.addElement n, ?_⟩
  show List.Forall₂ (b.Shows m) ((roots ++ [id]).map .package) (b.graph.elements ++ [n])
  rw [List.map_append, h.elements_eq]
  refine List.rel_append (ha.elements.imp fun _ _ hs => ?_) (.cons ?_ .nil)
  · exact hs.keepsKinds h.extends.keepsKinds
  · exact hn.shows (Option.some_ne_none _)

/-- The object graph is that of a faithful arena. -/
theorem exists_isFaithful (m : Model) :
    ∃ a : Arena, a.IsFaithful m m.packageHierarchy.roots.toList ∧ ofModel m = a.graph :=
  ofModel_induction (P := fun done a => a.IsFaithful m done) (isFaithful_start m)
    fun _ _ _ _ _ ha h => ha.addElement h

namespace IsFaithful

/-- Every node has the content of the blueprint of some reference. -/
theorem exists_blueprint (ha : a.IsFaithful m roots) (hz : a.graph.node? n = some z) :
    ∃ (x : Reference) (p : Blueprint) (ns : List NodeId), Blueprint.Drawn m n x p ∧
      z.id = x.id ∧ z.content = p.content ns ∧
      List.Forall₂ (a.Stands m fun _ => False) p.children ns := by
  obtain ⟨x, p, ns, hp, hid, hc, hns⟩ := ha.isFinished n z (fun h => h) hz
  exact ⟨x, p, ns, Reference.drawn hp, hid, hc, hns⟩

/-- The node of a package has the content of its record and shows its elements. -/
theorem package (ha : a.IsFaithful m roots) (hz : a.graph.node? n = some z)
    (ht : z.content.table? = some .packages) :
    ∃ p ns, m.packages.get? z.id = some p ∧ z.content = .package p.name ns p.comments ∧
      List.Forall₂ (a.Shows m) (p.elements.map .ofElement) ns := by
  obtain ⟨x, b, ns, hx, hid, hc, hns⟩ := ha.exists_blueprint hz
  rw [hc] at ht
  cases hx with
  | package hp =>
      refine ⟨_, ns, hid ▸ hp, hc, forall₂_shows hns fun y hy => ?_⟩
      obtain ⟨e, _, rfl⟩ := List.mem_map.mp hy
      exact Reference.table?_ofElement e
  | _ => cases ht

/-- The node of an import shows what the import names. -/
theorem elementImport (ha : a.IsFaithful m roots) (hz : a.graph.node? n = some z)
    (ht : z.content.table? = some .imports) :
    ∃ target, z.content = .elementImport target ∧
      List.Forall₂ (a.Shows m) ((m.imports.get? z.id).toList.map fun i => .ofId m i.idref)
        target.toList := by
  obtain ⟨x, b, ns, hx, hid, hc, hns⟩ := ha.exists_blueprint hz
  rw [hc] at ht
  cases hx with
  | elementImport id =>
      have hlen : ns.length ≤ 1 := by
        rw [← hns.length_eq, Blueprint.ofImport, List.length_map]
        exact Option.length_toList_le
      refine ⟨ns.head?, hc, ?_⟩
      rw [toList_head? hlen, hid]
      refine forall₂_shows hns fun y hy => ?_
      obtain ⟨i, _, rfl⟩ := List.mem_map.mp hy
      exact Reference.table?_ofId m i.idref
  | _ => cases ht

/-- The node of a class has the content of its record and shows its superclasses and its
properties. -/
theorem umlClass (ha : a.IsFaithful m roots) (hz : a.graph.node? n = some z)
    (ht : z.content.table? = some .classes) :
    ∃ c generals properties, m.classes.get? z.id = some c ∧
      z.content = .umlClass c.name c.isAbstract generals properties c.comments ∧
      List.Forall₂ (a.Shows m) (c.superClasses.map (.ofId m)) generals ∧
      List.Forall₂ (a.ShowsProperty m n) c.properties properties := by
  obtain ⟨x, b, ns, hx, hid, hc, hns⟩ := ha.exists_blueprint hz
  rw [hc] at ht
  cases hx with
  | @umlClass id c hclass =>
      have hlen : (c.superClasses.map (Reference.ofId m)).length = c.superClasses.length :=
        List.length_map _
      have hgenerals := List.forall₂_take c.superClasses.length hns
      have hproperties := List.forall₂_drop c.superClasses.length hns
      rw [← hlen] at hgenerals hproperties
      rw [Blueprint.ofClass, List.take_left] at hgenerals
      rw [Blueprint.ofClass, List.drop_left] at hproperties
      rw [hlen] at hgenerals hproperties
      refine ⟨c, _, _, hid ▸ hclass, hc, forall₂_shows hgenerals fun y hy => ?_, ?_⟩
      · obtain ⟨general, _, rfl⟩ := List.mem_map.mp hy
        exact Reference.table?_ofId m general
      · refine (List.forall₂_map_left_iff.mp hproperties).imp fun p k hk => ?_
        cases hk with
        | element hy _ => exact absurd rfl hy
        | property _ shows => exact shows
  | _ => cases ht

end IsFaithful
end Arena
end ObjectGraph
end UmlCatalog
