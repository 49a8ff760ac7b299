import Mathlib.Data.List.Nodup
import UmlCatalog.Proofs.ObjectGraph.Finished

/-!
# One node for each element

An object graph has at most one node of each kind for an identifier, and its tables lead to
exactly these nodes. A class has one node for each of its properties, in their order, and no
other node is a property of the class.
-/

namespace UmlCatalog
namespace ObjectGraph

/-- A node of a kind, with its identifier. -/
def IsEntity (g : ObjectGraph) (kind : Table) (id : ElementId) (n : NodeId) : Prop :=
  ∃ x, g.node? n = some x ∧ x.id = id ∧ x.content.table? = some kind

/-- A node that says what the record of a property says, in the given class. -/
def IsPropertyOf (g : ObjectGraph) (inClass : NodeId) (p : Property) (n : NodeId) : Prop :=
  ∃ x type, g.node? n = some x ∧ x.id = p.id ∧
    x.content = .property p.name inClass type p.lower p.upper p.association p.aggregation
      p.comments

theorem IsPropertyOf.inClass? {g : ObjectGraph} {n k : NodeId} {p : Property} {x : Node}
    (h : g.IsPropertyOf n p k) (hx : g.node? k = some x) : x.content.inClass? = some n := by
  obtain ⟨y, type, hy, _, hc⟩ := h
  obtain rfl := Option.some.inj (hx.symm.trans hy)
  rw [hc]
  rfl

namespace Arena
variable {m : Model} {a : Arena} {roots : List ElementId} {n : NodeId} {x : Node}

theorem ShowsProperty.isPropertyOf {p : Property} {k : NodeId} (h : a.ShowsProperty m n p k) :
    a.graph.IsPropertyOf n p k := by
  obtain ⟨z, type, hz, hid, hc, _⟩ := h
  exact ⟨z, type, hz, hid, hc⟩

/-- The nodes that a class lists as properties are those that name the class. -/
theorem IsFaithful.mem_properties_iff (ha : a.IsFaithful m roots) (hx : a.graph.node? n = some x)
    (ht : x.content.table? = some .classes) {k : NodeId} :
    k ∈ x.content.properties ↔ ∃ y, a.graph.node? k = some y ∧ y.content.inClass? = some n := by
  constructor
  · intro hk
    obtain ⟨c, generals, properties, _, hc, _, hproperties⟩ := ha.umlClass hx ht
    rw [hc] at hk
    obtain ⟨i, hi, rfl⟩ := List.getElem_of_mem hk
    have hlen : i < c.properties.length := hproperties.length_eq ▸ hi
    have hshow := (List.forall₂_iff_get.mp hproperties).2 i hlen hi
    obtain ⟨y, _, hy, _⟩ := hshow.isPropertyOf
    exact ⟨y, hy, hshow.isPropertyOf.inClass? hy⟩
  · rintro ⟨y, hy, hin⟩
    obtain ⟨x', hx', hcount⟩ := ha.isSettled.count_properties hy hin
    obtain rfl := Option.some.inj (hx.symm.trans hx')
    exact List.count_pos_iff.mp (hcount ▸ Nat.one_pos)

/-- No property of a class is listed twice. -/
theorem IsFaithful.nodup_properties (ha : a.IsFaithful m roots) (hx : a.graph.node? n = some x)
    (ht : x.content.table? = some .classes) : x.content.properties.Nodup := by
  rw [List.nodup_iff_count_le_one]
  intro k
  by_cases hk : k ∈ x.content.properties
  · obtain ⟨y, hy, hin⟩ := (ha.mem_properties_iff hx ht).mp hk
    obtain ⟨x', hx', hcount⟩ := ha.isSettled.count_properties hy hin
    obtain rfl := Option.some.inj (hx.symm.trans hx')
    exact Nat.le_of_eq hcount
  · rw [List.count_eq_zero_of_not_mem hk]
    exact Nat.zero_le 1

/-- Nodes of one kind differ in their identifiers. -/
theorem IsIndexed.eq_of_isEntity (ha : a.IsIndexed) {kind : Table} {id : ElementId} {k : NodeId}
    (hn : a.graph.IsEntity kind id n) (hk : a.graph.IsEntity kind id k) : n = k := by
  have hget := (ha kind id n).mpr hn
  rw [(ha kind id k).mpr hk] at hget
  exact (Option.some.inj hget).symm

end Arena

/-- An object graph has at most one node of a kind for an identifier. The node of a class has one
property node for each property of its record, in the same order, and no others belong to it. The
tables of packages, classes and gaps lead from an identifier to its node of that kind, and nowhere
if there is none. -/
theorem ofModel_has_one_node_per_entity (m : Model) :
    (∀ kind id n k, (ofModel m).IsEntity kind id n → (ofModel m).IsEntity kind id k → n = k) ∧
    (∀ n x, (ofModel m).node? n = some x → x.content.table? = some .classes →
      ∃ c, m.classes.get? x.id = some c ∧
        List.Forall₂ ((ofModel m).IsPropertyOf n) c.properties x.content.properties ∧
        x.content.properties.Nodup ∧
        ∀ k, k ∈ x.content.properties ↔
          ∃ y, (ofModel m).node? k = some y ∧ y.content.inClass? = some n) ∧
    ∀ id n,
      ((ofModel m).packages.get? id = some n ↔ (ofModel m).IsEntity .packages id n) ∧
      ((ofModel m).classes.get? id = some n ↔ (ofModel m).IsEntity .classes id n) ∧
      ((ofModel m).missing.get? id = some n ↔ (ofModel m).IsEntity .missing id n) := by
  obtain ⟨a, ha, he⟩ := Arena.exists_isFaithful m
  have hindexed := ha.isSettled.isIndexed
  rw [he]
  refine ⟨fun kind id n k hn hk => hindexed.eq_of_isEntity hn hk, fun n x hx ht => ?_,
    fun id n => ⟨hindexed .packages id n, hindexed .classes id n, hindexed .missing id n⟩⟩
  obtain ⟨c, generals, properties, hclass, hc, _, hproperties⟩ := ha.umlClass hx ht
  refine ⟨c, hclass, ?_, ha.nodup_properties hx ht, fun k => ha.mem_properties_iff hx ht⟩
  rw [hc]
  exact hproperties.imp fun _ _ hshow => hshow.isPropertyOf

end ObjectGraph
end UmlCatalog
