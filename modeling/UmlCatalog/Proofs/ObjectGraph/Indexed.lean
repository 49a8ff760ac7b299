import UmlCatalog.Proofs.ObjectGraph.Visit

/-!
# Tables and nodes

The tables hold exactly the nodes that have one, each under its own identifier. So an element
that has a node is always found again, and the tables lead to no node of another kind.
-/

namespace UmlCatalog
namespace ObjectGraph

/-- Every table maps an identifier to the node of that identifier and kind, if there is one. -/
def Arena.IsIndexed (a : Arena) : Prop :=
  ∀ t id n, (a.table t).get? id = some n ↔
    ∃ x, a.graph.node? n = some x ∧ x.id = id ∧ x.content.table? = some t

/-- A node is entered if its kind has a table. -/
def Arena.IsEntered (a : Arena) (n : NodeId) : Prop :=
  ∃ x, a.graph.node? n = some x ∧ x.content.table? ≠ none

theorem table?_content {m : Model} {node : NodeId} {x : Reference} {b : Blueprint}
    (hb : x.blueprint? m node = some b) (ns : List NodeId) :
    (b.content ns).table? = x.table? := by
  cases Reference.drawn hb <;> rfl

namespace Arena
variable {a b : Arena}

theorem isIndexed_start (m : Model) : (Arena.start m).IsIndexed := by
  intro t id n
  have hempty : ((Arena.start m).table t).get? id = none := by
    cases t <;> rfl
  have hnode : (Arena.start m).graph.node? n = none := rfl
  simp [hempty, hnode]

theorem IsIndexed.isEntered (ha : a.IsIndexed) {x : Reference} {n : NodeId}
    (hk : x.known? a = some n) : a.IsEntered n := by
  obtain ⟨t, _, hn⟩ := Option.bind_eq_some_iff.mp hk
  obtain ⟨y, hy, _, hyt⟩ := (ha t x.id n).mp hn
  exact ⟨y, hy, by rw [hyt]; exact Option.some_ne_none t⟩

/-- A change that keeps every identifier and kind keeps the tables right. -/
theorem IsIndexed.modifyNode (ha : a.IsIndexed) {n : NodeId} {f : Node → Node}
    (hf : ∀ x, a.graph.node? n = some x →
      (f x).id = x.id ∧ (f x).content.table? = x.content.table?) :
    (a.modifyNode n f).IsIndexed := by
  intro t id k
  rw [table_modifyNode, ha t id k, node?_modifyNode]
  constructor
  · rintro ⟨x, hx, hid, ht⟩
    rw [hx]
    refine ⟨_, rfl, ?_⟩
    split
    · rename_i hkn
      subst hkn
      obtain ⟨hfid, hft⟩ := hf x hx
      exact ⟨hfid.trans hid, hft.trans ht⟩
    · exact ⟨hid, ht⟩
  · rintro ⟨y, hy, hid, ht⟩
    obtain ⟨x, hx, rfl⟩ := Option.map_eq_some_iff.mp hy
    refine ⟨x, hx, ?_⟩
    split at hid
    · rename_i hkn
      subst hkn
      obtain ⟨hfid, hft⟩ := hf x hx
      rw [if_pos rfl] at ht
      exact ⟨hfid.symm.trans hid, hft.symm.trans ht⟩
    · rename_i hkn
      rw [if_neg hkn] at ht
      exact ⟨hid, ht⟩

theorem IsIndexed.refer (ha : a.IsIndexed) (n : NodeId) (r : Referrer) :
    (a.refer n r).IsIndexed :=
  ha.modifyNode fun _ _ => ⟨rfl, rfl⟩

/-- A node that is not there yet may be made. -/
theorem IsIndexed.create (ha : a.IsIndexed) {x : Reference} (hk : x.known? a = none)
    {content : NodeContent} (hc : content.table? = x.table?) (r : Referrer) :
    (a.create x.id r content).IsIndexed := by
  have hfresh : ∀ t n, x.table? = some t → (a.table t).get? x.id ≠ some n := by
    intro t n ht hn
    have hknown : x.known? a = some n := by
      unfold Reference.known?
      rw [ht]
      exact hn
    cases hk.symm.trans hknown
  intro t id n
  have hold : (a.table t).get? id = some n → n ≠ a.nextNode := by
    rintro hn rfl
    obtain ⟨y, hy, _⟩ := (ha t id _).mp hn
    rw [node?_nextNode] at hy
    cases hy
  rw [table_create, node?_create]
  by_cases hn : n = a.nextNode
  · rw [if_pos hn]
    constructor
    · intro hget
      split at hget
      · rename_i ht
        by_cases hid : id = x.id
        · exact ⟨_, rfl, hid.symm, ht⟩
        · rw [OrderedMap.get?_insert_of_ne _ _ hid] at hget
          exact absurd hn (hold hget)
      · exact absurd hn (hold hget)
    · rintro ⟨y, hy, rfl, ht⟩
      obtain rfl := Option.some.inj hy
      rw [if_pos ht, OrderedMap.get?_insert_self, hn]
  · rw [if_neg hn, ← ha t id n]
    split
    · rename_i ht
      by_cases hid : id = x.id
      · subst hid
        rw [OrderedMap.get?_insert_self]
        constructor
        · intro hget
          exact absurd (Option.some.inj hget).symm hn
        · intro hget
          exact absurd hget (hfresh t n (hc.symm.trans ht))
      · rw [OrderedMap.get?_insert_of_ne _ _ hid]
    · rfl

theorem IsIndexed.addElement (ha : a.IsIndexed) (n : NodeId) : (a.addElement n).IsIndexed := by
  intro t id k
  have hsame : (a.addElement n).table t = a.table t := by
    cases t <;> rfl
  rw [hsame]
  exact ha t id k

/-- An entered node stays entered while the arena grows. -/
theorem IsEntered.extends {n : NodeId} (hn : a.IsEntered n) (hba : b.Extends a) :
    b.IsEntered n := by
  obtain ⟨x, hx, ht⟩ := hn
  obtain ⟨y, hy, _, hc⟩ := hba n x hx
  exact ⟨y, hy, by rw [hc]; exact ht⟩

/-- Giving a node content of the same kind keeps every node entered. -/
theorem IsEntered.modifyContent {n k : NodeId} (hk : a.IsEntered k)
    {f : NodeContent → NodeContent}
    (hf : ∀ x, a.graph.node? n = some x → (f x.content).table? = x.content.table?) :
    (a.modifyContent n f).IsEntered k := by
  obtain ⟨x, hx, ht⟩ := hk
  refine ⟨_, by rw [node?_modifyContent, hx, Option.map_some], ?_⟩
  split
  · rename_i hkn
    subst hkn
    show (f x.content).table? ≠ none
    rw [hf x hx]
    exact ht
  · exact ht

end Arena

section Visits
variable {m : Model} {a b : Arena} {r : Referrer} {x : Reference} {p : Blueprint}
  {xs : List Reference} {ns : List NodeId}

/-- A node can be given its last content without leaving its table. -/
theorem Visits.table?_nextNode (hp : x.blueprint? m a.nextNode = some p)
    (h : Visits m (a.create x.id r (p.content [])) (.node a.nextNode) p.children b ns) :
    ∀ y, b.graph.node? a.nextNode = some y → (p.content ns).table? = y.content.table? := by
  intro y hy
  obtain ⟨z, hz, _, hc⟩ := h.node?_nextNode
  obtain rfl := Option.some.inj (hy.symm.trans hz)
  rw [hc, table?_content hp, table?_content hp]

/-- The tables stay right during a visit. -/
theorem Visits.isIndexed (h : Visits m a r xs b ns) (ha : a.IsIndexed) : b.IsIndexed := by
  induction h with
  | nil => exact ha
  | cons _ _ ih₁ ih₂ => exact ih₂ (ih₁ ha)
  | again _ => exact ha.refer _ _
  | make hk hp hchildren ih =>
      exact (ih (ha.create hk (table?_content hp []) _)).modifyNode fun y hy =>
        ⟨rfl, hchildren.table?_nextNode hp y hy⟩
  | unknown _ _ _ ih => exact ih ha

/-- Elements that have a table are entered once they are visited. -/
theorem Visits.isEntered (h : Visits m a r xs b ns) (ha : a.IsIndexed) :
    (∀ x ∈ xs, x.table? ≠ none) → ∀ n ∈ ns, b.IsEntered n := by
  induction h with
  | nil =>
      intro _ n hn
      cases hn
  | cons hhead htail ih₁ ih₂ =>
      intro hxs n hn
      obtain ⟨hx, hxs⟩ := List.forall_mem_cons.mp hxs
      rcases List.mem_cons.mp hn with rfl | hn
      · have hfirst := ih₁ ha (List.forall_mem_singleton.mpr hx)
        exact (hfirst n (List.mem_singleton_self n)).extends htail.extends
      · exact ih₂ (hhead.isIndexed ha) hxs n hn
  | @again a r x k hk =>
      intro _ n hn
      rw [List.mem_singleton.mp hn]
      exact (ha.isEntered hk).extends (Arena.extends_refer a k r)
  | @make a b r x p ns hk hp hchildren ih =>
      intro hxs n hn
      rw [List.mem_singleton.mp hn]
      obtain ⟨y, hy, _⟩ := hchildren.node?_nextNode
      refine ⟨_, by rw [Arena.node?_modifyContent, hy, Option.map_some, if_pos rfl], ?_⟩
      rw [table?_content hp]
      exact hxs x (List.mem_singleton_self x)
  | unknown _ _ _ ih =>
      intro _
      apply ih ha
      exact List.forall_mem_singleton.mpr (Option.some_ne_none _)

end Visits
end ObjectGraph
end UmlCatalog
