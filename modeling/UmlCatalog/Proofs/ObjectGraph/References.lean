import Mathlib.Data.List.Count
import UmlCatalog.Proofs.ObjectGraph.Indexed
import UmlCatalog.Proofs.ObjectGraph.Simulation

/-!
# References and edges

The references of a node are the reverse of the edges that lead to it, each as often as the
edge. A reference is recorded when a child is reached, the edge only when its parent is given
its content. Between the two the edge is pending, and every visit leaves the nodes that it
found pending for whoever asked.
-/

namespace UmlCatalog

namespace NodeContent

/-- The children that are reached by what they are, as opposed to the place of a property. -/
def links : NodeContent → List NodeId
  | package _ elements _ => elements
  | umlClass _ _ generalizations _ _ => generalizations
  | elementImport target => target.toList
  | property _ _ type _ _ _ _ _ => type.toList
  | enumeration .. => []
  | datatype .. => []
  | missing => []

/-- The properties that a class lists. -/
def properties : NodeContent → List NodeId
  | umlClass _ _ _ properties _ => properties
  | _ => []

/-- The child edges: the elements of a package, the generalizations and properties of a class,
the type of a property and the target of an import. -/
def children (c : NodeContent) : List NodeId := c.links ++ c.properties

/-- The class of a property. -/
def inClass? : NodeContent → Option NodeId
  | property _ inClass _ _ _ _ _ _ => some inClass
  | _ => none

/-- Every node that is mentioned. -/
def nodeIds (c : NodeContent) : List NodeId := c.inClass?.toList ++ c.children

theorem table?_of_inClass? {c : NodeContent} {k : NodeId} (h : c.inClass? = some k) :
    c.table? = none := by
  cases c <;> first | rfl | cases h

end NodeContent

/-- The node that refers, if it is one. -/
def Referrer.node? : Referrer → Option NodeId
  | graph => none
  | node n => some n

namespace ObjectGraph

/-- Every node that is mentioned anywhere in a graph. -/
def nodeIds (g : ObjectGraph) : List NodeId :=
  g.elements ++
    (g.nodes.flatMap fun x => x.references.filterMap Referrer.node? ++ x.content.nodeIds) ++
    g.packages.values ++ g.classes.values ++ g.missing.values

/-- What refers to a node. -/
def references (g : ObjectGraph) (n : NodeId) : List Referrer :=
  (g.node? n).elim [] Node.references

/-- What a referrer has edges to. -/
def targets (g : ObjectGraph) : Referrer → List NodeId
  | .graph => g.elements
  | .node n => (g.node? n).elim [] fun x => x.content.children

theorem references_eq {g : ObjectGraph} {n : NodeId} {x : Node} (h : g.node? n = some x) :
    g.references n = x.references := by
  rw [references, h]
  rfl

theorem targets_node_eq {g : ObjectGraph} {n : NodeId} {x : Node} (h : g.node? n = some x) :
    g.targets (.node n) = x.content.children := by
  show (g.node? n).elim [] (fun x => x.content.children) = _
  rw [h]
  rfl

theorem exists_of_mem_references {g : ObjectGraph} {n : NodeId} {r : Referrer}
    (h : r ∈ g.references n) : ∃ x, g.node? n = some x ∧ r ∈ x.references := by
  unfold references at h
  cases hx : g.node? n with
  | none =>
      rw [hx] at h
      cases h
  | some x =>
      rw [hx] at h
      exact ⟨x, rfl, h⟩

theorem exists_of_mem_targets {g : ObjectGraph} {n k : NodeId} (h : k ∈ g.targets (.node n)) :
    ∃ x, g.node? n = some x ∧ k ∈ x.content.children := by
  have hk : k ∈ (g.node? n).elim [] fun x => x.content.children := h
  cases hx : g.node? n with
  | none =>
      rw [hx] at hk
      cases hk
  | some x =>
      rw [hx] at hk
      exact ⟨x, rfl, hk⟩

namespace Arena
variable (a : Arena)

/-- A new reference is one more. -/
theorem count_references_refer {n : NodeId} {x : Node} (hn : a.graph.node? n = some x)
    (s r : Referrer) (k : NodeId) :
    ((a.refer n s).graph.references k).count r =
      (a.graph.references k).count r + [(s, n)].count (r, k) := by
  unfold references
  rw [node?_refer]
  by_cases hk : k = n
  · subst hk
    simp [hn, List.count_append, List.count_singleton, Prod.ext_iff, beq_iff_eq]
  · have hne : ¬ n = k := fun h => hk h.symm
    cases a.graph.node? k with
    | none => simp [hne]
    | some y => simp [hk, hne]

/-- A new node has its first reference. -/
theorem count_references_create (id : ElementId) (s : Referrer) (content : NodeContent)
    (r : Referrer) (k : NodeId) :
    ((a.create id s content).graph.references k).count r =
      (a.graph.references k).count r + [(s, a.nextNode)].count (r, k) := by
  unfold references
  rw [node?_create]
  by_cases hk : k = a.nextNode
  · subst hk
    simp [node?_nextNode, List.count_singleton, Prod.ext_iff, beq_iff_eq]
  · have hne : ¬ a.nextNode = k := fun h => hk h.symm
    simp [hk, hne]

@[simp] theorem references_modifyContent (n : NodeId) (f : NodeContent → NodeContent)
    (k : NodeId) : (a.modifyContent n f).graph.references k = a.graph.references k := by
  unfold references
  rw [node?_modifyContent]
  cases a.graph.node? k with
  | none => rfl
  | some y =>
      show Node.references (if k = n then _ else y) = y.references
      split <;> rfl

@[simp] theorem targets_refer (n : NodeId) (s r : Referrer) :
    (a.refer n s).graph.targets r = a.graph.targets r := by
  cases r with
  | graph => rfl
  | node k =>
      unfold targets
      simp only [node?_refer]
      cases a.graph.node? k with
      | none => rfl
      | some y =>
          show NodeContent.children (Node.content (if k = n then _ else y)) = y.content.children
          split <;> rfl

/-- A new node has no edges yet. -/
theorem targets_create (id : ElementId) (s : Referrer) {content : NodeContent}
    (hc : content.children = []) (r : Referrer) :
    (a.create id s content).graph.targets r = a.graph.targets r := by
  cases r with
  | graph => exact elements_create a id s content
  | node k =>
      unfold targets
      simp only [node?_create]
      by_cases hk : k = a.nextNode
      · subst hk
        simp [node?_nextNode, hc]
      · simp [hk]

/-- New content gives a node its edges. -/
theorem targets_modifyContent {n : NodeId} {x : Node} (hn : a.graph.node? n = some x)
    (f : NodeContent → NodeContent) (r : Referrer) :
    (a.modifyContent n f).graph.targets r =
      if r = .node n then (f x.content).children else a.graph.targets r := by
  cases r with
  | graph => rfl
  | node k =>
      unfold targets
      simp only [node?_modifyContent, Referrer.node.injEq]
      by_cases hk : k = n
      · subst hk
        simp [hn]
      · cases a.graph.node? k with
        | none => simp [hk]
        | some y => simp [hk]

/-- Each referrer occurs among the references of a node as often as it has edges to the node,
those that are pending included. -/
def IsBalanced (a : Arena) (pending : List (Referrer × NodeId)) : Prop :=
  ∀ r k, (a.graph.references k).count r = (a.graph.targets r).count k + pending.count (r, k)

variable {a} {pending : List (Referrer × NodeId)}

theorem isBalanced_start (m : Model) : (Arena.start m).IsBalanced [] := by
  intro r k
  cases r <;> rfl

theorem IsBalanced.refer (ha : a.IsBalanced pending) {n : NodeId} {x : Node}
    (hn : a.graph.node? n = some x) (s : Referrer) :
    (a.refer n s).IsBalanced (pending ++ [(s, n)]) := by
  intro r k
  calc ((a.refer n s).graph.references k).count r
      = (a.graph.references k).count r + [(s, n)].count (r, k) :=
        count_references_refer a hn s r k
    _ = (a.graph.targets r).count k + (pending.count (r, k) + [(s, n)].count (r, k)) := by
        rw [ha r k, Nat.add_assoc]
    _ = ((a.refer n s).graph.targets r).count k + (pending ++ [(s, n)]).count (r, k) := by
        rw [targets_refer, List.count_append]

theorem IsBalanced.create (ha : a.IsBalanced pending) (id : ElementId) (s : Referrer)
    {content : NodeContent} (hc : content.children = []) :
    (a.create id s content).IsBalanced (pending ++ [(s, a.nextNode)]) := by
  intro r k
  calc ((a.create id s content).graph.references k).count r
      = (a.graph.references k).count r + [(s, a.nextNode)].count (r, k) :=
        count_references_create a id s content r k
    _ = (a.graph.targets r).count k + (pending.count (r, k) + [(s, a.nextNode)].count (r, k)) := by
        rw [ha r k, Nat.add_assoc]
    _ = ((a.create id s content).graph.targets r).count k +
        (pending ++ [(s, a.nextNode)]).count (r, k) := by
        rw [targets_create a id s hc, List.count_append]

/-- A node without edges can be given those that are pending for it. -/
theorem IsBalanced.modifyContent {n : NodeId} {ns : List NodeId}
    (ha : a.IsBalanced (pending ++ ns.map (Referrer.node n, ·))) {x : Node}
    (hn : a.graph.node? n = some x) (hx : x.content.children = [])
    {f : NodeContent → NodeContent} (hf : (f x.content).children = ns) :
    (a.modifyContent n f).IsBalanced pending := by
  intro r k
  have hinj : Function.Injective ((Referrer.node n, ·) : NodeId → Referrer × NodeId) :=
    fun _ _ h => (Prod.ext_iff.mp h).2
  rw [references_modifyContent, ha r k, targets_modifyContent a hn, hf, List.count_append]
  by_cases hr : r = .node n
  · subst hr
    have hnone : a.graph.targets (.node n) = [] := by
      unfold targets
      simp [hn, hx]
    rw [if_pos rfl, hnone, List.count_map_of_injective _ _ hinj, List.count_nil, Nat.zero_add,
      Nat.add_comm]
  · have hother : (ns.map (Referrer.node n, ·)).count (r, k) = 0 := by
      refine List.count_eq_zero_of_not_mem fun hmem => ?_
      obtain ⟨_, _, he⟩ := List.mem_map.mp hmem
      exact hr (Prod.ext_iff.mp he).1.symm
    rw [if_neg hr, hother, Nat.add_zero]

/-- Listing a top-level package settles what is pending for the graph. -/
theorem IsBalanced.addElement {n : NodeId} (ha : a.IsBalanced [(.graph, n)]) :
    (a.addElement n).IsBalanced [] := by
  intro r k
  have hsame : (a.addElement n).graph.references k = a.graph.references k := rfl
  rw [hsame, ha r k, List.count_nil, Nat.add_zero]
  cases r with
  | graph =>
      show a.graph.elements.count k + _ = (a.graph.elements ++ [n]).count k
      rw [List.count_append]
      congr 1
  | node j =>
      have hzero : [(Referrer.graph, n)].count (Referrer.node j, k) = 0 := by
        simp [Prod.ext_iff]
      rw [hzero]
      rfl

end Arena

section Blueprint
variable {m : Model} {node : NodeId} {x : Reference} {b : Blueprint}

/-- The class that a property is resolved for. -/
def Reference.inClass? : Reference → Option NodeId
  | property _ inClass => some inClass
  | _ => none

theorem Reference.Fits.eq_node {r : Referrer} (hr : x.Fits r) {c : NodeId}
    (hx : x.inClass? = some c) : r = .node c := by
  cases x with
  | property p inClass =>
      obtain rfl := Option.some.inj hx
      exact hr
  | _ => cases hx

theorem inClass?_content (hb : x.blueprint? m node = some b) (ns : List NodeId) :
    (b.content ns).inClass? = x.inClass? := by
  cases Reference.drawn hb <;> rfl

theorem children_content_nil (hb : x.blueprint? m node = some b) :
    (b.content []).children = [] := by
  cases Reference.drawn hb with
  | umlClass _ =>
      rw [Blueprint.ofClass_content_nil]
      rfl
  | _ => rfl

theorem toList_head? {α : Type} {l : List α} (h : l.length ≤ 1) : l.head?.toList = l := by
  cases l with
  | nil => rfl
  | cons a rest =>
      obtain rfl := List.eq_nil_of_length_eq_zero (Nat.le_zero.mp (Nat.le_of_succ_le_succ h))
      rfl

/-- The content of a node lists the nodes of its children. -/
theorem children_content (hb : x.blueprint? m node = some b) {ns : List NodeId}
    (hlen : ns.length = b.children.length) : (b.content ns).children = ns := by
  cases Reference.drawn hb with
  | package _ => exact List.append_nil ns
  | @umlClass id c _ => exact List.take_append_drop c.superClasses.length ns
  | elementImport id =>
      show ns.head?.toList ++ [] = ns
      rw [List.append_nil, toList_head?]
      rw [hlen, Blueprint.ofImport, List.length_map]
      exact Option.length_toList_le
  | property p inClass =>
      show ns.head?.toList ++ [] = ns
      rw [List.append_nil, toList_head?]
      rw [hlen, Blueprint.ofProperty, List.length_map]
      exact Option.length_toList_le
  | _ => exact (List.eq_nil_of_length_eq_zero hlen).symm

end Blueprint

section Visits
variable {m : Model} {a b : Arena} {r : Referrer} {xs : List Reference} {ns : List NodeId}

/-- A visit leaves the nodes that it found pending. -/
theorem Visits.isBalanced (h : Visits m a r xs b ns) (ha : a.IsIndexed) :
    ∀ {pending}, a.IsBalanced pending → b.IsBalanced (pending ++ ns.map (r, ·)) := by
  induction h with
  | nil =>
      intro pending hp
      rw [List.map_nil, List.append_nil]
      exact hp
  | cons hhead _ ih₁ ih₂ =>
      intro pending hp
      have hboth := ih₂ (hhead.isIndexed ha) (ih₁ ha hp)
      rw [List.append_assoc] at hboth
      exact hboth
  | again hk =>
      intro pending hp
      obtain ⟨y, hy, _⟩ := ha.isEntered hk
      exact hp.refer hy _
  | make hk hp hchildren ih =>
      intro pending hpending
      obtain ⟨y, hy, _, hc⟩ := hchildren.node?_nextNode
      have hnone := children_content_nil hp
      have hall := ih (ha.create hk (table?_content hp []) _) (hpending.create _ _ hnone)
      refine hall.modifyContent hy ?_ (children_content hp hchildren.length_eq)
      rw [hc]
      exact hnone
  | unknown _ _ _ ih => exact ih ha

/-- The links of a new node lead to entered nodes once its children are visited. -/
theorem Visits.isEntered_links {node : NodeId} {x : Reference} {p : Blueprint}
    (h : Visits m a r p.children b ns) (hp : x.blueprint? m node = some p) (ha : a.IsIndexed) :
    ∀ k ∈ (p.content ns).links, b.IsEntered k := by
  intro k hk
  cases Reference.drawn hp with
  | package _ =>
      refine h.isEntered ha (fun y hy => ?_) k hk
      obtain ⟨e, _, rfl⟩ := List.mem_map.mp hy
      exact Reference.table?_ofElement e
  | @umlClass id c _ =>
      obtain ⟨d, ms, rest, hms, hrest, rfl⟩ := h.append_inv
      have hlen : ms.length = c.superClasses.length := by
        rw [hms.length_eq, List.length_map]
      have hmem : k ∈ ms := by
        have htake : k ∈ (ms ++ rest).take c.superClasses.length := hk
        rwa [← hlen, List.take_left] at htake
      refine (hms.isEntered ha (fun y hy => ?_) k hmem).extends hrest.extends
      obtain ⟨general, _, rfl⟩ := List.mem_map.mp hy
      exact Reference.table?_ofId m general
  | elementImport id =>
      refine h.isEntered ha (fun y hy => ?_) k
        (List.mem_of_mem_head? (Option.mem_toList.mp hk))
      obtain ⟨i, _, rfl⟩ := List.mem_map.mp hy
      exact Reference.table?_ofId m i.idref
  | property q inClass =>
      refine h.isEntered ha (fun y hy => ?_) k
        (List.mem_of_mem_head? (Option.mem_toList.mp hk))
      obtain ⟨t, _, rfl⟩ := List.mem_map.mp hy
      exact Reference.table?_ofTarget m t
  | enumeration _ => cases hk
  | datatype _ => cases hk
  | external designator => cases hk
  | missing id => cases hk

end Visits

namespace Arena

/-- Links lead to nodes that have a table, so never to a property. -/
def LinksEntered (a : Arena) : Prop :=
  ∀ n x, a.graph.node? n = some x → ∀ k ∈ x.content.links, a.IsEntered k

/-- A property is referred to by its own class, once. -/
def PropertiesOwned (a : Arena) : Prop :=
  ∀ n x c, a.graph.node? n = some x → x.content.inClass? = some c → x.references = [.node c]

end Arena

section Visits
variable {m : Model} {a b : Arena} {r : Referrer} {xs : List Reference} {ns : List NodeId}

theorem Visits.linksEntered (h : Visits m a r xs b ns) (ha : a.IsIndexed)
    (hl : a.LinksEntered) : b.LinksEntered := by
  induction h with
  | nil => exact hl
  | cons hhead _ ih₁ ih₂ => exact ih₂ (hhead.isIndexed ha) (ih₁ ha hl)
  | @again a r x n hk =>
      intro k z hz j hj
      obtain ⟨y, hy, hc, _⟩ := Arena.of_node?_refer hz
      rw [hc] at hj
      exact (hl k y hy j hj).extends (Arena.extends_refer a n r)
  | @make a b r x p ns hk hp hchildren ih =>
      have hcreated := ha.create hk (table?_content hp []) r
      have hnew : (p.content []).links = [] :=
        (List.append_eq_nil_iff.mp (children_content_nil hp)).1
      have hb := ih hcreated fun k z hz j hj => by
        rw [Arena.node?_create] at hz
        split at hz
        · obtain rfl := Option.some.inj hz
          rw [hnew] at hj
          cases hj
        · exact (hl k z hz j hj).extends (Arena.extends_create _ _ _ _)
      have hentered : ∀ {j}, b.IsEntered j →
          (b.modifyContent a.nextNode fun _ => p.content ns).IsEntered j := fun hj =>
        hj.modifyContent (hchildren.table?_nextNode hp)
      intro k z hz j hj
      obtain ⟨y, hy, _, hc⟩ := Arena.of_node?_modifyContent hz
      rw [hc] at hj
      split at hj
      · exact hentered (hchildren.isEntered_links hp hcreated j hj)
      · exact hentered (hb k y hy j hj)
  | unknown _ _ _ ih => exact ih ha hl

theorem Visits.propertiesOwned (h : Visits m a r xs b ns) (ha : a.IsIndexed) :
    (∀ x ∈ xs, x.Fits r) → a.PropertiesOwned → b.PropertiesOwned := by
  induction h with
  | nil =>
      intro _ ho
      exact ho
  | cons hhead _ ih₁ ih₂ =>
      intro hfit ho
      obtain ⟨hx, hxs⟩ := List.forall_mem_cons.mp hfit
      apply ih₂ (hhead.isIndexed ha) hxs
      exact ih₁ ha (List.forall_mem_singleton.mpr hx) ho
  | @again a r x n hk =>
      intro _ ho k z c hz hzc
      obtain ⟨y, hy, hc, href⟩ := Arena.of_node?_refer hz
      rw [hc] at hzc
      have hne : k ≠ n := by
        rintro rfl
        obtain ⟨y', hy', ht⟩ := ha.isEntered hk
        obtain rfl := Option.some.inj (hy.symm.trans hy')
        exact ht (NodeContent.table?_of_inClass? hzc)
      rw [href hne]
      exact ho k y c hy hzc
  | @make a b r x p ns hk hp hchildren ih =>
      intro hfit ho
      have hb := ih (ha.create hk (table?_content hp []) r) (Reference.fits_children hp)
        fun k z c hz hzc => by
          rw [Arena.node?_create] at hz
          split at hz
          · obtain rfl := Option.some.inj hz
            have hx := (inClass?_content hp []).symm.trans hzc
            rw [(List.forall_mem_singleton.mp hfit).eq_node hx]
          · exact ho k z c hz hzc
      intro k z c hz hzc
      obtain ⟨y, hy, href, hc⟩ := Arena.of_node?_modifyContent hz
      rw [href]
      refine hb k y c hy ?_
      rw [hc] at hzc
      split at hzc
      · rename_i hkn
        subst hkn
        obtain ⟨y', hy', _, hc'⟩ := hchildren.node?_nextNode
        obtain rfl := Option.some.inj (hy.symm.trans hy')
        rw [hc', inClass?_content hp, ← inClass?_content hp ns]
        exact hzc
      · exact hzc
  | unknown _ _ _ ih =>
      intro _ ho
      exact ih ha (List.forall_mem_singleton.mpr trivial) ho

end Visits

namespace Arena
variable {a : Arena}

/-- An arena in which no visit is under way. -/
structure IsSettled (a : Arena) : Prop where
  isIndexed : a.IsIndexed
  isBalanced : a.IsBalanced []
  linksEntered : a.LinksEntered
  propertiesOwned : a.PropertiesOwned

theorem isSettled_start (m : Model) : (Arena.start m).IsSettled := by
  have hnone : ∀ n, (Arena.start m).graph.node? n = none := fun _ => rfl
  refine ⟨isIndexed_start m, isBalanced_start m, fun n x hx => ?_, fun n x c hx => ?_⟩
  · cases (hnone n).symm.trans hx
  · cases (hnone n).symm.trans hx

/-- A top-level package leaves nothing pending once it is listed. -/
theorem IsSettled.addElement {m : Model} {b : Arena} {id : ElementId} {n : NodeId}
    (ha : a.IsSettled) (h : Visits m a .graph [.package id] b [n]) :
    (b.addElement n).IsSettled where
  isIndexed := (h.isIndexed ha.isIndexed).addElement n
  isBalanced := (h.isBalanced ha.isIndexed ha.isBalanced).addElement
  linksEntered := h.linksEntered ha.isIndexed ha.linksEntered
  propertiesOwned :=
    h.propertiesOwned ha.isIndexed (List.forall_mem_singleton.mpr trivial) ha.propertiesOwned

theorem exists_isSettled (m : Model) : ∃ a : Arena, a.IsSettled ∧ ofModel m = a.graph :=
  ofModel_induction (P := fun _ a => a.IsSettled) (isSettled_start m)
    fun _ _ _ _ _ ha h => ha.addElement h

namespace IsSettled
variable {r : Referrer} {n k c : NodeId} {x : Node}

/-- The references of a node count the edges to it. -/
theorem count_references (ha : a.IsSettled) (r : Referrer) (k : NodeId) :
    (a.graph.references k).count r = (a.graph.targets r).count k := by
  have hcount := ha.isBalanced r k
  rwa [List.count_nil, Nat.add_zero] at hcount

/-- A referrer has an edge exactly to the nodes that it refers to. -/
theorem mem_references_iff (ha : a.IsSettled) :
    r ∈ a.graph.references k ↔ k ∈ a.graph.targets r := by
  rw [← List.count_pos_iff, ← List.count_pos_iff, ha.count_references r k]

/-- Whatever is mentioned is a node. -/
theorem lt_of_mem_nodeIds (ha : a.IsSettled) (hn : n ∈ a.graph.nodeIds) :
    n < a.graph.nodes.length := by
  have htable : ∀ t, n ∈ (a.table t).values → n < a.graph.nodes.length := by
    intro t ht
    obtain ⟨id, hid⟩ := OrderedMap.exists_get?_of_mem_values ht
    obtain ⟨x, hx, _⟩ := (ha.isIndexed t id n).mp hid
    exact lt_nextNode hx
  have htarget : ∀ r, n ∈ a.graph.targets r → n < a.graph.nodes.length := by
    intro r hr
    obtain ⟨y, hy, _⟩ := ObjectGraph.exists_of_mem_references (ha.mem_references_iff.mpr hr)
    exact lt_nextNode hy
  have hrefer : ∀ k x, a.graph.node? k = some x → .node n ∈ x.references →
      n < a.graph.nodes.length := by
    intro k x hx hr
    rw [← references_eq hx] at hr
    obtain ⟨y, hy, _⟩ := exists_of_mem_targets (ha.mem_references_iff.mp hr)
    exact lt_nextNode hy
  unfold nodeIds at hn
  simp only [List.mem_append, List.mem_flatMap, or_assoc] at hn
  rcases hn with helement | ⟨x, hx, hmention⟩ | hpackage | hclass | hmissing
  · exact htarget .graph helement
  · obtain ⟨k, hk⟩ := List.mem_iff_getElem?.mp hx
    rcases hmention with hr | hcontent
    · obtain ⟨s, hs, hsn⟩ := List.mem_filterMap.mp hr
      cases s with
      | graph => cases hsn
      | node j =>
          obtain rfl := Option.some.inj hsn
          exact hrefer k x hk hs
    · rcases List.mem_append.mp hcontent with hclass | hchild
      · refine hrefer k x hk ?_
        rw [ha.propertiesOwned k x n hk (Option.mem_toList.mp hclass)]
        exact List.mem_singleton_self _
      · refine htarget (.node k) ?_
        rw [targets_node_eq hk]
        exact hchild
  · exact htable .packages hpackage
  · exact htable .classes hclass
  · exact htable .missing hmissing

/-- The class of a property lists it once. -/
theorem count_properties (ha : a.IsSettled) (hn : a.graph.node? n = some x)
    (hc : x.content.inClass? = some c) :
    ∃ y, a.graph.node? c = some y ∧ y.content.properties.count n = 1 := by
  have howned := ha.propertiesOwned n x c hn hc
  have hcount := ha.count_references (.node c) n
  rw [references_eq hn, howned, List.count_singleton_self] at hcount
  obtain ⟨y, hy, _⟩ : ∃ y, a.graph.node? c = some y ∧ n ∈ y.content.children :=
    exists_of_mem_targets (List.count_pos_iff.mp (hcount ▸ Nat.one_pos))
  have hlinks : y.content.links.count n = 0 := by
    refine List.count_eq_zero_of_not_mem fun hmem => ?_
    obtain ⟨x', hx', ht⟩ := ha.linksEntered c y hy n hmem
    obtain rfl := Option.some.inj (hn.symm.trans hx')
    exact ht (NodeContent.table?_of_inClass? hc)
  rw [targets_node_eq hy, NodeContent.children, List.count_append, hlinks, Nat.zero_add] at hcount
  exact ⟨y, hy, hcount.symm⟩

/-- No other class lists it. -/
theorem eq_inClass (ha : a.IsSettled) (hn : a.graph.node? n = some x)
    (hc : x.content.inClass? = some c) {y : Node} (hk : a.graph.node? k = some y)
    (hmem : n ∈ y.content.properties) : k = c := by
  have hr : Referrer.node k ∈ a.graph.references n := by
    rw [ha.mem_references_iff, targets_node_eq hk]
    exact List.mem_append_right y.content.links hmem
  rw [references_eq hn, ha.propertiesOwned n x c hn hc] at hr
  exact Referrer.node.inj (List.mem_singleton.mp hr)

end IsSettled
end Arena

/-- References are the reverse of the child edges. A node refers to another as often as it has
it as a child, and the graph as often as it lists it. Whatever is mentioned is a node, and the
class that a property names is the one that lists it. -/
theorem references_eq_reverse_edges (m : Model) :
    (∀ a b x y, (ofModel m).node? a = some x → (ofModel m).node? b = some y →
      y.references.count (.node a) = x.content.children.count b) ∧
    (∀ b y, (ofModel m).node? b = some y →
      y.references.count .graph = (ofModel m).elements.count b) ∧
    (∀ n ∈ (ofModel m).nodeIds, n < (ofModel m).nodes.length) ∧
    ∀ n x c, (ofModel m).node? n = some x → x.content.inClass? = some c →
      (∃ y, (ofModel m).node? c = some y ∧ y.content.properties.count n = 1) ∧
        ∀ d y, (ofModel m).node? d = some y → n ∈ y.content.properties → d = c := by
  obtain ⟨g, hg, he⟩ := Arena.exists_isSettled m
  rw [he]
  refine ⟨fun a b x y hx hy => ?_, fun b y hy => ?_, fun n hn => hg.lt_of_mem_nodeIds hn,
    fun n x c hx hc => ⟨hg.count_properties hx hc, fun d y hy => hg.eq_inClass hx hc hy⟩⟩
  · rw [← references_eq hy, hg.count_references, targets_node_eq hx]
  · rw [← references_eq hy, hg.count_references]
    rfl

end ObjectGraph
end UmlCatalog
