import UmlCatalog.Model.Basic
import UmlCatalog.ObjectGraph.Basic

/-!
# Object graphs in the making

A graph being built is an arena: nodes are made at its end and never removed, and tables tell
which node stands for an identifier. Four operations change an arena. A node is made, found
again, given its content, or entered in the table of its kind.
-/

namespace UmlCatalog

/-- The tables in which nodes are found again by identifier. Declared and external datatypes
share one. -/
inductive ObjectGraph.Table where
  | packages
  | enums
  | datatypes
  | classes
  | imports
  | missing
  deriving DecidableEq

/-- The table of a node. Properties are in none, because only their class leads to them. -/
def NodeContent.table? : NodeContent → Option ObjectGraph.Table
  | .package .. => some .packages
  | .enumeration .. => some .enums
  | .datatype .. => some .datatypes
  | .umlClass .. => some .classes
  | .elementImport _ => some .imports
  | .property .. => none
  | .missing => some .missing

namespace ObjectGraph

/-- A graph being built, with the nodes made so far by kind. -/
structure Arena where
  graph : ObjectGraph
  enums : OrderedMap ElementId NodeId
  datatypes : OrderedMap ElementId NodeId
  imports : OrderedMap ElementId NodeId
  deriving Inhabited

namespace Arena

/-- The graph of a model before any element is reached. -/
def start (m : Model) : Arena where
  graph := ⟨m.id, m.name, m.source, [], [], ∅, ∅, ∅⟩
  enums := ∅
  datatypes := ∅
  imports := ∅

/-- The nodes of one table, by identifier. -/
def table (a : Arena) : Table → OrderedMap ElementId NodeId
  | .packages => a.graph.packages
  | .enums => a.enums
  | .datatypes => a.datatypes
  | .classes => a.graph.classes
  | .imports => a.imports
  | .missing => a.graph.missing

/-- The place of the next node. -/
def nextNode (a : Arena) : NodeId := a.graph.nodes.length

/-- Make a node with its first reference. -/
def addNode (a : Arena) (id : ElementId) (referrer : Referrer) (content : NodeContent) : Arena :=
  { a with graph := { a.graph with nodes := a.graph.nodes ++ [⟨id, [referrer], content⟩] } }

/-- Enter a node in a table. -/
def enter (a : Arena) (t : Table) (id : ElementId) (node : NodeId) : Arena :=
  match t with
  | .packages => { a with graph := { a.graph with packages := a.graph.packages.insert id node } }
  | .enums => { a with enums := a.enums.insert id node }
  | .datatypes => { a with datatypes := a.datatypes.insert id node }
  | .classes => { a with graph := { a.graph with classes := a.graph.classes.insert id node } }
  | .imports => { a with imports := a.imports.insert id node }
  | .missing => { a with graph := { a.graph with missing := a.graph.missing.insert id node } }

/-- Make a node that is found again, if its kind has a table. -/
def create (a : Arena) (id : ElementId) (referrer : Referrer) (content : NodeContent) : Arena :=
  match content.table? with
  | some t => (a.addNode id referrer content).enter t id a.nextNode
  | none => a.addNode id referrer content

/-- Change a node; without the node nothing changes. -/
def modifyNode (a : Arena) (node : NodeId) (f : Node → Node) : Arena :=
  { a with graph := { a.graph with nodes := a.graph.nodes.modify node f } }

/-- Record a further reference to a node. -/
def refer (a : Arena) (node : NodeId) (referrer : Referrer) : Arena :=
  a.modifyNode node fun n => { n with references := n.references ++ [referrer] }

/-- Change the content of a node. -/
def modifyContent (a : Arena) (node : NodeId) (f : NodeContent → NodeContent) : Arena :=
  a.modifyNode node fun n => { n with content := f n.content }

/-- List a node as a top-level package. -/
def addElement (a : Arena) (node : NodeId) : Arena :=
  { a with graph := { a.graph with elements := a.graph.elements ++ [node] } }

@[simp] theorem table_modifyNode (a : Arena) (node : NodeId) (f : Node → Node) (t : Table) :
    (a.modifyNode node f).table t = a.table t := by
  cases t <;> rfl

@[simp] theorem table_modifyContent (a : Arena) (node : NodeId) (f : NodeContent → NodeContent)
    (t : Table) : (a.modifyContent node f).table t = a.table t :=
  table_modifyNode _ _ _ _

@[simp] theorem table_addNode (a : Arena) (id : ElementId) (referrer : Referrer)
    (content : NodeContent) (t : Table) : (a.addNode id referrer content).table t = a.table t := by
  cases t <;> rfl

theorem table_enter (a : Arena) (t : Table) (id : ElementId) (node : NodeId) (t' : Table) :
    (a.enter t id node).table t' = if t' = t then (a.table t).insert id node else a.table t' := by
  cases t <;> cases t' <;> rfl

/-- A new node is entered in the table of its kind and in no other. -/
theorem table_create (a : Arena) (id : ElementId) (referrer : Referrer) (content : NodeContent)
    (t : Table) :
    (a.create id referrer content).table t =
      if content.table? = some t then (a.table t).insert id a.nextNode else a.table t := by
  unfold create
  cases hc : content.table? with
  | none => simp
  | some t' =>
      simp only [table_enter, table_addNode, Option.some.injEq]
      by_cases ht : t = t'
      · subst ht
        simp
      · have ht' : ¬ t' = t := fun h => ht h.symm
        simp [ht, ht']

@[simp] theorem nodes_enter (a : Arena) (t : Table) (id : ElementId) (node : NodeId) :
    (a.enter t id node).graph.nodes = a.graph.nodes := by
  cases t <;> rfl

/-- A new node is the last one. -/
@[simp] theorem nodes_create (a : Arena) (id : ElementId) (referrer : Referrer)
    (content : NodeContent) :
    (a.create id referrer content).graph.nodes =
      a.graph.nodes ++ [⟨id, [referrer], content⟩] := by
  unfold create
  cases content.table? with
  | none => rfl
  | some t => simp [addNode]

/-- The nodes after one of them changed. -/
theorem node?_modifyNode (a : Arena) (node : NodeId) (f : Node → Node) (k : NodeId) :
    (a.modifyNode node f).graph.node? k =
      (a.graph.node? k).map fun x => if k = node then f x else x := by
  show (a.graph.nodes.modify node f)[k]? = _
  rw [List.getElem?_modify]
  by_cases hk : node = k
  · simp [hk, node?]
  · have hk' : ¬ k = node := fun h => hk h.symm
    simp [hk, hk', node?]

theorem node?_refer (a : Arena) (node : NodeId) (referrer : Referrer) (k : NodeId) :
    (a.refer node referrer).graph.node? k = (a.graph.node? k).map fun x =>
      if k = node then { x with references := x.references ++ [referrer] } else x :=
  node?_modifyNode _ _ _ _

theorem node?_modifyContent (a : Arena) (node : NodeId) (f : NodeContent → NodeContent)
    (k : NodeId) :
    (a.modifyContent node f).graph.node? k = (a.graph.node? k).map fun x =>
      if k = node then { x with content := f x.content } else x :=
  node?_modifyNode _ _ _ _

theorem of_node?_refer {a : Arena} {node k : NodeId} {referrer : Referrer} {z : Node}
    (h : (a.refer node referrer).graph.node? k = some z) :
    ∃ x, a.graph.node? k = some x ∧ z.content = x.content ∧
      (k ≠ node → z.references = x.references) := by
  rw [node?_refer] at h
  obtain ⟨x, hx, rfl⟩ := Option.map_eq_some_iff.mp h
  refine ⟨x, hx, ?_, fun hk => ?_⟩
  · split <;> rfl
  · rw [if_neg hk]

theorem of_node?_modifyContent {a : Arena} {node k : NodeId} {f : NodeContent → NodeContent}
    {z : Node} (h : (a.modifyContent node f).graph.node? k = some z) :
    ∃ x, a.graph.node? k = some x ∧ z.references = x.references ∧
      z.content = if k = node then f x.content else x.content := by
  rw [node?_modifyContent] at h
  obtain ⟨x, hx, rfl⟩ := Option.map_eq_some_iff.mp h
  refine ⟨x, hx, ?_, ?_⟩
  · split <;> rfl
  · split <;> rfl

/-- The nodes after one more. -/
theorem node?_create (a : Arena) (id : ElementId) (referrer : Referrer) (content : NodeContent)
    (k : NodeId) :
    (a.create id referrer content).graph.node? k =
      if k = a.nextNode then some ⟨id, [referrer], content⟩ else a.graph.node? k := by
  show (a.create id referrer content).graph.nodes[k]? = _
  rw [nodes_create, List.getElem?_append]
  unfold nextNode node?
  by_cases hlt : k < a.graph.nodes.length
  · rw [if_pos hlt, if_neg (Nat.ne_of_lt hlt)]
  · by_cases hk : k = a.graph.nodes.length
    · simp [hk]
    · have hge : a.graph.nodes.length ≤ k := Nat.le_of_not_lt hlt
      have hpos : 0 < k - a.graph.nodes.length :=
        Nat.sub_pos_of_lt (Nat.lt_of_le_of_ne hge fun h => hk h.symm)
      rw [if_neg hlt, if_neg hk, List.getElem?_eq_none hge, List.getElem?_eq_none hpos]

theorem node?_nextNode (a : Arena) : a.graph.node? a.nextNode = none :=
  List.getElem?_eq_none (Nat.le_refl _)

/-- Two changes agree if they agree on the node that is there. -/
theorem modifyNode_congr {a : Arena} {node : NodeId} {f g : Node → Node}
    (h : ∀ x, a.graph.node? node = some x → f x = g x) :
    a.modifyNode node f = a.modifyNode node g := by
  have hnodes : a.graph.nodes.modify node f = a.graph.nodes.modify node g := by
    refine List.ext_getElem? fun k => ?_
    rw [List.getElem?_modify, List.getElem?_modify]
    by_cases hk : node = k
    · subst hk
      cases hx : a.graph.nodes[node]? with
      | none => rfl
      | some x => simp [h x hx]
    · simp [hk]
  unfold modifyNode
  rw [hnodes]

/-- Two changes agree if they agree on the content that is there. -/
theorem modifyContent_congr {a : Arena} {node : NodeId} {f g : NodeContent → NodeContent}
    (h : ∀ x, a.graph.node? node = some x → f x.content = g x.content) :
    a.modifyContent node f = a.modifyContent node g := by
  refine modifyNode_congr fun x hx => ?_
  rw [h x hx]

/-- A change to the content that is there anyway changes nothing. -/
theorem modifyContent_eq_self {a : Arena} {node : NodeId} {f : NodeContent → NodeContent}
    (h : ∀ x, a.graph.node? node = some x → f x.content = x.content) :
    a.modifyContent node f = a := by
  have hsame : a.modifyContent node f = a.modifyNode node fun x => x := by
    refine modifyNode_congr fun x hx => ?_
    rw [h x hx]
  have hnodes : (a.graph.nodes.modify node fun x => x) = a.graph.nodes :=
    List.modify_id node a.graph.nodes
  rw [hsame, modifyNode, hnodes]

/-- Changes of different nodes commute, and so do changes that commute on the same node. -/
theorem modifyNode_comm (a : Arena) {k n : NodeId} {f g : Node → Node}
    (h : k = n → ∀ x, g (f x) = f (g x)) :
    (a.modifyNode k f).modifyNode n g = (a.modifyNode n g).modifyNode k f := by
  have hnodes : (a.graph.nodes.modify k f).modify n g = (a.graph.nodes.modify n g).modify k f := by
    by_cases hk : k = n
    · subst hk
      have hfg : g ∘ f = f ∘ g := funext (h rfl)
      rw [List.modify_modify_eq, List.modify_modify_eq, hfg]
    · rw [List.modify_modify_ne _ _ _ hk]
  show { a with graph := { a.graph with nodes := (a.graph.nodes.modify k f).modify n g } } = _
  rw [hnodes]
  rfl

/-- Making a node commutes with changing an earlier one. -/
theorem create_modifyNode (a : Arena) {n : NodeId} (hn : n < a.nextNode) (f : Node → Node)
    (id : ElementId) (referrer : Referrer) (content : NodeContent) :
    (a.modifyNode n f).create id referrer content =
      (a.create id referrer content).modifyNode n f := by
  have hnext : (a.modifyNode n f).nextNode = a.nextNode := List.length_modify f a.graph.nodes n
  have hnodes (x : Node) : a.graph.nodes.modify n f ++ [x] =
      (a.graph.nodes ++ [x]).modify n f := by
    refine List.ext_getElem? fun k => ?_
    rw [List.getElem?_append, List.getElem?_modify, List.getElem?_modify, List.getElem?_append,
      List.length_modify]
    by_cases hk : k < a.graph.nodes.length
    · simp [hk]
    · have hnk : ¬ n = k := fun h => hk (h ▸ hn)
      simp [hk, hnk]
  have hadd : (a.modifyNode n f).addNode id referrer content =
      (a.addNode id referrer content).modifyNode n f := by
    simp only [addNode, modifyNode, hnodes]
  unfold create
  rw [hadd, hnext]
  cases content.table? with
  | none => rfl
  | some t => cases t <;> rfl

@[simp] theorem elements_create (a : Arena) (id : ElementId) (referrer : Referrer)
    (content : NodeContent) :
    (a.create id referrer content).graph.elements = a.graph.elements := by
  unfold create
  cases content.table? with
  | none => rfl
  | some t => cases t <;> rfl

end Arena
end ObjectGraph
end UmlCatalog
