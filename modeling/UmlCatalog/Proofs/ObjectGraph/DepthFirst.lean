import UmlCatalog.ObjectGraph.OfModel

/-!
# Object graphs by recursion

The object graph of a model as a plain recursion makes it. An element that has a node already
is referred to once more. Any other element gets its node first, then its children are visited
one after the other, each of them to its end, and last the node is given the nodes of its
children.

## Implementation notes

What tells the kinds of element apart is a blueprint: the children in their order and the
content that their nodes make. The recursion itself is the same for all kinds. It ends because
packages and classes use up their records and everything else has at most one child.
-/

namespace UmlCatalog
namespace ObjectGraph

/-- What leads to a node: an identifier of a certain kind, a designator, or the place of a
property in its class. -/
inductive Reference where
  | package (id : ElementId)
  | enumeration (id : ElementId)
  | datatype (id : ElementId)
  | external (designator : String)
  | umlClass (id : ElementId)
  | elementImport (id : ElementId)
  | missing (id : ElementId)
  | property (p : Property) (inClass : NodeId)

namespace Reference

/-- What a package lists. -/
def ofElement (e : ElementRef) : Reference :=
  match e.kind with
  | .elementImport => .elementImport e.id
  | .package => .package e.id
  | .enumeration => .enumeration e.id
  | .datatype => .datatype e.id
  | .umlClass => .umlClass e.id

/-- What an identifier names. Packages come before enumerations, these before datatypes and
these before classes. -/
def ofId (m : Model) (id : ElementId) : Reference :=
  if m.packages.contains id then .package id
  else if m.enums.contains id then .enumeration id
  else if m.datatypes.contains id then .datatype id
  else if m.classes.contains id then .umlClass id
  else .missing id

/-- What a property is typed by. -/
def ofTarget (m : Model) : Target → Reference
  | .href designator => .external designator
  | .idref id => ofId m id

/-- The identifier of the node. -/
def id : Reference → ElementId
  | package id => id
  | enumeration id => id
  | datatype id => id
  | external designator => ⟨designator⟩
  | umlClass id => id
  | elementImport id => id
  | missing id => id
  | property p _ => p.id

/-- Where the node is found again. -/
def table? : Reference → Option Table
  | package _ => some .packages
  | enumeration _ => some .enums
  | datatype _ => some .datatypes
  | external _ => some .datatypes
  | umlClass _ => some .classes
  | elementImport _ => some .imports
  | missing _ => some .missing
  | property _ _ => none

theorem table?_ofElement (e : ElementRef) : (ofElement e).table? ≠ none := by
  unfold ofElement
  cases e.kind <;> exact Option.some_ne_none _

theorem table?_ofId (m : Model) (id : ElementId) : (ofId m id).table? ≠ none := by
  unfold ofId
  repeat' split
  all_goals exact Option.some_ne_none _

theorem table?_ofTarget (m : Model) (t : Target) : (ofTarget m t).table? ≠ none := by
  cases t with
  | href designator => exact Option.some_ne_none _
  | idref id => exact table?_ofId m id

/-- The node that is there already. -/
def known? (a : Arena) (x : Reference) : Option NodeId :=
  x.table?.bind fun t => (a.table t).get? x.id

end Reference

/-- What a new node is made from. -/
structure Blueprint where
  /-- The children, in the order in which they are visited. -/
  children : List Reference
  /-- The content of the node, given the nodes of its first children. -/
  content : List NodeId → NodeContent

namespace Blueprint

/-- A node without children. -/
def leaf (content : NodeContent) : Blueprint := ⟨[], fun _ => content⟩

def ofPackage (p : Package) : Blueprint where
  children := p.elements.map .ofElement
  content nodes := .package p.name nodes p.comments

/-- The superclasses of a class come before its properties. -/
def ofClass (m : Model) (c : Class) (node : NodeId) : Blueprint where
  children := c.superClasses.map (.ofId m) ++ c.properties.map (.property · node)
  content nodes := .umlClass c.name c.isAbstract (nodes.take c.superClasses.length)
    (nodes.drop c.superClasses.length) c.comments

theorem ofClass_content_nil (m : Model) (c : Class) (node : NodeId) :
    (ofClass m c node).content [] = .umlClass c.name c.isAbstract [] [] c.comments := by
  simp [ofClass]

def ofProperty (m : Model) (p : Property) (inClass : NodeId) : Blueprint where
  children := p.target.toList.map (.ofTarget m)
  content nodes := .property p.name inClass nodes.head? p.lower p.upper p.association
    p.aggregation p.comments

/-- An import shows nothing if the model does not know it. -/
def ofImport (m : Model) (id : ElementId) : Blueprint where
  children := (m.imports.get? id).toList.map fun i => .ofId m i.idref
  content nodes := .elementImport nodes.head?

end Blueprint

/-- The blueprint of a new node, if there is a record to make it from. -/
def Reference.blueprint? (m : Model) (node : NodeId) : Reference → Option Blueprint
  | package id => (m.packages.get? id).map .ofPackage
  | enumeration id => (m.enums.get? id).map fun e =>
      .leaf (.enumeration e.name e.values e.comments)
  | datatype id => (m.datatypes.get? id).map fun d => .leaf (.datatype d.name false d.comments)
  | external designator => some (.leaf (.datatype (some designator) true []))
  | umlClass id => (m.classes.get? id).map fun c => .ofClass m c node
  | elementImport id => some (.ofImport m id)
  | missing _ => some (.leaf .missing)
  | property p inClass => some (.ofProperty m p inClass)

/-- `Drawn m node x b`: `b` is the blueprint of a new node for `x`, one rule for each kind. -/
inductive Blueprint.Drawn (m : Model) (node : NodeId) : Reference → Blueprint → Prop
  | package {id p} (h : m.packages.get? id = some p) : Drawn m node (.package id) (.ofPackage p)
  | enumeration {id e} (h : m.enums.get? id = some e) :
      Drawn m node (.enumeration id) (.leaf (.enumeration e.name e.values e.comments))
  | datatype {id d} (h : m.datatypes.get? id = some d) :
      Drawn m node (.datatype id) (.leaf (.datatype d.name false d.comments))
  | external (designator : String) :
      Drawn m node (.external designator) (.leaf (.datatype (some designator) true []))
  | umlClass {id c} (h : m.classes.get? id = some c) :
      Drawn m node (.umlClass id) (.ofClass m c node)
  | elementImport (id : ElementId) : Drawn m node (.elementImport id) (.ofImport m id)
  | missing (id : ElementId) : Drawn m node (.missing id) (.leaf .missing)
  | property (p : Property) (inClass : NodeId) :
      Drawn m node (.property p inClass) (.ofProperty m p inClass)

theorem Reference.drawn {m : Model} {node : NodeId} {x : Reference} {b : Blueprint}
    (hb : x.blueprint? m node = some b) : Blueprint.Drawn m node x b := by
  cases x with
  | package id =>
      obtain ⟨p, hp, rfl⟩ := Option.map_eq_some_iff.mp hb
      exact .package hp
  | enumeration id =>
      obtain ⟨e, he, rfl⟩ := Option.map_eq_some_iff.mp hb
      exact .enumeration he
  | datatype id =>
      obtain ⟨d, hd, rfl⟩ := Option.map_eq_some_iff.mp hb
      exact .datatype hd
  | umlClass id =>
      obtain ⟨c, hc, rfl⟩ := Option.map_eq_some_iff.mp hb
      exact .umlClass hc
  | external designator => cases hb; exact .external designator
  | elementImport id => cases hb; exact .elementImport id
  | missing id => cases hb; exact .missing id
  | property p inClass => cases hb; exact .property p inClass

namespace Reference

/-- Packages and classes have any number of children. -/
def isContainer : Reference → Bool
  | package _ => true
  | umlClass _ => true
  | _ => false

/-- A bound on how often the recursion looks at a reference that is no container, its only
child included. -/
def cost : Reference → Nat
  | missing _ => 1
  | elementImport _ => 5
  | property _ _ => 5
  | _ => 2

theorem cost_ofId_le (m : Model) (id : ElementId) : (ofId m id).cost ≤ 2 := by
  unfold ofId
  repeat' split
  all_goals simp [cost]

theorem cost_ofTarget_le (m : Model) (t : Target) : (ofTarget m t).cost ≤ 2 := by
  cases t with
  | href designator => simp [ofTarget, cost]
  | idref id => exact cost_ofId_le m id

theorem cost_le (x : Reference) : x.cost ≤ 5 := by
  cases x <;> simp [cost]

theorem cost_pos (x : Reference) : 0 < x.cost := by
  cases x <;> simp [cost]

/-- The cost of a list of references, each looked at once more than it costs by itself. -/
def listCost : List Reference → Nat
  | [] => 0
  | x :: xs => x.cost + 1 + listCost xs

@[simp] theorem listCost_nil : listCost [] = 0 := rfl

@[simp] theorem listCost_cons (x : Reference) (xs : List Reference) :
    listCost (x :: xs) = x.cost + 1 + listCost xs := rfl

theorem listCost_le (xs : List Reference) : listCost xs ≤ 6 * xs.length := by
  induction xs with
  | nil => simp
  | cons x xs ih =>
      have hx := cost_le x
      rw [listCost_cons, List.length_cons]
      omega

end Reference

section Termination
variable {m : Model} {a : Arena} {x : Reference} {b : Blueprint} {r : Referrer}

/-- What remains after a node is made, told from the two tables that count. -/
theorem remainingSteps_create_eq (m : Model) (a : Arena) (id : ElementId) (r : Referrer)
    (c : NodeContent) :
    remainingSteps m (a.create id r c) =
      m.packages.weightOutside (if c.table? = some .packages then
        (a.table .packages).insert id a.nextNode else a.table .packages) packageSteps +
      m.classes.weightOutside (if c.table? = some .classes then
        (a.table .classes).insert id a.nextNode else a.table .classes) classSteps := by
  rw [← Arena.table_create a id r c, ← Arena.table_create a id r c]
  rfl

/-- Making a node for a package or a class uses up the steps of its record. No other node
changes how many steps remain. -/
theorem remainingSteps_create (hk : x.known? a = none) (hb : x.blueprint? m a.nextNode = some b)
    (r : Referrer) (nodes : List NodeId) :
    remainingSteps m (a.create x.id r (b.content nodes)) +
      (if x.isContainer then b.children.length + 1 else 0) = remainingSteps m a := by
  have hlacks : ∀ t, x.table? = some t → (a.table t).contains x.id = false := by
    intro t ht
    rw [← Bool.not_eq_true, OrderedMap.contains_iff, ← OrderedMap.get?_eq_none_iff]
    simpa [Reference.known?, ht] using hk
  rw [remainingSteps_create_eq]
  cases Reference.drawn hb with
  | @package id p hp =>
      have hw := OrderedMap.weightOutside_insert packageSteps a.nextNode hp (hlacks _ rfl)
      have hlen : (Blueprint.ofPackage p).children.length + 1 = packageSteps p := by
        simp [Blueprint.ofPackage, packageSteps]
      rw [hlen]
      show m.packages.weightOutside ((a.table .packages).insert id a.nextNode) packageSteps +
        m.classes.weightOutside (a.table .classes) classSteps + packageSteps p =
          m.packages.weightOutside (a.table .packages) packageSteps +
            m.classes.weightOutside (a.table .classes) classSteps
      omega
  | @umlClass id c hc =>
      have hw := OrderedMap.weightOutside_insert classSteps a.nextNode hc (hlacks _ rfl)
      have hlen : (Blueprint.ofClass m c a.nextNode).children.length + 1 = classSteps c := by
        simp [Blueprint.ofClass, classSteps]
      rw [hlen]
      show m.packages.weightOutside (a.table .packages) packageSteps +
        m.classes.weightOutside ((a.table .classes).insert id a.nextNode) classSteps +
          classSteps c =
          m.packages.weightOutside (a.table .packages) packageSteps +
            m.classes.weightOutside (a.table .classes) classSteps
      omega
  | enumeration _ => rfl
  | datatype _ => rfl
  | external designator => rfl
  | elementImport id => rfl
  | missing id => rfl
  | property p inClass => rfl

/-- A node that is no container has at most one child. -/
theorem listCost_children_lt_cost (hc : x.isContainer = false)
    (hb : x.blueprint? m a.nextNode = some b) : Reference.listCost b.children < x.cost := by
  cases Reference.drawn hb with
  | package _ => cases hc
  | umlClass _ => cases hc
  | enumeration _ => exact Reference.cost_pos _
  | datatype _ => exact Reference.cost_pos _
  | external designator => exact Reference.cost_pos _
  | missing id => exact Reference.cost_pos _
  | elementImport id =>
      cases hi : m.imports.get? id with
      | none => simp [Blueprint.ofImport, hi, Reference.cost]
      | some i =>
          have hle := Reference.cost_ofId_le m i.idref
          show Reference.listCost (Blueprint.ofImport m id).children < 5
          simp only [Blueprint.ofImport, hi, Option.toList_some, List.map_cons, List.map_nil,
            Reference.listCost_cons, Reference.listCost_nil]
          omega
  | property p inClass =>
      cases ht : p.target with
      | none => simp [Blueprint.ofProperty, ht, Reference.cost]
      | some t =>
          have hle := Reference.cost_ofTarget_le m t
          show Reference.listCost (Blueprint.ofProperty m p inClass).children < 5
          simp only [Blueprint.ofProperty, ht, Option.toList_some, List.map_cons, List.map_nil,
            Reference.listCost_cons, Reference.listCost_nil]
          omega

/-- Visiting the children of a new node takes fewer looks than visiting the node. -/
theorem listCost_children_lt (hk : x.known? a = none)
    (hb : x.blueprint? m a.nextNode = some b) (r : Referrer) (nodes : List NodeId) :
    6 * remainingSteps m (a.create x.id r (b.content nodes)) + Reference.listCost b.children <
      6 * remainingSteps m a + x.cost := by
  have hr := remainingSteps_create hk hb r nodes
  have hl := Reference.listCost_le b.children
  cases hc : x.isContainer with
  | true =>
      rw [hc, if_pos rfl] at hr
      omega
  | false =>
      have hlt := listCost_children_lt_cost hc hb
      rw [hc, if_neg Bool.false_ne_true] at hr
      omega

/-- Only the kinds of element that have records can lack a blueprint. -/
theorem cost_of_blueprint?_eq_none {node : NodeId} (hb : x.blueprint? m node = none) :
    x.cost = 2 := by
  cases x <;> simp [Reference.blueprint?, Reference.cost] at hb ⊢

end Termination

/-- What a visit leaves behind: an arena in which no more steps remain than before, and what
the visit found. -/
structure Visited (m : Model) (a : Arena) (α : Type) where
  arena : Arena
  result : α
  remainingSteps_le : remainingSteps m arena ≤ remainingSteps m a

mutual
/-- Visit an element: find its node, or make it and visit its children. -/
def visit (m : Model) (a : Arena) (r : Referrer) (x : Reference) : Visited m a NodeId :=
  match hk : x.known? a with
  | some node => ⟨a.refer node r, node, Nat.le_refl _⟩
  | none =>
      match hb : x.blueprint? m a.nextNode with
      | none => visit m a r (.missing x.id)
      | some b =>
          let v := visitAll m (a.create x.id r (b.content [])) (.node a.nextNode) b.children
          ⟨v.arena.modifyContent a.nextNode fun _ => b.content v.result, a.nextNode, by
            have hr := remainingSteps_create hk hb r []
            have hv := v.remainingSteps_le
            show remainingSteps m v.arena ≤ remainingSteps m a
            omega⟩
termination_by 6 * remainingSteps m a + x.cost
decreasing_by
  · rw [cost_of_blueprint?_eq_none hb]
    exact Nat.add_lt_add_left (Nat.lt_succ_self 1) _
  · exact listCost_children_lt hk hb r []

/-- Visit elements one after the other. -/
def visitAll (m : Model) (a : Arena) (r : Referrer) : List Reference → Visited m a (List NodeId)
  | [] => ⟨a, [], Nat.le_refl _⟩
  | x :: xs =>
      let v := visit m a r x
      let w := visitAll m v.arena r xs
      ⟨w.arena, v.result :: w.result, Nat.le_trans w.remainingSteps_le v.remainingSteps_le⟩
termination_by xs => 6 * remainingSteps m a + Reference.listCost xs
decreasing_by
  · have hl := Reference.listCost_cons x xs
    omega
  · have hl := Reference.listCost_cons x xs
    refine Nat.lt_of_le_of_lt
      (Nat.add_le_add_right (Nat.mul_le_mul_left 6 (Visited.remainingSteps_le _)) _) ?_
    omega
end

/-- Visit a top-level package. -/
def visitRoot (m : Model) (a : Arena) (id : ElementId) : Arena :=
  let v := visit m a .graph (.package id)
  v.arena.addElement v.result

/-- The object graph of a model by recursion. -/
def depthFirst (m : Model) : ObjectGraph :=
  (m.packageHierarchy.roots.toList.foldl (visitRoot m) (.start m)).graph

end ObjectGraph
end UmlCatalog
