import UmlCatalog.ObjectGraph.Arena

/-!
# From models to object graphs

The graph is built depth first from the top-level packages. A node is made when its element
is first reached, before anything that the element refers to, so that later references find
it whatever cycles the model has.

## Implementation notes

Packages and classes have children of their own. They wait on a stack while a child is
resolved, each as a frame that holds the children still to come. A frame is made only with
its node, so there is at most one for each package and each class of the model, and the
records bound the number of steps.
-/

namespace UmlCatalog
namespace ObjectGraph

/-- A node whose children are being resolved: those still to come and, latest last, the
nodes of those done. -/
inductive Frame where
  | package (node : NodeId) (todo : List ElementRef) (elements : List NodeId)
  | umlClass (node : NodeId) (todoGenerals : List ElementId) (todoProperties : List Property)
      (generals properties : List NodeId)

/-- The result of reaching an element: its node, and its frame if the node is new and has
children of its own. -/
structure Reached where
  arena : Arena
  node : NodeId
  frame : Option Frame

namespace Arena

/-- Reach a node that is there already. -/
def reachAgain (a : Arena) (node : NodeId) (referrer : Referrer) : Reached :=
  ⟨a.refer node referrer, node, none⟩

/-- Reach an element that is found in a table, or else made with the given content and frame. -/
def reachIn (a : Arena) (t : Table) (id : ElementId) (referrer : Referrer)
    (content : NodeContent) (frame : Option Frame) : Reached :=
  match (a.table t).get? id with
  | some node => a.reachAgain node referrer
  | none => ⟨a.create id referrer content, a.nextNode, frame⟩

theorem reachIn_of_known {a : Arena} {t : Table} {id : ElementId} {node : NodeId}
    (h : (a.table t).get? id = some node) (referrer : Referrer) (content : NodeContent)
    (frame : Option Frame) :
    a.reachIn t id referrer content frame = a.reachAgain node referrer := by
  simp only [reachIn, h]

theorem reachIn_of_new {a : Arena} {t : Table} {id : ElementId}
    (h : (a.table t).get? id = none) (referrer : Referrer) (content : NodeContent)
    (frame : Option Frame) :
    a.reachIn t id referrer content frame =
      ⟨a.create id referrer content, a.nextNode, frame⟩ := by
  simp only [reachIn, h]

/-- Reach an identifier that names nothing. -/
def reachMissing (a : Arena) (id : ElementId) (referrer : Referrer) : Reached :=
  a.reachIn .missing id referrer .missing none

/-- Reach an element that is made from its record; without one the identifier names nothing. -/
def reachRecord (a : Arena) (t : Table) (id : ElementId) (referrer : Referrer)
    (record : Option (NodeContent × Option Frame)) : Reached :=
  match (a.table t).get? id with
  | some node => a.reachAgain node referrer
  | none =>
      match record with
      | none => a.reachMissing id referrer
      | some (content, frame) => ⟨a.create id referrer content, a.nextNode, frame⟩

theorem reachRecord_of_known {a : Arena} {t : Table} {id : ElementId} {node : NodeId}
    (h : (a.table t).get? id = some node) (referrer : Referrer)
    (record : Option (NodeContent × Option Frame)) :
    a.reachRecord t id referrer record = a.reachAgain node referrer := by
  simp only [reachRecord, h]

theorem reachRecord_of_new {a : Arena} {t : Table} {id : ElementId}
    (h : (a.table t).get? id = none) (referrer : Referrer) (content : NodeContent)
    (frame : Option Frame) :
    a.reachRecord t id referrer (some (content, frame)) =
      ⟨a.create id referrer content, a.nextNode, frame⟩ := by
  simp only [reachRecord, h]

theorem reachRecord_of_unknown {a : Arena} {t : Table} {id : ElementId}
    (h : (a.table t).get? id = none) (referrer : Referrer) :
    a.reachRecord t id referrer none = a.reachMissing id referrer := by
  simp only [reachRecord, h]

/-- Reach a package. -/
def reachPackage (m : Model) (a : Arena) (id : ElementId) (referrer : Referrer) : Reached :=
  a.reachRecord .packages id referrer <| (m.packages.get? id).map fun p =>
    (.package p.name [] p.comments, some (.package a.nextNode p.elements []))

/-- Reach an enumeration. -/
def reachEnumeration (m : Model) (a : Arena) (id : ElementId) (referrer : Referrer) : Reached :=
  a.reachRecord .enums id referrer <| (m.enums.get? id).map fun e =>
    (.enumeration e.name e.values e.comments, none)

/-- Reach a datatype of the model. -/
def reachDatatype (m : Model) (a : Arena) (id : ElementId) (referrer : Referrer) : Reached :=
  a.reachRecord .datatypes id referrer <| (m.datatypes.get? id).map fun d =>
    (.datatype d.name false d.comments, none)

/-- Reach a datatype by its designator. -/
def reachExternal (a : Arena) (designator : String) (referrer : Referrer) : Reached :=
  a.reachIn .datatypes ⟨designator⟩ referrer (.datatype (some designator) true []) none

/-- Reach a class. -/
def reachClass (m : Model) (a : Arena) (id : ElementId) (referrer : Referrer) : Reached :=
  a.reachRecord .classes id referrer <| (m.classes.get? id).map fun c =>
    (.umlClass c.name c.isAbstract [] [] c.comments,
      some (.umlClass a.nextNode c.superClasses c.properties [] []))

/-- Reach whatever an identifier names. Where several arenas declare it, packages come before
enumerations, these before datatypes and these before classes. -/
def reach (m : Model) (a : Arena) (id : ElementId) (referrer : Referrer) : Reached :=
  if m.packages.contains id then a.reachPackage m id referrer
  else if m.enums.contains id then a.reachEnumeration m id referrer
  else if m.datatypes.contains id then a.reachDatatype m id referrer
  else if m.classes.contains id then a.reachClass m id referrer
  else a.reachMissing id referrer

/-- Reach the target of a property. -/
def reachTarget (m : Model) (a : Arena) (target : Target) (referrer : Referrer) : Reached :=
  match target with
  | .href designator => a.reachExternal designator referrer
  | .idref id => a.reach m id referrer

/-- Set the type of a property node. -/
def setType (node : NodeId) : NodeContent → NodeContent
  | .property name inClass _ lower upper association aggregation comments =>
      .property name inClass (some node) lower upper association aggregation comments
  | content => content

/-- Make the node of a property, then reach its target. -/
def reachProperty (m : Model) (a : Arena) (p : Property) (inClass : NodeId) : Reached :=
  let node := a.nextNode
  let a := a.create p.id (.node inClass)
    (.property p.name inClass none p.lower p.upper p.association p.aggregation p.comments)
  match p.target with
  | none => ⟨a, node, none⟩
  | some target =>
      let r := a.reachTarget m target (.node node)
      ⟨r.arena.modifyContent node (setType r.node), node, r.frame⟩

/-- Set the target of an import node. -/
def setTarget (node : NodeId) : NodeContent → NodeContent
  | .elementImport _ => .elementImport (some node)
  | content => content

/-- Reach an import, then what it shows. -/
def reachImport (m : Model) (a : Arena) (id : ElementId) (referrer : Referrer) : Reached :=
  match (a.table .imports).get? id with
  | some node => a.reachAgain node referrer
  | none =>
      let node := a.nextNode
      let a := a.create id referrer (.elementImport none)
      match m.imports.get? id with
      | none => ⟨a, node, none⟩
      | some i =>
          let r := a.reach m i.idref (.node node)
          ⟨r.arena.modifyContent node (setTarget r.node), node, r.frame⟩

/-- Reach an element as a package lists it. -/
def reachElement (m : Model) (a : Arena) (e : ElementRef) (referrer : Referrer) : Reached :=
  match e.kind with
  | .elementImport => a.reachImport m e.id referrer
  | .package => a.reachPackage m e.id referrer
  | .enumeration => a.reachEnumeration m e.id referrer
  | .datatype => a.reachDatatype m e.id referrer
  | .umlClass => a.reachClass m e.id referrer

end Arena

/-- Set the elements of a package node. -/
def setElements (elements : List NodeId) : NodeContent → NodeContent
  | .package name _ comments => .package name elements comments
  | content => content

/-- Set the generalizations and properties of a class node. -/
def setMembers (generals properties : List NodeId) : NodeContent → NodeContent
  | .umlClass name isAbstract _ _ comments =>
      .umlClass name isAbstract generals properties comments
  | content => content

/-- Resolve the next child of the topmost frame, or complete its node if there is none. A
frame made for the child goes on top. -/
def step (m : Model) (a : Arena) (frame : Frame) (stack : List Frame) : Arena × List Frame :=
  match frame with
  | .package node (e :: todo) elements =>
      let r := a.reachElement m e (.node node)
      (r.arena, r.frame.toList ++ .package node todo (elements ++ [r.node]) :: stack)
  | .package node [] elements => (a.modifyContent node (setElements elements), stack)
  | .umlClass node (general :: todo) todoProperties generals properties =>
      let r := a.reach m general (.node node)
      (r.arena,
        r.frame.toList ++ .umlClass node todo todoProperties (generals ++ [r.node]) properties ::
          stack)
  | .umlClass node [] (p :: todo) generals properties =>
      let r := a.reachProperty m p node
      (r.arena,
        r.frame.toList ++ .umlClass node [] todo generals (properties ++ [r.node]) :: stack)
  | .umlClass node [] [] generals properties =>
      (a.modifyContent node (setMembers generals properties), stack)

/-- Make at most a number of steps, or as many as it takes to empty the stack. -/
def run (m : Model) : Nat → Arena → List Frame → Arena
  | _, a, [] => a
  | 0, a, _ :: _ => a
  | n + 1, a, frame :: stack =>
      let r := step m a frame stack
      run m n r.1 r.2

/-- The steps of a package: one for each element and one to complete it. -/
def packageSteps (p : Package) : Nat := p.elements.length + 1

/-- The steps of a class: one for each superclass and property and one to complete it. -/
def classSteps (c : Class) : Nat := c.superClasses.length + c.properties.length + 1

/-- The steps that the packages and classes without a node can still take. -/
def remainingSteps (m : Model) (a : Arena) : Nat :=
  m.packages.weightOutside a.graph.packages packageSteps +
    m.classes.weightOutside a.graph.classes classSteps

/-- A bound on the number of steps: those of all packages and classes. -/
def stepBound (m : Model) : Nat := remainingSteps m (.start m)

/-- Reach a top-level package with everything below it. -/
def addRoot (m : Model) (a : Arena) (id : ElementId) : Arena :=
  let r := a.reachPackage m id .graph
  (run m (stepBound m) r.arena r.frame.toList).addElement r.node

/-- The object graph of a model. -/
def ofModel (m : Model) : ObjectGraph :=
  (m.packageHierarchy.roots.toList.foldl (addRoot m) (.start m)).graph

end ObjectGraph
end UmlCatalog
