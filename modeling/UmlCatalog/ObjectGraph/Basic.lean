import UmlCatalog.Model.Record

/-!
# Object graphs

A model with its identifiers resolved: every element that is reached from the top-level
packages is one node, and knows what refers to it. What an identifier names nothing becomes
a node that marks the gap.
-/

namespace UmlCatalog

/-- The place of a node in its graph. -/
abbrev NodeId := Nat

/-- What refers to a node: the graph itself, to its top-level packages, or another node. -/
inductive Referrer where
  | graph
  | node (id : NodeId)
  deriving DecidableEq, Inhabited

/-- What a node stands for. -/
inductive NodeContent where
  | package (name : Option String) (elements : List NodeId) (comments : List String)
  | enumeration (name : Option String) (values comments : List String)
  /-- A datatype, external if it is known by a designator only. -/
  | datatype (name : Option String) (external : Bool) (comments : List String)
  | umlClass (name : Option String) (isAbstract : Bool) (generalizations properties : List NodeId)
      (comments : List String)
  | elementImport (target : Option NodeId)
  | property (name : Option String) (inClass : NodeId) (type : Option NodeId)
      (lower upper : String) (association : Option ElementId) (aggregation : Option Aggregation)
      (comments : List String)
  /-- An element that is referred to and not there. -/
  | missing
  deriving DecidableEq, Inhabited

/-- The name of what a node stands for, if it has one. -/
def NodeContent.name? : NodeContent → Option String
  | package name _ _ => name
  | enumeration name _ _ => name
  | datatype name _ _ => name
  | umlClass name _ _ _ _ => name
  | property name _ _ _ _ _ _ _ => name
  | elementImport _ => none
  | missing => none

/-- A node of an object graph. -/
structure Node where
  /-- The identifier, or the designator of an external datatype. -/
  id : ElementId
  /-- What refers to the node, in the order in which it was reached. -/
  references : List Referrer
  content : NodeContent
  deriving DecidableEq, Inhabited

/-- The object graph of a model. -/
structure ObjectGraph where
  id : Option ElementId
  name : Option String
  source : ModelSource
  /-- The top-level packages. -/
  elements : List NodeId
  /-- All nodes, in the order of creation. -/
  nodes : List Node
  packages : OrderedMap ElementId NodeId
  classes : OrderedMap ElementId NodeId
  missing : OrderedMap ElementId NodeId
  deriving DecidableEq, Inhabited

namespace ObjectGraph

/-- The node at a place. -/
def node? (g : ObjectGraph) (n : NodeId) : Option Node := g.nodes[n]?

/-- The node of a class. -/
def class? (g : ObjectGraph) (id : ElementId) : Option (NodeId × Node) :=
  (g.classes.get? id).bind fun n => (g.node? n).map fun node => (n, node)

/-- The node of a package. -/
def package? (g : ObjectGraph) (id : ElementId) : Option (NodeId × Node) :=
  (g.packages.get? id).bind fun n => (g.node? n).map fun node => (n, node)

/-- The node that marks the gap of an identifier. -/
def missing? (g : ObjectGraph) (id : ElementId) : Option Node :=
  (g.missing.get? id).bind g.node?

/-- The nodes of all classes, in the order of creation. -/
def classNodes (g : ObjectGraph) : List Node := g.classes.values.filterMap g.node?

end ObjectGraph
end UmlCatalog
