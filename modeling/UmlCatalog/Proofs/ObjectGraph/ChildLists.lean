import UmlCatalog.Proofs.ObjectGraph.Reachability

/-!
# Child lists

The node of a package or a class is made without children and given them when the last one is
resolved, while other nodes wait in the same state. In the finished object graph none is left
waiting: each node has the content of its record and one child for everything that the record
lists, in the same order. The same holds of the only child of an import and of a property.
-/

namespace UmlCatalog
namespace ObjectGraph

/-- A node has the identifier. -/
def HasId (g : ObjectGraph) (id : ElementId) (n : NodeId) : Prop :=
  ∃ x, g.node? n = some x ∧ x.id = id

/-- A node has the content of a property of the given class. Its type has the target key as
identifier, and there is no type without a target. -/
def HasPropertyContent (g : ObjectGraph) (inClass : NodeId) (p : Property) (n : NodeId) : Prop :=
  ∃ x type, g.node? n = some x ∧ x.id = p.id ∧
    x.content = .property p.name inClass type p.lower p.upper p.association p.aggregation
      p.comments ∧
    Option.Rel (fun target k => g.HasId ⟨target.key⟩ k) p.target type

/-- What the content of a node says is what the record of its identifier says, and its children
are those that the record lists, one for one and in the same order. -/
def FollowsRecord (m : Model) (g : ObjectGraph) (n : NodeId) (id : ElementId) :
    NodeContent → Prop
  | .package name elements comments => ∃ p, m.packages.get? id = some p ∧
      name = p.name ∧ comments = p.comments ∧
      List.Forall₂ (fun e k => g.HasId e.id k) p.elements elements
  | .umlClass name isAbstract generalizations properties comments => ∃ c,
      m.classes.get? id = some c ∧
      name = c.name ∧ isAbstract = c.isAbstract ∧ comments = c.comments ∧
      List.Forall₂ g.HasId c.superClasses generalizations ∧
      List.Forall₂ (g.HasPropertyContent n) c.properties properties
  | .elementImport target => Option.Rel (fun i k => g.HasId i.idref k) (m.imports.get? id) target
  -- the node of a property follows the record of the class that lists it
  | .property .. | .enumeration .. | .datatype .. | .missing => True

/-- Every node of a graph follows its record. -/
def FollowsRecords (m : Model) (g : ObjectGraph) : Prop :=
  ∀ n x, g.node? n = some x → g.FollowsRecord m n x.id x.content

theorem Reference.id_ofTarget (m : Model) (target : Target) :
    (Reference.ofTarget m target).id = ⟨target.key⟩ := by
  cases target with
  | href designator => rfl
  | idref id => exact Reference.id_ofId m id

/-- Optional values are related if the lists of what is there are. -/
theorem rel_of_forall₂_toList {α β : Type} {R : α → β → Prop} {o : Option α} {o' : Option β}
    (h : List.Forall₂ R o.toList o'.toList) : Option.Rel R o o' := by
  cases o with
  | none =>
      cases o' with
      | none => exact .none
      | some b => cases h
  | some a =>
      cases o' with
      | none => cases h
      | some b => exact .some (List.forall₂_cons.mp h).1

namespace Arena
variable {m : Model} {a : Arena} {n k : NodeId} {x : Reference} {id : ElementId}

theorem Shows.hasId (h : a.Shows m x n) (hid : x.id = id) : a.graph.HasId id n := by
  obtain ⟨z, hz, hzid, _⟩ := h
  exact ⟨z, hz, hzid.trans hid⟩

theorem ShowsProperty.hasPropertyContent {p : Property} (h : a.ShowsProperty m k p n) :
    a.graph.HasPropertyContent k p n := by
  obtain ⟨z, type, hz, hid, hc, htype⟩ := h
  refine ⟨z, type, hz, hid, hc, rel_of_forall₂_toList ?_⟩
  rw [List.forall₂_map_left_iff] at htype
  exact htype.imp fun target _ hshow => hshow.hasId (Reference.id_ofTarget m target)

namespace IsFaithful
variable {roots : List ElementId} {z : Node}

/-- In a faithful arena every node follows its record. -/
theorem followsRecord (ha : a.IsFaithful m roots) (hz : a.graph.node? n = some z) :
    a.graph.FollowsRecord m n z.id z.content := by
  cases hcontent : z.content with
  | package name elements comments =>
      obtain ⟨p, ns, hp, hc, hns⟩ := ha.package hz (congrArg NodeContent.table? hcontent)
      obtain ⟨rfl, rfl, rfl⟩ := NodeContent.package.inj (hcontent.symm.trans hc)
      rw [List.forall₂_map_left_iff] at hns
      exact ⟨p, hp, rfl, rfl, hns.imp fun e _ hshow => hshow.hasId (Reference.id_ofElement e)⟩
  | umlClass name isAbstract generals properties comments =>
      obtain ⟨c, gs, ps, hclass, hc, hgs, hps⟩ :=
        ha.umlClass hz (congrArg NodeContent.table? hcontent)
      obtain ⟨rfl, rfl, rfl, rfl, rfl⟩ := NodeContent.umlClass.inj (hcontent.symm.trans hc)
      rw [List.forall₂_map_left_iff] at hgs
      refine ⟨c, hclass, rfl, rfl, rfl, ?_, ?_⟩
      · exact hgs.imp fun id _ hshow => hshow.hasId (Reference.id_ofId m id)
      · exact hps.imp fun _ _ hshow => hshow.hasPropertyContent
  | elementImport target =>
      obtain ⟨t, hc, ht⟩ := ha.elementImport hz (congrArg NodeContent.table? hcontent)
      obtain rfl := NodeContent.elementImport.inj (hcontent.symm.trans hc)
      rw [List.forall₂_map_left_iff] at ht
      refine rel_of_forall₂_toList (ht.imp fun i _ hshow => ?_)
      exact hshow.hasId (Reference.id_ofId m i.idref)
  | _ => trivial

end IsFaithful
end Arena

/-- In the object graph of any model each package, class and import has the content of its record
and lists a child for each one of the record, in order; no list is left unfinished. -/
theorem ofModel_followsRecords (m : Model) : (ofModel m).FollowsRecords m := by
  obtain ⟨a, ha, he⟩ := Arena.exists_isFaithful m
  intro n x hx
  rw [he] at hx ⊢
  exact ha.followsRecord hx

end ObjectGraph
end UmlCatalog
