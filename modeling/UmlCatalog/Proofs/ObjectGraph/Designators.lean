import UmlCatalog.Proofs.ObjectGraph.Referents

/-!
# Datatypes and designators

Declared datatypes and those known by a designator share one table, so one node serves a datatype of
the model and the properties that have its identifier as a designator. Its content is that of the
record unless one of these properties was reached before anything else that leads to the node.

## Implementation notes

A property reaches its type right after its own node is made. So the type has a later node only if
it was made for this property, and then its content tells whether the target is a designator. The
table does not tell, which is why this is an invariant of its own.
-/

namespace UmlCatalog

/-- A datatype that is known by a designator only. -/
def NodeContent.isExternal : NodeContent → Bool
  | datatype _ external _ => external
  | _ => false

namespace ObjectGraph

/-- A designator leads to the node. -/
def Reference.isExternal : Reference → Bool
  | external _ => true
  | _ => false

section Reference
variable {m : Model} {node : NodeId} {x y : Reference} {b : Blueprint}

theorem isExternal_content (hb : x.blueprint? m node = some b) (ns : List NodeId) :
    (b.content ns).isExternal = x.isExternal := by
  cases Reference.drawn hb <;> rfl

theorem Reference.isExternal_of_blueprint?_eq_none (hb : x.blueprint? m node = none) :
    x.isExternal = false := by
  cases x with
  | external designator => cases hb
  | _ => rfl

theorem Reference.isExternal_ofId (m : Model) (id : ElementId) :
    (ofId m id).isExternal = false := by
  unfold ofId
  repeat' split
  all_goals rfl

theorem Reference.isExternal_ofElement (e : ElementRef) : (ofElement e).isExternal = false := by
  unfold ofElement
  cases e.kind <;> rfl

theorem Reference.isExternal_ofTarget_iff {target : Target} :
    (ofTarget m target).isExternal = true ↔ ∃ designator, target = .href designator := by
  cases target with
  | href designator => exact iff_of_true rfl ⟨designator, rfl⟩
  | idref id =>
      refine iff_of_false (fun h => ?_) nofun
      cases h.symm.trans (isExternal_ofId m id)

/-- Only properties have designators. -/
theorem inClass?_of_isExternal (hb : x.blueprint? m node = some b) (hy : y ∈ b.children)
    (hexternal : y.isExternal = true) : x.inClass? ≠ none := by
  cases Reference.drawn hb with
  | package _ =>
      obtain ⟨e, _, rfl⟩ := List.mem_map.mp hy
      cases hexternal.symm.trans (Reference.isExternal_ofElement e)
  | umlClass _ =>
      rcases List.mem_append.mp hy with hy | hy
      · obtain ⟨id, _, rfl⟩ := List.mem_map.mp hy
        cases hexternal.symm.trans (Reference.isExternal_ofId m id)
      · obtain ⟨p, _, rfl⟩ := List.mem_map.mp hy
        cases hexternal
  | elementImport id =>
      obtain ⟨i, _, rfl⟩ := List.mem_map.mp hy
      cases hexternal.symm.trans (Reference.isExternal_ofId m i.idref)
  | property p inClass => exact Option.some_ne_none inClass
  | _ => cases hy

end Reference

namespace Arena
variable {m : Model} {a b : Arena} {p : Property} {k n : NodeId}
  {unfinished unfinished' : NodeId → Prop}

/-- If the type of a property has a later node, it was made for the target of the property. -/
def MakesType (m : Model) (a : Arena) (p : Property) (k : NodeId) : Prop :=
  ∃ y, a.graph.node? k = some y ∧ ∀ t, y.content.type? = some t → k < t →
    ∃ z target, a.graph.node? t = some z ∧ p.target = some target ∧
      z.content.isExternal = (Reference.ofTarget m target).isExternal

/-- What stands for a property is finished and makes its type. -/
def MakesTypeOf (m : Model) (unfinished : NodeId → Prop) (a : Arena) (x : Reference) (k : NodeId) :
    Prop :=
  ∀ p inClass, x = .property p inClass → ¬ unfinished k ∧ a.MakesType m p k

/-- Classes list nodes that make the types of their properties, and these are finished. -/
def MakesTypesBut (m : Model) (unfinished : NodeId → Prop) (a : Arena) : Prop :=
  ∀ (n : NodeId) (z : Node) (c : Class) (i : Nat) (k : NodeId), a.graph.node? n = some z →
    m.classes.get? z.id = some c → z.content.properties[i]? = some k →
      ∃ p : Property, c.properties[i]? = some p ∧ ¬ unfinished k ∧ a.MakesType m p k

/-- The node of a property. -/
def IsProperty (a : Arena) (k : NodeId) : Prop :=
  ∃ y, a.graph.node? k = some y ∧ y.content.inClass? ≠ none

/-- The node of a property refers to each external datatype, and was there before it. -/
def KnowsDesignators (a : Arena) : Prop :=
  ∀ n z, a.graph.node? n = some z → z.content.isExternal = true →
    ∃ k, k < n ∧ .node k ∈ z.references ∧ a.IsProperty k

theorem MakesType.extends (h : a.MakesType m p k) (hba : b.Extends a) : b.MakesType m p k := by
  obtain ⟨y, hy, htype⟩ := h
  obtain ⟨y', hy', _, hyc⟩ := hba k y hy
  refine ⟨y', hy', fun t ht hlt => ?_⟩
  rw [hyc] at ht
  obtain ⟨z, target, hz, htarget, hexternal⟩ := htype t ht hlt
  obtain ⟨z', hz', _, hzc⟩ := hba t z hz
  exact ⟨z', target, hz', htarget, hzc.symm ▸ hexternal⟩

/-- Giving another node its content changes no type. -/
theorem MakesType.modifyContent {f : NodeContent → NodeContent} (h : a.MakesType m p k)
    (hk : k ≠ n)
    (hf : ∀ x, a.graph.node? n = some x → (f x.content).isExternal = x.content.isExternal) :
    (a.modifyContent n f).MakesType m p k := by
  obtain ⟨y, hy, htype⟩ := h
  refine ⟨y, by rw [node?_modifyContent, hy, Option.map_some, if_neg hk], fun t ht hlt => ?_⟩
  obtain ⟨z, target, hz, htarget, hexternal⟩ := htype t ht hlt
  rw [node?_modifyContent, hz]
  refine ⟨_, target, rfl, htarget, ?_⟩
  split
  · rename_i htn
    subst htn
    exact (hf z hz).trans hexternal
  · exact hexternal

theorem MakesType.lt_nextNode (h : a.MakesType m p k) : k < a.nextNode := by
  obtain ⟨y, hy, _⟩ := h
  exact Arena.lt_nextNode hy

theorem IsProperty.lt_nextNode (h : a.IsProperty k) : k < a.nextNode := by
  obtain ⟨y, hy, _⟩ := h
  exact Arena.lt_nextNode hy

theorem IsProperty.extends (h : a.IsProperty k) (hba : b.Extends a) : b.IsProperty k := by
  obtain ⟨y, hy, hin⟩ := h
  obtain ⟨y', hy', _, hc⟩ := hba k y hy
  exact ⟨y', hy', hc.symm ▸ hin⟩

theorem IsProperty.modifyContent {f : NodeContent → NodeContent} (h : a.IsProperty k)
    (hf : ∀ x, a.graph.node? n = some x → (f x.content).inClass? = x.content.inClass?) :
    (a.modifyContent n f).IsProperty k := by
  obtain ⟨y, hy, hin⟩ := h
  refine ⟨_, by rw [node?_modifyContent, hy, Option.map_some], ?_⟩
  split
  · rename_i hkn
    subst hkn
    rw [← hf y hy] at hin
    exact hin
  · exact hin

/-- Lists stay right while the arena grows by nodes that list nothing. -/
theorem MakesTypesBut.extends (ha : a.MakesTypesBut m unfinished) (hba : b.Extends a)
    (hold : ∀ n z, b.graph.node? n = some z →
      (∃ y, a.graph.node? n = some y) ∨ z.content.properties = [])
    (hu : ∀ k, k < a.nextNode → unfinished' k → unfinished k) : b.MakesTypesBut m unfinished' := by
  intro n z c i k hz hc hk
  rcases hold n z hz with ⟨y, hy⟩ | hnone
  · obtain ⟨z', hz', hid, hcontent⟩ := hba n y hy
    obtain rfl := Option.some.inj (hz.symm.trans hz')
    rw [hid] at hc
    rw [hcontent] at hk
    obtain ⟨p, hp, hdone, hmakes⟩ := ha n y c i k hy hc hk
    exact ⟨p, hp, fun hk' => hdone (hu k hmakes.lt_nextNode hk'), hmakes.extends hba⟩
  · rw [hnone] at hk
    cases hk

end Arena

section Visits
variable {m : Model} {a b : Arena} {r : Referrer} {x : Reference} {p : Blueprint}
  {xs : List Reference} {ns : List NodeId} {n : NodeId} {unfinished : NodeId → Prop}

/-- The node that a visit finds is an earlier one, or tells whether a designator led to it. -/
theorem Visits.lt_or_isExternal (h : Visits m a r [x] b [n]) (ha : a.IsIndexed) :
    n < a.nextNode ∨ ∃ z, b.graph.node? n = some z ∧ z.content.isExternal = x.isExternal := by
  have hmake : ∀ {y : Reference} {p c ns}, y.blueprint? m a.nextNode = some p →
      Visits m (a.create y.id r (p.content [])) (.node a.nextNode) p.children c ns →
        ∃ z, (c.modifyContent a.nextNode fun _ => p.content ns).graph.node? a.nextNode = some z ∧
          z.content.isExternal = y.isExternal := by
    intro y p c ns hp hchildren
    obtain ⟨z, hz, _⟩ := hchildren.node?_nextNode
    refine ⟨_, by rw [Arena.node?_modifyContent, hz, Option.map_some, if_pos rfl], ?_⟩
    exact isExternal_content hp ns
  have hknown : ∀ {y : Reference}, y.known? a = some n → n < a.nextNode := by
    intro y hk
    obtain ⟨z, hz, _⟩ := ha.isEntered hk
    exact Arena.lt_nextNode hz
  rcases h.single_cases with ⟨hk, _⟩ | ⟨p, c, ns, hp, hchildren, rfl, rfl⟩ | ⟨hp, hmissing⟩
  · exact Or.inl (hknown hk)
  · exact Or.inr (hmake hp hchildren)
  · rw [Reference.isExternal_of_blueprint?_eq_none hp]
    rcases hmissing.single_cases with ⟨hk, _⟩ | ⟨p, c, ns, hp, hchildren, rfl, rfl⟩ | ⟨hp, _⟩
    · exact Or.inl (hknown hk)
    · exact Or.inr (hmake hp hchildren)
    · cases hp

/-- A property that was visited makes its type. -/
theorem Visits.makesType {q : Property} {inClass : NodeId} (ha : a.IsIndexed)
    (hp : (Reference.property q inClass).blueprint? m a.nextNode = some p)
    (h : Visits m (a.create q.id r (p.content [])) (.node a.nextNode) p.children b ns) :
    (b.modifyContent a.nextNode fun _ => p.content ns).MakesType m q a.nextNode := by
  obtain rfl := Option.some.inj hp
  obtain ⟨y, hy, _⟩ := h.node?_nextNode
  refine ⟨_, by rw [Arena.node?_modifyContent, hy, Option.map_some, if_pos rfl], ?_⟩
  intro t ht hlt
  have ht : ns.head? = some t := ht
  have hchildren : (Blueprint.ofProperty m q inClass).children =
      q.target.toList.map (.ofTarget m) := rfl
  rw [hchildren] at h
  cases htarget : q.target with
  | none =>
      rw [htarget] at h
      cases h
      cases ht
  | some target =>
      rw [htarget, Option.toList_some, List.map_singleton] at h
      obtain ⟨t', rfl⟩ := List.length_eq_one_iff.mp h.length_eq
      obtain rfl := Option.some.inj ht
      have hknown : (Reference.property q inClass).known? a = none := rfl
      have htable : ((Blueprint.ofProperty m q inClass).content []).table? =
          (Reference.property q inClass).table? := rfl
      have hcreated := ha.create hknown htable r
      rcases h.lt_or_isExternal hcreated with hold | ⟨z, hz, hexternal⟩
      · rw [Arena.nextNode_create] at hold
        exact absurd hlt (Nat.not_lt_of_le (Nat.le_of_lt_succ hold))
      · refine ⟨z, target, ?_, rfl, hexternal⟩
        rw [Arena.node?_modifyContent, hz, Option.map_some, if_neg (Nat.ne_of_gt hlt)]

/-- The lists of a node that is given its content are right if the nodes of its children are. -/
theorem Arena.MakesTypesBut.modifyContent {k : NodeId} {y : Node}
    (ha : a.MakesTypesBut m fun j => unfinished j ∨ j = k) (hp : x.blueprint? m k = some p)
    (hy : a.graph.node? k = some y) (hid : y.id = x.id)
    (hcontent : y.content.isExternal = x.isExternal)
    (hns : List.Forall₂ (a.MakesTypeOf m fun j => unfinished j ∨ j = k) p.children ns) :
    (a.modifyContent k fun _ => p.content ns).MakesTypesBut m unfinished := by
  have hkeep : ∀ z, a.graph.node? k = some z →
      (p.content ns).isExternal = z.content.isExternal := by
    intro z hz
    obtain rfl := Option.some.inj (hy.symm.trans hz)
    exact (isExternal_content hp ns).trans hcontent.symm
  intro n z c i j hz hc hj
  rw [node?_modifyContent] at hz
  by_cases hn : n = k
  · subst hn
    rw [hy, Option.map_some, if_pos rfl] at hz
    obtain rfl := Option.some.inj hz
    -- Only the blueprint of a class has properties, and they come behind the superclasses.
    cases Reference.drawn hp with
    | @umlClass id c' hclass =>
        obtain rfl := Option.some.inj (hclass.symm.trans (hid ▸ hc))
        have hplace : (ns.drop c'.superClasses.length)[i]? = some j := hj
        rw [List.getElem?_drop] at hplace
        obtain ⟨q', hq', hmakes⟩ := exists_of_getElem?_right hns hplace
        have hlen : (c'.superClasses.map (Reference.ofId m)).length = c'.superClasses.length :=
          List.length_map _
        rw [Blueprint.ofClass, List.getElem?_append_right (by rw [hlen]; exact Nat.le_add_right _ _),
          hlen, Nat.add_sub_cancel_left, List.getElem?_map] at hq'
        obtain ⟨q, hq, rfl⟩ := Option.map_eq_some_iff.mp hq'
        obtain ⟨hdone, hmakes⟩ := hmakes q _ rfl
        obtain ⟨hdone, hne⟩ := not_or.mp hdone
        exact ⟨q, hq, hdone, hmakes.modifyContent hne hkeep⟩
    | _ => cases hj
  · obtain ⟨z', hz', rfl⟩ := Option.map_eq_some_iff.mp hz
    rw [if_neg hn] at hc hj
    obtain ⟨q, hq, hdone, hmakes⟩ := ha n z' c i j hz' hc hj
    obtain ⟨hdone, hne⟩ := not_or.mp hdone
    exact ⟨q, hq, hdone, hmakes.modifyContent hne hkeep⟩

/-- Every property that is visited makes its type, and so do those that new classes list. -/
theorem Visits.makesTypesBut (h : Visits m a r xs b ns) (ha : a.IsIndexed) :
    ∀ {unfinished : NodeId → Prop}, (∀ n, unfinished n → n < a.nextNode) →
      a.MakesTypesBut m unfinished →
        b.MakesTypesBut m unfinished ∧ List.Forall₂ (b.MakesTypeOf m unfinished) xs ns := by
  induction h with
  | nil =>
      intro unfinished _ hm
      exact ⟨hm, .nil⟩
  | cons hhead htail ih₁ ih₂ =>
      intro unfinished hu hm
      obtain ⟨hb, hn⟩ := ih₁ ha hu hm
      have hle := hhead.extends.nextNode_le
      obtain ⟨hc, hns⟩ := ih₂ (hhead.isIndexed ha) (fun n hn => Nat.lt_of_lt_of_le (hu n hn) hle) hb
      obtain ⟨hn, _⟩ := List.forall₂_cons.mp hn
      refine ⟨hc, .cons (fun q inClass hx => ?_) hns⟩
      obtain ⟨hdone, hmakes⟩ := hn q inClass hx
      exact ⟨hdone, hmakes.extends htail.extends⟩
  | @again a r x n hk =>
      intro unfinished _ hm
      refine ⟨hm.extends (Arena.extends_refer a n r) (fun k z hz => ?_) fun _ _ hk => hk,
        .cons (fun q inClass hx => ?_) .nil⟩
      · obtain ⟨y, hy, _⟩ := Arena.of_node?_refer hz
        exact Or.inl ⟨y, hy⟩
      · rw [hx] at hk
        cases hk
  | @make a b r x p ns hk hp hchildren ih =>
      intro unfinished hu hm
      have hcreated : (a.create x.id r (p.content [])).MakesTypesBut m fun n =>
          unfinished n ∨ n = a.nextNode := by
        refine hm.extends (Arena.extends_create _ _ _ _) (fun n z hz => ?_) fun k hlt hk => ?_
        · rw [Arena.node?_create] at hz
          split at hz
          · obtain rfl := Option.some.inj hz
            exact Or.inr (List.append_eq_nil_iff.mp (children_content_nil hp)).2
          · exact Or.inl ⟨z, hz⟩
        · exact hk.resolve_right (Nat.ne_of_lt hlt)
      obtain ⟨hb, hns⟩ := ih (ha.create hk (table?_content hp []) r)
        (Arena.lt_nextNode_create hu _ _ _) hcreated
      obtain ⟨y, hy, hid, hc⟩ := hchildren.node?_nextNode
      refine ⟨hb.modifyContent hp hy hid ?_ hns,
        .cons (fun q inClass hx => ⟨fun hn => ?_, ?_⟩) .nil⟩
      · rw [hc, isExternal_content hp]
      · exact Nat.lt_irrefl _ (hu _ hn)
      · subst hx
        exact hchildren.makesType ha hp
  | @unknown a b r x n hk hp _ ih =>
      intro unfinished hu hm
      refine ⟨(ih ha hu hm).1, .cons (fun q inClass hx => ?_) .nil⟩
      rw [hx] at hp
      cases hp

/-- External datatypes are made for properties. -/
theorem Visits.knowsDesignators (h : Visits m a r xs b ns) :
    (∀ x ∈ xs, x.isExternal = true → ∃ k, r = .node k ∧ a.IsProperty k) →
      a.KnowsDesignators → b.KnowsDesignators := by
  induction h with
  | nil => exact fun _ ha => ha
  | cons hhead _ ih₁ ih₂ =>
      intro hxs ha
      obtain ⟨hx, hxs⟩ := List.forall_mem_cons.mp hxs
      refine ih₂ (fun y hy hexternal => ?_) (ih₁ (List.forall_mem_singleton.mpr hx) ha)
      obtain ⟨k, hr, hk⟩ := hxs y hy hexternal
      exact ⟨k, hr, hk.extends hhead.extends⟩
  | @again a r x n hk =>
      intro _ ha i z hz hexternal
      have hextends := Arena.extends_refer a n r
      rw [Arena.node?_refer] at hz
      obtain ⟨y, hy, rfl⟩ := Option.map_eq_some_iff.mp hz
      by_cases hin : i = n
      · rw [if_pos hin] at hexternal ⊢
        obtain ⟨k, hlt, hrefers, hproperty⟩ := ha i y hy hexternal
        exact ⟨k, hlt, List.mem_append_left _ hrefers, hproperty.extends hextends⟩
      · rw [if_neg hin] at hexternal ⊢
        obtain ⟨k, hlt, hrefers, hproperty⟩ := ha i y hy hexternal
        exact ⟨k, hlt, hrefers, hproperty.extends hextends⟩
  | @make a b r x p ns hk hp hchildren ih =>
      intro hxs ha
      have hextends := Arena.extends_create a x.id r (p.content [])
      have hb := ih (fun y hy hexternal => by
        refine ⟨_, rfl, _, by rw [Arena.node?_create, if_pos rfl], ?_⟩
        rw [inClass?_content hp]
        exact inClass?_of_isExternal hp hy hexternal) fun n z hz hexternal => by
          rw [Arena.node?_create] at hz
          split at hz
          · rename_i hn
            obtain rfl := Option.some.inj hz
            rw [isExternal_content hp] at hexternal
            obtain ⟨k, rfl, hproperty⟩ := List.forall_mem_singleton.mp hxs hexternal
            exact ⟨k, hn ▸ hproperty.lt_nextNode, List.mem_singleton_self _,
              hproperty.extends hextends⟩
          · obtain ⟨k, hlt, hrefers, hproperty⟩ := ha n z hz hexternal
            exact ⟨k, hlt, hrefers, hproperty.extends hextends⟩
      obtain ⟨y, hy, _, hc⟩ := hchildren.node?_nextNode
      have hlast : ∀ z, b.graph.node? a.nextNode = some z →
          z.content.isExternal = (p.content ns).isExternal ∧
            (p.content ns).inClass? = z.content.inClass? := by
        intro z hz
        obtain rfl := Option.some.inj (hy.symm.trans hz)
        rw [hc]
        exact ⟨(isExternal_content hp []).trans (isExternal_content hp ns).symm,
          (inClass?_content hp ns).trans (inClass?_content hp []).symm⟩
      intro n z hz hexternal
      obtain ⟨z', hz', hreferences, hcontent⟩ := Arena.of_node?_modifyContent hz
      have hexternal' : z'.content.isExternal = true := by
        rw [hcontent] at hexternal
        split at hexternal
        · rename_i hn
          subst hn
          exact (hlast z' hz').1.trans hexternal
        · exact hexternal
      obtain ⟨k, hlt, hrefers, hproperty⟩ := hb n z' hz' hexternal'
      exact ⟨k, hlt, hreferences ▸ hrefers, hproperty.modifyContent fun x hx => (hlast x hx).2⟩
  | unknown _ _ _ ih =>
      intro _ ha
      exact ih (List.forall_mem_singleton.mpr nofun) ha

end Visits

/-- The node of a property that has a designator as its target. -/
def IsDesignating (m : Model) (g : ObjectGraph) (designator : String) (k : NodeId) : Prop :=
  ∃ inClass place p, g.IsNodeOf (.property inClass place) k ∧
    m.property? ⟨inClass, place⟩ = some p ∧ p.target = some (.href designator)

namespace Arena
variable {m : Model} {a b : Arena} {roots : List ElementId} {k n : NodeId} {z : Node}

theorem exists_knowsDesignators (m : Model) :
    ∃ a : Arena, a.IsFaithful m m.packageHierarchy.roots.toList ∧
      a.MakesTypesBut m (fun _ => False) ∧ a.KnowsDesignators ∧ ofModel m = a.graph := by
  have hnone : ∀ n z, (Arena.start m).graph.node? n ≠ some z := fun _ _ => nofun
  have hmakes : (Arena.start m).MakesTypesBut m fun _ => False :=
    fun n z _ _ _ hz => absurd hz (hnone n z)
  have hknows : (Arena.start m).KnowsDesignators := fun n z hz => absurd hz (hnone n z)
  obtain ⟨a, ⟨ha, hm, hd⟩, he⟩ := ofModel_induction (m := m)
    (P := fun done a => a.IsFaithful m done ∧ a.MakesTypesBut m (fun _ => False) ∧
      a.KnowsDesignators) ⟨isFaithful_start m, hmakes, hknows⟩
    fun done a b id n ⟨ha, hm, hd⟩ h =>
      ⟨ha.addElement h, (h.makesTypesBut ha.isSettled.isIndexed (fun _ hu => hu.elim) hm).1,
        h.knowsDesignators (List.forall_mem_singleton.mpr nofun) hd⟩
  exact ⟨a, ha, hm, hd, he⟩

namespace IsFaithful

/-- The node of a property stands at its place in a class. -/
theorem exists_isNodeOf_property (ha : a.IsFaithful m roots) (hk : a.IsProperty k) :
    ∃ inClass place, a.graph.IsNodeOf (.property inClass place) k := by
  obtain ⟨y, hy, hin⟩ := hk
  obtain ⟨c, hc⟩ := Option.ne_none_iff_exists'.mp hin
  obtain ⟨x, hx, hcount⟩ := ha.isSettled.count_properties hy hc
  have hmem : k ∈ x.content.properties := List.count_pos_iff.mp (hcount ▸ Nat.one_pos)
  obtain ⟨place, hplace⟩ := List.mem_iff_getElem?.mp hmem
  have htable : x.content.table? = some .classes := by
    cases hcontent : x.content <;> rw [hcontent] at hmem <;> first | rfl | cases hmem
  exact ⟨x.id, place, c, x, y, hx, rfl, htable, hplace, hy, hc⟩

/-- A type that was made after its property is external if the target is a designator. -/
theorem exists_target (ha : a.IsFaithful m roots) (hm : a.MakesTypesBut m fun _ => False)
    {inClass : ElementId} {place : Nat} (hk : a.graph.IsNodeOf (.property inClass place) k)
    (hn : n ∈ a.graph.targets (.node k)) (hlt : k < n) :
    ∃ p target, m.property? ⟨inClass, place⟩ = some p ∧ p.target = some target ∧
      a.graph.IsNodeOf (.targeted m target) n ∧
      ∀ z, a.graph.node? n = some z →
        (z.content.isExternal = true ↔ ∃ designator, target = .href designator) := by
  obtain ⟨key, hkey, hnode⟩ := exists_of_mem_right (ha.edges_property hk) hn
  obtain ⟨c, x, y, hx, rfl, htable, hplace, hy, hin⟩ := hk
  obtain ⟨record, generals, nodes, hrecord, _⟩ := ha.umlClass hx htable
  obtain ⟨p, hp, _, y', hy', htype⟩ := hm c x record place k hx hrecord hplace
  obtain rfl := Option.some.inj (hy.symm.trans hy')
  have hchildren : y.content.children = y.content.type?.toList := by
    cases hcontent : y.content <;> rw [hcontent] at hin <;> first | rfl | cases hin
    exact List.append_nil _
  rw [targets_node_eq hy, hchildren] at hn
  obtain ⟨z, target, hz, htarget, hexternal⟩ := htype n (Option.mem_toList.mp hn) hlt
  refine ⟨p, target, ?_, htarget, ?_, fun z' hz' => ?_⟩
  · rw [Model.property?, hrecord]
    exact hp
  · rw [Key.next, hrecord, Option.bind_some, hp, Option.bind_some, htarget] at hkey
    obtain rfl := List.mem_singleton.mp hkey
    exact hnode
  · obtain rfl := Option.some.inj (hz.symm.trans hz')
    rw [hexternal]
    exact Reference.isExternal_ofTarget_iff

/-- The type of a property with a designator is the node of the datatype under the designator. -/
theorem mem_targets_of_isDesignating (ha : a.IsFaithful m roots) {id : ElementId}
    (hn : a.graph.IsEntity .datatypes id n) {inClass : ElementId} {place : Nat} {p : Property}
    (hk : a.graph.IsNodeOf (.property inClass place) k)
    (hp : m.property? ⟨inClass, place⟩ = some p) (ht : p.target = some (.href id.text)) :
    n ∈ a.graph.targets (.node k) := by
  have hkey : Key.element .datatypes id ∈ (Key.property inClass place).next m := by
    have hproperty : ((m.classes.get? inClass).bind fun c => c.properties[place]?) = some p := hp
    rw [Key.next, hproperty, Option.bind_some, ht]
    exact List.mem_singleton_self _
  obtain ⟨t, hmem, hnode⟩ := exists_of_mem_left (ha.edges_property hk) hkey
  obtain rfl := ha.isSettled.isIndexed.eq_of_isEntity hn hnode
  exact hmem

/-- A datatype is external if a property with its identifier as a designator was there before. -/
theorem isExternal_iff (ha : a.IsFaithful m roots) (hm : a.MakesTypesBut m fun _ => False)
    (hd : a.KnowsDesignators) (hz : a.graph.node? n = some z)
    (ht : z.content.table? = some .datatypes) :
    z.content.isExternal = true ↔ ∃ k, k < n ∧ a.graph.IsDesignating m z.id.text k := by
  constructor
  · intro hexternal
    obtain ⟨k, hlt, hrefers, hproperty⟩ := hd n z hz hexternal
    obtain ⟨inClass, place, hk⟩ := ha.exists_isNodeOf_property hproperty
    rw [← references_eq hz, ha.isSettled.mem_references_iff] at hrefers
    obtain ⟨p, target, hp, htarget, hnode, hiff⟩ := ha.exists_target hm hk hrefers hlt
    obtain ⟨designator, rfl⟩ := (hiff z hz).mp hexternal
    obtain ⟨z', hz', hid, _⟩ := hnode
    obtain rfl := Option.some.inj (hz.symm.trans hz')
    refine ⟨k, hlt, inClass, place, p, hk, hp, ?_⟩
    rw [htarget, hid]
  · rintro ⟨k, hlt, inClass, place, p, hk, hp, htarget⟩
    have hmem := ha.mem_targets_of_isDesignating ⟨z, hz, rfl, ht⟩ hk hp htarget
    obtain ⟨p', target, hp', htarget', _, hiff⟩ := ha.exists_target hm hk hmem hlt
    obtain rfl := Option.some.inj (hp.symm.trans hp')
    obtain rfl := Option.some.inj (htarget.symm.trans htarget')
    exact (hiff z hz).mpr ⟨_, rfl⟩

/-- A datatype with a record has the content of the record, or that of its designator. -/
theorem datatype_content (ha : a.IsFaithful m roots) (hz : a.graph.node? n = some z)
    (ht : z.content.table? = some .datatypes) {record : Datatype}
    (hrecord : m.datatypes.get? z.id = some record) :
    z.content = if z.content.isExternal then .datatype (some z.id.text) true []
      else .datatype record.name false record.comments := by
  obtain ⟨x, b, ns, hx, hid, hc, _⟩ := ha.exists_blueprint hz
  rw [hc] at ht
  cases hx with
  | @datatype id d hd =>
      obtain rfl : z.id = id := hid
      obtain rfl := Option.some.inj (hrecord.symm.trans hd)
      rw [hc]
      rfl
  | external designator =>
      rw [hc, hid]
      rfl
  | _ => cases ht

end IsFaithful
end Arena

/-- The node of a datatype of the model shows its record if and only if it was made before the nodes
of all properties that have its identifier as a designator. Otherwise it shows an external datatype
that is named by the designator. -/
theorem datatypeNode_showsRecord_iff {m : Model} {id : ElementId} {n : NodeId} {record : Datatype}
    (hn : (ofModel m).IsEntity .datatypes id n) (hrecord : m.datatypes.get? id = some record) :
    ∃ z, (ofModel m).node? n = some z ∧
      (z.content = .datatype record.name false record.comments ↔
        ∀ k, (ofModel m).IsDesignating m id.text k → n < k) ∧
      (z.content ≠ .datatype record.name false record.comments →
        z.content = .datatype (some id.text) true []) := by
  obtain ⟨a, ha, hm, hd, he⟩ := Arena.exists_knowsDesignators m
  rw [he] at hn ⊢
  obtain ⟨z, hz, rfl, ht⟩ := hn
  have hcontent := ha.datatype_content hz ht hrecord
  have hexternal := ha.isExternal_iff hm hd hz ht
  refine ⟨z, hz, ?_⟩
  cases hcase : z.content.isExternal with
  | true =>
      rw [hcase, if_pos rfl] at hcontent
      obtain ⟨k, hlt, hk⟩ := hexternal.mp hcase
      refine ⟨iff_of_false (fun h => ?_) fun h => ?_, fun _ => hcontent⟩
      · rw [h] at hcase
        cases hcase
      · exact Nat.lt_asymm hlt (h k hk)
  | false =>
      rw [hcase, if_neg Bool.false_ne_true] at hcontent
      refine ⟨iff_of_true hcontent fun k hk => ?_, fun h => absurd hcontent h⟩
      refine Nat.lt_of_le_of_ne (Nat.le_of_not_lt fun hlt => ?_) fun heq => ?_
      · cases hcase.symm.trans (hexternal.mpr ⟨k, hlt, hk⟩)
      · subst heq
        obtain ⟨inClass, place, _, hnode, _⟩ := hk
        have hentity : a.graph.IsNodeOf (.element .datatypes z.id) n := ⟨z, hz, rfl, ht⟩
        cases hentity.eq_element hnode

/-- A class C with a property that has D as a designator, and after it a datatype D. -/
def designatedDocument : Markup.Element :=
  packaged "uml:Model" "m" [packaged "uml:Package" "p" [
    packaged "uml:Class" "C" [
      ⟨"ownedAttribute", .ofList [("xmi:id", "a"), ("name", "a")], none,
        [⟨"type", .ofList [("href", "D")], none, []⟩]⟩],
    ⟨"packagedElement",
      .ofList [("xmi:type", "uml:DataType"), ("xmi:id", "D"), ("name", "Date")], none,
      [⟨"ownedComment", ∅, none, [⟨"body", ∅, some "A day.", []⟩]⟩]⟩]]

theorem datatypeNode_showsRecord_iff_designatedDocument :
    ∃ result record z, build .standard none designatedDocument = .ok result ∧
      result.model.datatypes.get? ⟨"D"⟩ = some record ∧
      (ofModel result.model).IsEntity .datatypes ⟨"D"⟩ 3 ∧
      (ofModel result.model).node? 3 = some z ∧
      (z.content = .datatype record.name false record.comments ↔
        ∀ k, (ofModel result.model).IsDesignating result.model "D" k → 3 < k) ∧
      z.content = .datatype (some "D") true [] := by
  obtain ⟨result, hbuild, hrun⟩ := exists_of_any_eq_true
    (x := build .standard none designatedDocument) (p := fun r => decide (
      (r.model.datatypes.get? ⟨"D"⟩).map (fun d => (d.name, d.comments)) =
        some (some "Date", ["A day."]) ∧
      (ofModel r.model).IsEntity .datatypes ⟨"D"⟩ 3 ∧
      ((ofModel r.model).node? 3).map Node.content ≠
        some (.datatype (some "Date") false ["A day."]))) (by decide +kernel)
  obtain ⟨hrecord, hn, hother⟩ := of_decide_eq_true hrun
  obtain ⟨record, hrecord, hshown⟩ := Option.map_eq_some_iff.mp hrecord
  obtain ⟨hname, hcomments⟩ := Prod.mk.inj hshown
  obtain ⟨z, hz, hiff, hexternal⟩ := datatypeNode_showsRecord_iff hn hrecord
  refine ⟨result, record, z, hbuild, hrecord, hn, hz, hiff, hexternal fun hcontent => hother ?_⟩
  rw [hz, Option.map_some, hcontent, hname, hcomments]

/-- The node of a datatype of the model may show nothing of its record. -/
theorem exists_not_showsRecord_designatedDocument :
    ∃ result record z, build .standard none designatedDocument = .ok result ∧
      result.model.datatypes.get? ⟨"D"⟩ = some record ∧
      record.name = some "Date" ∧ record.comments = ["A day."] ∧
      (ofModel result.model).IsEntity .datatypes ⟨"D"⟩ 3 ∧
      (ofModel result.model).node? 3 = some z ∧
      z.content ≠ .datatype record.name false record.comments := by
  obtain ⟨result, hbuild, hrun⟩ := exists_of_any_eq_true
    (x := build .standard none designatedDocument) (p := fun r => decide (
      (r.model.datatypes.get? ⟨"D"⟩).map (fun d => (d.name, d.comments)) =
        some (some "Date", ["A day."]) ∧
      (ofModel r.model).IsEntity .datatypes ⟨"D"⟩ 3 ∧
      ((ofModel r.model).node? 3).map Node.content = some (.datatype (some "D") true [])))
    (by decide +kernel)
  obtain ⟨hrecord, hn, hcontent⟩ := of_decide_eq_true hrun
  obtain ⟨record, hrecord, hshown⟩ := Option.map_eq_some_iff.mp hrecord
  obtain ⟨hname, hcomments⟩ := Prod.mk.inj hshown
  obtain ⟨z, hz, hcontent⟩ := Option.map_eq_some_iff.mp hcontent
  refine ⟨result, record, z, hbuild, hrecord, hname, hcomments, hn, hz, ?_⟩
  rw [hcontent]
  exact fun h => Bool.false_ne_true (NodeContent.datatype.inj h).2.1.symm

end ObjectGraph
end UmlCatalog
