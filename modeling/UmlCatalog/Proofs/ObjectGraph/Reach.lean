import UmlCatalog.Proofs.ObjectGraph.Visit

/-!
# Reaching a reference

What the construction by frames does with one reference. The functions that reach packages,
classes, imports and the rest all do the same: they find the node, or make it and leave its
children to a frame. Imports and properties have no frame, since they resolve their only child
at once.
-/

namespace UmlCatalog
namespace ObjectGraph

namespace Reference

/-- What the construction does first with a reference. -/
def reach (m : Model) (a : Arena) (r : Referrer) : Reference → Reached
  | package id => a.reachPackage m id r
  | enumeration id => a.reachEnumeration m id r
  | datatype id => a.reachDatatype m id r
  | external designator => a.reachExternal designator r
  | umlClass id => a.reachClass m id r
  | elementImport id => a.reachImport m id r
  | missing id => a.reachMissing id r
  | property p inClass => a.reachProperty m p inClass

/-- The frame of a new node. -/
def frame? (m : Model) (node : NodeId) : Reference → Option Frame
  | package id => (m.packages.get? id).map fun p => .package node p.elements []
  | umlClass id => (m.classes.get? id).map fun c =>
      .umlClass node c.superClasses c.properties [] []
  | _ => none

/-- Whether a node resolves its only child at once instead of waiting in a frame. -/
def isLink : Reference → Bool
  | elementImport _ => true
  | property _ _ => true
  | _ => false

variable {m : Model} {a : Arena} {r : Referrer} {x : Reference} {b : Blueprint}

theorem reachElement_eq (m : Model) (a : Arena) (e : ElementRef) (r : Referrer) :
    a.reachElement m e r = (ofElement e).reach m a r := by
  unfold Arena.reachElement ofElement
  cases e.kind <;> rfl

theorem reach_eq (m : Model) (a : Arena) (id : ElementId) (r : Referrer) :
    a.reach m id r = (ofId m id).reach m a r := by
  unfold Arena.reach ofId
  repeat' split
  all_goals rfl

theorem reachTarget_eq (m : Model) (a : Arena) (t : Target) (r : Referrer) :
    a.reachTarget m t r = (ofTarget m t).reach m a r := by
  cases t with
  | href designator => rfl
  | idref id => exact reach_eq m a id r

theorem isLink_ofId (m : Model) (id : ElementId) : (ofId m id).isLink = false := by
  unfold ofId
  repeat' split
  all_goals rfl

theorem isLink_ofTarget (m : Model) (t : Target) : (ofTarget m t).isLink = false := by
  cases t with
  | href designator => rfl
  | idref id => exact isLink_ofId m id

/-- An element that has a node is referred to once more. -/
theorem reach_of_known {n : NodeId} (hk : x.known? a = some n) (r : Referrer) :
    x.reach m a r = a.reachAgain n r := by
  cases x with
  | property p inClass => cases hk
  | elementImport id =>
      have hn : (a.table .imports).get? id = some n := hk
      show a.reachImport m id r = _
      simp only [Arena.reachImport, hn]
  | external _ | missing _ => exact Arena.reachIn_of_known hk _ _ _
  | package _ | enumeration _ | datatype _ | umlClass _ =>
      exact Arena.reachRecord_of_known hk _ _

/-- An identifier of a kind without a record for it names nothing. -/
theorem reach_of_unknown (hk : x.known? a = none) (hb : x.blueprint? m a.nextNode = none)
    (r : Referrer) : x.reach m a r = (missing x.id).reach m a r := by
  cases x with
  | package id | enumeration id | datatype id | umlClass id =>
      show a.reachRecord _ _ _ _ = _
      rw [Option.map_eq_none_iff.mp hb]
      exact Arena.reachRecord_of_unknown hk _
  | _ => cases hb

/-- A new node that is no link is made without children; if it can have any, they wait in its
frame. -/
theorem reach_of_new (hk : x.known? a = none) (hb : x.blueprint? m a.nextNode = some b)
    (hx : x.isLink = false) (r : Referrer) :
    x.reach m a r =
      ⟨a.create x.id r (b.content []), a.nextNode, x.frame? m a.nextNode⟩ := by
  cases drawn hb with
  | @package id p hp =>
      show a.reachRecord _ _ _ ((m.packages.get? id).map _) =
        ⟨_, _, (m.packages.get? id).map _⟩
      rw [hp]
      exact Arena.reachRecord_of_new hk _ _ _
  | @umlClass id c hc =>
      show a.reachRecord _ _ _ ((m.classes.get? id).map _) = ⟨_, _, (m.classes.get? id).map _⟩
      rw [hc, Blueprint.ofClass_content_nil]
      exact Arena.reachRecord_of_new hk _ _ _
  | @enumeration id e he =>
      show a.reachRecord _ _ _ ((m.enums.get? id).map _) = _
      rw [he]
      exact Arena.reachRecord_of_new hk _ _ _
  | @datatype id d hd =>
      show a.reachRecord _ _ _ ((m.datatypes.get? id).map _) = _
      rw [hd]
      exact Arena.reachRecord_of_new hk _ _ _
  | external designator => exact Arena.reachIn_of_new hk _ _ _
  | missing id => exact Arena.reachIn_of_new hk _ _ _
  | elementImport id => cases hx
  | property p inClass => cases hx

/-- A reference that is no link refers to a node once more or makes exactly one. -/
theorem reach_cases (m : Model) (a : Arena) (r : Referrer) (hx : x.isLink = false) :
    (∃ (y : Reference) (n : NodeId), y.known? a = some n ∧ x.reach m a r = a.reachAgain n r) ∨
    ∃ (y : Reference) (b : Blueprint), y.isLink = false ∧ y.known? a = none ∧
      y.blueprint? m a.nextNode = some b ∧ x.reach m a r =
        ⟨a.create y.id r (b.content []), a.nextNode, y.frame? m a.nextNode⟩ := by
  cases hk : x.known? a with
  | some n => exact Or.inl ⟨x, n, hk, reach_of_known hk r⟩
  | none =>
      cases hb : x.blueprint? m a.nextNode with
      | some b => exact Or.inr ⟨x, b, hx, hk, hb, reach_of_new hk hb hx r⟩
      | none =>
          rw [reach_of_unknown hk hb]
          cases hm : (missing x.id).known? a with
          | some n => exact Or.inl ⟨missing x.id, n, hm, reach_of_known hm r⟩
          | none =>
              exact Or.inr ⟨missing x.id, _, rfl, hm, rfl, reach_of_new hm rfl rfl r⟩

theorem reach_extends (m : Model) (a : Arena) (r : Referrer) (hx : x.isLink = false) :
    (x.reach m a r).arena.Extends a := by
  rcases reach_cases m a r hx with ⟨_, n, _, he⟩ | ⟨y, b, _, _, _, he⟩
  · rw [he]
    exact Arena.extends_refer a n r
  · rw [he]
    exact Arena.extends_create a _ r _

/-- Properties are resolved on behalf of their own class. -/
def Fits (r : Referrer) : Reference → Prop
  | property _ inClass => r = .node inClass
  | _ => True

theorem fits_ofElement (e : ElementRef) (r : Referrer) : (ofElement e).Fits r := by
  unfold ofElement
  split <;> trivial

theorem fits_of_isLink_eq_false (hx : x.isLink = false) (r : Referrer) : x.Fits r := by
  cases x with
  | property p inClass => cases hx
  | _ => trivial

/-- The children of a node fit the node. -/
theorem fits_children {node : NodeId} (hb : x.blueprint? m node = some b) :
    ∀ y ∈ b.children, y.Fits (.node node) := by
  intro y hy
  cases drawn hb with
  | package _ =>
      obtain ⟨e, _, rfl⟩ := List.mem_map.mp hy
      exact fits_ofElement e _
  | umlClass _ =>
      rcases List.mem_append.mp hy with hy | hy
      · obtain ⟨general, _, rfl⟩ := List.mem_map.mp hy
        exact fits_of_isLink_eq_false (isLink_ofId m general) _
      · obtain ⟨q, _, rfl⟩ := List.mem_map.mp hy
        rfl
  | elementImport id =>
      obtain ⟨i, _, rfl⟩ := List.mem_map.mp hy
      exact fits_of_isLink_eq_false (isLink_ofId m i.idref) _
  | property q inClass =>
      obtain ⟨t, _, rfl⟩ := List.mem_map.mp hy
      exact fits_of_isLink_eq_false (isLink_ofTarget m t) _
  | enumeration _ => cases hy
  | datatype _ => cases hy
  | external designator => cases hy
  | missing id => cases hy

/-- No record is needed to make a link. -/
theorem exists_blueprint?_of_isLink (m : Model) (node : NodeId) (hx : x.isLink = true) :
    ∃ b, x.blueprint? m node = some b := by
  cases x with
  | elementImport id => exact ⟨_, rfl⟩
  | property p inClass => exact ⟨_, rfl⟩
  | _ => cases hx

/-- A new link is made and given the node of its child, if it has one, before that node's own
children are resolved. -/
theorem reach_of_new_link (hk : x.known? a = none) (hb : x.blueprint? m a.nextNode = some b)
    (hx : x.isLink = true) (hr : x.Fits r) :
    (b.children = [] ∧
      x.reach m a r = ⟨a.create x.id r (b.content []), a.nextNode, none⟩) ∨
    ∃ (y : Reference) (c : Reached), y.isLink = false ∧ b.children = [y] ∧
      y.reach m (a.create x.id r (b.content [])) (.node a.nextNode) = c ∧
      x.reach m a r =
        ⟨c.arena.modifyContent a.nextNode fun _ => b.content [c.node], a.nextNode, c.frame⟩ := by
  have hkept : ∀ y : Reference, y.isLink = false → ∀ z,
      (y.reach m (a.create x.id r (b.content [])) (.node a.nextNode)).arena.graph.node?
        a.nextNode = some z → z.content = b.content [] := by
    intro y hy z hz
    obtain ⟨z', hz', _, hc⟩ := reach_extends m (a.create x.id r (b.content []))
      (.node a.nextNode) hy a.nextNode ⟨x.id, [r], b.content []⟩
      (by rw [Arena.node?_create, if_pos rfl])
    obtain rfl := Option.some.inj (hz.symm.trans hz')
    exact hc
  cases drawn hb with
  | elementImport id =>
      have hn : (a.table .imports).get? id = none := hk
      cases hi : m.imports.get? id with
      | none =>
          refine Or.inl ⟨by simp [Blueprint.ofImport, hi], ?_⟩
          show a.reachImport m id r = _
          simp only [Arena.reachImport, hn, hi]
          rfl
      | some i =>
          refine Or.inr ⟨ofId m i.idref, _, isLink_ofId m i.idref,
            by simp [Blueprint.ofImport, hi], rfl, ?_⟩
          show a.reachImport m id r = _
          simp only [Arena.reachImport, hn, hi, reach_eq]
          refine congrArg (Reached.mk · _ _) (Arena.modifyContent_congr fun z hz => ?_)
          rw [hkept _ (isLink_ofId m i.idref) z hz]
          rfl
  | property p inClass =>
      obtain rfl : r = .node inClass := hr
      cases ht : p.target with
      | none =>
          refine Or.inl ⟨by simp [Blueprint.ofProperty, ht], ?_⟩
          show a.reachProperty m p inClass = _
          simp only [Arena.reachProperty, ht]
          rfl
      | some t =>
          refine Or.inr ⟨ofTarget m t, _, isLink_ofTarget m t,
            by simp [Blueprint.ofProperty, ht], rfl, ?_⟩
          show a.reachProperty m p inClass = _
          simp only [Arena.reachProperty, ht, reachTarget_eq]
          refine congrArg (Reached.mk · _ _) (Arena.modifyContent_congr fun z hz => ?_)
          rw [hkept _ (isLink_ofTarget m t) z hz]
          rfl
  | package _ => cases hx
  | enumeration _ => cases hx
  | datatype _ => cases hx
  | external designator => cases hx
  | umlClass _ => cases hx
  | missing id => cases hx

theorem frame?_of_isLink (m : Model) (node : NodeId) (hx : x.isLink = true) :
    x.frame? m node = none := by
  cases x with
  | elementImport _ | property _ _ => rfl
  | _ => cases hx

/-- Reaching a reference finds a node again or makes one, with its frame, and may come back to the
content of a link. A property of the arena and of the frames made so far that outlasts these three
outlasts the whole. -/
theorem reach_invariant {P : Arena → List Frame → Prop}
    (again : ∀ a n r frames, P a frames → P (a.refer n r) frames)
    (new : ∀ (x : Reference) a b r frames, x.known? a = none →
      x.blueprint? m a.nextNode = some b → P a frames →
        P (a.create x.id r (b.content [])) (frames ++ (x.frame? m a.nextNode).toList))
    (finish : ∀ a n f frames, P a frames → P (a.modifyContent n f) frames)
    (frames : List Frame) (ha : P a frames) (hr : x.Fits r) :
    P (x.reach m a r).arena (frames ++ (x.reach m a r).frame.toList) := by
  have hagain : ∀ a n r, P a frames →
      P (a.reachAgain n r).arena (frames ++ (a.reachAgain n r).frame.toList) := by
    intro a n r ha
    show P (a.refer n r) (frames ++ [])
    rw [List.append_nil]
    exact again a n r frames ha
  have hplain : ∀ (y : Reference) a r, y.isLink = false → P a frames →
      P (y.reach m a r).arena (frames ++ (y.reach m a r).frame.toList) := by
    intro y a r hy ha
    rcases reach_cases m a r hy with ⟨_, n, _, he⟩ | ⟨z, b, _, hk, hb, he⟩
    · rw [he]
      exact hagain a n r ha
    · rw [he]
      exact new z a b r frames hk hb ha
  cases hx : x.isLink with
  | false => exact hplain x a r hx ha
  | true =>
      cases hk : x.known? a with
      | some n =>
          rw [reach_of_known hk]
          exact hagain a n r ha
      | none =>
          obtain ⟨b, hb⟩ := exists_blueprint?_of_isLink m a.nextNode hx
          have hnew := new x a b r frames hk hb ha
          rw [frame?_of_isLink m _ hx] at hnew
          rcases reach_of_new_link hk hb hx hr with ⟨_, he⟩ | ⟨y, c, hy, _, hc, he⟩
          · rw [he]
            exact hnew
          · rw [Option.toList_none, List.append_nil] at hnew
            have hchild := hplain y _ (.node a.nextNode) hy hnew
            rw [hc] at hchild
            rw [he]
            exact finish c.arena a.nextNode (fun _ => b.content [c.node]) _ hchild

end Reference

end ObjectGraph
end UmlCatalog
