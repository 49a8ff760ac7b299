import UmlCatalog.Proofs.ObjectGraph.DepthFirst

/-!
# Visits as derivations

What a visit does to an arena, one rule for each way it can go. The recursion always follows
one of the rules, so whatever the rules keep holds of the recursion.

## Implementation notes

A single element is a list of one reference, so one relation covers both functions of the
recursion and its induction has one case for each rule.
-/

namespace UmlCatalog
namespace ObjectGraph

/-- `Visits m a r xs b ns`: visiting `xs` on behalf of `r` turns `a` into `b` and finds `ns`. -/
inductive Visits (m : Model) : Arena → Referrer → List Reference → Arena → List NodeId → Prop
  | nil {a r} : Visits m a r [] a []
  | cons {a b c r x xs n ns} (head : Visits m a r [x] b [n]) (tail : Visits m b r xs c ns) :
      Visits m a r (x :: xs) c (n :: ns)
  | again {a r x n} (hk : x.known? a = some n) : Visits m a r [x] (a.refer n r) [n]
  | make {a b r x p ns} (hk : x.known? a = none) (hp : x.blueprint? m a.nextNode = some p)
      (children : Visits m (a.create x.id r (p.content [])) (.node a.nextNode) p.children b ns) :
      Visits m a r [x] (b.modifyContent a.nextNode fun _ => p.content ns) [a.nextNode]
  | unknown {a b r x n} (hk : x.known? a = none) (hp : x.blueprint? m a.nextNode = none)
      (missing : Visits m a r [.missing x.id] b [n]) : Visits m a r [x] b [n]

/-- The recursion follows the rules. -/
theorem visits_visit (m : Model) (a : Arena) (r : Referrer) (x : Reference) :
    Visits m a r [x] (visit m a r x).arena [(visit m a r x).result] := by
  refine visit.induct
    (fun m a r x => Visits m a r [x] (visit m a r x).arena [(visit m a r x).result])
    (fun m a r xs => Visits m a r xs (visitAll m a r xs).arena (visitAll m a r xs).result)
    ?again ?unknown ?make ?nil ?cons m a r x
  case again =>
    intro m a r x n hk
    rw [visit]
    split
    · rename_i hk'
      obtain rfl := Option.some.inj (hk.symm.trans hk')
      exact .again hk
    · rename_i hk'
      cases hk.symm.trans hk'
  case unknown =>
    intro m a r x hk hp ih
    rw [visit]
    split
    · rename_i hk'
      cases hk.symm.trans hk'
    · split
      · exact .unknown hk hp ih
      · rename_i hp'
        cases hp.symm.trans hp'
  case make =>
    intro m a r x hk p hp ih
    rw [visit]
    split
    · rename_i hk'
      cases hk.symm.trans hk'
    · split
      · rename_i hp'
        cases hp.symm.trans hp'
      · rename_i hp'
        obtain rfl := Option.some.inj (hp.symm.trans hp')
        exact .make hk hp ih
  case nil =>
    intro m a r
    rw [visitAll]
    exact .nil
  case cons =>
    intro m a r x xs v ih₁ ih₂ _
    rw [visitAll]
    exact .cons ih₁ ih₂

/-- Every node stays in its place, with its identifier and its content. -/
def Arena.Extends (b a : Arena) : Prop :=
  ∀ n x, a.graph.node? n = some x →
    ∃ y, b.graph.node? n = some y ∧ y.id = x.id ∧ y.content = x.content

namespace Arena
variable {a b c : Arena}

theorem lt_nextNode {n : NodeId} {x : Node} (hn : a.graph.node? n = some x) : n < a.nextNode :=
  (List.getElem?_eq_some_iff.mp hn).1

theorem exists_node?_of_lt {n : NodeId} (hn : n < a.nextNode) : ∃ x, a.graph.node? n = some x :=
  ⟨_, List.getElem?_eq_getElem hn⟩

theorem Extends.refl (a : Arena) : a.Extends a := fun _ _ hn => ⟨_, hn, rfl, rfl⟩

theorem Extends.trans (hcb : c.Extends b) (hba : b.Extends a) : c.Extends a := by
  intro n x hn
  obtain ⟨y, hy, hyid, hyc⟩ := hba n x hn
  obtain ⟨z, hz, hzid, hzc⟩ := hcb n y hy
  exact ⟨z, hz, hzid.trans hyid, hzc.trans hyc⟩

theorem Extends.nextNode_le (hba : b.Extends a) : a.nextNode ≤ b.nextNode := by
  refine Nat.le_of_not_lt fun hlt => ?_
  obtain ⟨x, hx⟩ := exists_node?_of_lt hlt
  obtain ⟨y, hy, _, _⟩ := hba _ x hx
  exact Nat.lt_irrefl _ (lt_nextNode hy)

theorem extends_refer (a : Arena) (node : NodeId) (r : Referrer) : (a.refer node r).Extends a := by
  intro n x hn
  rw [node?_refer, hn]
  refine ⟨_, rfl, ?_, ?_⟩
  · split <;> rfl
  · split <;> rfl

theorem extends_create (a : Arena) (id : ElementId) (r : Referrer) (content : NodeContent) :
    (a.create id r content).Extends a := by
  intro n x hn
  rw [node?_create, if_neg (Nat.ne_of_lt (lt_nextNode hn))]
  exact ⟨x, hn, rfl, rfl⟩

/-- Giving content to a later node leaves the earlier ones alone. -/
theorem Extends.modifyContent (hba : b.Extends a) {node : NodeId} (hn : a.nextNode ≤ node)
    (f : NodeContent → NodeContent) : (b.modifyContent node f).Extends a := by
  intro n x hx
  obtain ⟨y, hy, hid, hc⟩ := hba n x hx
  have hne : n ≠ node := Nat.ne_of_lt (Nat.lt_of_lt_of_le (lt_nextNode hx) hn)
  rw [node?_modifyContent, hy]
  exact ⟨y, by simp [hne], hid, hc⟩

end Arena

/-- A visit changes no node that was there before it, except for its references. -/
theorem Visits.extends {m : Model} {a b : Arena} {r : Referrer} {xs : List Reference}
    {ns : List NodeId} (h : Visits m a r xs b ns) : b.Extends a := by
  induction h with
  | nil => exact Arena.Extends.refl _
  | cons _ _ ih₁ ih₂ => exact ih₂.trans ih₁
  | again _ => exact Arena.extends_refer _ _ _
  | make _ _ _ ih =>
      exact Arena.Extends.modifyContent (ih.trans (Arena.extends_create _ _ _ _)) (Nat.le_refl _) _
  | unknown _ _ _ ih => exact ih

theorem Visits.length_eq {m : Model} {a b : Arena} {r : Referrer} {xs : List Reference}
    {ns : List NodeId} (h : Visits m a r xs b ns) : ns.length = xs.length := by
  induction h with
  | nil => rfl
  | cons _ _ _ ih => simp [ih]
  | again _ => rfl
  | make _ _ _ _ => rfl
  | unknown _ _ _ _ => rfl

/-- A visit to several elements visits the first one first. -/
theorem Visits.cons_inv {m : Model} {a c : Arena} {r : Referrer} {x : Reference}
    {xs : List Reference} {ns : List NodeId} (h : Visits m a r (x :: xs) c ns) :
    ∃ b n rest, Visits m a r [x] b [n] ∧ Visits m b r xs c rest ∧ ns = n :: rest := by
  cases h with
  | cons head tail => exact ⟨_, _, _, head, tail, rfl⟩
  | again hk => exact ⟨_, _, _, .again hk, .nil, rfl⟩
  | make hk hp children => exact ⟨_, _, _, .make hk hp children, .nil, rfl⟩
  | unknown hk hp missing => exact ⟨_, _, _, .unknown hk hp missing, .nil, rfl⟩

theorem Visits.append_inv {m : Model} {c : Arena} {r : Referrer} {ys : List Reference} :
    ∀ {xs : List Reference} {a : Arena} {ns : List NodeId}, Visits m a r (xs ++ ys) c ns →
      ∃ b ms rest, Visits m a r xs b ms ∧ Visits m b r ys c rest ∧ ns = ms ++ rest := by
  intro xs
  induction xs with
  | nil =>
      intro a ns h
      exact ⟨a, [], ns, .nil, h, rfl⟩
  | cons x xs ih =>
      intro a ns h
      obtain ⟨b, n, rest, hhead, htail, rfl⟩ := h.cons_inv
      obtain ⟨d, ms, last, hms, hlast, rfl⟩ := ih htail
      exact ⟨d, n :: ms, last, .cons hhead hms, hlast, rfl⟩

/-- A visit to one element follows the rule for its node. -/
theorem Visits.single_cases {m : Model} {a b : Arena} {r : Referrer} {x : Reference} {n : NodeId}
    (h : Visits m a r [x] b [n]) :
    (x.known? a = some n ∧ b = a.refer n r) ∨
    (∃ p c ns, x.blueprint? m a.nextNode = some p ∧
      Visits m (a.create x.id r (p.content [])) (.node a.nextNode) p.children c ns ∧
      b = c.modifyContent a.nextNode (fun _ => p.content ns) ∧ n = a.nextNode) ∨
    (x.blueprint? m a.nextNode = none ∧ Visits m a r [.missing x.id] b [n]) := by
  generalize hxs : [x] = xs at h
  generalize hns : [n] = ns at h
  induction h with
  | nil => cases hxs
  | cons head tail ih _ =>
      obtain ⟨rfl, rfl⟩ := List.cons.inj hxs
      obtain ⟨rfl, rfl⟩ := List.cons.inj hns
      cases tail
      exact ih rfl rfl
  | again hk =>
      obtain ⟨rfl, _⟩ := List.cons.inj hxs
      obtain ⟨rfl, _⟩ := List.cons.inj hns
      exact Or.inl ⟨hk, rfl⟩
  | make _ hp children =>
      obtain ⟨rfl, _⟩ := List.cons.inj hxs
      obtain ⟨rfl, _⟩ := List.cons.inj hns
      exact Or.inr (Or.inl ⟨_, _, _, hp, children, rfl, rfl⟩)
  | unknown _ hp missing =>
      obtain ⟨rfl, _⟩ := List.cons.inj hxs
      obtain ⟨rfl, _⟩ := List.cons.inj hns
      exact Or.inr (Or.inr ⟨hp, missing⟩)

/-- Until its children are visited, a new node keeps the content that it was made with. -/
theorem Visits.node?_nextNode {m : Model} {a b : Arena} {r : Referrer} {id : ElementId}
    {content : NodeContent} {xs : List Reference} {ns : List NodeId}
    (h : Visits m (a.create id r content) (.node a.nextNode) xs b ns) :
    ∃ y, b.graph.node? a.nextNode = some y ∧ y.id = id ∧ y.content = content := by
  have hn : (a.create id r content).graph.node? a.nextNode = some ⟨id, [r], content⟩ := by
    rw [Arena.node?_create, if_pos rfl]
  exact h.extends _ _ hn

end ObjectGraph
end UmlCatalog
