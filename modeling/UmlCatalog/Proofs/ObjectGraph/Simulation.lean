import UmlCatalog.Proofs.ObjectGraph.Machine

/-!
# Frames against recursion

The construction by frames makes the object graph that the recursion makes. A derivation of a
visit becomes a run from the new frame to the empty stack, below which other frames may wait.

## Implementation notes

The two orders differ in one place. An import or a property is given the node of its child
before the frames of that child run, whereas the recursion comes back to it afterwards. No frame
of the child is for the node itself, and changing the content of a node that no frame is for
commutes with every step.
-/

namespace UmlCatalog
namespace ObjectGraph

namespace Arena
variable (a : Arena) (k : NodeId) (g : NodeContent → NodeContent)

@[simp] theorem nextNode_modifyContent : (a.modifyContent k g).nextNode = a.nextNode :=
  List.length_modify _ _ _

theorem nextNode_create (id : ElementId) (r : Referrer) (content : NodeContent) :
    (a.create id r content).nextNode = a.nextNode + 1 := by
  simp [nextNode]

theorem refer_modifyContent (n : NodeId) (r : Referrer) :
    (a.modifyContent k g).refer n r = (a.refer n r).modifyContent k g :=
  modifyNode_comm a fun _ _ => rfl

variable {a k}

theorem create_modifyContent (hk : k < a.nextNode) (id : ElementId) (r : Referrer)
    (content : NodeContent) :
    (a.modifyContent k g).create id r content = (a.create id r content).modifyContent k g :=
  create_modifyNode a hk _ id r content

theorem modifyContent_comm {n : NodeId} (hk : k ≠ n) (f : NodeContent → NodeContent) :
    (a.modifyContent k g).modifyContent n f = (a.modifyContent n f).modifyContent k g :=
  modifyNode_comm a fun h => absurd h hk

end Arena

/-- What is reached, in an arena with the content of one node changed. -/
def Reached.modifyContent (c : Reached) (k : NodeId) (g : NodeContent → NodeContent) : Reached :=
  { c with arena := c.arena.modifyContent k g }

namespace Reference
variable {m : Model} {a : Arena} {r : Referrer} {x : Reference} {b : Blueprint} {k n : NodeId}

@[simp] theorem known?_modifyContent (x : Reference) (a : Arena) (k : NodeId)
    (g : NodeContent → NodeContent) : x.known? (a.modifyContent k g) = x.known? a := by
  unfold known?
  cases x.table? with
  | none => rfl
  | some t => simp

theorem blueprint?_modifyContent (m : Model) (x : Reference) (a : Arena) (k : NodeId)
    (g : NodeContent → NodeContent) :
    x.blueprint? m (a.modifyContent k g).nextNode = x.blueprint? m a.nextNode := by
  rw [Arena.nextNode_modifyContent]

theorem reach_modifyContent_of_known (hn : x.known? a = some n) (g : NodeContent → NodeContent) :
    x.reach m (a.modifyContent k g) r = (x.reach m a r).modifyContent k g := by
  rw [reach_of_known hn, reach_of_known ((known?_modifyContent x a k g).trans hn),
    Arena.reachAgain, Arena.refer_modifyContent]
  rfl

theorem reach_modifyContent_of_new (hk : k < a.nextNode) (hn : x.known? a = none)
    (hb : x.blueprint? m a.nextNode = some b) (hx : x.isLink = false)
    (g : NodeContent → NodeContent) :
    x.reach m (a.modifyContent k g) r = (x.reach m a r).modifyContent k g := by
  have hn' := (known?_modifyContent x a k g).trans hn
  have hb' := (blueprint?_modifyContent m x a k g).trans hb
  rw [reach_of_new hn hb hx, reach_of_new hn' hb' hx, Arena.create_modifyContent g hk,
    Arena.nextNode_modifyContent]
  rfl

/-- What reaching a reference does is the same whatever the content of an earlier node is. -/
theorem reach_modifyContent_of_not_link (hk : k < a.nextNode) (g : NodeContent → NodeContent)
    (hx : x.isLink = false) (r : Referrer) :
    x.reach m (a.modifyContent k g) r = (x.reach m a r).modifyContent k g := by
  cases hn : x.known? a with
  | some n => exact reach_modifyContent_of_known hn g
  | none =>
      cases hb : x.blueprint? m a.nextNode with
      | some b => exact reach_modifyContent_of_new hk hn hb hx g
      | none =>
          have hn' := (known?_modifyContent x a k g).trans hn
          have hb' := (blueprint?_modifyContent m x a k g).trans hb
          rw [reach_of_unknown hn hb, reach_of_unknown hn' hb']
          cases hmissing : (missing x.id).known? a with
          | some n => exact reach_modifyContent_of_known hmissing g
          | none => exact reach_modifyContent_of_new hk hmissing rfl rfl g

theorem reach_modifyContent (hk : k < a.nextNode) (g : NodeContent → NodeContent)
    (hr : x.Fits r) :
    x.reach m (a.modifyContent k g) r = (x.reach m a r).modifyContent k g := by
  cases hx : x.isLink with
  | false => exact reach_modifyContent_of_not_link hk g hx r
  | true =>
      cases hn : x.known? a with
      | some n => exact reach_modifyContent_of_known hn g
      | none =>
          obtain ⟨b, hb⟩ := exists_blueprint?_of_isLink m a.nextNode hx
          have hsame := Arena.nextNode_modifyContent a k g
          have hcreate := Arena.create_modifyContent g hk x.id r (b.content [])
          have hn' := (known?_modifyContent x a k g).trans hn
          have hb' := (blueprint?_modifyContent m x a k g).trans hb
          rcases reach_of_new_link hn hb hx hr with ⟨hc, he⟩ | ⟨y, c, hy, hc, hyc, he⟩
          · rcases reach_of_new_link hn' hb' hx hr with ⟨_, he'⟩ | ⟨y', _, _, hc', _, _⟩
            · rw [he, he', hcreate, hsame]
              rfl
            · cases hc.symm.trans hc'
          · rcases reach_of_new_link hn' hb' hx hr with ⟨hc', _⟩ | ⟨y', c', _, hc', hyc', he'⟩
            · cases hc.symm.trans hc'
            · obtain rfl : y = y' := List.singleton_inj.mp (hc.symm.trans hc')
              have hlater : k < (a.create x.id r (b.content [])).nextNode := by
                rw [Arena.nextNode_create]
                exact Nat.lt_succ_of_lt hk
              rw [hcreate, hsame, reach_modifyContent_of_not_link hlater g hy, hyc] at hyc'
              subst hyc'
              rw [he, he', hsame]
              exact congrArg (Reached.mk · _ _) (Arena.modifyContent_comm g (Nat.ne_of_lt hk) _)

/-- A frame is for the node that it was made with. -/
theorem node_of_frame? {frame : Frame} (hf : x.frame? m n = some frame) : frame.node = n := by
  cases x with
  | package id =>
      obtain ⟨p, _, rfl⟩ := Option.map_eq_some_iff.mp hf
      rfl
  | umlClass id =>
      obtain ⟨c, _, rfl⟩ := Option.map_eq_some_iff.mp hf
      rfl
  | _ => cases hf

/-- Reaching a reference removes no node, and any frame it makes is for a node that is new. -/
theorem reach_later (m : Model) (a : Arena) (hr : x.Fits r) :
    a.nextNode ≤ (x.reach m a r).arena.nextNode ∧
      ∀ frame, (x.reach m a r).frame = some frame → a.nextNode ≤ frame.node := by
  have hall : a.nextNode ≤ (x.reach m a r).arena.nextNode ∧
      ∀ frame ∈ [] ++ (x.reach m a r).frame.toList, a.nextNode ≤ frame.node := by
    refine reach_invariant (P := fun b frames => a.nextNode ≤ b.nextNode ∧
      ∀ frame ∈ frames, a.nextNode ≤ frame.node) ?_ ?_ ?_ [] ⟨Nat.le_refl _, nofun⟩ hr
    · rintro b n r' frames ⟨hle, hframes⟩
      exact ⟨Nat.le_trans hle (Arena.extends_refer b n r').nextNode_le, hframes⟩
    · rintro y b c r' frames _ _ ⟨hle, hframes⟩
      refine ⟨Nat.le_trans hle (Arena.extends_create b y.id r' _).nextNode_le, fun f hf => ?_⟩
      rcases List.mem_append.mp hf with hf | hf
      · exact hframes f hf
      · rw [node_of_frame? (Option.mem_toList.mp hf)]
        exact hle
    · rintro b n f frames ⟨hle, hframes⟩
      rw [Arena.nextNode_modifyContent]
      exact ⟨hle, hframes⟩
  exact ⟨hall.1, fun frame hf => hall.2 frame (Option.mem_toList.mpr hf)⟩

end Reference

/-- No frame is for a node that is there already. -/
def Away (k : NodeId) (s : Config) : Prop := k < s.1.nextNode ∧ ∀ frame ∈ s.2, frame.node ≠ k

/-- A state with the content of one node changed. -/
def Config.modifyContent (s : Config) (k : NodeId) (g : NodeContent → NodeContent) : Config :=
  (s.1.modifyContent k g, s.2)

/-- A step keeps away from a node and does not see its content. -/
theorem Next.modifyContent {m : Model} {s t : Config} {k : NodeId} (h : Next m s t)
    (hk : Away k s) (g : NodeContent → NodeContent) :
    Away k t ∧ Next m (s.modifyContent k g) (t.modifyContent k g) := by
  obtain ⟨a, frame, stack⟩ := h
  obtain ⟨hlt, hframes⟩ := hk
  have hnode : frame.node ≠ k := hframes frame (List.mem_cons_self ..)
  have hrest : ∀ f ∈ stack, f.node ≠ k := fun f hf => hframes f (List.mem_cons_of_mem _ hf)
  have hmove := Next.step (m := m) (a.modifyContent k g) frame stack
  rcases step_cases m frame with ⟨x, next, hfit, hnext, _, hstep⟩ | ⟨f, _, hstep⟩
  · obtain ⟨hle, hlater⟩ := Reference.reach_later m a hfit
    rw [hstep, Reference.reach_modifyContent hlt g hfit] at hmove
    rw [hstep]
    refine ⟨⟨Nat.lt_of_lt_of_le hlt hle, fun f hf => ?_⟩, hmove⟩
    rcases List.mem_append.mp hf with hnew | hold
    · exact Nat.ne_of_gt (Nat.lt_of_lt_of_le hlt (hlater f (Option.mem_toList.mp hnew)))
    · rcases List.mem_cons.mp hold with rfl | hold
      · rw [hnext]
        exact hnode
      · exact hrest f hold
  · rw [hstep, Arena.modifyContent_comm g hnode.symm] at hmove
    rw [hstep]
    refine ⟨⟨?_, hrest⟩, hmove⟩
    rw [Arena.nextNode_modifyContent]
    exact hlt

/-- So does a run. -/
theorem Steps.modifyContent {m : Model} {s t : Config} {k : NodeId} (h : Steps m s t)
    (hk : Away k s) (g : NodeContent → NodeContent) :
    Steps m (s.modifyContent k g) (t.modifyContent k g) := by
  have hboth : Away k t ∧ Steps m (s.modifyContent k g) (t.modifyContent k g) := by
    induction h with
    | refl => exact ⟨hk, .refl⟩
    | tail _ hnext ih =>
        obtain ⟨haway, hsteps⟩ := ih
        obtain ⟨haway', hnext'⟩ := hnext.modifyContent haway g
        exact ⟨haway', hsteps.tail hnext'⟩
  exact hboth.2

/-- `Resolves m r a xs b ns`: reaching `xs` one after the other on behalf of `r`, each with a
run until its own frames are gone, turns `a` into `b` and finds `ns`. -/
inductive Resolves (m : Model) (r : Referrer) :
    Arena → List Reference → Arena → List NodeId → Prop
  | nil {a} : Resolves m r a [] a []
  | cons {a b c x xs ns}
      (head : Steps m ((x.reach m a r).arena, (x.reach m a r).frame.toList) (b, []))
      (tail : Resolves m r b xs c ns) :
      Resolves m r a (x :: xs) c ((x.reach m a r).node :: ns)

namespace Resolves
variable {m : Model} {r : Referrer} {a b c : Arena} {node : NodeId} {x : Reference}
  {ns : List NodeId}

theorem single {n : NodeId} {frame : Option Frame} (hx : x.reach m a r = ⟨c, n, frame⟩)
    (h : Steps m (c, frame.toList) (b, [])) : Resolves m r a [x] b [n] := by
  have hn : n = (x.reach m a r).node := by rw [hx]
  rw [hn]
  refine .cons ?_ .nil
  rw [hx]
  exact h

theorem single_inv (h : Resolves m r a [x] b ns) :
    ns = [(x.reach m a r).node] ∧
      Steps m ((x.reach m a r).arena, (x.reach m a r).frame.toList) (b, []) := by
  cases h with
  | cons head tail =>
      cases tail
      exact ⟨rfl, head⟩

/-- The frame of a package resolves the elements and stores their nodes. -/
theorem steps_package {es : List ElementRef}
    (h : Resolves m (.node node) a (es.map .ofElement) b ns) (elements : List NodeId) :
    Steps m (a, [.package node es elements])
      (b.modifyContent node (setElements (elements ++ ns)), []) := by
  induction es generalizing a ns elements with
  | nil =>
      cases h
      rw [List.append_nil]
      exact .single (Next.step b (.package node [] elements) [])
  | cons e es ih =>
      cases h with
      | cons head tail =>
          have hfirst := Next.step (m := m) a (.package node (e :: es) elements) []
          simp only [step, Reference.reachElement_eq] at hfirst
          have hrest := ih tail (elements ++ [((Reference.ofElement e).reach m a (.node node)).node])
          rw [List.append_assoc] at hrest
          exact .head hfirst ((head.append _).trans hrest)

/-- Once its superclasses are done, the frame of a class resolves the properties and stores both
kinds of node. -/
theorem steps_properties {ps : List Property}
    (h : Resolves m (.node node) a (ps.map (.property · node)) b ns)
    (generals properties : List NodeId) :
    Steps m (a, [.umlClass node [] ps generals properties])
      (b.modifyContent node (setMembers generals (properties ++ ns)), []) := by
  induction ps generalizing a ns properties with
  | nil =>
      cases h
      rw [List.append_nil]
      exact .single (Next.step b (.umlClass node [] [] generals properties) [])
  | cons p ps ih =>
      cases h with
      | cons head tail =>
          have hfirst := Next.step (m := m) a (.umlClass node [] (p :: ps) generals properties) []
          have hrest := ih tail (properties ++ [(a.reachProperty m p node).node])
          rw [List.append_assoc] at hrest
          exact .head hfirst ((head.append _).trans hrest)

/-- The frame of a class resolves the superclasses first. -/
theorem steps_umlClass {ids : List ElementId} {ps : List Property}
    (h : Resolves m (.node node) a (ids.map (.ofId m) ++ ps.map (.property · node)) b ns)
    (generals : List NodeId) :
    Steps m (a, [.umlClass node ids ps generals []])
      (b.modifyContent node
        (setMembers (generals ++ ns.take ids.length) (ns.drop ids.length)), []) := by
  induction ids generalizing a ns generals with
  | nil =>
      have hproperties := steps_properties h generals []
      simpa using hproperties
  | cons id ids ih =>
      cases h with
      | cons head tail =>
          have hfirst := Next.step (m := m) a (.umlClass node (id :: ids) ps generals []) []
          simp only [step, Reference.reach_eq] at hfirst
          have hrest := ih tail
            (generals ++ [((Reference.ofId m id).reach m a (.node node)).node])
          rw [List.append_assoc] at hrest
          exact .head hfirst ((head.append _).trans hrest)

end Resolves

section Visits
variable {m : Model} {a b : Arena} {r : Referrer} {x : Reference} {p : Blueprint}
  {ns : List NodeId}

/-- After the children of a new node are visited, a change that turns its first content into its
last one is as good as the last content itself. -/
theorem Visits.modifyContent_eq
    (h : Visits m (a.create x.id r (p.content [])) (.node a.nextNode) p.children b ns)
    {f : NodeContent → NodeContent} (hf : f (p.content []) = p.content ns) :
    b.modifyContent a.nextNode (fun _ => p.content ns) = b.modifyContent a.nextNode f := by
  obtain ⟨y, hy, _, hcontent⟩ := h.node?_nextNode
  refine Arena.modifyContent_congr fun z hz => ?_
  obtain rfl := Option.some.inj (hy.symm.trans hz)
  rw [hcontent, hf]

/-- A new node without children is finished at once. -/
theorem Visits.modifyContent_of_children_eq_nil
    (h : Visits m (a.create x.id r (p.content [])) (.node a.nextNode) p.children b ns)
    (hp : p.children = []) :
    b.modifyContent a.nextNode (fun _ => p.content ns) = a.create x.id r (p.content []) := by
  have hns : ns = [] := List.eq_nil_of_length_eq_zero (by rw [h.length_eq, hp]; rfl)
  subst hns
  rw [h.modifyContent_eq (f := fun c => c) rfl, Arena.modifyContent_eq_self fun _ _ => rfl]
  rw [hp] at h
  cases h
  rfl

/-- The frame of a new node ends with the node as the recursion leaves it, once its children are
resolved as the recursion visits them. -/
theorem Visits.steps_frame?
    (h : Visits m (a.create x.id r (p.content [])) (.node a.nextNode) p.children b ns)
    (hp : x.blueprint? m a.nextNode = some p) (hx : x.isLink = false)
    (ih : Resolves m (.node a.nextNode) (a.create x.id r (p.content [])) p.children b ns) :
    Steps m (a.create x.id r (p.content []), (x.frame? m a.nextNode).toList)
      (b.modifyContent a.nextNode fun _ => p.content ns, []) := by
  have hleaf : p.children = [] → x.frame? m a.nextNode = none →
      Steps m (a.create x.id r (p.content []), (x.frame? m a.nextNode).toList)
        (b.modifyContent a.nextNode fun _ => p.content ns, []) := by
    intro hchildren hframe
    rw [hframe, h.modifyContent_of_children_eq_nil hchildren]
    exact .refl
  cases Reference.drawn hp with
  | package hq =>
      rw [Reference.frame?, hq, h.modifyContent_eq (f := setElements ns) rfl]
      exact ih.steps_package []
  | @umlClass id c hc =>
      have hset : setMembers (ns.take c.superClasses.length) (ns.drop c.superClasses.length)
          ((Blueprint.ofClass m c a.nextNode).content []) =
            (Blueprint.ofClass m c a.nextNode).content ns := rfl
      rw [Reference.frame?, hc, h.modifyContent_eq hset]
      exact ih.steps_umlClass []
  | enumeration _ => exact hleaf rfl rfl
  | datatype _ => exact hleaf rfl rfl
  | external designator => exact hleaf rfl rfl
  | missing id => exact hleaf rfl rfl
  | elementImport id => cases hx
  | property q inClass => cases hx

/-- What the recursion visits, the frames resolve. -/
theorem Visits.resolves {xs : List Reference} (h : Visits m a r xs b ns) :
    (∀ x ∈ xs, x.Fits r) → Resolves m r a xs b ns := by
  induction h with
  | nil =>
      intro _
      exact .nil
  | cons _ _ ih₁ ih₂ =>
      intro hfit
      obtain ⟨hx, hxs⟩ := List.forall_mem_cons.mp hfit
      obtain ⟨hn, hhead⟩ := (ih₁ (List.forall_mem_singleton.mpr hx)).single_inv
      obtain rfl := List.singleton_inj.mp hn
      exact .cons hhead (ih₂ hxs)
  | again hk =>
      intro _
      exact .single (Reference.reach_of_known hk _) .refl
  | unknown hk hp _ ih =>
      intro _
      obtain ⟨hn, hsteps⟩ := (ih (List.forall_mem_singleton.mpr trivial)).single_inv
      obtain rfl := List.singleton_inj.mp hn
      exact .single (Reference.reach_of_unknown hk hp _) hsteps
  | @make a b r x p ns hk hp hvisits ih =>
      intro hfit
      have hchildren := ih (Reference.fits_children hp)
      cases hx : x.isLink with
      | false =>
          exact .single (Reference.reach_of_new hk hp hx r)
            (hvisits.steps_frame? hp hx hchildren)
      | true =>
          rcases Reference.reach_of_new_link hk hp hx (List.forall_mem_singleton.mp hfit) with
            ⟨hnone, he⟩ | ⟨y, c, hy, hone, hyc, he⟩
          · rw [hvisits.modifyContent_of_children_eq_nil hnone]
            exact .single he .refl
          · rw [hone] at hchildren
            obtain ⟨rfl, hsteps⟩ := hchildren.single_inv
            -- the frames of the child run after the link is given its node
            obtain ⟨hle, hlater⟩ := Reference.reach_later m (a.create x.id r (p.content []))
              (Reference.fits_of_isLink_eq_false hy (.node a.nextNode))
            rw [Arena.nextNode_create] at hle hlater
            rw [hyc] at hsteps hle hlater
            have haway : Away a.nextNode (c.arena, c.frame.toList) :=
              ⟨hle, fun frame hf => Nat.ne_of_gt (hlater frame (Option.mem_toList.mp hf))⟩
            refine .single he ?_
            rw [hyc]
            exact hsteps.modifyContent haway fun _ => p.content [c.node]

end Visits

/-- What remains of a root's steps is enough to finish it. -/
theorem addRoot_eq_visitRoot {m : Model} {a : Arena}
    (ha : remainingSteps m a ≤ stepBound m) (id : ElementId) :
    addRoot m a id = visitRoot m a id := by
  have hresolves := (visits_visit m a .graph (.package id)).resolves
    (List.forall_mem_singleton.mpr trivial)
  obtain ⟨hn, hsteps⟩ := hresolves.single_inv
  have hcost := Reference.reach_cost (x := .package id) (r := .graph) m a trivial
  have hrun := run_eq_of_steps hsteps (stepBound m) (by
    rw [hcost]
    exact ha)
  show (run m (stepBound m) (Reference.reach m a .graph (.package id)).arena
    (Reference.reach m a .graph (.package id)).frame.toList).addElement
      (Reference.reach m a .graph (.package id)).node = _
  rw [hrun, ← List.singleton_inj.mp hn]
  rfl

/-- The frames leave the top-level packages as the recursion does. -/
theorem foldl_addRoot_eq {m : Model} (ids : List ElementId) {a : Arena}
    (ha : remainingSteps m a ≤ stepBound m) :
    ids.foldl (addRoot m) a = ids.foldl (visitRoot m) a := by
  induction ids generalizing a with
  | nil => rfl
  | cons id ids ih =>
      rw [List.foldl_cons, List.foldl_cons, addRoot_eq_visitRoot ha]
      exact ih (Nat.le_trans (visit m a .graph (.package id)).remainingSteps_le ha)

/-- What holds before anything is reached, and outlasts a visit to a top-level package that is
then listed, holds of some arena with the object graph once all roots are done. -/
theorem ofModel_induction {m : Model} {P : List ElementId → Arena → Prop} (start : P [] (.start m))
    (root : ∀ done a b id n, P done a → Visits m a .graph [.package id] b [n] →
      P (done ++ [id]) (b.addElement n)) :
    ∃ a, P m.packageHierarchy.roots.toList a ∧ ofModel m = a.graph := by
  have hfold : ∀ ids done a, P done a → P (done ++ ids) (ids.foldl (visitRoot m) a) := by
    intro ids
    induction ids with
    | nil =>
        intro done a ha
        rw [List.append_nil]
        exact ha
    | cons id ids ih =>
        intro done a ha
        have hrest := ih _ _ (root done a _ id _ ha (visits_visit m a .graph (.package id)))
        rw [List.append_assoc] at hrest
        exact hrest
  refine ⟨_, hfold _ [] _ start, ?_⟩
  rw [← foldl_addRoot_eq _ (Nat.le_refl _)]
  rfl

/-- The construction by frames makes the object graph that the recursion makes: the same nodes
in the same places, each with the same references and children in the same order, the same
top-level packages and the same tables. -/
theorem ofModel_eq_depthFirst (m : Model) : ofModel m = depthFirst m := by
  unfold ofModel depthFirst
  rw [foldl_addRoot_eq _ (Nat.le_refl _)]

end ObjectGraph
end UmlCatalog
