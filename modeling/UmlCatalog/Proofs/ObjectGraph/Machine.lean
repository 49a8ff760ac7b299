import Mathlib.Logic.Relation
import UmlCatalog.Proofs.ObjectGraph.Reach

/-!
# The steps of the stack of frames

How the construction by frames moves. A step acts on the topmost frame alone, so a run carries
over to any frames below. Every step pays for one child or for the completion of one node, which
makes the number of steps known in advance.
-/

namespace UmlCatalog
namespace ObjectGraph

/-- A state of the construction: the arena and the frames that wait, topmost first. -/
abbrev Config := Arena × List Frame

/-- One step of the construction. -/
inductive Next (m : Model) : Config → Config → Prop
  | step (a : Arena) (frame : Frame) (stack : List Frame) :
      Next m (a, frame :: stack) (step m a frame stack)

/-- Any number of steps. -/
abbrev Steps (m : Model) : Config → Config → Prop := Relation.ReflTransGen (Next m)

namespace Frame

/-- The node whose children a frame resolves. -/
def node : Frame → NodeId
  | .package node _ _ => node
  | .umlClass node _ _ _ _ => node

/-- The steps that a frame will take: one for each child to come and one to complete its node. -/
def cost : Frame → Nat
  | .package _ todo _ => todo.length + 1
  | .umlClass _ todoGenerals todoProperties _ _ =>
      todoGenerals.length + todoProperties.length + 1

end Frame

/-- A step either reaches the next child on behalf of the node of the frame, which then waits
with one child less, or gives the node its content and drops the frame. -/
theorem step_cases (m : Model) (frame : Frame) :
    (∃ (x : Reference) (rest : NodeId → Frame), x.Fits (.node frame.node) ∧
      (∀ n, (rest n).node = frame.node) ∧ (∀ n, (rest n).cost + 1 = frame.cost) ∧
      ∀ a stack, step m a frame stack =
        ((x.reach m a (.node frame.node)).arena,
          (x.reach m a (.node frame.node)).frame.toList ++
            rest (x.reach m a (.node frame.node)).node :: stack)) ∨
    ∃ f : NodeContent → NodeContent, frame.cost = 1 ∧
      ∀ a stack, step m a frame stack = (a.modifyContent frame.node f, stack) := by
  cases frame with
  | package node todo elements =>
      cases todo with
      | nil => exact Or.inr ⟨setElements elements, rfl, fun _ _ => rfl⟩
      | cons e todo =>
          refine Or.inl ⟨.ofElement e, fun n => .package node todo (elements ++ [n]),
            Reference.fits_ofElement e _, fun _ => rfl, fun _ => rfl, fun a stack => ?_⟩
          simp only [step, Reference.reachElement_eq]
          rfl
  | umlClass node todoGenerals todoProperties generals properties =>
      cases todoGenerals with
      | cons general todo =>
          refine Or.inl ⟨.ofId m general,
            fun n => .umlClass node todo todoProperties (generals ++ [n]) properties,
            Reference.fits_of_isLink_eq_false (Reference.isLink_ofId m general) _,
            fun _ => rfl, fun _ => ?_, fun a stack => ?_⟩
          · simp only [Frame.cost, List.length_cons]
            omega
          · simp only [step, Reference.reach_eq]
            rfl
      | nil =>
          cases todoProperties with
          | nil => exact Or.inr ⟨setMembers generals properties, rfl, fun _ _ => rfl⟩
          | cons p todo =>
              refine Or.inl ⟨.property p node,
                fun n => .umlClass node [] todo generals (properties ++ [n]), rfl,
                fun _ => rfl, fun _ => ?_, fun _ _ => rfl⟩
              simp only [Frame.cost, List.length_cons]
              omega

/-- A step acts on the topmost frame alone. -/
theorem step_append (m : Model) (a : Arena) (frame : Frame) (stack rest : List Frame) :
    step m a frame (stack ++ rest) =
      ((step m a frame stack).1, (step m a frame stack).2 ++ rest) := by
  rcases step_cases m frame with ⟨x, next, _, _, _, hstep⟩ | ⟨f, _, hstep⟩
  · rw [hstep, hstep, List.append_assoc, List.cons_append]
  · rw [hstep, hstep]

/-- A run carries over to any frames below. -/
theorem Steps.append {m : Model} {s t : Config} (h : Steps m s t) (rest : List Frame) :
    Steps m (s.1, s.2 ++ rest) (t.1, t.2 ++ rest) := by
  induction h with
  | refl => exact .refl
  | tail _ hstep ih =>
      refine ih.tail ?_
      obtain ⟨a, frame, stack⟩ := hstep
      rw [← step_append]
      exact Next.step a frame (stack ++ rest)

/-- The steps that a stack of frames will take by itself. -/
def stackCost : List Frame → Nat
  | [] => 0
  | frame :: stack => frame.cost + stackCost stack

@[simp] theorem stackCost_nil : stackCost [] = 0 := rfl

@[simp] theorem stackCost_cons (frame : Frame) (stack : List Frame) :
    stackCost (frame :: stack) = frame.cost + stackCost stack := rfl

@[simp] theorem stackCost_append (stack rest : List Frame) :
    stackCost (stack ++ rest) = stackCost stack + stackCost rest := by
  induction stack with
  | nil => exact (Nat.zero_add _).symm
  | cons frame stack ih =>
      rw [List.cons_append, stackCost_cons, stackCost_cons, ih, Nat.add_assoc]

/-- The steps that a state has left. -/
def Config.cost (m : Model) (s : Config) : Nat := remainingSteps m s.1 + stackCost s.2

theorem remainingSteps_modifyContent (m : Model) (a : Arena) (n : NodeId)
    (f : NodeContent → NodeContent) :
    remainingSteps m (a.modifyContent n f) = remainingSteps m a := rfl

namespace Reference
variable {m : Model} {a : Arena} {r : Referrer} {x : Reference} {b : Blueprint}

/-- The frame of a new node takes one step for each child and one more. -/
theorem stackCost_frame? (hb : x.blueprint? m a.nextNode = some b) :
    stackCost (x.frame? m a.nextNode).toList =
      if x.isContainer then b.children.length + 1 else 0 := by
  cases drawn hb with
  | package hp => simp [frame?, hp, Frame.cost, Blueprint.ofPackage, isContainer]
  | umlClass hc => simp [frame?, hc, Frame.cost, Blueprint.ofClass, isContainer]
  | enumeration _ => rfl
  | datatype _ => rfl
  | external designator => rfl
  | elementImport id => rfl
  | missing id => rfl
  | property p inClass => rfl

/-- Reaching an element moves the steps of its record into its frame. -/
theorem reach_cost (m : Model) (a : Arena) (hr : x.Fits r) :
    Config.cost m ((x.reach m a r).arena, (x.reach m a r).frame.toList) = remainingSteps m a := by
  refine reach_invariant (P := fun b frames => Config.cost m (b, frames) = remainingSteps m a)
    (fun b n r' frames hb => hb) ?_ (fun b n f frames hb => hb) [] rfl hr
  intro y b c r' frames hk hc hb
  have hnew := remainingSteps_create hk hc r' []
  have hframe := stackCost_frame? hc
  simp only [Config.cost, stackCost_append] at hb ⊢
  omega

end Reference

/-- Every step is one of those that were left. -/
theorem step_cost (m : Model) (a : Arena) (frame : Frame) (stack : List Frame) :
    Config.cost m (step m a frame stack) + 1 = Config.cost m (a, frame :: stack) := by
  rcases step_cases m frame with ⟨x, next, hfit, _, hnext, hstep⟩ | ⟨f, hone, hstep⟩
  · have hreach := Reference.reach_cost m a hfit
    have hrest := hnext (x.reach m a (.node frame.node)).node
    simp only [Config.cost] at hreach
    simp only [hstep, Config.cost, stackCost_append, stackCost_cons]
    omega
  · simp only [hstep, Config.cost, remainingSteps_modifyContent, stackCost_cons]
    omega

/-- A run that has steps enough to end stops where the steps lead. -/
theorem run_eq_of_steps {m : Model} {a b : Arena} {stack : List Frame}
    (h : Steps m (a, stack) (b, [])) :
    ∀ n, Config.cost m (a, stack) ≤ n → run m n a stack = b := by
  generalize hs : (a, stack) = s at h
  induction h using Relation.ReflTransGen.head_induction_on generalizing a stack with
  | refl =>
      cases hs
      intro n _
      cases n <;> rfl
  | head hnext _ ih =>
      cases hnext with
      | step a frame rest =>
          cases hs
          intro n hn
          have hcost := step_cost m a frame rest
          cases n with
          | zero => omega
          | succ n =>
              show run m n (step m a frame rest).1 (step m a frame rest).2 = b
              refine ih rfl n ?_
              show Config.cost m (step m a frame rest) ≤ n
              omega

end ObjectGraph
end UmlCatalog
