import Mathlib.Data.List.Forall2
import Mathlib.Data.List.Nodup
import UmlCatalog.Proofs.ObjectGraph.Indexed
import UmlCatalog.Proofs.ObjectGraph.Simulation

/-!
# The loop over frames ends

The construction by frames works until no frame waits. Here that loop is told without a bound on
its steps, together with the frames that it makes. Every step resolves one more child of a record or
finishes a node, so the frames made pay for the steps; and a frame is made only with its node, which
is then found in a table. So no record gets two frames, and the loop ends on every model, whatever
cycles it has.
-/

namespace UmlCatalog
namespace ObjectGraph

/-- The children that a frame has still to resolve, in the order in which it does. -/
def Frame.children (m : Model) : Frame → List Reference
  | .package _ todo _ => todo.map .ofElement
  | .umlClass node todoGenerals todoProperties _ _ =>
      todoGenerals.map (.ofId m) ++ todoProperties.map (.property · node)

/-- `Move m s new t`: one step leads from `s` to `t`. It resolves the next child of the node on top,
which then waits with one child less below the frame that was made for the child, if any; or it
finishes the node on top, which has no child left. -/
inductive Move (m : Model) : Config → Option Frame → Config → Prop
  | resolve {a : Arena} {frame : Frame} {stack : List Frame} {x : Reference} {r : Reached}
      (rest : Frame) (todo : frame.children m = x :: rest.children m) (node_eq : rest.node = frame.node)
      (fits : x.Fits (.node frame.node)) (reach : x.reach m a (.node frame.node) = r)
      (step_eq : step m a frame stack = (r.arena, r.frame.toList ++ rest :: stack)) :
      Move m (a, frame :: stack) r.frame (r.arena, r.frame.toList ++ rest :: stack)
  | finish {a : Arena} {frame : Frame} {stack : List Frame} {f : NodeContent → NodeContent}
      (todo : frame.children m = [])
      (step_eq : step m a frame stack = (a.modifyContent frame.node f, stack)) :
      Move m (a, frame :: stack) none (a.modifyContent frame.node f, stack)

/-- `Drains m s n made a`: from the state `s` the loop makes `n` steps until no frame waits, and
leaves the arena `a`. The frames made on the way are `made`. -/
inductive Drains (m : Model) : Config → Nat → List Frame → Arena → Prop
  | done (a : Arena) : Drains m (a, []) 0 [] a
  | move {s t : Config} {new : Option Frame} {n : Nat} {made : List Frame} {a : Arena}
      (head : Move m s new t) (tail : Drains m t n made a) :
      Drains m s (n + 1) (new.toList ++ made) a

/-- `Builds m a ids n made b`: the top-level packages `ids` are reached one after the other, each
with a loop that ends before the next one. This turns `a` into `b` by `n` steps and makes the frames
`made`. -/
inductive Builds (m : Model) : Arena → List ElementId → Nat → List Frame → Arena → Prop
  | done (a : Arena) : Builds m a [] 0 [] a
  | root {a b c : Arena} {id : ElementId} {ids : List ElementId} {r : Reached} {n n' : Nat}
      {made made' : List Frame} (reach : a.reachPackage m id .graph = r)
      (loop : Drains m (r.arena, r.frame.toList) n made b)
      (tail : Builds m (b.addElement r.node) ids n' made' c) :
      Builds m a (id :: ids) (n + n') (r.frame.toList ++ (made ++ made')) c

/-- A frame is the first one of a record, with everything that the record lists, and the node that
it is for is the one that the tables give to the record. -/
def Reference.Opens (m : Model) (a : Arena) (x : Reference) (frame : Frame) : Prop :=
  x.frame? m frame.node = some frame ∧ x.known? a = some frame.node

/-- The frames are those of as many different records. -/
def Arena.OpenedOnce (m : Model) (a : Arena) (frames : List Frame) : Prop :=
  ∃ records : List Reference, records.Nodup ∧ List.Forall₂ (Reference.Opens m a) records frames

section Steps
variable {m : Model} {a b : Arena} {s t : Config} {n : Nat} {new : Option Frame}
  {made : List Frame} {ids : List ElementId}

theorem Frame.cost_eq (m : Model) (frame : Frame) :
    frame.cost = (frame.children m).length + 1 := by
  cases frame with
  | package _ _ _ => simp [cost, children]
  | umlClass _ _ _ _ _ => simp [cost, children]

/-- Every step is a move of one of the two kinds. -/
theorem exists_move (m : Model) (a : Arena) (frame : Frame) (stack : List Frame) :
    ∃ new t, Move m (a, frame :: stack) new t := by
  cases frame with
  | package node todo elements =>
      cases todo with
      | nil => exact ⟨_, _, .finish (f := setElements elements) rfl rfl⟩
      | cons e todo =>
          have hfits := Reference.fits_ofElement e (.node node)
          let r := (Reference.ofElement e).reach m a (.node node)
          refine ⟨_, _, .resolve (.package node todo (elements ++ [r.node])) rfl rfl hfits rfl ?_⟩
          simp only [step, Reference.reachElement_eq]
          rfl
  | umlClass node todoGenerals todoProperties generals properties =>
      cases todoGenerals with
      | cons general todo =>
          have hfits := Reference.fits_of_isLink_eq_false (Reference.isLink_ofId m general)
            (.node node)
          let r := (Reference.ofId m general).reach m a (.node node)
          refine ⟨_, _, .resolve
            (.umlClass node todo todoProperties (generals ++ [r.node]) properties)
            rfl rfl hfits rfl ?_⟩
          simp only [step, Reference.reach_eq]
          rfl
      | nil =>
          cases todoProperties with
          | nil => exact ⟨_, _, .finish (f := setMembers generals properties) rfl rfl⟩
          | cons p todo =>
              have hfits : (Reference.property p node).Fits (.node node) := rfl
              exact ⟨_, _, .resolve (.umlClass node [] todo generals (properties ++ [_]))
                rfl rfl hfits rfl rfl⟩

theorem Move.next (h : Move m s new t) : Next m s t := by
  cases h with
  | resolve _ _ _ _ _ step_eq | finish _ step_eq =>
      rw [← step_eq]
      exact .step ..

/-- A move is one of the steps that were left. -/
theorem Move.cost (h : Move m s new t) : Config.cost m t + 1 = Config.cost m s := by
  cases h.next with
  | step a frame stack => exact step_cost m a frame stack

/-- A move pays for one step of the frames that wait, and new frames add their own steps. -/
theorem Move.stackCost (h : Move m s new t) :
    ObjectGraph.stackCost t.2 + 1 = ObjectGraph.stackCost (s.2 ++ new.toList) := by
  cases h with
  | resolve _ todo _ _ _ _ =>
      simp only [stackCost_append, stackCost_cons, Frame.cost_eq m, todo, List.length_cons]
      omega
  | finish todo _ =>
      simp only [stackCost_append, stackCost_cons, Frame.cost_eq m, todo, List.length_nil,
        Option.toList_none, stackCost_nil]
      omega

/-- From every state the loop comes to its end. -/
theorem exists_drains (m : Model) (s : Config) : ∃ n made a, Drains m s n made a := by
  generalize hk : Config.cost m s = k
  induction k using Nat.strongRecOn generalizing s with
  | ind k ih =>
      obtain ⟨a, stack⟩ := s
      cases stack with
      | nil => exact ⟨0, [], a, .done a⟩
      | cons frame stack =>
          obtain ⟨new, t, hmove⟩ := exists_move m a frame stack
          have hcost := hmove.cost
          obtain ⟨n, made, b, htail⟩ := ih _ (by omega) t rfl
          exact ⟨n + 1, new.toList ++ made, b, .move hmove htail⟩

theorem Drains.steps (h : Drains m s n made a) : Steps m s (a, []) := by
  induction h with
  | done a => exact .refl
  | move head _ ih => exact ih.head head.next

/-- The steps are those of the frames that waited at the start and of the frames made. -/
theorem Drains.length_eq (h : Drains m s n made a) : n = stackCost (s.2 ++ made) := by
  induction h with
  | done a => rfl
  | move head _ ih =>
      have hmove := head.stackCost
      simp only [stackCost_append] at hmove ih ⊢
      omega

/-- The loop takes no step that was not left at the start. -/
theorem Drains.cost (h : Drains m s n made a) : n + remainingSteps m a = Config.cost m s := by
  induction h with
  | done a => exact Nat.zero_add _
  | move head _ ih =>
      have hmove := head.cost
      omega

theorem Builds.length_eq (h : Builds m a ids n made b) : n = stackCost made := by
  induction h with
  | done a => rfl
  | root _ loop _ ih =>
      have hloop := loop.length_eq
      simp only [stackCost_append] at hloop ih ⊢
      omega

/-- Reaching a top-level package takes no step yet. -/
theorem reachPackage_cost (m : Model) (a : Arena) (id : ElementId) :
    Config.cost m ((a.reachPackage m id .graph).arena,
      (a.reachPackage m id .graph).frame.toList) = remainingSteps m a :=
  Reference.reach_cost (x := .package id) (r := .graph) m a trivial

theorem Builds.cost (h : Builds m a ids n made b) :
    n + remainingSteps m b = remainingSteps m a := by
  induction h with
  | done a => exact Nat.zero_add _
  | @root a b _ id _ r _ _ _ _ reach loop _ ih =>
      subst reach
      have hreach := reachPackage_cost m a id
      have hloop := loop.cost
      have hlisted (k : NodeId) : remainingSteps m (b.addElement k) = remainingSteps m b := rfl
      rw [hlisted] at ih
      omega

/-- Reaching the top-level packages one after the other has an end, and it is the one that the
construction comes to by counting its steps. -/
theorem exists_builds (m : Model) (ids : List ElementId) {a : Arena}
    (ha : remainingSteps m a ≤ stepBound m) :
    ∃ n made, Builds m a ids n made (ids.foldl (addRoot m) a) := by
  induction ids generalizing a with
  | nil => exact ⟨0, [], .done a⟩
  | cons id ids ih =>
      have hreach := reachPackage_cost m a id
      obtain ⟨n, made, b, hloop⟩ := exists_drains m
        ((a.reachPackage m id .graph).arena, (a.reachPackage m id .graph).frame.toList)
      have hcost := hloop.cost
      have hrun := run_eq_of_steps hloop.steps (stepBound m) (by omega)
      have hadd : addRoot m a id = b.addElement (a.reachPackage m id .graph).node :=
        congrArg (Arena.addElement · _) hrun
      have hb : remainingSteps m (b.addElement (a.reachPackage m id .graph).node) ≤ stepBound m := by
        show remainingSteps m b ≤ stepBound m
        omega
      obtain ⟨n', made', htail⟩ := ih hb
      rw [List.foldl_cons, hadd]
      exact ⟨n + n', _, .root rfl hloop htail⟩

end Steps

/-! ### One frame for each record -/

section Opened
variable {m : Model} {a b : Arena} {r : Referrer} {x y : Reference} {c : Blueprint}
  {s t : Config} {n : Nat} {new : Option Frame} {frames made : List Frame} {ids : List ElementId}

/-- Everything that has a node keeps it. -/
def Arena.Remembers (b a : Arena) : Prop :=
  ∀ (x : Reference) (k : NodeId), x.known? a = some k → x.known? b = some k

theorem Reference.Opens.remembers {frame : Frame} (h : x.Opens m a frame) (hba : b.Remembers a) :
    x.Opens m b frame :=
  ⟨h.1, hba x frame.node h.2⟩

theorem Reference.table?_ne_none_of_frame? {node : NodeId} {frame : Frame}
    (h : x.frame? m node = some frame) : x.table? ≠ none := by
  cases x with
  | package _ | umlClass _ => exact Option.some_ne_none _
  | _ => cases h

namespace Arena

theorem known?_create (a : Arena) {content : NodeContent} (hc : content.table? = x.table?)
    (hx : x.table? ≠ none) (r : Referrer) :
    x.known? (a.create x.id r content) = some a.nextNode := by
  obtain ⟨t, ht⟩ := Option.ne_none_iff_exists'.mp hx
  simp [Reference.known?, ht, table_create, hc]

theorem remembers_create (hk : x.known? a = none) {content : NodeContent}
    (hc : content.table? = x.table?) (r : Referrer) :
    (a.create x.id r content).Remembers a := by
  intro y k hy
  obtain ⟨t, ht, hn⟩ := Option.bind_eq_some_iff.mp hy
  refine Option.bind_eq_some_iff.mpr ⟨t, ht, ?_⟩
  rw [table_create]
  split
  · rename_i hct
    have hid : y.id ≠ x.id := by
      intro hid
      rw [hid] at hn
      have hknown : x.known? a = some k := Option.bind_eq_some_iff.mpr ⟨t, hc.symm.trans hct, hn⟩
      cases hk.symm.trans hknown
    rw [OrderedMap.get?_insert_of_ne _ _ hid]
    exact hn
  · exact hn

theorem remembers_of_table_eq (h : ∀ t, b.table t = a.table t) : b.Remembers a := by
  intro x k hk
  simp only [Reference.known?, h]
  exact hk

/-- Records with a frame have a node. -/
theorem known?_ne_none_of_opens {records : List Reference}
    (h : List.Forall₂ (Reference.Opens m a) records frames) : ∀ y ∈ records, y.known? a ≠ none := by
  have hboth := h.imp fun y frame hy => (⟨Option.ne_none_iff_exists'.mpr ⟨_, hy.2⟩, hy⟩ :
    y.known? a ≠ none ∧ y.Opens m a frame)
  exact ((List.forall₂_and_left _ _).mp hboth).1

/-- Frames stay those of their records as long as the nodes are found. -/
theorem OpenedOnce.remembers (h : a.OpenedOnce m frames) (hba : b.Remembers a) :
    b.OpenedOnce m frames := by
  obtain ⟨records, hnodup, hopens⟩ := h
  exact ⟨records, hnodup, hopens.imp fun _ _ hx => hx.remembers hba⟩

theorem OpenedOnce.nil (m : Model) (a : Arena) : a.OpenedOnce m [] := ⟨[], .nil, .nil⟩

/-- Making a node for a record that has none gives the record its only frame. -/
theorem OpenedOnce.create (h : a.OpenedOnce m frames) (hk : x.known? a = none)
    (hb : x.blueprint? m a.nextNode = some c) (r : Referrer) :
    (a.create x.id r (c.content [])).OpenedOnce m
      (frames ++ (x.frame? m a.nextNode).toList) := by
  have hc := table?_content hb []
  have hkeep := remembers_create hk hc r
  cases hf : x.frame? m a.nextNode with
  | none =>
      rw [Option.toList_none, List.append_nil]
      exact h.remembers hkeep
  | some frame =>
      obtain ⟨records, hnodup, hopens⟩ := h
      have hnew : x.Opens m (a.create x.id r (c.content [])) frame := by
        rw [Reference.Opens, Reference.node_of_frame? hf]
        exact ⟨hf, known?_create a hc (Reference.table?_ne_none_of_frame? hf) r⟩
      -- the records with a frame have their nodes already
      have hfresh : x ∉ records := fun hx => known?_ne_none_of_opens hopens x hx hk
      refine ⟨records ++ [x], ?_, List.rel_append ?_ (.cons hnew .nil)⟩
      · rw [← List.concat_eq_append]
        exact hnodup.concat hfresh
      · exact hopens.imp fun y f hy => hy.remembers hkeep

theorem OpenedOnce.refer (h : a.OpenedOnce m frames) (k : NodeId) (r : Referrer) :
    (a.refer k r).OpenedOnce m frames :=
  h.remembers (remembers_of_table_eq fun t => table_modifyNode a k _ t)

theorem OpenedOnce.modifyContent (h : a.OpenedOnce m frames) (k : NodeId)
    (f : NodeContent → NodeContent) : (a.modifyContent k f).OpenedOnce m frames :=
  h.remembers (remembers_of_table_eq fun t => table_modifyContent a k f t)

theorem OpenedOnce.addElement (h : a.OpenedOnce m frames) (k : NodeId) :
    (a.addElement k).OpenedOnce m frames :=
  h.remembers (remembers_of_table_eq fun t => by cases t <;> rfl)

end Arena

/-- Reaching an element makes no frame for a record that has one. -/
theorem Reference.openedOnce_reach (h : a.OpenedOnce m frames) (hr : x.Fits r) :
    (x.reach m a r).arena.OpenedOnce m (frames ++ (x.reach m a r).frame.toList) :=
  reach_invariant (fun _ n r _ h => h.refer n r) (fun _ _ _ r _ hk hb h => h.create hk hb r)
    (fun _ n f _ h => h.modifyContent n f) frames h hr

theorem Move.openedOnce (h : Move m s new t) (hs : s.1.OpenedOnce m frames) :
    t.1.OpenedOnce m (frames ++ new.toList) := by
  cases h with
  | resolve _ _ _ fits reach _ =>
      subst reach
      exact Reference.openedOnce_reach hs fits
  | finish _ _ =>
      rw [Option.toList_none, List.append_nil]
      exact hs.modifyContent ..

theorem Drains.openedOnce (h : Drains m s n made a) :
    ∀ {frames : List Frame}, s.1.OpenedOnce m frames → a.OpenedOnce m (frames ++ made) := by
  induction h with
  | done a =>
      intro frames hs
      rw [List.append_nil]
      exact hs
  | move head _ ih =>
      intro frames hs
      rw [← List.append_assoc]
      exact ih (head.openedOnce hs)

theorem Builds.openedOnce (h : Builds m a ids n made b) :
    ∀ {frames : List Frame}, a.OpenedOnce m frames → b.OpenedOnce m (frames ++ made) := by
  induction h with
  | done a =>
      intro frames ha
      rw [List.append_nil]
      exact ha
  | @root _ _ _ id _ _ _ _ _ _ reach loop _ ih =>
      intro frames ha
      subst reach
      have hroot := Reference.openedOnce_reach (x := .package id) (r := .graph) ha trivial
      rw [← List.append_assoc, ← List.append_assoc]
      exact ih ((loop.openedOnce hroot).addElement _)

end Opened

/-- The construction ends on every model, from whatever state its loop is in. Its steps are those of
the frames it makes, as many as a frame has children and one more, and each frame is that of another
record. So there are never more steps than those of all records. -/
theorem ofModel_ends (m : Model) :
    (∀ s : Config, ∃ n made a, Drains m s n made a) ∧
    ∃ n made a, Builds m (.start m) m.packageHierarchy.roots.toList n made a ∧
      ofModel m = a.graph ∧ n = stackCost made ∧ a.OpenedOnce m made ∧ n ≤ stepBound m := by
  obtain ⟨n, made, hbuilds⟩ := exists_builds m m.packageHierarchy.roots.toList (Nat.le_refl _)
  have hcost : n + remainingSteps m _ = stepBound m := hbuilds.cost
  exact ⟨exists_drains m, n, made, _, hbuilds, rfl, hbuilds.length_eq,
    hbuilds.openedOnce (.nil m _), by omega⟩

end ObjectGraph
end UmlCatalog
