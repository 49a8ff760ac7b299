import UmlCatalog.Proofs.Hierarchy.History

/-!
# Recording an edge in place

A hierarchy is kept in place: an edge is checked first, and then one stored list after the other is
extended. So an edge that is refused leaves nothing behind, and one that is accepted only appends to
the lists. Whether all edges of a list are accepted is a matter of cycles, so it does not depend on
their order.

## Implementation notes

`recordInPlace` spells out the changes that `add` makes, in the order in which they are made, and
keeps the hierarchy that a failure leaves behind. Everything else is stated of both.
-/

namespace UmlCatalog
open Relation

namespace Hierarchy
variable {h h' : Hierarchy} {edge : ElementId → ElementId → Prop} {single : ElementId → Prop}
variable {parent child : ElementId} {edges : List (ElementId × ElementId)}

/-! ### The changes one after the other -/

/-- An action on the hierarchy at hand. Where it fails, the hierarchy is left as it is there. -/
abbrev Action := ExceptT ModelError (StateM Hierarchy)

/-- Join two nodes in place: first both are registered, then all that lies above the one and all
that lies below the other is told of the new paths. -/
def linkInPlace (parent child : ElementId) : Action Unit := do
  modify fun h => h.insert parent
  modify fun h => h.insert child
  modify fun h => { h with roots := h.roots.erase child }
  let h ← get
  let descendants := ((∅ : OrderedSet ElementId).insert child).insertMany
    (h.childrenOf child).toList
  let ancestors := ((∅ : OrderedSet ElementId).insert parent).insertMany
    (h.parentsOf parent).toList
  for a in ancestors.toList do
    modify fun h =>
      { h with children := h.children.modify a fun s => s.insertMany descendants.toList }
  for d in descendants.toList do
    modify fun h =>
      { h with parents := h.parents.modify d fun s => s.insertMany ancestors.toList }

/-- Record an edge in place, unless it is implied. -/
def recordInPlace (parent child : ElementId) : Action Unit := do
  let h ← get
  if h.isAncestor parent child then
    return
  if parent = child ∨ h.isAncestor child parent = true then
    throw (.hierarchyCycle parent child)
  linkInPlace parent child

namespace Action
variable {α β : Type}

/-- What an action says, and the hierarchy that it leaves behind. -/
def on (action : Action α) (h : Hierarchy) : Except ModelError α × Hierarchy := action.run.run h

theorem on_get_bind (next : Hierarchy → Action α) (h : Hierarchy) :
    on (get >>= next) h = (next h).on h := rfl

theorem on_modify_bind (change : Hierarchy → Hierarchy) (next : Action α) (h : Hierarchy) :
    on (modify change >>= fun _ => next) h = next.on (change h) := rfl

theorem on_bind {action : Action α} {next : α → Action β} {a : α} (ha : action.on h = (.ok a, h')) :
    (action >>= next).on h = (next a).on h' := by
  unfold on at ha ⊢
  rw [ExceptT.run_bind, StateT.run_bind, ha]
  rfl

/-- A loop of changes makes them one after the other. -/
theorem on_forIn_modify (change : α → Hierarchy → Hierarchy) (xs : List α) (h : Hierarchy) :
    on (forIn xs PUnit.unit fun x _ => do
      modify (change x)
      pure (.yield PUnit.unit)) h = (.ok PUnit.unit, xs.foldl (fun h x => change x h) h) := by
  induction xs generalizing h with
  | nil => rfl
  | cons x xs ih =>
      rw [List.forIn_cons]
      exact ih (change x h)

end Action

theorem foldl_modify_children (h : Hierarchy) (nodes new : List ElementId) :
    nodes.foldl (fun h a =>
      { h with children := h.children.modify a fun s => s.insertMany new }) h =
      { h with children := extendAll h.children nodes new } := by
  induction nodes generalizing h with
  | nil => rfl
  | cons a nodes ih => exact ih _

theorem foldl_modify_parents (h : Hierarchy) (nodes new : List ElementId) :
    nodes.foldl (fun h d =>
      { h with parents := h.parents.modify d fun s => s.insertMany new }) h =
      { h with parents := extendAll h.parents nodes new } := by
  induction nodes generalizing h with
  | nil => rfl
  | cons d nodes ih => exact ih _

theorem on_linkInPlace (h : Hierarchy) (parent child : ElementId) :
    (linkInPlace parent child).on h = (.ok (), h.link parent child) := by
  rw [linkInPlace, Action.on_modify_bind, Action.on_modify_bind, Action.on_modify_bind,
    Action.on_get_bind]
  dsimp only
  rw [Action.on_bind (Action.on_forIn_modify _ _ _), Action.on_bind (Action.on_forIn_modify _ _ _),
    foldl_modify_children, foldl_modify_parents]
  rfl

/-- Recording an edge in place says what `add` says. A refused edge leaves the hierarchy as it
was. -/
theorem on_recordInPlace (h : Hierarchy) (parent child : ElementId) :
    (recordInPlace parent child).on h = match h.add parent child with
      | .ok h' => (.ok (), h')
      | .error e => (.error e, h) := by
  rw [recordInPlace, Action.on_get_bind, add]
  split
  · rfl
  · split
    · rfl
    · exact on_linkInPlace h parent child

/-! ### Lists are only appended to -/

/-- Every stored list is still there, with nothing but new nodes behind the old ones. -/
structure ExtendsTo (h h' : Hierarchy) : Prop where
  parents : ∀ x s, h.parents.get? x = some s →
    ∃ s', h'.parents.get? x = some s' ∧ s.toList <+: s'.toList
  children : ∀ x s, h.children.get? x = some s →
    ∃ s', h'.children.get? x = some s' ∧ s.toList <+: s'.toList

theorem ExtendsTo.refl (h : Hierarchy) : h.ExtendsTo h :=
  ⟨fun _ s hs => ⟨s, hs, List.prefix_rfl⟩, fun _ s hs => ⟨s, hs, List.prefix_rfl⟩⟩

theorem ExtendsTo.trans {h'' : Hierarchy} (hh : h.ExtendsTo h') (hh' : h'.ExtendsTo h'') :
    h.ExtendsTo h'' where
  parents x s hs := by
    obtain ⟨s', hs', hprefix⟩ := hh.parents x s hs
    obtain ⟨s'', hs'', hprefix'⟩ := hh'.parents x s' hs'
    exact ⟨s'', hs'', hprefix.trans hprefix'⟩
  children x s hs := by
    obtain ⟨s', hs', hprefix⟩ := hh.children x s hs
    obtain ⟨s'', hs'', hprefix'⟩ := hh'.children x s' hs'
    exact ⟨s'', hs'', hprefix.trans hprefix'⟩

/-- A node that is new has no list yet. -/
theorem extendsTo_insert (hk : h.children.keys = h.parents.keys) (id : ElementId) :
    h.ExtendsTo (h.insert id) := by
  unfold insert
  split
  · exact .refl h
  · rename_i hnew
    have hne : ∀ x, x ∈ h.parents.keys → x ≠ id := by
      rintro x hx rfl
      exact hnew (Hierarchy.contains_iff.mpr hx)
    constructor
    · intro x s hs
      refine ⟨s, ?_, List.prefix_rfl⟩
      exact (OrderedMap.get?_insert_of_ne _ _ (hne x (OrderedMap.mem_keys_of_get? hs))).trans hs
    · intro x s hs
      refine ⟨s, ?_, List.prefix_rfl⟩
      have hx := hk ▸ OrderedMap.mem_keys_of_get? hs
      exact (OrderedMap.get?_insert_of_ne _ _ (hne x hx)).trans hs

theorem exists_get?_extendAll {sets : OrderedMap ElementId (OrderedSet ElementId)}
    {nodes : List ElementId} (new : List ElementId) {x : ElementId} {s : OrderedSet ElementId}
    (hs : sets.get? x = some s) :
    ∃ s', (extendAll sets nodes new).get? x = some s' ∧ s.toList <+: s'.toList := by
  induction nodes generalizing sets s with
  | nil => exact ⟨s, hs, List.prefix_rfl⟩
  | cons a nodes ih =>
      have hmodify := OrderedMap.get?_modify sets a (fun s => s.insertMany new) x
      rw [hs] at hmodify
      split at hmodify
      · obtain ⟨s', hs', hprefix⟩ := ih hmodify
        exact ⟨s', hs', (OrderedSet.toList_isPrefix_insertMany s new).trans hprefix⟩
      · exact ih hmodify

theorem extendsTo_join (h : Hierarchy) (parent child : ElementId) :
    h.ExtendsTo (h.join parent child) :=
  ⟨fun _ _ hs => exists_get?_extendAll _ hs, fun _ _ hs => exists_get?_extendAll _ hs⟩

/-- An accepted edge appends to the lists. -/
theorem extendsTo_of_add_eq_ok (hk : h.children.keys = h.parents.keys)
    (hadd : h.add parent child = .ok h') : h.ExtendsTo h' := by
  rcases h.add_cases parent child with ⟨_, he⟩ | ⟨_, he⟩ | ⟨_, _, _, he⟩
  · obtain rfl := Except.ok.inj (he.symm.trans hadd)
    exact .refl h
  · cases he.symm.trans hadd
  · obtain rfl := Except.ok.inj (he.symm.trans hadd)
    have hk' := keys_children_insert hk parent
    exact ((extendsTo_insert hk parent).trans (extendsTo_insert hk' child)).trans
      (extendsTo_join _ parent child)

/-! ### The order of edges does not matter -/

/-- Record the edges of a list, until one is refused. -/
def addAll (h : Hierarchy) (edges : List (ElementId × ElementId)) : Except ModelError Hierarchy :=
  edges.foldlM (fun h e => h.add e.1 e.2) h

/-- The edges after those of a list are recorded. -/
def withEdges (edge : ElementId → ElementId → Prop) (edges : List (ElementId × ElementId)) :
    ElementId → ElementId → Prop :=
  fun x y => edge x y ∨ (x, y) ∈ edges

theorem withEdges_cons (edge : ElementId → ElementId → Prop) (parent child : ElementId)
    (edges : List (ElementId × ElementId)) :
    withEdges edge ((parent, child) :: edges) = withEdges (withEdge edge parent child) edges := by
  funext x y
  simp only [withEdges, withEdge, List.mem_cons, Prod.mk.injEq, or_assoc]

/-- No edge of a list is refused. -/
def Accepts (h : Hierarchy) (edges : List (ElementId × ElementId)) : Prop :=
  ∃ h', h.addAll edges = .ok h'

/-- The edges of a list are accepted exactly if they close no cycle. -/
theorem IsClosure.accepts_iff (hh : h.IsClosure edge single) :
    h.Accepts edges ↔ ∀ x, ¬ TransGen (withEdges edge edges) x x := by
  induction edges generalizing h edge with
  | nil =>
      have hsame : withEdges edge [] = edge := by
        funext x y
        simp [withEdges]
      rw [hsame]
      exact iff_of_true ⟨h, rfl⟩ hh.acyclic
  | cons e edges ih =>
      obtain ⟨parent, child⟩ := e
      rw [withEdges_cons]
      rcases hh.add_cases parent child with ⟨hcycle, he⟩ | ⟨_, h₁, he, hh₁⟩
      · refine iff_of_false ?_ fun hacyclic => ?_
        · rintro ⟨h', hall⟩
          rw [addAll, List.foldlM_cons, he] at hall
          cases hall
        · have hback : ReflTransGen (withEdges (withEdge edge parent child) edges) child parent :=
            ReflTransGen.mono (fun _ _ hxy => Or.inl (Or.inl hxy)) _ _ hcycle
          exact hacyclic parent (.head' (Or.inl (Or.inr ⟨rfl, rfl⟩)) hback)
      · rw [← ih hh₁]
        unfold Accepts addAll
        rw [List.foldlM_cons, he]
        rfl

theorem IsClosure.accepts_congr (hh : h.IsClosure edge single)
    {ordered : List (ElementId × ElementId)} (hsame : ∀ e, e ∈ ordered ↔ e ∈ edges) :
    h.Accepts ordered ↔ h.Accepts edges := by
  have hedges : withEdges edge ordered = withEdges edge edges := by
    funext x y
    exact propext (or_congr_right (hsame (x, y)))
  rw [hh.accepts_iff, hh.accepts_iff, hedges]

/-- What is accepted in some order is accepted in every order. -/
theorem IsClosure.accepts_some_iff_all (hh : h.IsClosure edge single)
    (edges : List (ElementId × ElementId)) :
    (∃ ordered, (∀ e, e ∈ ordered ↔ e ∈ edges) ∧ h.Accepts ordered) ↔
      ∀ ordered, (∀ e, e ∈ ordered ↔ e ∈ edges) → h.Accepts ordered := by
  constructor
  · rintro ⟨_, hsome, haccepts⟩ _ hsame
    exact (hh.accepts_congr hsame).mpr ((hh.accepts_congr hsome).mp haccepts)
  · intro hall
    exact ⟨edges, fun _ => Iff.rfl, hall edges fun _ => Iff.rfl⟩

namespace History

/-- After any calls, an edge is refused exactly if it leads from a node to itself or to one that it
can be reached from, and then nothing has changed. Nothing changes either if the edge is implied.
Whatever happens, the lists that were stored before are prefixes of those stored now. So edges that
are accepted in one order are accepted in every order. -/
theorem ofCalls_recordInPlace_isAtomic (calls : List Call) (parent child : ElementId) :
    let s := ofCalls calls
    let r := (recordInPlace parent child).on s.hierarchy
    (r.1 = .error (.hierarchyCycle parent child) ↔
      parent = child ∨ TransGen s.Edge child parent) ∧
    (r.1 ≠ .ok () → r = (.error (.hierarchyCycle parent child), s.hierarchy)) ∧
    (TransGen s.Edge parent child → r = (.ok (), s.hierarchy)) ∧
    s.hierarchy.ExtendsTo r.2 ∧
    s.hierarchy.add parent child = r.1.map (fun _ => r.2) ∧
    ∀ edges : List (ElementId × ElementId),
      (∃ ordered, (∀ e, e ∈ ordered ↔ e ∈ edges) ∧ s.hierarchy.Accepts ordered) ↔
        ∀ ordered, (∀ e, e ∈ ordered ↔ e ∈ edges) → s.hierarchy.Accepts ordered := by
  intro s r
  have hs : s.hierarchy.IsClosure s.Edge (· ∈ s.inserted) := isConsistent_ofCalls calls
  have hr : r = _ := on_recordInPlace s.hierarchy parent child
  rw [← reflTransGen_iff_eq_or_transGen]
  rcases hs.add_cases parent child with ⟨hback, he⟩ | ⟨hback, h', he, _⟩
  · rw [he] at hr
    rw [hr, he]
    refine ⟨iff_of_true rfl hback, fun _ => rfl, fun hpath => ?_, .refl _, rfl,
      hs.accepts_some_iff_all⟩
    exact absurd (hpath.trans_left hback) (hs.acyclic parent)
  · rw [he] at hr
    rw [hr, he]
    refine ⟨iff_of_false nofun hback, fun hok => absurd rfl hok, fun hpath => ?_,
      extendsTo_of_add_eq_ok hs.keys_children he, rfl, hs.accepts_some_iff_all⟩
    have himplied := add_of_isAncestor (isAncestor_iff.mpr (hs.mem_parentsOf_iff.mpr hpath))
    rw [Except.ok.inj (he.symm.trans himplied)]

end History
end Hierarchy
end UmlCatalog
