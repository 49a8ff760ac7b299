import UmlCatalog.Proofs.Build.Draft
import UmlCatalog.Proofs.View.Classes

/-!
# The recursion of an extraction

An extraction is a recursion: what follows from a class is expanded to its end before the next class
of the list is looked at. The walk over pending classes goes the same way with one list. So the
recursion ends on every model, whatever cycles its references, superclasses and hierarchies have;
and since a class is copied before anything that follows from it is looked at, no class is expanded
twice.
-/

namespace UmlCatalog

/-! ### Failing by a cycle -/

/-- Whatever error it ends with is the refusal of an edge. -/
def FailsByCycle {α : Type} (x : Except ModelError α) : Prop :=
  ∀ e, x = .error e → ∃ parent child, e = .hierarchyCycle parent child

namespace FailsByCycle
variable {α β : Type}

theorem ok (a : α) : FailsByCycle (.ok a) := nofun

theorem bind {x : Except ModelError α} {f : α → Except ModelError β} (hx : FailsByCycle x)
    (hf : ∀ a, FailsByCycle (f a)) : FailsByCycle (x.bind f) := by
  intro e he
  rcases exists_of_bind_eq_error he with he | ⟨a, _, he⟩
  · exact hx e he
  · exact hf a e he

theorem foldlM {f : α → β → Except ModelError α} (hf : ∀ a b, FailsByCycle (f a b)) (xs : List β)
    (a : α) : FailsByCycle (xs.foldlM f a) := by
  intro e he
  obtain ⟨_, b, _, t, _, _, hb⟩ := exists_of_foldlM_eq_error he
  exact hf t b e hb

end FailsByCycle

theorem Hierarchy.failsByCycle_add (h : Hierarchy) (parent child : ElementId) :
    FailsByCycle (h.add parent child) := by
  intro e he
  rcases h.add_cases parent child with ⟨_, hadd⟩ | ⟨_, hadd⟩ | ⟨_, _, _, hadd⟩
  · cases he.symm.trans hadd
  · exact ⟨parent, child, Except.error.inj (he.symm.trans hadd)⟩
  · cases he.symm.trans hadd

namespace View
namespace Surroundings

theorem failsByCycle_linkPackages (pairs : List (ElementId × Bool)) :
    ∀ s : Surroundings, FailsByCycle (s.linkPackages pairs) := by
  induction pairs with
  | nil => exact fun s => .ok s
  | cons pair pairs ih =>
      obtain ⟨child, copied⟩ := pair
      intro s
      cases pairs with
      | nil => exact .ok _
      | cons next rest =>
          obtain ⟨parent, c⟩ := next
          exact .bind (Hierarchy.failsByCycle_add _ _ _) fun _ => ih _

theorem failsByCycle_addListed (source : Model) (s : Surroundings) (chain : List ElementId)
    (element : ElementRef) : FailsByCycle (s.addListed source chain element) :=
  .bind (failsByCycle_linkPackages _ _) fun _ => .ok _

theorem failsByCycle_addEnumeration (source : Model) (s : Surroundings) (id : ElementId) :
    FailsByCycle (s.addEnumeration source id) := by
  unfold addEnumeration
  split
  · exact .ok s
  · split
    · exact .ok s
    · exact failsByCycle_addListed _ _ _ _

theorem failsByCycle_addDatatype (source : Model) (s : Surroundings) (id : ElementId) :
    FailsByCycle (s.addDatatype source id) := by
  unfold addDatatype
  split
  · exact .ok s
  · split
    · exact .ok s
    · exact failsByCycle_addListed _ _ _ _

/-- Taking in a class fails only if an edge is refused. -/
theorem failsByCycle_addClass (source : Model) (s : Surroundings) (c : Class) :
    FailsByCycle (s.addClass source c) := by
  refine .bind (.foldlM (fun s key => ?_) _ _) fun t => .bind ?_ fun u => .bind ?_ fun _ => .ok _
  · exact .bind (failsByCycle_addEnumeration _ _ _) fun t => failsByCycle_addDatatype source t _
  · exact failsByCycle_addListed _ _ _ _
  · exact .foldlM (fun h general => h.failsByCycle_add general c.id) _ _

end Surroundings

/-! ### The recursion -/

/-- `Expands source options pending s log out`: the pending classes are expanded one after the
other, each with everything that follows from it before the next one. This turns the copies and
surroundings `s` into `out` and expands the classes `log`, in this order. -/
inductive Expands (source : Model) (options : ViewOptions) :
    List (ElementId × Bool) → OrderedMap ElementId Class × Surroundings → List ElementId →
      Except ModelError (OrderedMap ElementId Class × Surroundings) → Prop
  | nil {s} : Expands source options [] s [] (.ok s)
  | known {id f rest classes s log out} (hid : classes.contains id = true)
      (tail : Expands source options rest (classes, s) log out) :
      Expands source options ((id, f) :: rest) (classes, s) log out
  | foreign {id f rest classes s log out} (hid : classes.contains id = false)
      (hnone : source.classes.get? id = none)
      (tail : Expands source options rest (classes, s) log out) :
      Expands source options ((id, f) :: rest) (classes, s) log out
  | refused {id f rest classes s c e} (hid : classes.contains id = false)
      (hc : source.classes.get? id = some c) (he : s.addClass source c = .error e) :
      Expands source options ((id, f) :: rest) (classes, s) [id] (.error e)
  | broken {id f rest classes s t c log e} (hid : classes.contains id = false)
      (hc : source.classes.get? id = some c) (ht : s.addClass source c = .ok t)
      (inner : Expands source options (pendingAfter source options f c)
        (classes.insert id (copyClass c), t) log (.error e)) :
      Expands source options ((id, f) :: rest) (classes, s) (id :: log) (.error e)
  | expanded {id f rest classes s t u c log log' out} (hid : classes.contains id = false)
      (hc : source.classes.get? id = some c) (ht : s.addClass source c = .ok t)
      (inner : Expands source options (pendingAfter source options f c)
        (classes.insert id (copyClass c), t) log (.ok u))
      (tail : Expands source options rest u log' out) :
      Expands source options ((id, f) :: rest) (classes, s) (id :: (log ++ log')) out

namespace Expands
variable {source : Model} {options : ViewOptions} {xs ys pending : List (ElementId × Bool)}
  {s : OrderedMap ElementId Class × Surroundings} {log : List ElementId}
  {out : Except ModelError (OrderedMap ElementId Class × Surroundings)}

/-- Two lists of classes are expanded one after the other, unless the first one fails. -/
theorem append_inv (h : Expands source options (xs ++ ys) s log out) :
    (∃ e, out = .error e ∧ Expands source options xs s log (.error e)) ∨
      ∃ u log₁ log₂, log = log₁ ++ log₂ ∧ Expands source options xs s log₁ (.ok u) ∧
        Expands source options ys u log₂ out := by
  induction xs generalizing s log with
  | nil => exact Or.inr ⟨s, [], log, rfl, .nil, h⟩
  | cons x xs ih =>
      cases h with
      | known hid tail =>
          rcases ih tail with ⟨e, rfl, hfail⟩ | ⟨u, log₁, log₂, rfl, hfirst, hlast⟩
          · exact Or.inl ⟨e, rfl, .known hid hfail⟩
          · exact Or.inr ⟨u, log₁, log₂, rfl, .known hid hfirst, hlast⟩
      | foreign hid hnone tail =>
          rcases ih tail with ⟨e, rfl, hfail⟩ | ⟨u, log₁, log₂, rfl, hfirst, hlast⟩
          · exact Or.inl ⟨e, rfl, .foreign hid hnone hfail⟩
          · exact Or.inr ⟨u, log₁, log₂, rfl, .foreign hid hnone hfirst, hlast⟩
      | refused hid hc he => exact Or.inl ⟨_, rfl, .refused hid hc he⟩
      | broken hid hc ht inner => exact Or.inl ⟨_, rfl, .broken hid hc ht inner⟩
      | expanded hid hc ht inner tail =>
          rcases ih tail with ⟨e, rfl, hfail⟩ | ⟨u, log₁, log₂, rfl, hfirst, hlast⟩
          · exact Or.inl ⟨e, rfl, .expanded hid hc ht inner hfail⟩
          · refine Or.inr ⟨u, _, log₂, ?_, .expanded hid hc ht inner hfirst, hlast⟩
            rw [List.cons_append, List.append_assoc]

/-- Every class is expanded once: it is one of the source, it has no copy before, and from then on
it has one. -/
theorem log_spec (h : Expands source options pending s log out) :
    (s.1.keys ++ log).Nodup ∧ (∀ id ∈ log, id ∈ source.classes.keys) ∧
      ∀ u, out = .ok u → u.1.keys = s.1.keys ++ log := by
  induction h with
  | @nil s =>
      rw [List.append_nil]
      exact ⟨s.1.keys_nodup, fun _ hid => (List.not_mem_nil hid).elim,
        fun u hu => congrArg (OrderedMap.keys ∘ Prod.fst) (Except.ok.inj hu).symm⟩
  | known _ _ ih | foreign _ _ _ ih => exact ih
  | @refused id f rest classes s c e hid hc _ =>
      refine ⟨?_, ?_, nofun⟩
      · rw [← OrderedMap.keys_insert_of_not_contains hid c]
        exact OrderedMap.keys_nodup _
      · exact List.forall_mem_singleton.mpr (OrderedMap.mem_keys_of_get? hc)
  | broken hid hc _ _ ih =>
      obtain ⟨hnodup, hsource, _⟩ := ih
      rw [OrderedMap.keys_insert_of_not_contains hid, List.append_assoc] at hnodup
      exact ⟨hnodup, List.forall_mem_cons.mpr ⟨OrderedMap.mem_keys_of_get? hc, hsource⟩, nofun⟩
  | @expanded id f rest classes s t u c log log' out hid hc _ _ _ ih ih' =>
      obtain ⟨_, hsource, hkeys⟩ := ih
      obtain ⟨hnodup', hsource', hkeys'⟩ := ih'
      have hinner := hkeys u rfl
      rw [OrderedMap.keys_insert_of_not_contains hid, List.append_assoc] at hinner
      rw [hinner, List.append_assoc] at hnodup' hkeys'
      refine ⟨hnodup', List.forall_mem_cons.mpr ⟨OrderedMap.mem_keys_of_get? hc, ?_⟩, hkeys'⟩
      exact List.forall_mem_append.mpr ⟨hsource, hsource'⟩

/-- The recursion fails only if an edge is refused. -/
theorem failsByCycle (h : Expands source options pending s log out) : FailsByCycle out := by
  induction h with
  | nil => exact .ok _
  | known _ _ ih | foreign _ _ _ ih | broken _ _ _ _ ih | expanded _ _ _ _ _ _ ih => exact ih
  | refused _ _ he =>
      rintro _ ⟨⟩
      exact Surroundings.failsByCycle_addClass _ _ _ _ he

end Expands

/-- The walk over pending classes ends as the recursion does. -/
theorem exists_expands (source : Model) (options : ViewOptions)
    (pending : List (ElementId × Bool)) (classes : OrderedMap ElementId Class) (s : Surroundings) :
    ∃ log, Expands source options pending (classes, s) log
      (walk source options pending classes s) := by
  induction pending, classes, s using walk.induct source options with
  | case1 classes s =>
      rw [walk]
      exact ⟨[], .nil⟩
  | case2 classes s id f rest hid ih =>
      rw [walk_known hid]
      obtain ⟨log, htail⟩ := ih
      exact ⟨log, .known hid htail⟩
  | case3 classes s id f rest hid hnone ih =>
      rw [walk_foreign hid hnone]
      obtain ⟨log, htail⟩ := ih
      exact ⟨log, .foreign (Bool.not_eq_true _ ▸ hid) hnone htail⟩
  | case4 classes s id f rest hid c hc e he =>
      rw [walk_copy hid hc, he]
      exact ⟨[id], .refused (Bool.not_eq_true _ ▸ hid) hc he⟩
  | case5 classes s id f rest hid c hc t ht next ih =>
      rw [walk_copy hid hc, ht]
      obtain ⟨log, hwalk⟩ := ih
      -- one list of pending classes is what follows from the class and what was pending before
      rcases hwalk.append_inv with ⟨e, he, hfail⟩ | ⟨u, log₁, log₂, rfl, hinner, htail⟩
      · refine ⟨id :: log, ?_⟩
        show Expands _ _ _ _ _ (walk source options (pendingAfter source options f c ++ rest) _ t)
        rw [pendingAfter, he]
        exact .broken (Bool.not_eq_true _ ▸ hid) hc ht hfail
      · exact ⟨_, .expanded (Bool.not_eq_true _ ▸ hid) hc ht hinner htail⟩

/-- On every model, for all names and options, the recursion ends. It expands classes of the source
only and none of them twice. The extraction gives a view with just these classes, or it tells of a
refused edge. -/
theorem extractView_ends (source : Model) (origin : ModelSource) (names : List String)
    (options : ViewOptions) :
    ∃ log, Expands source options (start source names) (∅, .empty) log
        (walk source options (start source names) ∅ .empty) ∧
      log.Nodup ∧ (∀ id ∈ log, id ∈ source.classes.keys) ∧
      ((∃ v, source.extractView origin names options = .ok v ∧ v.classes.keys = log) ∨
        ∃ parent child,
          source.extractView origin names options = .error (.hierarchyCycle parent child)) := by
  obtain ⟨log, h⟩ := exists_expands source options (start source names) ∅ .empty
  obtain ⟨hnodup, hsource, hkeys⟩ := h.log_spec
  refine ⟨log, h, hnodup, hsource, ?_⟩
  cases hwalk : walk source options (start source names) ∅ .empty with
  | error e =>
      obtain ⟨parent, child, rfl⟩ := h.failsByCycle e hwalk
      refine Or.inr ⟨parent, child, ?_⟩
      rw [Model.extractView, hwalk]
      rfl
  | ok r =>
      refine Or.inl ⟨_, extractView_of_walk hwalk, ?_⟩
      exact (OrderedMap.keys_mapWithKey _ _).trans (hkeys r hwalk)

end View
end UmlCatalog
