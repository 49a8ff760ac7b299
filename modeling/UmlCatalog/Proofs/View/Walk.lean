import UmlCatalog.Proofs.Build.Draft
import UmlCatalog.Proofs.View.Surroundings

/-!
# What a walk gathers

A walk visits the pending classes and whatever follows from them. It gathers nothing else, and
when it ends everything that was pending is there. So whatever follows from a gathered class is
gathered, unless the source has no such class.

## Implementation notes

Each pending class carries the word whether its superclasses follow. A class that is met again
with another word is not visited again, so the two directions are stated for the words apart:
what is gathered was pending with some word, and what follows under every word that occurs is
gathered.
-/

namespace UmlCatalog
namespace View
variable {source : Model} {options : ViewOptions}

/-- The classes to visit after a class, each with the word that the options give. -/
def pendingAfter (source : Model) (options : ViewOptions) (followParents : Bool) (c : Class) :
    List (ElementId × Bool) :=
  (successors source options followParents c).map fun id => (id, options.followReferentHierarchy)

/-- `Walks source options pending classes s r`: the walk that starts with the pending classes,
the copies and the surroundings ends with `r`. -/
inductive Walks (source : Model) (options : ViewOptions) :
    List (ElementId × Bool) → OrderedMap ElementId Class → Surroundings →
      OrderedMap ElementId Class × Surroundings → Prop
  | nil {classes s} : Walks source options [] classes s (classes, s)
  | known {id f rest classes s r} (hid : classes.contains id = true)
      (tail : Walks source options rest classes s r) :
      Walks source options ((id, f) :: rest) classes s r
  | foreign {id f rest classes s r} (hid : source.classes.get? id = none)
      (tail : Walks source options rest classes s r) :
      Walks source options ((id, f) :: rest) classes s r
  | copy {id f rest classes s t r c} (hid : classes.contains id = false)
      (hc : source.classes.get? id = some c) (ht : s.addClass source c = .ok t)
      (tail : Walks source options (pendingAfter source options f c ++ rest)
        (classes.insert id (copyClass c)) t r) :
      Walks source options ((id, f) :: rest) classes s r

section Steps
variable {id : ElementId} {f : Bool} {rest : List (ElementId × Bool)}
  {classes : OrderedMap ElementId Class} {s : Surroundings} {c : Class}

/-- A class with a copy is passed over. -/
theorem walk_known (h : classes.contains id = true) :
    walk source options ((id, f) :: rest) classes s = walk source options rest classes s := by
  rw [walk, dif_pos h]

/-- What is no class of the source is passed over. -/
theorem walk_foreign (h : ¬ classes.contains id = true) (hid : source.classes.get? id = none) :
    walk source options ((id, f) :: rest) classes s = walk source options rest classes s := by
  rw [walk, dif_neg h]
  split
  · rfl
  · rename_i c hc
    cases hid.symm.trans hc

/-- A class is taken in, and the walk goes on with what follows from it. -/
theorem walk_copy (h : ¬ classes.contains id = true) (hc : source.classes.get? id = some c) :
    walk source options ((id, f) :: rest) classes s = (s.addClass source c).bind fun t =>
      walk source options (pendingAfter source options f c ++ rest)
        (classes.insert id (copyClass c)) t := by
  rw [walk, dif_neg h]
  split
  · rename_i hnone
    cases hc.symm.trans hnone
  · rename_i c' hc'
    obtain rfl := Option.some.inj (hc.symm.trans hc')
    cases s.addClass source c <;> rfl

end Steps

/-- On a sound source a walk never fails. -/
theorem exists_walk_eq_ok (hm : source.IsSound) (pending : List (ElementId × Bool))
    (classes : OrderedMap ElementId Class) (s : Surroundings) :
    s.IsWithin source → ∃ r, walk source options pending classes s = .ok r := by
  induction pending, classes, s using walk.induct source options with
  | case1 classes s =>
      intro _
      refine ⟨(classes, s), ?_⟩
      rw [walk]
  | case2 classes s id f rest hid ih =>
      intro hs
      rw [walk_known hid]
      exact ih hs
  | case3 classes s id f rest hid hnone ih =>
      intro hs
      rw [walk_foreign hid hnone]
      exact ih hs
  | case4 classes s id f rest hid c hc e he =>
      intro hs
      obtain ⟨t, ht, _⟩ := hs.addClass hm hc
      cases he.symm.trans ht
  | case5 classes s id f rest hid c hc t ht next ih =>
      intro hs
      obtain ⟨t', ht', hwithin⟩ := hs.addClass hm hc
      obtain rfl := Except.ok.inj (ht.symm.trans ht')
      rw [walk_copy hid hc, ht]
      exact ih hwithin

/-- A walk that ends has gone through the pending classes one by one. -/
theorem walks_of_walk_eq_ok (pending : List (ElementId × Bool))
    (classes : OrderedMap ElementId Class) (s : Surroundings) :
    ∀ r, walk source options pending classes s = .ok r →
      Walks source options pending classes s r := by
  induction pending, classes, s using walk.induct source options with
  | case1 classes s =>
      intro r h
      rw [walk] at h
      obtain rfl := Except.ok.inj h
      exact .nil
  | case2 classes s id f rest hid ih =>
      intro r h
      rw [walk_known hid] at h
      exact .known hid (ih r h)
  | case3 classes s id f rest hid hnone ih =>
      intro r h
      rw [walk_foreign hid hnone] at h
      exact .foreign hnone (ih r h)
  | case4 classes s id f rest hid c hc e he =>
      intro r h
      rw [walk_copy hid hc, he] at h
      cases h
  | case5 classes s id f rest hid c hc t ht next ih =>
      intro r h
      rw [walk_copy hid hc, ht] at h
      exact .copy (Bool.not_eq_true _ ▸ hid) hc ht (ih r h)

namespace Walks
variable {pending : List (ElementId × Bool)} {classes : OrderedMap ElementId Class}
  {s : Surroundings} {r : OrderedMap ElementId Class × Surroundings}

/-- Nothing is gathered but classes of the source that were pending with some word. -/
theorem sound (h : Walks source options pending classes s r) {Q : ElementId → Bool → Prop}
    (hQ : ∀ id f c, Q id f → source.classes.get? id = some c →
      ∀ x ∈ successors source options f c, Q x options.followReferentHierarchy) :
    (∀ p ∈ pending, Q p.1 p.2) →
      ∀ k ∈ r.1.keys, k ∈ classes.keys ∨ k ∈ source.classes.keys ∧ ∃ f, Q k f := by
  induction h with
  | nil =>
      intro _ k hk
      exact Or.inl hk
  | known _ _ ih | foreign _ _ ih =>
      intro hpending
      exact ih fun p hp => hpending p (List.mem_cons_of_mem _ hp)
  | @copy id f rest classes s t r c _ hc _ _ ih =>
      intro hpending k hk
      have hid : Q id f := hpending (id, f) (List.mem_cons_self ..)
      have hnext : ∀ p ∈ pendingAfter source options f c ++ rest, Q p.1 p.2 := by
        intro p hp
        rcases List.mem_append.mp hp with hp | hp
        · obtain ⟨x, hx, rfl⟩ := List.mem_map.mp hp
          exact hQ id f c hid hc x hx
        · exact hpending p (List.mem_cons_of_mem _ hp)
      rcases ih hnext k hk with hk | hk
      · rcases OrderedMap.mem_keys_insert.mp hk with hk | rfl
        · exact Or.inl hk
        · exact Or.inr ⟨OrderedMap.mem_keys_of_get? hc, f, hid⟩
      · exact Or.inr hk

/-- What is there stays, and what is pending is there in the end if the source has it. -/
theorem covers (h : Walks source options pending classes s r) :
    (∀ k ∈ classes.keys, k ∈ r.1.keys) ∧
      ∀ p ∈ pending, p.1 ∈ source.classes.keys → p.1 ∈ r.1.keys := by
  induction h with
  | nil => exact ⟨fun _ hk => hk, fun _ hp => nomatch hp⟩
  | known hid _ ih =>
      obtain ⟨hkeep, hrest⟩ := ih
      refine ⟨hkeep, fun p hp hsource => ?_⟩
      rcases List.mem_cons.mp hp with rfl | hp
      · exact hkeep _ (OrderedMap.contains_iff.mp hid)
      · exact hrest p hp hsource
  | foreign hid _ ih =>
      obtain ⟨hkeep, hrest⟩ := ih
      refine ⟨hkeep, fun p hp hsource => ?_⟩
      rcases List.mem_cons.mp hp with rfl | hp
      · exact absurd hsource (OrderedMap.get?_eq_none_iff.mp hid)
      · exact hrest p hp hsource
  | copy _ _ _ _ ih =>
      obtain ⟨hkeep, hrest⟩ := ih
      refine ⟨fun k hk => ?_, fun p hp hsource => ?_⟩
      · exact hkeep k (OrderedMap.mem_keys_insert.mpr (Or.inl hk))
      · rcases List.mem_cons.mp hp with rfl | hp
        · exact hkeep _ (OrderedMap.mem_keys_insert.mpr (Or.inr rfl))
        · exact hrest p (List.mem_append_right _ hp) hsource

/-- If whatever follows from the copies is there or pending, then in the end it is there. It is
enough that it follows under the words that occur. -/
theorem closed (h : Walks source options pending classes s r) {F : Bool → Prop}
    {next : Class → List ElementId} (hF : F options.followReferentHierarchy)
    (hnext : ∀ f c, F f → ∀ x ∈ next c, x ∈ successors source options f c) :
    (∀ p ∈ pending, F p.2) →
      (∀ k ∈ classes.keys, ∀ c, source.classes.get? k = some c → ∀ x ∈ next c,
        x ∈ source.classes.keys → x ∈ classes.keys ∨ x ∈ pending.map Prod.fst) →
      ∀ k ∈ r.1.keys, ∀ c, source.classes.get? k = some c → ∀ x ∈ next c,
        x ∈ source.classes.keys → x ∈ r.1.keys := by
  induction h with
  | nil =>
      intro _ hcovered k hk c hc x hx hsource
      rcases hcovered k hk c hc x hx hsource with hx | hx
      · exact hx
      · cases hx
  | known hid _ ih =>
      intro hpending hcovered
      refine ih (fun p hp => hpending p (List.mem_cons_of_mem _ hp)) ?_
      intro k hk c hc x hx hsource
      rcases hcovered k hk c hc x hx hsource with hx | hx
      · exact Or.inl hx
      · rcases List.mem_cons.mp hx with rfl | hx
        · exact Or.inl (OrderedMap.contains_iff.mp hid)
        · exact Or.inr hx
  | foreign hid _ ih =>
      intro hpending hcovered
      refine ih (fun p hp => hpending p (List.mem_cons_of_mem _ hp)) ?_
      intro k hk c hc x hx hsource
      rcases hcovered k hk c hc x hx hsource with hx | hx
      · exact Or.inl hx
      · rcases List.mem_cons.mp hx with rfl | hx
        · exact absurd hsource (OrderedMap.get?_eq_none_iff.mp hid)
        · exact Or.inr hx
  | @copy id f rest classes s t r c _ hc _ _ ih =>
      intro hpending hcovered
      refine ih (fun p hp => ?_) ?_
      · rcases List.mem_append.mp hp with hp | hp
        · obtain ⟨x, _, rfl⟩ := List.mem_map.mp hp
          exact hF
        · exact hpending p (List.mem_cons_of_mem _ hp)
      · intro k hk b hb x hx hsource
        rw [List.map_append, List.mem_append]
        rcases OrderedMap.mem_keys_insert.mp hk with hk | rfl
        · rcases hcovered k hk b hb x hx hsource with hx | hx
          · exact Or.inl (OrderedMap.mem_keys_insert.mpr (Or.inl hx))
          · rcases List.mem_cons.mp hx with rfl | hx
            · exact Or.inl (OrderedMap.mem_keys_insert.mpr (Or.inr rfl))
            · exact Or.inr (Or.inr hx)
        · -- what follows from the new copy is pending now
          obtain rfl := Option.some.inj (hc.symm.trans hb)
          have hf : F f := hpending (k, f) (List.mem_cons_self ..)
          apply Or.inr
          apply Or.inl
          exact List.mem_map.mpr ⟨_, List.mem_map.mpr ⟨x, hnext f c hf x hx, rfl⟩, rfl⟩

end Walks

namespace Surroundings
variable {s t : Surroundings} {id : ElementId}

/-- What holds after each change to the surroundings if it holds before. Value types are copied
before they are listed. -/
structure IsKept (source : Model) (P : Surroundings → Prop) : Prop where
  enumeration : ∀ {s t : Surroundings} {id : ElementId} {old : Enumeration},
    source.enums.get? id = some old → P s →
      addListed source { s with enums := s.enums.insert old.id { old with referees := [] } }
        old.packages ⟨.enumeration, old.id⟩ = .ok t → P t
  datatype : ∀ {s t : Surroundings} {id : ElementId} {old : Datatype},
    source.datatypes.get? id = some old → P s →
      addListed source { s with datatypes := s.datatypes.insert old.id { old with referees := [] } }
        old.packages ⟨.datatype, old.id⟩ = .ok t → P t
  umlClass : ∀ {s t : Surroundings} {id : ElementId} {c : Class},
    source.classes.get? id = some c → P s →
      s.addListed source c.packages ⟨.umlClass, c.id⟩ = .ok t → P t
  classHierarchy : ∀ {s : Surroundings} (h : Hierarchy), P s → P { s with classHierarchy := h }

namespace IsKept
variable {P : Surroundings → Prop} (hP : IsKept source P)
include hP

theorem addEnumeration (hs : P s) (h : s.addEnumeration source id = .ok t) : P t := by
  unfold Surroundings.addEnumeration at h
  split at h
  · obtain rfl := Except.ok.inj h
    exact hs
  · rename_i old hold
    split at h
    · obtain rfl := Except.ok.inj h
      exact hs
    · exact hP.enumeration hold hs h

theorem addDatatype (hs : P s) (h : s.addDatatype source id = .ok t) : P t := by
  unfold Surroundings.addDatatype at h
  split at h
  · obtain rfl := Except.ok.inj h
    exact hs
  · rename_i old hold
    split at h
    · obtain rfl := Except.ok.inj h
      exact hs
    · exact hP.datatype hold hs h

theorem addClass {c : Class} (hc : source.classes.get? id = some c) (hs : P s)
    (h : s.addClass source c = .ok t) : P t := by
  obtain ⟨u, hu, h⟩ := exists_of_bind_eq_ok h
  obtain ⟨v, hv, h⟩ := exists_of_bind_eq_ok h
  obtain ⟨hierarchy, _, h⟩ := exists_of_bind_eq_ok h
  obtain rfl := Except.ok.inj h
  have hu' : P u := by
    refine foldlM_induction (P := fun _ s => P s) ?_ hs hu
    intro _ key _ s t _ hs ht
    obtain ⟨s', hs', ht⟩ := exists_of_bind_eq_ok ht
    exact hP.addDatatype (hP.addEnumeration hs hs') ht
  exact hP.classHierarchy hierarchy (hP.umlClass hc hu' hv)

/-- A walk keeps what each change keeps. -/
theorem walks {pending : List (ElementId × Bool)} {classes : OrderedMap ElementId Class}
    {r : OrderedMap ElementId Class × Surroundings}
    (h : Walks source options pending classes s r) (hs : P s) : P r.2 := by
  induction h with
  | nil => exact hs
  | known _ _ ih | foreign _ _ ih => exact ih hs
  | copy _ hc ht _ ih => exact ih (hP.addClass hc hs ht)

end IsKept
end Surroundings
end View
end UmlCatalog
