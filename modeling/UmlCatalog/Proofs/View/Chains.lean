import Mathlib.Data.List.Nodup
import UmlCatalog.Proofs.Build.Draft
import UmlCatalog.Proofs.Model.Contents
import UmlCatalog.Proofs.View.Surroundings

/-!
# Taking in a chain of packages

A view takes in the packages around an element by two passes along their chain. Packages that are
not there yet are copied first. Then each package is joined with the next one in the hierarchy, and
is listed in it if it was copied.

## Implementation notes

While a chain is linked, its packages are there and not yet listed. So listing and linking are
described for a set of elements that grows along the chain.
-/

namespace UmlCatalog

/-- A package without what it lists. -/
def Package.emptied (p : Package) : Package := { p with elements := [] }

/-- The copy of a package in a view, before anything is listed. -/
def Package.copiedAs (id : ElementId) (p : Package) : Package := { p with id := id, elements := [] }

namespace Model
variable {m : Model} {chain outer : List ElementId} {k : ElementId}

theorem nearest?_package (m : Model) (k : ElementId) :
    m.nearest? ⟨.package, k⟩ = (m.chain? k).bind List.head? := rfl

/-- Around each package of a chain is what follows it there. -/
theorem IsChain.exists_suffix (h : m.IsChain chain) (hk : k ∈ chain) :
    ∃ outer, m.chain? k = some outer ∧ (k :: outer) <:+ chain := by
  induction chain with
  | nil => cases hk
  | cons id rest ih =>
      rcases List.mem_cons.mp hk with rfl | hk
      · exact ⟨rest, h.2.1, List.suffix_rfl⟩
      · obtain ⟨outer, houter, hsuffix⟩ := ih h.2.2 hk
        exact ⟨outer, houter, hsuffix.trans (List.suffix_cons id rest)⟩

/-- The packages of a chain have records. -/
theorem IsChain.exists_package (h : m.IsChain chain) (hk : k ∈ chain) :
    ∃ p, m.packages.get? k = some p := by
  obtain ⟨outer, houter, _⟩ := h.exists_suffix hk
  obtain ⟨p, hp, _⟩ := Option.map_eq_some_iff.mp houter
  exact ⟨p, hp⟩

/-- No package occurs twice in a chain, because what follows it would be of two lengths. -/
theorem IsChain.nodup (h : m.IsChain chain) : chain.Nodup := by
  induction chain with
  | nil => exact List.nodup_nil
  | cons id rest ih =>
      refine List.nodup_cons.mpr ⟨fun hid => ?_, ih h.2.2⟩
      obtain ⟨outer, houter, hsuffix⟩ := h.2.2.exists_suffix hid
      obtain rfl := Option.some.inj (h.2.1.symm.trans houter)
      have hlength := hsuffix.length_le
      rw [List.length_cons] at hlength
      omega

end Model

namespace View
namespace Surroundings
open Hierarchy (IsClosure withEdge)
variable {source : Model} {s t : Surroundings} {here : ElementRef → Prop} {e : ElementRef}
  {k : ElementId} {chain : List ElementId}

/-- Nothing is changed but the packages and their hierarchy. -/
structure SameEntities (t s : Surroundings) : Prop where
  enums : t.enums = s.enums
  datatypes : t.datatypes = s.datatypes
  classHierarchy : t.classHierarchy = s.classHierarchy

theorem SameEntities.trans {u : Surroundings} (htu : t.SameEntities u) (hus : u.SameEntities s) :
    t.SameEntities s :=
  ⟨htu.enums.trans hus.enums, htu.datatypes.trans hus.datatypes,
    htu.classHierarchy.trans hus.classHierarchy⟩

/-- Nothing is changed but the hierarchy of packages and what the packages list. -/
structure SameButLists (t s : Surroundings) : Prop extends t.SameEntities s where
  packages : ∀ k, (t.packages.get? k).map Package.emptied = (s.packages.get? k).map Package.emptied

theorem SameButLists.refl (s : Surroundings) : s.SameButLists s :=
  ⟨⟨rfl, rfl, rfl⟩, fun _ => rfl⟩

theorem SameButLists.trans {u : Surroundings} (htu : t.SameButLists u) (hus : u.SameButLists s) :
    t.SameButLists s :=
  ⟨htu.toSameEntities.trans hus.toSameEntities, fun k => (htu.packages k).trans (hus.packages k)⟩

theorem SameButLists.mem_keys_iff (h : t.SameButLists s) :
    k ∈ t.packages.keys ↔ k ∈ s.packages.keys := by
  have hk := congrArg Option.isSome (h.packages k)
  rw [Option.isSome_map, Option.isSome_map] at hk
  rw [← OrderedMap.get?_isSome_iff, ← OrderedMap.get?_isSome_iff, hk]

theorem sameButLists_listElement (s : Surroundings) (package : ElementId) (e : ElementRef) :
    (s.listElement package e).SameButLists s := by
  refine ⟨⟨rfl, rfl, rfl⟩, fun k => ?_⟩
  unfold listElement
  rw [OrderedMap.get?_modify]
  split
  · cases s.packages.get? k <;> rfl
  · rfl

theorem sameButLists_listIn (s : Surroundings) (chain : List ElementId) (e : ElementRef) :
    (s.listIn chain e).SameButLists s := by
  cases chain with
  | nil => exact .refl s
  | cons package outer => exact sameButLists_listElement s package e

theorem sameButLists_ite (c : Bool) (s : Surroundings) (package : ElementId) (e : ElementRef) :
    SameButLists (if c then s.listElement package e else s) s := by
  split
  · exact sameButLists_listElement s package e
  · exact .refl s

/-- Each package lists what is there and lies directly in it, once. -/
def Lists (source : Model) (here : ElementRef → Prop) (s : Surroundings) : Prop :=
  ∀ k p, s.packages.get? k = some p →
    p.elements.Nodup ∧ ∀ e, e ∈ p.elements ↔ here e ∧ source.nearest? e = some k

/-- The hierarchy joins what is there with the packages around it. -/
def Links (source : Model) (here : ElementRef → Prop) (single : ElementId → Prop)
    (h : Hierarchy) : Prop :=
  h.IsClosure (fun parent k => here ⟨.package, k⟩ ∧ source.nearest? ⟨.package, k⟩ = some parent)
    single

theorem Lists.congr {here' : ElementRef → Prop} (hs : s.Lists source here)
    (h : ∀ e, here' e ↔ here e) : s.Lists source here' := by
  intro k p hp
  refine ⟨(hs k p hp).1, fun e => ?_⟩
  rw [(hs k p hp).2, h]

/-- A new element is listed in the package it lies in. -/
theorem Lists.listElement (hs : s.Lists source here) (hnew : ¬ here e)
    (hk : source.nearest? e = some k) :
    (s.listElement k e).Lists source fun x => x = e ∨ here x := by
  intro k' p hp
  unfold Surroundings.listElement at hp
  dsimp only at hp
  rw [OrderedMap.get?_modify] at hp
  split at hp
  · rename_i hkk
    subst hkk
    obtain ⟨q, hq, rfl⟩ := Option.map_eq_some_iff.mp hp
    obtain ⟨hnodup, hmem⟩ := hs k' q hq
    have hold : e ∉ q.elements := fun he => hnew ((hmem e).mp he).1
    refine ⟨List.nodup_append.mpr ⟨hnodup, List.nodup_singleton e, ?_⟩, fun x => ?_⟩
    · rintro x hx y hy rfl
      exact hold (List.mem_singleton.mp hy ▸ hx)
    · rw [List.mem_append, List.mem_singleton, hmem]
      constructor
      · rintro (⟨hx, hnearest⟩ | rfl)
        · exact ⟨Or.inr hx, hnearest⟩
        · exact ⟨Or.inl rfl, hk⟩
      · rintro ⟨rfl | hx, hnearest⟩
        · exact Or.inr rfl
        · exact Or.inl ⟨hx, hnearest⟩
  · rename_i hkk
    obtain ⟨hnodup, hmem⟩ := hs k' p hp
    refine ⟨hnodup, fun x => ?_⟩
    rw [hmem]
    constructor
    · rintro ⟨hx, hnearest⟩
      exact ⟨Or.inr hx, hnearest⟩
    · rintro ⟨rfl | hx, hnearest⟩
      · exact absurd (Option.some.inj (hnearest.symm.trans hk)) hkk
      · exact ⟨hx, hnearest⟩

/-- What lies in no package is listed nowhere. -/
theorem Lists.of_nearest?_eq_none (hs : s.Lists source here) (he : source.nearest? e = none) :
    s.Lists source fun x => x = e ∨ here x := by
  intro k p hp
  obtain ⟨hnodup, hmem⟩ := hs k p hp
  refine ⟨hnodup, fun x => ?_⟩
  rw [hmem]
  constructor
  · rintro ⟨hx, hnearest⟩
    exact ⟨Or.inr hx, hnearest⟩
  · rintro ⟨rfl | hx, hnearest⟩
    · cases he.symm.trans hnearest
    · exact ⟨hx, hnearest⟩

/-- Listing an element that may be there already, and is not listed again then. -/
theorem Lists.listCopied {c : Bool} (hs : s.Lists source here)
    (hk : source.nearest? e = some k) (hc : c = true ↔ ¬ here e) :
    Lists source (fun x => x = e ∨ here x) (if c then s.listElement k e else s) := by
  split
  · rename_i hcopied
    exact hs.listElement (hc.mp hcopied) hk
  · rename_i hcopied
    refine hs.congr fun x => or_iff_right_of_imp ?_
    rintro rfl
    exact by_contra fun hnew => hcopied (hc.mpr hnew)

/-- Listing an element in the nearest package of its chain. -/
theorem Lists.listIn (hs : s.Lists source here) (hnew : ¬ here e)
    (hhead : source.nearest? e = chain.head?) :
    (s.listIn chain e).Lists source fun x => x = e ∨ here x := by
  cases chain with
  | nil => exact hs.of_nearest?_eq_none hhead
  | cons k outer => exact hs.listElement hnew hhead

/-- What is there when the packages of a chain have come to it. -/
def Joined (here : ElementRef → Prop) (chain : List ElementId) (e : ElementRef) : Prop :=
  here e ∨ e.kind = .package ∧ e.id ∈ chain

theorem joined_cons (e : ElementRef) :
    Joined here (k :: chain) e ↔ Joined (fun x => x = ⟨.package, k⟩ ∨ here x) chain e := by
  obtain ⟨kind, id⟩ := e
  simp only [Joined, List.mem_cons, ElementRef.mk.injEq]
  tauto

theorem joined_package_iff (k : ElementId) :
    Joined here chain ⟨.package, k⟩ ↔ here ⟨.package, k⟩ ∨ k ∈ chain :=
  or_congr_right (and_iff_right rfl)

theorem joined_nil (e : ElementRef) : Joined here [] e ↔ here e :=
  or_iff_left fun h => nomatch h.2

/-- The outermost package of a chain is registered by itself. -/
theorem Links.insert {single : ElementId → Prop} {h : Hierarchy} (hh : Links source here single h)
    (hk : source.nearest? ⟨.package, k⟩ = none) :
    Links source (Joined here [k])
      (fun x => single x ∨ x ∈ [k] ∧ source.nearest? ⟨.package, x⟩ = none) (h.insert k) := by
  have hedge : ∀ x y, Joined here [k] ⟨.package, y⟩ ∧ source.nearest? ⟨.package, y⟩ = some x ↔
      here ⟨.package, y⟩ ∧ source.nearest? ⟨.package, y⟩ = some x := by
    intro x y
    refine and_congr_left fun hnearest => or_iff_left fun ⟨_, hy⟩ => ?_
    obtain rfl : y = k := List.mem_singleton.mp hy
    cases hk.symm.trans hnearest
  refine ((IsClosure.insert hh k).congr hedge).of_single fun x => or_congr_left ?_
  refine or_congr_right ⟨?_, fun hx => List.mem_singleton.mp hx.1⟩
  rintro rfl
  exact ⟨List.mem_singleton_self x, hk⟩

/-- The edge between two packages of a chain makes the inner one linked. -/
theorem Links.add {single : ElementId → Prop} {h h' : Hierarchy} {parent : ElementId}
    (hh : Links source here single h) (hk : source.nearest? ⟨.package, k⟩ = some parent)
    (hadd : h.add parent k = .ok h') :
    Links source (fun x => x = ⟨.package, k⟩ ∨ here x) single h' := by
  refine (IsClosure.of_add_eq_ok hh hadd).congr fun x y => ?_
  unfold withEdge
  constructor
  · rintro ⟨hy | hy, hnearest⟩
    · obtain rfl : y = k := (ElementRef.mk.inj hy).2
      exact Or.inr ⟨Option.some.inj (hnearest.symm.trans hk), rfl⟩
    · exact Or.inl ⟨hy, hnearest⟩
  · rintro (⟨hy, hnearest⟩ | ⟨rfl, rfl⟩)
    · exact ⟨Or.inr hy, hnearest⟩
    · exact ⟨Or.inl rfl, hk⟩

/-- Only the outermost package of a chain is registered by itself, because every other one is joined
with the package around it. -/
theorem Links.of_outermost {h : Hierarchy}
    (hh : Links source (Joined here chain)
      (fun k => here ⟨.package, k⟩ ∨ k ∈ chain ∧ source.nearest? ⟨.package, k⟩ = none) h) :
    Links source (Joined here chain) (fun k => Joined here chain ⟨.package, k⟩) h := by
  refine hh.of_single fun x => ?_
  rw [joined_package_iff]
  constructor
  · rintro ((hx | ⟨hx, _⟩) | hedge)
    · exact Or.inl (Or.inl hx)
    · exact Or.inl (Or.inr hx)
    · exact Or.inr hedge
  · rintro ((hx | hx) | hedge)
    · exact Or.inl (Or.inl hx)
    · cases hnearest : source.nearest? ⟨.package, x⟩ with
      | none => exact Or.inl (Or.inr ⟨hx, rfl⟩)
      | some parent => exact Or.inr ⟨parent, Or.inr ⟨Or.inr hx, rfl⟩⟩
    · exact Or.inr hedge

/-- Linking a chain lists each of its packages in the next one and registers them all, if those
that were copied are the ones that were not there. -/
theorem linkPackages_spec {pairs : List (ElementId × Bool)} :
    ∀ {s : Surroundings} {here : ElementRef → Prop} {single : ElementId → Prop},
      source.IsChain (pairs.map Prod.fst) →
      (∀ p ∈ pairs, p.2 = true ↔ ¬ here ⟨.package, p.1⟩) →
      s.Lists source here → Links source here single s.packageHierarchy →
      linkPackages s pairs = .ok t →
        t.Lists source (Joined here (pairs.map Prod.fst)) ∧
        Links source (Joined here (pairs.map Prod.fst))
          (fun x => single x ∨ x ∈ pairs.map Prod.fst ∧ source.nearest? ⟨.package, x⟩ = none)
          t.packageHierarchy ∧ t.SameButLists s := by
  induction pairs with
  | nil =>
      intro s here single _ _ hlists hlinks h
      obtain rfl := Except.ok.inj h
      refine ⟨hlists.congr joined_nil, ?_, .refl s⟩
      refine (hlinks.congr fun x y => and_congr_left' (joined_nil _)).of_single fun x => ?_
      exact or_congr_left (or_iff_left fun h => nomatch h.1).symm
  | cons pair pairs ih =>
      obtain ⟨child, copied⟩ := pair
      intro s here single hchain hcopied hlists hlinks h
      cases pairs with
      | nil =>
          obtain rfl := Except.ok.inj h
          have hnone : source.nearest? ⟨.package, child⟩ = none := by
            rw [Model.nearest?_package, hchain.2.1]
            rfl
          refine ⟨(hlists.of_nearest?_eq_none hnone).congr fun e => ?_, hlinks.insert hnone,
            ⟨⟨rfl, rfl, rfl⟩, fun _ => rfl⟩⟩
          exact (joined_cons e).trans (joined_nil e)
      | cons next rest =>
          obtain ⟨parent, c⟩ := next
          obtain ⟨hierarchy, hadd, h⟩ := exists_of_bind_eq_ok h
          have hnearest : source.nearest? ⟨.package, child⟩ = some parent := by
            rw [Model.nearest?_package, hchain.2.1]
            rfl
          have hnotin : child ∉ ((parent, c) :: rest).map Prod.fst :=
            (List.nodup_cons.mp hchain.nodup).1
          have hlisted := Lists.listCopied (s := { s with packageHierarchy := hierarchy })
            hlists hnearest (hcopied _ List.mem_cons_self)
          have hothers : ∀ p ∈ (parent, c) :: rest,
              p.2 = true ↔ ¬ (⟨.package, p.1⟩ = (⟨.package, child⟩ : ElementRef) ∨
                here ⟨.package, p.1⟩) := by
            intro p hp
            have hne : (⟨.package, p.1⟩ : ElementRef) ≠ ⟨.package, child⟩ := fun he =>
              hnotin ((ElementRef.mk.inj he).2 ▸ List.mem_map_of_mem hp)
            rw [or_iff_right hne]
            exact hcopied p (List.mem_cons_of_mem _ hp)
          obtain ⟨hlists', hlinks', hsame⟩ :=
            ih hchain.2.2 hothers hlisted (by split <;> exact hlinks.add hnearest hadd) h
          have hframe : SameButLists { s with packageHierarchy := hierarchy } s :=
            ⟨⟨rfl, rfl, rfl⟩, fun _ => rfl⟩
          refine ⟨hlists'.congr fun e => joined_cons e, ?_,
            hsame.trans ((sameButLists_ite _ _ _ _).trans hframe)⟩
          refine (hlinks'.congr fun x y => and_congr_left' (joined_cons _)).of_single fun x => ?_
          refine or_congr_left (or_congr_right (and_congr_left fun hnone => ?_))
          refine (List.mem_cons.trans (or_iff_right ?_)).symm
          rintro rfl
          cases hnone.symm.trans hnearest

/-- Copied are the packages of a chain that were not there, each without what it lists. -/
theorem copyPackages_eq (hrecorded : ∀ k ∈ chain, ∃ q, source.packages.get? k = some q)
    (hnodup : chain.Nodup) :
    (copyPackages source s chain).2 = chain.map (fun k => (k, !s.packages.contains k)) ∧
    ∀ k, (copyPackages source s chain).1.packages.get? k =
      if k ∈ chain ∧ k ∉ s.packages.keys then
        (source.packages.get? k).map (Package.copiedAs k)
      else s.packages.get? k := by
  induction chain generalizing s with
  | nil => exact ⟨rfl, fun k => rfl⟩
  | cons id outer ih =>
      obtain ⟨hid, houter⟩ := List.nodup_cons.mp hnodup
      have hrest : ∀ k ∈ outer, ∃ q, source.packages.get? k = some q := fun k hk =>
        hrecorded k (List.mem_cons_of_mem id hk)
      obtain ⟨old, hold⟩ := hrecorded id List.mem_cons_self
      cases hknown : s.packages.contains id with
      | true =>
          obtain ⟨hflags, hget⟩ := ih (s := s) hrest houter
          have hkey := OrderedMap.contains_iff.mp hknown
          simp only [copyPackages, hknown, if_true, List.map_cons, Bool.not_true]
          refine ⟨congrArg _ hflags, fun k => ?_⟩
          rw [hget]
          by_cases hk : k = id
          · subst hk
            simp [hkey]
          · simp [hk]
      | false =>
          have hkey : id ∉ s.packages.keys := fun hmem => by
            rw [OrderedMap.contains_iff.mpr hmem] at hknown
            cases hknown
          obtain ⟨hflags, hget⟩ := ih (s := { s with
            packages := s.packages.insert id { old with id := id, elements := [] } }) hrest houter
          simp only [copyPackages, hknown, Bool.false_eq_true, if_false, hold, List.map_cons,
            Bool.not_false]
          refine ⟨congrArg _ ?_, fun k => ?_⟩
          · rw [hflags]
            refine List.map_congr_left fun k hk => ?_
            have hne : k ≠ id := fun he => hid (he ▸ hk)
            simp [OrderedMap.contains_insert, hne]
          · rw [hget]
            by_cases hk : k = id
            · subst hk
              simp [hid, hkey, hold, Package.copiedAs]
            · simp [hk, OrderedMap.mem_keys_insert, OrderedMap.get?_insert_of_ne]

/-- A package is copied exactly if it was not there. -/
theorem copied_iff_of_mem_copyPackages
    (hrecorded : ∀ k ∈ chain, ∃ q, source.packages.get? k = some q) (hnodup : chain.Nodup)
    {p : ElementId × Bool} (hp : p ∈ (copyPackages source s chain).2) :
    p.2 = true ↔ p.1 ∉ s.packages.keys := by
  rw [(copyPackages_eq hrecorded hnodup).1] at hp
  obtain ⟨k, _, rfl⟩ := List.mem_map.mp hp
  rw [← OrderedMap.contains_iff, Bool.not_eq_true', Bool.not_eq_true]

/-- What is there after copying was there before or is in the chain. -/
theorem mem_keys_copyPackages_iff
    (hrecorded : ∀ k ∈ chain, ∃ q, source.packages.get? k = some q) (hnodup : chain.Nodup) :
    k ∈ (copyPackages source s chain).1.packages.keys ↔ k ∈ s.packages.keys ∨ k ∈ chain := by
  rw [← OrderedMap.get?_isSome_iff, (copyPackages_eq hrecorded hnodup).2]
  split
  · rename_i hnew
    obtain ⟨q, hq⟩ := hrecorded k hnew.1
    rw [hq]
    exact iff_of_true rfl (Or.inr hnew.1)
  · rename_i hold
    rw [OrderedMap.get?_isSome_iff, or_iff_left_of_imp]
    exact fun hk => by_contra fun hnew => hold ⟨hk, hnew⟩

end Surroundings
end View
end UmlCatalog
