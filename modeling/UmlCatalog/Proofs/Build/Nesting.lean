import UmlCatalog.Build.Declaration

/-!
# How declarations are nested

The declarations of a document come in an order in which every package precedes what it
contains. The chain of a declaration is therefore made of packages that were declared before.
-/

namespace UmlCatalog
namespace Declaration
open Markup (Element)

/-- Every declaration stands at the outer level, or directly inside a package that an earlier
one declares. -/
def IsNested (outer : List ElementId) (ds : List Declaration) : Prop :=
  ∀ before n after, ds = before ++ n :: after →
    n.chain = outer ∨
      ∃ p ∈ before, p.kind = .package ∧ n.chain = p.id :: p.chain

variable {outer : List ElementId} {n : Declaration} {xs ys : List Declaration}

theorem isNested_nil (outer : List ElementId) : IsNested outer [] := by
  intro before n after h
  have hlen := congrArg List.length h
  simp at hlen

/-- A declaration at the outer level may hold others if it declares a package. -/
theorem IsNested.cons (hn : n.chain = outer) (hkind : n.kind = .package)
    (hxs : IsNested (n.id :: outer) xs) : IsNested outer (n :: xs) := by
  intro before x after h
  cases before with
  | nil =>
      obtain ⟨rfl, _⟩ := List.cons.inj h
      exact Or.inl hn
  | cons p before =>
      obtain ⟨rfl, hrest⟩ := List.cons.inj h
      apply Or.inr
      rcases hxs before x after hrest with hx | ⟨p, hp, hpk, hx⟩
      · refine ⟨n, List.mem_cons_self .., hkind, ?_⟩
        rw [hn]
        exact hx
      · exact ⟨p, List.mem_cons_of_mem _ hp, hpk, hx⟩

theorem isNested_singleton (hn : n.chain = outer) : IsNested outer [n] := by
  intro before x after h
  cases before with
  | nil =>
      obtain ⟨rfl, _⟩ := List.cons.inj h
      exact Or.inl hn
  | cons p before =>
      have hlen := congrArg List.length h
      simp at hlen

theorem IsNested.append (hxs : IsNested outer xs) (hys : IsNested outer ys) :
    IsNested outer (xs ++ ys) := by
  intro before n after h
  rcases List.append_eq_append_iff.mp h with ⟨zs, rfl, hzs⟩ | ⟨zs, rfl, hzs⟩
  · rcases hys zs n after hzs with hn | ⟨p, hp, hpk, hn⟩
    · exact Or.inl hn
    · exact Or.inr ⟨p, List.mem_append_right xs hp, hpk, hn⟩
  · cases zs with
    | nil =>
        rcases hys [] n after hzs.symm with hn | ⟨p, hp, _⟩
        · exact Or.inl hn
        · cases hp
    | cons z zs =>
        obtain ⟨rfl, _⟩ := List.cons.inj hzs
        exact hxs before n zs rfl

theorem IsNested.of_append (h : IsNested outer (xs ++ ys)) : IsNested outer xs := by
  intro before n after hsplit
  refine h before n (after ++ ys) ?_
  rw [hsplit, List.append_assoc]
  rfl

/-- Inside nested declarations the head of a chain is a package that is declared. -/
theorem IsNested.exists_package (h : IsNested [] xs) {x : Declaration} (hx : x ∈ xs)
    {package : ElementId} (hhead : x.chain.head? = some package) :
    ∃ p ∈ xs, p.kind = .package ∧ p.id = package := by
  obtain ⟨before, after, hsplit⟩ := List.append_of_mem hx
  rcases h before x after hsplit with hchain | ⟨p, hp, hkind, hchain⟩
  · rw [hchain] at hhead
    cases hhead
  · rw [hchain] at hhead
    refine ⟨p, ?_, hkind, Option.some.inj hhead⟩
    rw [hsplit]
    exact List.mem_append_left _ hp

section Elements
variable {config : BuildConfig} {chain : List ElementId} {e : Element} {id : String}

/-- An element without an identifier declares nothing. -/
theorem listOf_of_id?_eq_none (h : e.id? = none) : listOf config chain e = [] := by
  obtain ⟨tag, attributes, text, children⟩ := e
  rw [listOf]
  simp only [h]

/-- A package declares itself and what it contains. -/
theorem listOf_package (h : e.id? = some id) (hkind : kindOf config chain id e = .package) :
    listOf config chain e =
      ⟨.package, ⟨id⟩, chain, e⟩ :: listIn config (⟨id⟩ :: chain) e.children := by
  obtain ⟨tag, attributes, text, children⟩ := e
  rw [listOf]
  simp only [h, hkind]

/-- Every other element declares itself alone. -/
theorem listOf_other (h : e.id? = some id) (hkind : kindOf config chain id e ≠ .package) :
    listOf config chain e = [⟨kindOf config chain id e, ⟨id⟩, chain, e⟩] := by
  obtain ⟨tag, attributes, text, children⟩ := e
  rw [listOf]
  simp only [h]

end Elements

/-- The declarations among the children of a package are nested in it. -/
theorem isNested_listIn (config : BuildConfig) (chain : List ElementId)
    (elements : List Element) : IsNested chain (listIn config chain elements) := by
  refine listIn.induct config (fun chain e => IsNested chain (listOf config chain e))
    (fun chain elements => IsNested chain (listIn config chain elements))
    ?anonymous ?package ?other ?nil ?cons chain elements
  case anonymous =>
    intro chain tag attributes text children e h
    rw [listOf_of_id?_eq_none h]
    exact isNested_nil chain
  case package =>
    intro chain tag attributes text children e id h hkind ih
    rw [listOf_package h hkind]
    exact IsNested.cons rfl rfl ih
  case other =>
    intro chain tag attributes text children e id h hkind
    rw [listOf_other h hkind]
    exact isNested_singleton rfl
  case nil =>
    intro chain
    rw [listIn]
    exact isNested_nil chain
  case cons =>
    intro chain e rest he hrest
    rw [listIn]
    apply IsNested.append _ hrest
    split
    · exact he
    · exact isNested_nil chain

end Declaration
end UmlCatalog
