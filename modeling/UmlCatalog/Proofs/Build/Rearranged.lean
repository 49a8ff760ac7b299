import Mathlib.Data.List.Perm.Basic
import UmlCatalog.Proofs.Build.Acceptance
import UmlCatalog.Proofs.Build.Alike

/-!
# Declarations of rearranged documents

What a declaration says does not depend on the order of the packaged elements inside it, because
these are declarations of their own. So a rearranged document makes the same declarations in another
order, and is accepted whenever the document is.
-/

namespace UmlCatalog
open Markup (Alike Element Rearranged)
open Markup.Element (packagedTag)
open Declaration (idsIn)
open Relation

/-- The model of a document is rearranged. -/
inductive RearrangedDocument : Element → Element → Prop
  | model {document document' : Element} (inside : Rearranged document document') :
      RearrangedDocument document document'
  | wrapped {document root root' : Element} {before after : List Element}
      (tag : document.tag = wrapperTag) (children : document.children = before ++ root :: after)
      (model : root.tag = modelTag) (inside : Rearranged root root') :
      RearrangedDocument document { document with children := before ++ root' :: after }

/-- Two documents have models of which one is the other one rearranged, or both have none. -/
def SameModelRoots (document document' : Element) : Prop :=
  (∃ root root', IsModelRoot document root ∧ IsModelRoot document' root' ∧ Rearranged root root') ∨
    (∀ root, ¬ IsModelRoot document root) ∧ ∀ root, ¬ IsModelRoot document' root

section Roots
variable {document document' root root' : Element} {before after : List Element}

theorem isModelRoot_of_wrapper (h : document.tag = wrapperTag) :
    IsModelRoot document root ↔ document.firstNamed? modelTag = some root := by
  rw [IsModelRoot, if_pos h]

theorem isModelRoot_of_not_wrapper (h : document.tag ≠ wrapperTag) :
    IsModelRoot document root ↔
      (document.tag = modelTag ∨ document.type? = some modelTag) ∧ root = document := by
  rw [IsModelRoot, if_neg h]

/-- Wrappers have rearranged models if these come first in them. -/
theorem sameModelRoots_of_wrapper (htag : document.tag = wrapperTag)
    (htag' : document'.tag = wrapperTag)
    (hfirst : Option.Rel Rearranged (document.firstNamed? modelTag)
      (document'.firstNamed? modelTag)) : SameModelRoots document document' := by
  simp only [SameModelRoots, isModelRoot_of_wrapper htag, isModelRoot_of_wrapper htag']
  generalize document.firstNamed? modelTag = first at hfirst ⊢
  generalize document'.firstNamed? modelTag = first' at hfirst ⊢
  cases hfirst with
  | some hroot => exact Or.inl ⟨_, _, rfl, rfl, hroot⟩
  | none => exact Or.inr ⟨nofun, nofun⟩

/-- The first model in a wrapper stays the first one when a model is rearranged. -/
theorem rel_firstNamed?_of_children (children : document.children = before ++ root :: after)
    (children' : document'.children = before ++ root' :: after) (model : root.tag = modelTag)
    (inside : Rearranged root root') :
    Option.Rel Rearranged (document.firstNamed? modelTag) (document'.firstNamed? modelTag) := by
  have model' : root'.tag = modelTag := inside.tag_eq.trans model
  rw [Element.firstNamed?, Element.firstNamed?, children, children', List.find?_append,
    List.find?_append]
  cases before.find? fun c => c.tag = modelTag with
  | some first => exact .some (.refl first)
  | none =>
      rw [Option.none_or, Option.none_or, List.find?_cons, List.find?_cons, decide_eq_true model,
        decide_eq_true model']
      exact .some inside

/-- What is rearranged at the top has the same children of every other tag. -/
theorem rel_firstNamed?_of_rearranged (h : Rearranged document document') :
    Option.Rel Rearranged (document.firstNamed? modelTag) (document'.firstNamed? modelTag) := by
  have hfirst : document'.firstNamed? modelTag = document.firstNamed? modelTag := by
    rw [← document'.firstNamed?_withoutPackaged (by decide), h.withoutPackaged_eq,
      document.firstNamed?_withoutPackaged (by decide)]
  rw [hfirst]
  cases document.firstNamed? modelTag with
  | some first => exact .some (.refl first)
  | none => exact .none

theorem RearrangedDocument.sameModelRoots (h : RearrangedDocument document document') :
    SameModelRoots document document' := by
  cases h with
  | model inside =>
      by_cases htag : document.tag = wrapperTag
      · exact sameModelRoots_of_wrapper htag (inside.tag_eq.trans htag)
          (rel_firstNamed?_of_rearranged inside)
      · have htag' : document'.tag ≠ wrapperTag := fun he => htag (inside.tag_eq.symm.trans he)
        simp only [SameModelRoots, isModelRoot_of_not_wrapper htag,
          isModelRoot_of_not_wrapper htag', inside.tag_eq, inside.type?_eq]
        by_cases hmodel : document.tag = modelTag ∨ document.type? = some modelTag
        · exact Or.inl ⟨document, document', ⟨hmodel, rfl⟩, ⟨hmodel, rfl⟩, inside⟩
        · exact Or.inr ⟨fun _ hroot => hmodel hroot.1, fun _ hroot => hmodel hroot.1⟩
  | wrapped tag children model inside =>
      exact sameModelRoots_of_wrapper tag tag
        (rel_firstNamed?_of_children children rfl model inside)

end Roots

namespace Declaration
variable {config : BuildConfig} {n : Declaration}

/-- A declaration without what is packaged inside its element. -/
def bare (n : Declaration) : Declaration := { n with element := n.element.withoutPackaged }

section Bare
variable (config : BuildConfig) (n : Declaration)

@[simp] theorem toClass_bare : n.bare.toClass config = n.toClass config :=
  toClass_withElement (.withoutPackaged n.element)

@[simp] theorem toEnumeration_bare : n.bare.toEnumeration config = n.toEnumeration config :=
  toEnumeration_withElement (.withoutPackaged n.element)

@[simp] theorem toDatatype_bare : n.bare.toDatatype config = n.toDatatype config :=
  toDatatype_withElement (.withoutPackaged n.element)

@[simp] theorem toPackage_bare : n.bare.toPackage config = n.toPackage config :=
  toPackage_withElement (.withoutPackaged n.element) (by decide) (by decide)

@[simp] theorem toAssociation_bare : n.bare.toAssociation config = n.toAssociation config :=
  toAssociation_withElement (.withoutPackaged n.element)

@[simp] theorem importEntries_bare : n.bare.importEntries = n.importEntries := by
  unfold importEntries
  simp only [bare, (Alike.withoutPackaged n.element).elementImports_eq]

end Bare

/-- Whatever ignores the packaged elements is the same for declarations that differ in nothing
else. -/
theorem eq_of_bare_eq {α : Type} {g : Declaration → α} (hg : ∀ n, g n.bare = g n)
    {n n' : Declaration} (h : n'.bare = n.bare) : g n' = g n := by
  rw [← hg n', h, hg]

theorem id_eq_of_bare_eq {n n' : Declaration} (h : n'.bare = n.bare) : n'.id = n.id :=
  eq_of_bare_eq (g := Declaration.id) (fun _ => rfl) h

theorem kind_eq_of_bare_eq {n n' : Declaration} (h : n'.bare = n.bare) : n'.kind = n.kind :=
  eq_of_bare_eq (g := Declaration.kind) (fun _ => rfl) h

end Declaration

theorem filterMap_eq_filterMap_map {α β : Type} (f : α → Option β) (l : List α) :
    l.filterMap f = (l.map f).filterMap id := by
  rw [List.filterMap_map]
  rfl

/-- The same declarations in any order, apart from what is packaged inside their elements. -/
def SameDeclarations (ds ds' : List Declaration) : Prop :=
  (ds.map Declaration.bare).Perm (ds'.map Declaration.bare)

namespace SameDeclarations
variable {ds ds' : List Declaration} {α : Type}

theorem symm (h : SameDeclarations ds ds') : SameDeclarations ds' ds := List.Perm.symm h

theorem exists_mem (h : SameDeclarations ds ds') {n : Declaration} (hn : n ∈ ds) :
    ∃ n' ∈ ds', n'.bare = n.bare :=
  List.mem_map.mp (h.mem_iff.mp (List.mem_map_of_mem hn))

theorem filter (h : SameDeclarations ds ds') {p : Declaration → Bool}
    (hp : ∀ n, p n.bare = p n) : SameDeclarations (ds.filter p) (ds'.filter p) := by
  have hfilter : ∀ l : List Declaration,
      (l.filter p).map Declaration.bare = (l.map Declaration.bare).filter p := by
    intro l
    rw [List.filter_map]
    exact congrArg _ (List.filter_congr fun n _ => (hp n).symm)
  unfold SameDeclarations
  rw [hfilter ds, hfilter ds']
  exact List.Perm.filter p h

theorem map (h : SameDeclarations ds ds') {g : Declaration → α} (hg : ∀ n, g n.bare = g n) :
    (ds.map g).Perm (ds'.map g) := by
  have hmap : ∀ l : List Declaration, l.map g = (l.map Declaration.bare).map g := by
    intro l
    rw [List.map_map]
    exact List.map_congr_left fun n _ => (hg n).symm
  rw [hmap ds, hmap ds']
  exact List.Perm.map g h

theorem filterMap (h : SameDeclarations ds ds') {g : Declaration → Option α}
    (hg : ∀ n, g n.bare = g n) : (ds.filterMap g).Perm (ds'.filterMap g) := by
  rw [filterMap_eq_filterMap_map g ds, filterMap_eq_filterMap_map g ds']
  exact (h.map hg).filterMap id

theorem flatMap (h : SameDeclarations ds ds') {g : Declaration → List α}
    (hg : ∀ n, g n.bare = g n) : (ds.flatMap g).Perm (ds'.flatMap g) := by
  rw [List.flatMap_def, List.flatMap_def]
  exact (h.map hg).flatten

end SameDeclarations

/-- Reading a list where a test holds is reading nothing where it does not. -/
theorem flatMap_filter {α β : Type} (p : α → Prop) [DecidablePred p] (f : α → List β)
    (l : List α) : (l.filter fun a => p a).flatMap f = l.flatMap fun a => if p a then f a else [] := by
  induction l with
  | nil => rfl
  | cons a l ih =>
      rw [List.filter_cons, List.flatMap_cons, ← ih]
      by_cases ha : p a
      · rw [if_pos (decide_eq_true ha), if_pos ha, List.flatMap_cons]
      · rw [if_neg fun he => ha (of_decide_eq_true he), if_neg ha, List.nil_append]

namespace Declaration
variable {config : BuildConfig} {α : Type} {f : Declaration → List α}

theorem listIn_eq_flatMap (config : BuildConfig) (chain : List ElementId)
    (elements : List Element) :
    listIn config chain elements =
      (elements.filter fun e => e.tag = packagedTag).flatMap (listOf config chain) := by
  rw [flatMap_filter]
  induction elements with
  | nil =>
      rw [listIn]
      rfl
  | cons e rest ih =>
      rw [listIn, ih, List.flatMap_cons]
      rfl

/-- What is read off packaged elements that are rearranged one by one and put in another order. -/
theorem flatMap_listIn_perm {chain : List ElementId} {e e' : Element} {middle : List Element}
    (inside : List.Forall₂ (fun c c' =>
      ((listOf config chain c).flatMap f).Perm ((listOf config chain c').flatMap f))
      (e.childrenNamed packagedTag) middle)
    (order : middle.Perm (e'.childrenNamed packagedTag)) :
    ((listIn config chain e.children).flatMap f).Perm
      ((listIn config chain e'.children).flatMap f) := by
  have hlist : ∀ e : Element, (listIn config chain e.children).flatMap f =
      (e.childrenNamed packagedTag).flatMap fun c => (listOf config chain c).flatMap f := by
    intro e
    rw [listIn_eq_flatMap, List.flatMap_assoc]
    rfl
  rw [hlist, hlist]
  refine List.Perm.trans ?_ (order.flatMap_right _)
  refine List.Perm.flatten_congr ?_
  rwa [List.forall₂_map_left_iff, List.forall₂_map_right_iff]

/-- Whatever is read off declarations in the same way when their elements are rearranged is read off
rearranged elements in another order. -/
theorem flatMap_listOf_perm
    (hf : ∀ kind id chain e e', Rearranged e e' →
      (f ⟨kind, id, chain, e⟩).Perm (f ⟨kind, id, chain, e'⟩))
    {e e' : Element} (h : Rearranged e e') :
    ∀ chain, ((listOf config chain e).flatMap f).Perm ((listOf config chain e').flatMap f) := by
  -- By induction on the rearrangement, for every chain: inside a package the chain grows.
  refine Rearranged.induction (P := fun e e' => ∀ chain,
    ((listOf config chain e).flatMap f).Perm ((listOf config chain e').flatMap f)) ?_ h
  intro e e' middle rest inside order chain
  have h : Rearranged e e' := .intro rest (inside.imp fun _ _ => And.left) order
  cases hid : e.id? with
  | none =>
      rw [listOf_of_id?_eq_none hid, listOf_of_id?_eq_none (h.id?_eq.trans hid)]
  | some id =>
      have hid' : e'.id? = some id := h.id?_eq.trans hid
      have hkind : kindOf config chain id e' = kindOf config chain id e := by
        rw [kindOf, kindOf, typeOf, typeOf, h.type?_eq, h.tag_eq]
      by_cases hpackage : kindOf config chain id e = .package
      · rw [listOf_package hid hpackage, listOf_package hid' (hkind.trans hpackage),
          List.flatMap_cons, List.flatMap_cons]
        exact (hf _ _ _ _ _ h).append (flatMap_listIn_perm
          (inside.imp fun _ _ hc => hc.2 (⟨id⟩ :: chain)) order)
      · rw [listOf_other hid hpackage, listOf_other hid' (hkind ▸ hpackage), hkind]
        simp only [List.flatMap_singleton]
        exact hf _ _ _ _ _ h

end Declaration

section Visited
variable {config : BuildConfig} {root root' : Element}

theorem flatMap_visited_perm {α : Type} {f : Declaration → List α}
    (hf : ∀ kind id chain e e', Rearranged e e' →
      (f ⟨kind, id, chain, e⟩).Perm (f ⟨kind, id, chain, e'⟩))
    (h : Rearranged root root') :
    ((visited config root).flatMap f).Perm ((visited config root').flatMap f) := by
  rw [← declarations_eq_visited, ← declarations_eq_visited, declarations, declarations]
  cases h with
  | intro _ inside order =>
      exact Declaration.flatMap_listIn_perm
        (inside.imp fun _ _ hc => Declaration.flatMap_listOf_perm hf hc []) order

/-- A rearranged model makes the same declarations. -/
theorem sameDeclarations_visited (config : BuildConfig) (h : Rearranged root root') :
    SameDeclarations (visited config root) (visited config root') := by
  have hmap : ∀ ds : List Declaration, ds.map Declaration.bare = ds.flatMap fun n => [n.bare] :=
    fun _ => List.map_eq_flatMap
  rw [SameDeclarations, hmap, hmap]
  refine flatMap_visited_perm (fun kind id chain e e' he => ?_) h
  simp only [Declaration.bare, he.withoutPackaged_eq, List.Perm.refl]

/-- The view that an element of a package of views stands for. -/
def viewOf? (config : BuildConfig) (v : Element) : Option View :=
  v.id?.map fun id => {
    id := ⟨id⟩
    name := config.nameOf v
    members := (v.childrenNamed "elementImport").filterMap fun i =>
      i.importedElement?.map ElementId.mk
    comments := v.comments }

theorem views_eq_filterMap (config : BuildConfig) (e : Element) :
    e.views config = (e.childrenNamed packagedTag).filterMap (viewOf? config) := rfl

theorem viewOf?_eq_of_alike {v v' : Element} (h : Alike [packagedTag] v v') :
    viewOf? config v' = viewOf? config v := by
  have hmembers : (v'.childrenNamed "elementImport").filterMap
        (fun i => i.importedElement?.map ElementId.mk) =
      (v.childrenNamed "elementImport").filterMap fun i => i.importedElement?.map ElementId.mk :=
    h.filterMap_childrenNamed_eq (by decide) fun _ _ hi => by rw [hi.importedElement?_eq]
  simp only [viewOf?, h.id?_eq, h.nameOf_eq (by decide), h.comments_eq (by decide), hmembers]

/-- Rearranged packages of views hold the same views in another order. -/
theorem views_perm {e e' : Element} (h : Rearranged e e') :
    (e.views config).Perm (e'.views config) := by
  cases h with
  | @intro _ _ middle _ inside order =>
      have hmap : (e.childrenNamed packagedTag).map (viewOf? config) =
          middle.map (viewOf? config) := by
        rw [← List.forall₂_eq_eq_eq, List.forall₂_map_left_iff, List.forall₂_map_right_iff]
        exact inside.imp fun _ _ hv => (viewOf?_eq_of_alike (.of_rearranged hv)).symm
      rw [views_eq_filterMap, views_eq_filterMap, filterMap_eq_filterMap_map, hmap,
        ← filterMap_eq_filterMap_map]
      exact order.filterMap (viewOf? config)

theorem flatMap_views_perm (h : Rearranged root root') :
    (((visited config root).filter fun n => n.kind = .viewPackage).flatMap fun n =>
      n.element.views config).Perm
    (((visited config root').filter fun n => n.kind = .viewPackage).flatMap fun n =>
      n.element.views config) := by
  rw [flatMap_filter, flatMap_filter]
  refine flatMap_visited_perm (fun kind id chain e e' he => ?_) h
  dsimp only
  split
  · exact views_perm he
  · exact .refl _

end Visited

section Valid
variable {ds ds' : List Declaration} {arena : Arena}

theorem SameDeclarations.inArena (h : SameDeclarations ds ds') (arena : Arena) :
    SameDeclarations (Declaration.inArena ds arena) (Declaration.inArena ds' arena) :=
  h.filter fun _ => rfl

theorem SameDeclarations.idsIn_perm (h : SameDeclarations ds ds') (arena : Arena) :
    (idsIn ds arena).Perm (idsIn ds' arena) :=
  (h.inArena arena).map fun _ => rfl

theorem InheritanceEdge.of_sameDeclarations (h : SameDeclarations ds ds') {x y : ElementId}
    (hedge : InheritanceEdge ds x y) : InheritanceEdge ds' x y := by
  obtain ⟨n, hn, hkind, hid, hx⟩ := hedge
  obtain ⟨n', hn', hbare⟩ := h.exists_mem hn
  have hgenerals : n'.element.generals = n.element.generals :=
    Declaration.eq_of_bare_eq (g := fun n => n.element.generals)
      (fun n => (Alike.withoutPackaged n.element).generals_eq) hbare
  exact ⟨n', hn', (Declaration.kind_eq_of_bare_eq hbare).trans hkind,
    (Declaration.id_eq_of_bare_eq hbare).trans hid, hgenerals ▸ hx⟩

/-- Whether declarations make a model does not depend on their order. -/
theorem IsValid.of_sameDeclarations (h : SameDeclarations ds ds') (hvalid : IsValid ds) :
    IsValid ds' where
  distinct arena := (h.idsIn_perm arena).nodup_iff.mp (hvalid.distinct arena)
  plain := by
    intro n' hn' kind hkind c hc htag
    obtain ⟨n, hn, hbare⟩ := h.symm.exists_mem hn'
    have hchildren := congrArg (fun n => n.element.children) hbare
    have hmem : c ∈ n'.bare.element.children :=
      List.mem_filter.mpr ⟨hc, decide_eq_true (by rw [htag]; decide)⟩
    rw [← hchildren] at hmem
    exact hvalid.plain n hn kind ((Declaration.kind_eq_of_bare_eq hbare).trans hkind) c
      (List.mem_of_mem_filter hmem) htag
  acyclic x hx := by
    refine hvalid.acyclic x (TransGen.mono (fun _ _ he => ?_) _ _ hx)
    exact he.of_sameDeclarations h.symm

end Valid

end UmlCatalog
