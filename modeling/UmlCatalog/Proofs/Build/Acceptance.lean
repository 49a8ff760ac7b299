import Mathlib.Logic.Relation
import UmlCatalog.Proofs.Build.Filing
import UmlCatalog.Proofs.Build.Sound

/-!
# Which documents are accepted

A document is accepted if its visited elements are valid: identifiers are distinct in each arena,
value types do not inherit, and no class inherits from itself. This does not depend on the order in
which elements are taken in. A document that is refused is refused for the first element with which
the visited ones are no longer valid. Elements that are reached through packages without an
identifier are not visited, and need not be valid.

## Implementation notes

Packages cannot close a cycle. One that is taken in is new, and whatever is registered lies in
packages that are registered as well. So the only check of the containment hierarchy never fails.
-/

namespace UmlCatalog
open Relation
open Declaration (inArena idsIn)

/-- The element that holds the model: the document itself, or the first model inside the
wrapper. -/
def IsModelRoot (document root : Markup.Element) : Prop :=
  if document.tag = wrapperTag then document.firstNamed? modelTag = some root
  else (document.tag = modelTag ∨ document.type? = some modelTag) ∧ root = document

theorem modelRoot_eq_ok_iff {document root : Markup.Element} :
    modelRoot document = .ok root ↔ IsModelRoot document root := by
  unfold modelRoot IsModelRoot
  split
  · cases h : document.firstNamed? modelTag with
    | none => simp
    | some e => simp
  · split
    · rename_i h
      exact ⟨fun he => ⟨h, (Except.ok.inj he).symm⟩, fun he => congrArg Except.ok he.2.symm⟩
    · rename_i h
      exact ⟨nofun, fun he => absurd he.1 h⟩

theorem IsModelRoot.eq {document root root' : Markup.Element} (h : IsModelRoot document root)
    (h' : IsModelRoot document root') : root = root' := by
  rw [← modelRoot_eq_ok_iff] at h h'
  exact Except.ok.inj (h.symm.trans h')

theorem modelRoot_eq_error {document : Markup.Element} {e : ModelError}
    (h : modelRoot document = .error e) : e = .missing .element modelTag := by
  unfold modelRoot at h
  split at h
  · split at h
    · cases h
    · exact (Except.error.inj h).symm
  · split at h
    · cases h
    · exact (Except.error.inj h).symm

/-- The kind of declaration of a value type. -/
def ValueTypeKind.declaration : ValueTypeKind → DeclarationKind
  | enumeration => .enumeration
  | datatype => .datatype

/-- A general is above every class that names it. -/
def InheritanceEdge (ds : List Declaration) (general id : ElementId) : Prop :=
  ∃ n ∈ ds, n.kind = .umlClass ∧ n.id = id ∧ general ∈ n.element.generals

/-- Declarations that make a model, in whatever order they come. -/
structure IsValid (ds : List Declaration) : Prop where
  distinct : ∀ arena, (idsIn ds arena).Nodup
  plain : ∀ n ∈ ds, ∀ kind : ValueTypeKind, n.kind = kind.declaration →
    ∀ c ∈ n.element.children, c.tag ≠ "generalization"
  acyclic : ∀ x, ¬ TransGen (InheritanceEdge ds) x x

/-- The edges to a class are passed one after the other. -/
def EdgeAfter (before : List Declaration) (id : ElementId) (passed : List ElementId)
    (x y : ElementId) : Prop :=
  InheritanceEdge before x y ∨ y = id ∧ x ∈ passed

/-- `Fault before n e`: behind `before`, the error `e` is the first that is found in `n`. An
identifier is checked before anything else. -/
inductive Fault (before : List Declaration) (n : Declaration) : ModelError → Prop
  | duplicate {arena : Arena} (kind : n.kind.arena? = some arena)
      (known : n.id ∈ idsIn before arena) : Fault before n (.duplicateId arena n.id)
  | inherited {kind : ValueTypeKind} {g : Markup.Element} (hkind : n.kind = kind.declaration)
      (new : n.id ∉ idsIn before kind.arena)
      (first : n.element.firstNamed? "generalization" = some g) :
      Fault before n
        (.inheritedValueType kind n.id ((g.attrElseIdref? "general").getD ""))
  | cycle {passed rest : List ElementId} {general : ElementId} (kind : n.kind = .umlClass)
      (new : n.id ∉ idsIn before .classes)
      (generals : n.element.generals = passed ++ general :: rest)
      (acyclic : ∀ x, ¬ TransGen (EdgeAfter before n.id passed) x x)
      (closes : ReflTransGen (EdgeAfter before n.id passed) n.id general) :
      Fault before n (.hierarchyCycle general n.id)

section Valid
variable {ds before after : List Declaration} {n : Declaration} {e : ModelError}
  {x y : ElementId}

theorem InheritanceEdge.mono (hsub : ∀ n ∈ before, n ∈ ds) (h : InheritanceEdge before x y) :
    InheritanceEdge ds x y := by
  obtain ⟨n, hn, hedge⟩ := h
  exact ⟨n, hsub n hn, hedge⟩

/-- What comes first of valid declarations is valid. -/
theorem IsValid.of_append (h : IsValid (before ++ after)) : IsValid before where
  distinct arena := by
    have hsub : (idsIn before arena).Sublist (idsIn (before ++ after) arena) :=
      ((List.sublist_append_left before after).filter _).map _
    exact (h.distinct arena).sublist hsub
  plain := fun n hn => h.plain n (List.mem_append_left after hn)
  acyclic x hx := by
    refine h.acyclic x (TransGen.mono (fun _ _ he => ?_) _ _ hx)
    exact he.mono fun n hn => List.mem_append_left after hn

/-- An element with a fault makes the declarations invalid. -/
theorem Fault.not_isValid (h : Fault before n e) : ¬ IsValid (before ++ [n]) := by
  intro hvalid
  have hlast : n ∈ before ++ [n] := List.mem_append_right before (List.mem_singleton_self n)
  cases h with
  | @duplicate arena kind known =>
      have hdistinct := hvalid.distinct arena
      rw [idsIn, Declaration.inArena_append_of_mem kind, List.map_append,
        List.nodup_append] at hdistinct
      exact hdistinct.2.2 _ known _ (List.mem_singleton_self _) rfl
  | inherited hkind new first =>
      have htag := List.find?_some first
      exact hvalid.plain n hlast _ hkind _ (List.mem_of_find?_eq_some first) (of_decide_eq_true htag)
  | @cycle passed rest general kind new generals acyclic closes =>
      have hsub : ∀ p q, EdgeAfter before n.id passed p q → InheritanceEdge (before ++ [n]) p q := by
        rintro p q (hedge | ⟨rfl, hp⟩)
        · exact hedge.mono fun m hm => List.mem_append_left [n] hm
        · exact ⟨n, hlast, kind, rfl, generals ▸ List.mem_append_left _ hp⟩
      have hedge : InheritanceEdge (before ++ [n]) general n.id :=
        ⟨n, hlast, kind, rfl, generals ▸ List.mem_append_right _ List.mem_cons_self⟩
      exact hvalid.acyclic general (TransGen.head' hedge (ReflTransGen.mono hsub _ _ closes))

end Valid

namespace Draft
variable {config : BuildConfig} {d d' : Draft} {n : Declaration} {ds before : List Declaration}
  {e : ModelError} {x y : ElementId}

/-- The classes of a draft inherit as the declarations say. -/
theorem Files.superEdge_iff (hd : d.Files config ds) :
    d.model.SuperEdge x y ↔ InheritanceEdge ds x y := by
  have hclass : ∀ n : Declaration, n ∈ inArena ds .classes ↔ n ∈ ds ∧ n.kind = .umlClass := by
    intro n
    rw [Declaration.mem_inArena]
    cases n.kind <;> simp [DeclarationKind.arena?]
  constructor
  · rintro ⟨c, hc, hx⟩
    obtain ⟨n, hn, hid, rfl⟩ := hd.classes.exists_of_get? hc
    obtain ⟨hn, hkind⟩ := (hclass n).mp hn
    exact ⟨n, hn, hkind, hid, hx⟩
  · rintro ⟨n, hn, hkind, rfl, hx⟩
    obtain ⟨c, hc, rfl⟩ := hd.classes.exists_get? n ((hclass n).mpr ⟨hn, hkind⟩)
    exact ⟨_, hc, hx⟩

/-- A value type that is taken in does not inherit. -/
theorem Added.plain (h : Added config d n d') {kind : ValueTypeKind}
    (hkind : n.kind = kind.declaration) : ∀ c ∈ n.element.children, c.tag ≠ "generalization" := by
  have hplain : n.element.firstNamed? "generalization" = none := by
    cases h with
    | enumeration _ _ plain | datatype _ _ plain => exact plain
    | umlClass hother _ _ | topPackage hother _ _ | nestedPackage hother _ _ _
    | excludedPackage hother _ | viewPackage hother | association hother _ | other hother =>
        rw [hother] at hkind
        cases kind <;> cases hkind
  intro c hc htag
  exact List.find?_eq_none.mp hplain c hc (decide_eq_true htag)

/-- Declarations that are all taken in are valid. -/
theorem isValid_of_foldlM {resource : Option String} {root : Markup.Element}
    (hnested : Declaration.IsNested [] ds)
    (h : ds.foldlM (add config) (start config resource root) = .ok d) : IsValid ds := by
  have hfiles := files_of_foldlM hnested h
  obtain ⟨hsound, _⟩ := isSound_of_isNested hnested h
  refine ⟨hfiles.nodup_idsIn, ?_, fun x hx => ?_⟩
  · refine foldlM_induction (P := fun before _ => ∀ n ∈ before, ∀ kind : ValueTypeKind,
      n.kind = kind.declaration → ∀ c ∈ n.element.children, c.tag ≠ "generalization") ?_
      (fun n hn => nomatch hn) h
    intro before n after s t _ hs hadd p hp kind hkind
    rcases List.mem_append.mp hp with hp | hp
    · exact hs p hp kind hkind
    · obtain rfl := List.mem_singleton.mp hp
      exact (added_of_add_eq_ok hadd).plain hkind
  · exact hsound.acyclic.1 x (TransGen.mono (fun _ _ he => hfiles.superEdge_iff.mpr he) _ _ hx)

/-- An edge is refused because the edges passed before it lead back to its parent. -/
theorem addEdges_eq_error {h : Hierarchy} {edge : ElementId → ElementId → Prop}
    {single : ElementId → Prop} (hh : h.IsClosure edge single) {id : ElementId}
    {generals : List ElementId} (hadd : addEdges h id generals = .error e) :
    ∃ passed general rest, generals = passed ++ general :: rest ∧
      (∀ x, ¬ TransGen (fun x y => edge x y ∨ y = id ∧ x ∈ passed) x x) ∧
      ReflTransGen (fun x y => edge x y ∨ y = id ∧ x ∈ passed) id general ∧
      e = .hierarchyCycle general id := by
  obtain ⟨passed, general, rest, t, hsplit, ht, hlast⟩ := exists_of_foldlM_eq_error hadd
  have hclosure := isClosure_of_addEdges hh ht
  rcases hclosure.add_cases general id with ⟨hcycle, he⟩ | ⟨_, t', he, _⟩
  · exact ⟨passed, general, rest, hsplit, hclosure.acyclic, hcycle,
      Except.error.inj (hlast.symm.trans he)⟩
  · cases hlast.symm.trans he

theorem addClass_eq_error (hs : d.model.IsSound) (hd : d.Files config before)
    (kind : n.kind = .umlClass) (h : d.addClass config n = .error e) : Fault before n e := by
  have hkeys := hd.classes.keys_eq_idsIn
  rcases exists_of_bind_eq_error h with h | ⟨_, hnew, h⟩
  · obtain ⟨hknown, rfl⟩ := Model.requireNew_eq_error h
    exact .duplicate (by rw [kind]; rfl) (hkeys ▸ hknown)
  · rw [Model.requireNew_eq_ok_iff] at hnew
    rcases exists_of_bind_eq_error h with h | ⟨hierarchy, _, h⟩
    · have hclosure := hs.classHierarchy.congr fun x y => (hd.superEdge_iff (x := x) (y := y)).symm
      obtain ⟨passed, general, rest, hsplit, hacyclic, hcycle, rfl⟩ := addEdges_eq_error hclosure h
      exact .cycle kind (hkeys ▸ hnew) hsplit hacyclic hcycle
    · rcases exists_of_bind_eq_error h with h | ⟨_, _, h⟩
      · exact absurd (Model.enterNew_bind_eq_error h).1 hnew
      · cases h

/-- A value type is refused as a duplicate or because it inherits. -/
theorem addValueType_eq_error {α : Type} {kind : ValueTypeKind} {known : OrderedMap ElementId α}
    {added : Except ModelError Model} (hkind : n.kind = kind.declaration)
    (hknown : known.keys = idsIn before kind.arena)
    (hadded : ∀ e, added = .error e → n.id ∈ known.keys)
    (h : d.addValueType n kind known added = .error e) : Fault before n e := by
  rcases exists_of_bind_eq_error h with h | ⟨_, hnew, h⟩
  · obtain ⟨hid, rfl⟩ := Model.requireNew_eq_error h
    refine .duplicate ?_ (hknown ▸ hid)
    rw [hkind]
    cases kind <;> rfl
  · rw [Model.requireNew_eq_ok_iff] at hnew
    rcases exists_of_bind_eq_error h with h | ⟨_, _, h⟩
    · unfold refuseGeneralization at h
      split at h
      · rename_i g hfirst
        obtain rfl := Except.error.inj h
        exact .inherited hkind (hknown ▸ hnew) hfirst
      · cases h
    · rcases exists_of_bind_eq_error h with h | ⟨_, _, h⟩
      · exact absurd (hadded e h) hnew
      · cases h

theorem addPackage_eq_error (hs : d.model.IsSound) (hchain : d.model.IsChain n.chain)
    (hd : d.Files config before) (kind : n.kind = .package)
    (h : d.addPackage config n = .error e) : Fault before n e := by
  rcases exists_of_bind_eq_error h with h | ⟨m, hm, h⟩
  · obtain ⟨hknown, rfl⟩ := Model.addPackage_eq_error h
    exact .duplicate (by rw [kind]; rfl) (hd.packages.keys_eq_idsIn ▸ hknown)
  · obtain ⟨hnew, rfl⟩ := Model.addPackage_eq_ok hm
    cases hc : n.chain with
    | nil =>
        rw [hc] at h
        cases h
    | cons parent outer =>
        rw [hc] at h hchain
        rcases exists_of_bind_eq_error h with h | ⟨_, _, h⟩
        · obtain ⟨hierarchy, hadd⟩ := hs.exists_add hnew hchain
          cases h.symm.trans hadd
        · cases h

theorem addExcluded_eq_error (hd : d.Files config before) (kind : n.kind = .excludedPackage)
    (h : d.addExcluded config n = .error e) : Fault before n e := by
  rcases exists_of_bind_eq_error h with h | ⟨_, _, h⟩
  · obtain ⟨hknown, rfl⟩ := Model.addPackage_eq_error h
    exact .duplicate (by rw [kind]; rfl) (hd.packages.keys_eq_idsIn ▸ hknown)
  · cases h

theorem addAssociation_eq_error (hd : d.Files config before) (kind : n.kind = .association)
    (h : d.addAssociation config n = .error e) : Fault before n e := by
  obtain ⟨hknown, rfl⟩ := Model.enterNew_bind_eq_error h
  exact .duplicate (by rw [kind]; rfl) (hd.associations.keys_eq_idsIn ▸ hknown)

/-- A declaration that is refused has a fault. -/
theorem fault_of_add_eq_error (hs : d.model.IsSound) (hchain : d.model.IsChain n.chain)
    (hd : d.Files config before) (h : d.add config n = .error e) : Fault before n e := by
  unfold add at h
  split at h
  · rename_i kind
    exact addClass_eq_error hs hd kind h
  · rename_i kind
    have hkind : n.kind = ValueTypeKind.enumeration.declaration := kind
    exact addValueType_eq_error hkind hd.enums.keys_eq_idsIn
      (fun e he => (Model.enterNew_bind_eq_error he).1) h
  · rename_i kind
    have hkind : n.kind = ValueTypeKind.datatype.declaration := kind
    exact addValueType_eq_error hkind hd.datatypes.keys_eq_idsIn
      (fun e he => (Model.enterNew_bind_eq_error he).1) h
  · rename_i kind
    exact addPackage_eq_error hs hchain hd kind h
  · rename_i kind
    exact addExcluded_eq_error hd kind h
  · cases h
  · rename_i kind
    exact addAssociation_eq_error hd kind h
  · cases h

/-- Declarations that are not all taken in have a first one with a fault. -/
theorem exists_fault_of_foldlM {resource : Option String} {root : Markup.Element}
    (hnested : Declaration.IsNested [] ds)
    (h : ds.foldlM (add config) (start config resource root) = .error e) :
    ∃ before n after, ds = before ++ n :: after ∧ IsValid before ∧ Fault before n e := by
  obtain ⟨before, n, after, s, rfl, hs, hadd⟩ := exists_of_foldlM_eq_error h
  have hbefore := hnested.of_append
  obtain ⟨hsound, hchains⟩ := isSound_of_isNested hbefore hs
  have hchain : s.model.IsChain n.chain := by
    rcases hnested before n after rfl with hn | ⟨p, hp, hkind, hn⟩
    · rw [hn]
      trivial
    · rw [hn]
      exact hchains p hp hkind
  exact ⟨before, n, after, rfl, isValid_of_foldlM hbefore hs,
    fault_of_add_eq_error hsound hchain (files_of_foldlM hbefore hs) hadd⟩

end Draft

/-- A document with a model is refused for the first of its visited elements that has a fault. -/
theorem exists_fault_of_build_eq_error {config : BuildConfig} {resource : Option String}
    {document root : Markup.Element} {e : ModelError} (hroot : IsModelRoot document root)
    (h : build config resource document = .error e) :
    ∃ before n after, visited config root = before ++ n :: after ∧
      IsValid before ∧ Fault before n e := by
  have hmodel := modelRoot_eq_ok_iff.mpr hroot
  rcases exists_of_bind_eq_error h with h | ⟨root', hroot', h⟩
  · cases h.symm.trans hmodel
  · obtain rfl := Except.ok.inj (hroot'.symm.trans hmodel)
    rcases exists_of_bind_eq_error h with h | ⟨_, _, h⟩
    · rw [declarations_eq_visited] at h
      exact Draft.exists_fault_of_foldlM (isNested_visited config root') h
    · cases h

/-- The visited elements of an accepted document are valid. -/
theorem exists_isValid_of_build {config : BuildConfig} {resource : Option String}
    {document : Markup.Element} {result : BuildResult}
    (h : build config resource document = .ok result) :
    ∃ root, IsModelRoot document root ∧ IsValid (visited config root) := by
  obtain ⟨root, d, hroot, _, hd⟩ := exists_draft_of_build h
  exact ⟨root, modelRoot_eq_ok_iff.mp hroot,
    Draft.isValid_of_foldlM (isNested_visited config root) hd⟩

theorem isValid_of_build {config : BuildConfig} {resource : Option String}
    {document root : Markup.Element} {result : BuildResult} (hroot : IsModelRoot document root)
    (h : build config resource document = .ok result) : IsValid (visited config root) := by
  obtain ⟨root', hroot', hvalid⟩ := exists_isValid_of_build h
  rwa [hroot.eq hroot']

/-- A document with a model is accepted if its visited elements are valid. -/
theorem exists_build_eq_ok {config : BuildConfig} {resource : Option String}
    {document root : Markup.Element} (hroot : IsModelRoot document root)
    (hvalid : IsValid (visited config root)) :
    ∃ result, build config resource document = .ok result := by
  cases h : build config resource document with
  | ok result => exact ⟨result, rfl⟩
  | error e =>
      obtain ⟨before, n, after, hsplit, _, hfault⟩ := exists_fault_of_build_eq_error hroot h
      rw [hsplit, List.append_cons] at hvalid
      exact absurd hvalid.of_append hfault.not_isValid

/-- A document is accepted exactly if it has a model whose visited elements are valid. If it has a
model and is refused, the error is a fault of the first element with which the elements visited so
far are no longer valid. -/
theorem build_ok_iff_isValid (config : BuildConfig) (resource : Option String)
    (document : Markup.Element) :
    ((∃ result, build config resource document = .ok result) ↔
      ∃ root, IsModelRoot document root ∧ IsValid (visited config root)) ∧
    (∀ root e, IsModelRoot document root → build config resource document = .error e →
      ∃ before n after, visited config root = before ++ n :: after ∧
        IsValid before ∧ ¬ IsValid (before ++ [n]) ∧ Fault before n e) ∧
    ∀ e, (∀ root, ¬ IsModelRoot document root) → build config resource document = .error e →
      e = .missing .element modelTag := by
  refine ⟨⟨?_, ?_⟩, ?_, ?_⟩
  · rintro ⟨result, h⟩
    exact exists_isValid_of_build h
  · rintro ⟨root, hroot, hvalid⟩
    exact exists_build_eq_ok hroot hvalid
  · intro root e hroot h
    obtain ⟨before, n, after, hsplit, hvalid, hfault⟩ := exists_fault_of_build_eq_error hroot h
    exact ⟨before, n, after, hsplit, hvalid, hfault.not_isValid, hfault⟩
  · intro e hnone h
    rcases exists_of_bind_eq_error h with h | ⟨root, hroot, _⟩
    · exact modelRoot_eq_error h
    · exact absurd (modelRoot_eq_ok_iff.mp hroot) (hnone root)

/-- Two classes with one identifier in a package without an identifier. -/
def repeatedClassDocument : Markup.Element :=
  packaged "uml:Model" "m" [
    anonymousPackage [packaged "uml:Class" "A" [], packaged "uml:Class" "A" []]]

/-- What is reached through a package without an identifier may be invalid: it is not visited, and
the document is accepted. -/
theorem exists_build_not_isValid_reached :
    (∃ result, build .standard none repeatedClassDocument = .ok result) ∧
      ¬ ∃ root, IsModelRoot repeatedClassDocument root ∧ IsValid (reached .standard root) := by
  have hmodel : IsModelRoot repeatedClassDocument repeatedClassDocument :=
    modelRoot_eq_ok_iff.mp (modelRoot_packaged _ _)
  constructor
  · obtain ⟨result, h, _⟩ := exists_of_any_eq_true
      (x := build .standard none repeatedClassDocument) (p := fun _ => true) (by decide +kernel)
    exact ⟨result, h⟩
  · rintro ⟨root, hroot, hvalid⟩
    obtain rfl := hmodel.eq hroot
    have hids : idsIn (reached .standard repeatedClassDocument) .classes = [⟨"A"⟩, ⟨"A"⟩] := by
      decide +kernel
    have hdistinct := hvalid.distinct .classes
    rw [hids] at hdistinct
    revert hdistinct
    decide

/-- Of two classes above each other the second one is refused. -/
example :
    let below general := [⟨"generalization", .ofList [("general", general)], none, []⟩]
    (match build .standard none (packaged "uml:Model" "m" [
        packaged "uml:Class" "A" (below "B"), packaged "uml:Class" "B" (below "A")]) with
      | .ok _ => none
      | .error e => some e) = some (.hierarchyCycle ⟨"A"⟩ ⟨"B"⟩) := by
  decide +kernel

end UmlCatalog
