import UmlCatalog.Proofs.Build.Ends
import UmlCatalog.Proofs.Build.Unheld

/-!
# What a build finds

The findings of a build come in three runs: those about the declarations, in document order, then
one for each association whose end is an attribute of no class, and last those about names in the index.
What is found about a declaration depends on that declaration alone.
-/

namespace UmlCatalog
open Markup (Element)
open Declaration (inArena)

namespace Declaration

/-- What is noticed about a declaration itself. -/
def ownFindings (config : BuildConfig) (n : Declaration) : List Diagnostic :=
  match n.kind with
  | .umlClass => (n.attributes config).flatMap OwnedAttribute.diagnostics
  | .other type => [.unknownElementType n.id type]
  | _ => []

/-- What is noticed about the place of a declaration. Packages may lie outside any package. -/
def placeFindings (n : Declaration) : List Diagnostic :=
  if n.chain = [] ∧ n.kind ≠ .package then
    n.listing?.toList.map fun e => .elementOutsidePackage e.kind.word e.id
  else []

/-- What is noticed about a declaration. -/
def findings (config : BuildConfig) (n : Declaration) : List Diagnostic :=
  n.ownFindings config ++ n.placeFindings

/-- What is noticed at the attributes of a class. -/
def attributeFindings (config : BuildConfig) (n : Declaration) : List Diagnostic :=
  if n.kind = .umlClass then (n.attributes config).flatMap OwnedAttribute.diagnostics else []

end Declaration

namespace DiagnosticCode

/-- The codes of what is noticed at attributes. -/
def ofAttributes : List DiagnosticCode :=
  [unnamedProperty, propertyNameCase, missingPropertyType, unknownAggregation]

/-- The codes of what is noticed about declarations. -/
def ofDeclarations : List DiagnosticCode :=
  ofAttributes ++ [unknownElementType, elementOutsidePackage]

end DiagnosticCode

namespace OwnedAttribute
variable {config : BuildConfig} {e : Element} {p : Property} {found : Diagnostic}

theorem code_of_mem_typeFindings (h : found ∈ typeFindings p) :
    found.code = .missingPropertyType ∨ found.code = .unknownAggregation := by
  rcases List.mem_append.mp h with h | h
  · split at h
    · obtain rfl := List.mem_singleton.mp h
      exact Or.inl rfl
    · cases h
  · split at h
    · obtain rfl := List.mem_singleton.mp h
      exact Or.inr rfl
    · cases h

theorem code_of_mem_nameFindings (h : found ∈ nameFindings config e p) :
    found.code = .unnamedProperty ∨ found.code = .propertyNameCase := by
  unfold nameFindings at h
  split at h
  · cases h
  · split at h
    · obtain rfl := List.mem_singleton.mp h
      exact Or.inl rfl
    · split at h
      · obtain rfl := List.mem_singleton.mp h
        exact Or.inr rfl
      · cases h

end OwnedAttribute

namespace Declaration
variable {config : BuildConfig} {n : Declaration} {found : Diagnostic}

/-- What is noticed about a declaration, by its cause. -/
theorem findings_eq (config : BuildConfig) (n : Declaration) : n.findings config =
    n.attributeFindings config ++ n.unheldFinding?.toList ++ n.placeFindings := by
  unfold findings ownFindings attributeFindings unheldFinding?
  cases n.kind with
  | umlClass => simp
  | other type => simp
  | _ => rfl

theorem code_of_mem_attributeFindings (h : found ∈ n.attributeFindings config) :
    found.code ∈ DiagnosticCode.ofAttributes := by
  unfold attributeFindings at h
  split at h
  · obtain ⟨a, ha, h⟩ := List.mem_flatMap.mp h
    obtain ⟨child, _, rfl⟩ := List.mem_map.mp ha
    rcases List.mem_append.mp h with h | h
    · rcases OwnedAttribute.code_of_mem_typeFindings h with hcode | hcode <;> rw [hcode] <;> decide
    · rcases OwnedAttribute.code_of_mem_nameFindings h with hcode | hcode <;> rw [hcode] <;> decide
  · cases h

theorem code_of_mem_unheldFinding? (h : found ∈ n.unheldFinding?.toList) :
    found.code = .unknownElementType := by
  unfold unheldFinding? at h
  split at h
  · obtain rfl := List.mem_singleton.mp h
    rfl
  · cases h

theorem code_of_mem_placeFindings (h : found ∈ n.placeFindings) :
    found.code = .elementOutsidePackage := by
  unfold placeFindings at h
  split at h
  · obtain ⟨e, _, rfl⟩ := List.mem_map.mp h
    rfl
  · cases h

/-- Nothing that is noticed about a declaration is about associations or the index. -/
theorem code_of_mem_findings (h : found ∈ n.findings config) :
    found.code ∈ DiagnosticCode.ofDeclarations := by
  rw [findings_eq] at h
  rcases List.mem_append.mp h with h | h
  · rcases List.mem_append.mp h with h | h
    · exact List.mem_append_left _ (code_of_mem_attributeFindings h)
    · rw [code_of_mem_unheldFinding? h]
      decide
  · rw [code_of_mem_placeFindings h]
    decide

theorem code_of_mem_flatMap_findings {ds : List Declaration}
    (h : found ∈ ds.flatMap (findings config)) : found.code ∈ DiagnosticCode.ofDeclarations := by
  obtain ⟨n, _, h⟩ := List.mem_flatMap.mp h
  exact code_of_mem_findings h

end Declaration

theorem code_of_mem_mixedTypes {m : Model} {found : Diagnostic} (h : found ∈ mixedTypes m) :
    found.code = .mixedPropertyTypes := by
  obtain ⟨e, _, he⟩ := List.mem_filterMap.mp h
  split at he
  · cases he
  · obtain rfl := Option.some.inj he
    rfl

namespace Draft
variable {config : BuildConfig} {d d' : Draft} {ds : List Declaration} {n : Declaration}

theorem diagnostics_listIn (d : Draft) (chain : List ElementId) (e : ElementRef) :
    (d.listIn chain e).diagnostics =
      d.diagnostics ++ if chain = [] then [.elementOutsidePackage e.kind.word e.id] else [] := by
  cases chain with
  | nil => rfl
  | cons package outer => exact (List.append_nil _).symm

/-- Taking in a declaration adds what is noticed about it. -/
theorem Added.diagnostics_eq (h : Added config d n d') :
    d'.diagnostics = d.diagnostics ++ n.findings config := by
  unfold Declaration.findings Declaration.ownFindings Declaration.placeFindings Declaration.listing?
  cases h with
  | umlClass kind | enumeration kind | datatype kind =>
      rw [diagnostics_listIn]
      simp [kind, DeclarationKind.element?]
  | topPackage kind => simp [kind, addImports]
  | nestedPackage kind _ chain => simp [kind, chain, addImports, diagnostics_listIn]
  | excludedPackage kind | viewPackage kind | association kind =>
      simp [kind, DeclarationKind.element?]
  | other kind => simp [kind, DeclarationKind.element?, report]

/-- What is found while declarations are taken in. -/
theorem diagnostics_of_foldlM {resource : Option String} {root : Element}
    (h : ds.foldlM (add config) (start config resource root) = .ok d) :
    d.diagnostics = ds.flatMap (Declaration.findings config) := by
  refine foldlM_induction
    (P := fun before s => s.diagnostics = before.flatMap (Declaration.findings config)) ?_ rfl h
  intro before n after s t _ hs hadd
  rw [(added_of_add_eq_ok hadd).diagnostics_eq, hs, List.flatMap_append, List.flatMap_singleton]

/-- The owner of an end stays when an association is resolved. -/
theorem isNone_ownerOf?_resolve (d : Draft) (a b : Association) :
    ((d.resolve a).ownerOf? b).isNone = (d.ownerOf? b).isNone := by
  unfold ownerOf?
  cases b.source with
  | none => rfl
  | some source =>
      rw [Option.bind_some, Option.bind_some, owners_resolve]
      cases d.owners.get? source with
      | none => rfl
      | some classId =>
          rw [Option.bind_some, Option.bind_some, get?_resolve]
          simp

/-- An association is reported if no class owns its end. -/
theorem diagnostics_resolve (d : Draft) (a : Association) :
    (d.resolve a).diagnostics = d.diagnostics ++
      if (d.ownerOf? a).isNone then [.unresolvedAssociationEnd a.id a.source] else [] := by
  unfold resolve
  cases d.ownerOf? a with
  | none => rfl
  | some owner =>
      obtain ⟨source, classId, c⟩ := owner
      dsimp only
      cases c.associations.get? source <;> simp

theorem diagnostics_foldl_resolve (as : List Association) (d : Draft) :
    (as.foldl resolve d).diagnostics = d.diagnostics ++
      (as.filter fun a => (d.ownerOf? a).isNone).map fun a =>
        .unresolvedAssociationEnd a.id a.source := by
  induction as generalizing d with
  | nil => simp
  | cons a as ih =>
      simp only [List.foldl_cons, ih, isNone_ownerOf?_resolve, diagnostics_resolve]
      by_cases hnone : (d.ownerOf? a).isNone
      · simp [hnone]
      · simp [hnone]

section Finished
variable (hd : d.Files config ds)
  (howners : d.owners = .ofList (Declaration.ownedEnds config ds))
include hd howners

/-- The ends without an owner are those that no class has. -/
theorem Files.isNone_ownerOf?_eq (a : Association) :
    (d.ownerOf? a).isNone = (Declaration.endOf? config ds a).isNone := by
  unfold ownerOf? Declaration.endOf?
  cases a.source with
  | none => rfl
  | some e =>
      rw [Option.bind_some, Option.bind_some, howners, OrderedMap.get?_ofList,
        Declaration.lookup_ownedEnds]
      cases hn : Declaration.ownerOf? config ds e with
      | none => rfl
      | some n =>
          obtain ⟨hmem, link, hlink⟩ := Declaration.of_ownerOf?_eq_some hn
          obtain ⟨c, hc, _⟩ := hd.classes.exists_get? n hmem
          simp [hc, hlink]

/-- All findings of a finished draft. -/
theorem Files.diagnostics_finish : d.finish.diagnostics = d.diagnostics ++
    ((Declaration.associationsIn config ds).filter fun a =>
      (Declaration.endOf? config ds a).isNone).map
        (fun a => .unresolvedAssociationEnd a.id a.source) ++
    mixedTypes d.finish.model := by
  have happly : d.applyAssociations.diagnostics = d.diagnostics ++
      ((Declaration.associationsIn config ds).filter fun a =>
        (Declaration.endOf? config ds a).isNone).map
          fun a => .unresolvedAssociationEnd a.id a.source := by
    rw [applyAssociations, diagnostics_foldl_resolve, hd.associations.values_eq]
    simp only [hd.isNone_ownerOf?_eq howners, Declaration.associationsIn]
  rw [← happly]
  rfl

end Finished
end Draft
end UmlCatalog
