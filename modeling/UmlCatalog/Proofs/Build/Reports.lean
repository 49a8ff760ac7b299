import UmlCatalog.Proofs.Build.Findings

/-!
# The findings of a build are exact

A build finds something while it takes in declarations, while it resolves associations and when it
indexes names. All of it can be told from the model at the end, because no later step changes what a
property is typed by, how it aggregates, which links a class has or where an element lies. Only what
models do not hold has to be told from the document.

## Implementation notes

The findings with one code stand in the order of the model. Those about elements outside any package
are told up to order, because they stand in document order and the model keeps classes, enumerations
and datatypes apart.
-/

namespace UmlCatalog
open Markup (Element)
open Declaration (inArena associationsIn endOf?)

/-- The findings with a code, in the order of discovery. -/
def Diagnostic.withCode (code : DiagnosticCode) (found : List Diagnostic) : List Diagnostic :=
  found.filter fun d => d.code = code

namespace Property

/-- What there is to find about the aggregation of a property: a word that is no known kind. -/
def aggregationFinding? (p : Property) : Option Diagnostic :=
  match p.aggregation with
  | some (.other word) => some (.unknownAggregation p.id word)
  | _ => none

/-- What there is to find about the type of a property: that there is none. -/
def typeFinding? (p : Property) : Option Diagnostic :=
  if p.target.isNone then some (.missingPropertyType p.classId p.id) else none

end Property

namespace Model

/-- The classes, enumerations and datatypes that lie outside any package. -/
def outside (m : Model) : List ElementRef :=
  ((m.classes.values.filter fun c => c.packages = []).map fun c => ⟨.umlClass, c.id⟩) ++
  ((m.enums.values.filter fun e => e.packages = []).map fun e => ⟨.enumeration, e.id⟩) ++
  ((m.datatypes.values.filter fun t => t.packages = []).map fun t => ⟨.datatype, t.id⟩)

/-- Whether some class has a link for an end. -/
def ownsEnd (m : Model) (e : ElementId) : Bool :=
  m.classes.values.any fun c => c.associations.contains e

/-- The associations that have no end or one that no class has a link for. -/
def unresolved (m : Model) : List Association :=
  m.associations.values.filter fun a => !a.source.any m.ownsEnd

/-- The entries of the property index with more than one type. -/
def mixedEntries (m : Model) : List (String × PropertyEntry) :=
  m.properties.entries.filter fun e => 1 < e.2.uniformType.length

end Model

/-- The structural findings of a build are exactly those that its model calls for and the given ones,
which are about elements of types that models do not hold. -/
structure BuildResult.ReportsExactly (r : BuildResult) (unheld : List Diagnostic) : Prop where
  aggregations : Diagnostic.withCode .unknownAggregation r.diagnostics =
    r.model.allProperties.filterMap Property.aggregationFinding?
  types : Diagnostic.withCode .missingPropertyType r.diagnostics =
    r.model.allProperties.filterMap Property.typeFinding?
  outside : (Diagnostic.withCode .elementOutsidePackage r.diagnostics).Perm
    (r.model.outside.map fun e => .elementOutsidePackage e.kind.word e.id)
  ends : Diagnostic.withCode .unresolvedAssociationEnd r.diagnostics =
    r.model.unresolved.map fun a => .unresolvedAssociationEnd a.id a.source
  unheld : Diagnostic.withCode .unknownElementType r.diagnostics = unheld
  /-- Those about names in the index come behind all others. -/
  mixed : r.diagnostics = (r.diagnostics.filter fun found => found.code ≠ .mixedPropertyTypes) ++
    r.model.mixedEntries.map fun e => .mixedPropertyTypes e.1 e.2.uniformType

namespace Diagnostic
variable {code : DiagnosticCode} {found : List Diagnostic}

theorem withCode_append (code : DiagnosticCode) (found found' : List Diagnostic) :
    withCode code (found ++ found') = withCode code found ++ withCode code found' :=
  List.filter_append found found'

theorem withCode_flatMap {α : Type} (code : DiagnosticCode) (xs : List α)
    (f : α → List Diagnostic) :
    withCode code (xs.flatMap f) = xs.flatMap fun x => withCode code (f x) :=
  List.filter_flatMap

theorem withCode_eq_self (h : ∀ d ∈ found, d.code = code) : withCode code found = found :=
  List.filter_eq_self.mpr fun d hd => decide_eq_true (h d hd)

theorem withCode_eq_nil (h : ∀ d ∈ found, d.code ≠ code) : withCode code found = [] :=
  List.filter_eq_nil_iff.mpr fun d hd => by simpa using h d hd

end Diagnostic

namespace Property
variable {p : Property} {d : Diagnostic}

theorem aggregationFinding?_joined (p : Property) (as : List Association) :
    (p.joined as).aggregationFinding? = p.aggregationFinding? := rfl

theorem typeFinding?_joined (p : Property) (as : List Association) :
    (p.joined as).typeFinding? = p.typeFinding? := rfl

theorem code_of_mem_aggregationFinding? (h : d ∈ p.aggregationFinding?.toList) :
    d.code = .unknownAggregation := by
  unfold aggregationFinding? at h
  split at h
  · obtain rfl := List.mem_singleton.mp h
    rfl
  · cases h

theorem code_of_mem_typeFinding? (h : d ∈ p.typeFinding?.toList) :
    d.code = .missingPropertyType := by
  unfold typeFinding? at h
  split at h
  · obtain rfl := List.mem_singleton.mp h
    rfl
  · cases h

end Property

namespace OwnedAttribute

theorem typeFindings_eq (p : Property) :
    typeFindings p = p.typeFinding?.toList ++ p.aggregationFinding?.toList := by
  have htype : p.typeFinding?.toList =
      if p.target.isNone then [.missingPropertyType p.classId p.id] else [] := by
    unfold Property.typeFinding?
    split <;> rfl
  have haggregation : p.aggregationFinding?.toList =
      match p.aggregation with
      | some (.other word) => [.unknownAggregation p.id word]
      | _ => [] := by
    unfold Property.aggregationFinding?
    split <;> rfl
  rw [htype, haggregation]
  rfl

theorem withCode_missingPropertyType (p : Property) :
    Diagnostic.withCode .missingPropertyType (typeFindings p) = p.typeFinding?.toList := by
  rw [typeFindings_eq, Diagnostic.withCode_append,
    Diagnostic.withCode_eq_self fun d => Property.code_of_mem_typeFinding?,
    Diagnostic.withCode_eq_nil, List.append_nil]
  intro d hd
  rw [Property.code_of_mem_aggregationFinding? hd]
  nofun

theorem withCode_unknownAggregation (p : Property) :
    Diagnostic.withCode .unknownAggregation (typeFindings p) = p.aggregationFinding?.toList := by
  rw [typeFindings_eq, Diagnostic.withCode_append, Diagnostic.withCode_eq_nil, List.nil_append,
    Diagnostic.withCode_eq_self fun d => Property.code_of_mem_aggregationFinding?]
  intro d hd
  rw [Property.code_of_mem_typeFinding? hd]
  nofun

end OwnedAttribute

namespace Declaration
variable {config : BuildConfig} {n : Declaration} {ds : List Declaration} {code : DiagnosticCode}

theorem withCode_attributeFindings_eq_nil (h : code ∉ DiagnosticCode.ofAttributes) :
    Diagnostic.withCode code (n.attributeFindings config) = [] :=
  Diagnostic.withCode_eq_nil fun _ hd hcode => h (hcode ▸ code_of_mem_attributeFindings hd)

theorem withCode_unheldFinding?_eq_nil (h : code ≠ .unknownElementType) :
    Diagnostic.withCode code n.unheldFinding?.toList = [] :=
  Diagnostic.withCode_eq_nil fun _ hd hcode => h (hcode ▸ code_of_mem_unheldFinding? hd)

theorem withCode_placeFindings_eq_nil (h : code ≠ .elementOutsidePackage) :
    Diagnostic.withCode code n.placeFindings = [] :=
  Diagnostic.withCode_eq_nil fun _ hd hcode => h (hcode ▸ code_of_mem_placeFindings hd)

theorem withCode_unknownElementType : Diagnostic.withCode .unknownElementType (n.findings config) =
    n.unheldFinding?.toList := by
  rw [findings_eq, Diagnostic.withCode_append, Diagnostic.withCode_append,
    withCode_attributeFindings_eq_nil (by decide), withCode_placeFindings_eq_nil (by decide),
    List.nil_append, List.append_nil]
  exact Diagnostic.withCode_eq_self fun d => code_of_mem_unheldFinding?

theorem withCode_elementOutsidePackage :
    Diagnostic.withCode .elementOutsidePackage (n.findings config) = n.placeFindings := by
  rw [findings_eq, Diagnostic.withCode_append, Diagnostic.withCode_append,
    withCode_attributeFindings_eq_nil (by decide), withCode_unheldFinding?_eq_nil (by decide),
    List.nil_append, List.nil_append]
  exact Diagnostic.withCode_eq_self fun d => code_of_mem_placeFindings

/-- Besides names, what is noticed at the attributes of a class is about the types and aggregations
of its properties. -/
theorem withCode_attributes (hunnamed : code ≠ .unnamedProperty) (hcase : code ≠ .propertyNameCase) :
    Diagnostic.withCode code ((n.attributes config).flatMap OwnedAttribute.diagnostics) =
      (n.toClass config).properties.flatMap fun p =>
        Diagnostic.withCode code (OwnedAttribute.typeFindings p) := by
  have hnames : ∀ (e : Element) (p : Property),
      Diagnostic.withCode code (OwnedAttribute.nameFindings config e p) = [] := by
    refine fun e p => Diagnostic.withCode_eq_nil fun d hd hcode => ?_
    rcases OwnedAttribute.code_of_mem_nameFindings hd with h | h
    · exact hunnamed (hcode.symm.trans h)
    · exact hcase (hcode.symm.trans h)
  rw [Diagnostic.withCode_flatMap, toClass, List.flatMap_map]
  refine List.flatMap_congr fun a ha => ?_
  obtain ⟨⟨child, position⟩, _, rfl⟩ := List.mem_map.mp ha
  rw [OwnedAttribute.read, Diagnostic.withCode_append, hnames, List.append_nil]

/-- What is told of the declarations of an arena, told of all. -/
theorem flatMap_inArena {α : Type} (ds : List Declaration) (arena : Arena)
    (g : Declaration → List α) : (inArena ds arena).flatMap g =
      ds.flatMap fun n => if n.kind.arena? = some arena then g n else [] := by
  unfold inArena
  induction ds with
  | nil => rfl
  | cons n ds ih =>
      rw [List.flatMap_cons, ← ih]
      by_cases harena : n.kind.arena? = some arena
      · rw [List.filter_cons_of_pos (by simpa using harena), List.flatMap_cons, if_pos harena]
      · rw [List.filter_cons_of_neg (by simpa using harena), if_neg harena, List.nil_append]

/-- What is found under a code of attributes is found at the attributes of classes. -/
theorem withCode_flatMap_findings_eq (hcode : code ∈ DiagnosticCode.ofAttributes) :
    Diagnostic.withCode code (ds.flatMap (findings config)) = (inArena ds .classes).flatMap fun n =>
      Diagnostic.withCode code ((n.attributes config).flatMap OwnedAttribute.diagnostics) := by
  have hunheld : code ≠ .unknownElementType := by
    rintro rfl
    revert hcode
    decide
  have hplace : code ≠ .elementOutsidePackage := by
    rintro rfl
    revert hcode
    decide
  rw [Diagnostic.withCode_flatMap, flatMap_inArena]
  refine List.flatMap_congr fun n _ => ?_
  rw [findings_eq, Diagnostic.withCode_append, Diagnostic.withCode_append,
    withCode_unheldFinding?_eq_nil hunheld, withCode_placeFindings_eq_nil hplace,
    List.append_nil, List.append_nil, attributeFindings]
  cases hkind : n.kind with
  | umlClass =>
      have harena : DeclarationKind.umlClass.arena? = some .classes := rfl
      rw [if_pos rfl, if_pos harena]
  | _ => rfl

/-- What is found about types and aggregations is found at the properties of classes. -/
theorem withCode_flatMap_findings {f : Property → Option Diagnostic}
    (hcode : code = .missingPropertyType ∨ code = .unknownAggregation)
    (hf : ∀ p, Diagnostic.withCode code (OwnedAttribute.typeFindings p) = (f p).toList) :
    Diagnostic.withCode code (ds.flatMap (findings config)) =
      (inArena ds .classes).flatMap fun n => (n.toClass config).properties.filterMap f := by
  obtain ⟨hunnamed, hcase, hattributes⟩ : code ≠ .unnamedProperty ∧ code ≠ .propertyNameCase ∧
      code ∈ DiagnosticCode.ofAttributes := by
    rcases hcode with rfl | rfl <;> decide
  rw [withCode_flatMap_findings_eq hattributes]
  refine List.flatMap_congr fun n _ => ?_
  rw [withCode_attributes hunnamed hcase, List.filterMap_eq_flatMap_toList]
  exact List.flatMap_congr fun p _ => hf p

/-- What lies outside any package is a class, an enumeration or a datatype. -/
theorem placeFindings_eq (n : Declaration) : n.placeFindings =
    (if n.kind.arena? = some .classes then n.placeFindings else []) ++
      (if n.kind.arena? = some .enumerations then n.placeFindings else []) ++
      (if n.kind.arena? = some .datatypes then n.placeFindings else []) := by
  cases hkind : n.kind with
  | umlClass | enumeration | datatype => simp [DeclarationKind.arena?]
  | _ => simp [DeclarationKind.arena?, placeFindings, listing?, DeclarationKind.element?, hkind]

theorem flatMap_placeFindings_perm (ds : List Declaration) :
    (ds.flatMap placeFindings).Perm
      ((inArena ds .classes).flatMap placeFindings ++
        (inArena ds .enumerations).flatMap placeFindings ++
        (inArena ds .datatypes).flatMap placeFindings) := by
  rw [flatMap_inArena, flatMap_inArena, flatMap_inArena]
  refine List.Perm.trans ?_ ((List.flatMap_append_perm ds _ _).append_right _).symm
  refine List.Perm.trans ?_ (List.flatMap_append_perm ds _ _).symm
  exact .of_eq (List.flatMap_congr fun n _ => n.placeFindings_eq)

end Declaration

/-- An arena of classes, enumerations or datatypes has records of one kind. -/
theorem DeclarationKind.eq_of_arena?_eq {kind kind' : DeclarationKind}
    (hkind : kind ∈ [umlClass, enumeration, datatype]) (h : kind'.arena? = kind.arena?) :
    kind' = kind := by
  simp only [List.mem_cons, List.not_mem_nil, or_false] at hkind
  rcases hkind with rfl | rfl | rfl
  all_goals cases kind' <;> first | rfl | cases h

/-- The records that lie outside any package are those of declarations that do. -/
theorem IsFiled.map_outside {α : Type} {records : OrderedMap ElementId α} {id : α → ElementId}
    {packages : α → List ElementId} {ds : List Declaration} {arena : Arena}
    {element : ElementKind}
    (h : IsFiled records (fun n r => id r = n.id ∧ packages r = n.chain) (inArena ds arena))
    (kind : DeclarationKind) (hkind : kind ∈ [.umlClass, .enumeration, .datatype])
    (harena : kind.arena? = some arena) (helement : kind.element? = some element) :
    (records.values.filter fun r => packages r = []).map
        (fun r => Diagnostic.elementOutsidePackage element.word (id r)) =
      (inArena ds arena).flatMap Declaration.placeFindings := by
  have hplace : ∀ n ∈ inArena ds arena, n.placeFindings = Option.toList
      (if n.chain = [] then some (.elementOutsidePackage element.word n.id) else none) := by
    intro n hn
    have hn : n.kind = kind := DeclarationKind.eq_of_arena?_eq hkind
      ((Declaration.mem_inArena.mp hn).2.trans harena.symm)
    have hpackage : kind ≠ .package := by
      rintro rfl
      revert hkind
      decide
    by_cases hchain : n.chain = []
    · simp [Declaration.placeFindings, Declaration.listing?, hn, helement, hpackage, hchain]
    · simp [Declaration.placeFindings, hchain]
  have hvalues := h.map_values (f := fun r => (id r, packages r)) (g := fun n => (n.id, n.chain))
    fun n r hr => Prod.ext hr.1 hr.2
  have hfilter := congrArg (fun l => (l.filter fun e => e.2 = []).map
    fun e => Diagnostic.elementOutsidePackage element.word e.1) hvalues
  simp only [List.filter_map, List.map_map, Function.comp_def] at hfilter
  rw [hfilter, List.flatMap_congr hplace, ← List.filterMap_eq_flatMap_toList,
    ← List.filterMap_eq_map', List.filterMap_filter]
  simp only [decide_eq_true_eq]

/-- The findings about names are one for each entry with more than one type. -/
theorem mixedTypes_eq (m : Model) : mixedTypes m =
    m.mixedEntries.map fun e => .mixedPropertyTypes e.1 e.2.uniformType := by
  rw [mixedTypes, Model.mixedEntries, ← List.filterMap_eq_map', List.filterMap_filter]
  refine congrArg (List.filterMap · _) (funext fun e => ?_)
  by_cases hmixed : 1 < e.2.uniformType.length
  · simp [PropertyEntry.isUniform, hmixed]
  · simp [PropertyEntry.isUniform, hmixed, Nat.not_lt.mp hmixed]

namespace Class

/-- What does not depend on associations is told of a class as it is declared. -/
theorem filterMap_properties_joined {α : Type} {f : Property → Option α}
    (hf : ∀ p as, f (Property.joined p as) = f p) (c : Class)
    (ending : Nat → List Association) :
    (c.joined ending).properties.filterMap f = c.properties.filterMap f := by
  have hmap : (c.joined ending).properties.map f = c.properties.map f := by
    refine List.ext_getElem? fun i => ?_
    rw [joined, List.getElem?_map, List.getElem?_mapIdx, List.getElem?_map, Option.map_map]
    exact congrArg (Option.map · _) (funext fun p => hf p (ending i))
  have hfilter := congrArg (List.filterMap fun o : Option α => o) hmap
  rw [List.filterMap_map, List.filterMap_map] at hfilter
  exact hfilter

end Class

namespace Draft
variable {config : BuildConfig} {d : Draft} {ds : List Declaration} {code : DiagnosticCode}

/-- Outside any package are the declared elements that have no packages around them. -/
theorem Files.outside_finish (hd : d.Files config ds) (hnested : Declaration.IsNested [] ds) :
    d.finish.model.outside.map (fun e => .elementOutsidePackage e.kind.word e.id) =
      (inArena ds .classes).flatMap Declaration.placeFindings ++
        (inArena ds .enumerations).flatMap Declaration.placeFindings ++
        (inArena ds .datatypes).flatMap Declaration.placeFindings := by
  have hfiles := hd.filesAll hnested
  have hclasses := hfiles.classes.map_outside .umlClass (by decide) rfl rfl
  have henums := hfiles.enums.map_outside .enumeration (by decide) rfl rfl
  have hdatatypes := hfiles.datatypes.map_outside .datatype (by decide) rfl rfl
  rw [Model.outside, List.map_append, List.map_append, List.map_map, List.map_map, List.map_map,
    ← hclasses, ← henums, ← hdatatypes]
  rfl

/-- What is found about declarations is found before associations are resolved. -/
theorem Files.withCode_finish (hd : d.Files config ds)
    (howners : d.owners = .ofList (Declaration.ownedEnds config ds))
    (hfound : d.diagnostics = ds.flatMap (Declaration.findings config))
    (hcode : code ∈ DiagnosticCode.ofDeclarations) :
    Diagnostic.withCode code d.finish.diagnostics =
      Diagnostic.withCode code (ds.flatMap (Declaration.findings config)) := by
  have hends : ∀ as : List Association, Diagnostic.withCode code
      (as.map fun a => .unresolvedAssociationEnd a.id a.source) = [] := by
    refine fun as => Diagnostic.withCode_eq_nil fun found hfound h => ?_
    obtain ⟨a, _, rfl⟩ := List.mem_map.mp hfound
    obtain rfl : DiagnosticCode.unresolvedAssociationEnd = code := h
    revert hcode
    decide
  have hmixed : Diagnostic.withCode code (mixedTypes d.finish.model) = [] := by
    refine Diagnostic.withCode_eq_nil fun found hfound h => ?_
    obtain rfl := h.symm.trans (code_of_mem_mixedTypes hfound)
    revert hcode
    decide
  rw [hd.diagnostics_finish howners, hfound, Diagnostic.withCode_append, Diagnostic.withCode_append,
    hends, hmixed, List.append_nil, List.append_nil]

/-- What is found about names is found behind everything else. -/
theorem Files.diagnostics_finish_eq (hd : d.Files config ds)
    (howners : d.owners = .ofList (Declaration.ownedEnds config ds))
    (hfound : d.diagnostics = ds.flatMap (Declaration.findings config)) :
    d.finish.diagnostics =
      (d.finish.diagnostics.filter fun found => found.code ≠ .mixedPropertyTypes) ++
        d.finish.model.mixedEntries.map fun e => .mixedPropertyTypes e.1 e.2.uniformType := by
  have hothers : ∀ found ∈ d.diagnostics ++ ((associationsIn config ds).filter fun a =>
      (endOf? config ds a).isNone).map (fun a => .unresolvedAssociationEnd a.id a.source),
      decide (found.code ≠ .mixedPropertyTypes) = true := by
    intro found hmem
    refine decide_eq_true fun h => ?_
    rcases List.mem_append.mp hmem with hmem | hmem
    · rw [hfound] at hmem
      exact absurd (h ▸ Declaration.code_of_mem_flatMap_findings hmem) (by decide)
    · obtain ⟨a, _, rfl⟩ := List.mem_map.mp hmem
      cases h
  have hmixed : ∀ found ∈ mixedTypes d.finish.model,
      ¬ decide (found.code ≠ .mixedPropertyTypes) = true := by
    intro found hmem
    simp [code_of_mem_mixedTypes hmem]
  rw [← mixedTypes_eq, hd.diagnostics_finish howners, List.filter_append,
    List.filter_eq_self.mpr hothers, List.filter_eq_nil_iff.mpr hmixed, List.append_nil]

section Finished
variable (hd : d.Files config ds)
  (howners : d.owners = .ofList (Declaration.ownedEnds config ds))
  (hnested : Declaration.IsNested [] ds)
include hd howners hnested

/-- The classes of a finished draft are those that are declared, joined with associations. -/
theorem Files.isFiled_finish : IsFiled d.finish.model.classes (fun n c => ∃ ending referees,
    c = { (n.toClass config).joined ending with referees := referees }) (inArena ds .classes) where
  keys := (hd.filesAll hnested).classes.keys
  exists_get? := by
    intro n hn
    obtain ⟨referees, hc⟩ := hd.get?_classes_finish howners hn
    exact ⟨_, hc, _, referees, rfl⟩

/-- What does not depend on associations is told of the properties as they are declared. -/
theorem Files.filterMap_allProperties {α : Type} {f : Property → Option α}
    (hf : ∀ p as, f (Property.joined p as) = f p) :
    d.finish.model.allProperties.filterMap f =
      (inArena ds .classes).flatMap fun n => (n.toClass config).properties.filterMap f := by
  have hvalues := (hd.isFiled_finish howners hnested).map_values
    (f := fun c => c.properties.filterMap f)
    (g := fun n => (n.toClass config).properties.filterMap f) (by
      rintro n _ ⟨ending, referees, rfl⟩
      exact Class.filterMap_properties_joined hf _ ending)
  rw [Model.allProperties, List.filterMap_flatMap, List.flatMap_def, List.flatMap_def, ← hvalues]

/-- The ends that classes have links for are those that they own. -/
theorem Files.ownsEnd_finish (e : ElementId) :
    d.finish.model.ownsEnd e = (Declaration.ownerOf? config ds e).isSome := by
  have hvalues := (hd.isFiled_finish howners hnested).map_values
    (f := fun c => c.associations.contains e) (g := fun n => n.ownsEnd config e) (by
      rintro n _ ⟨ending, referees, rfl⟩
      rw [Bool.eq_iff_iff, OrderedMap.contains_iff]
      exact Declaration.mem_keys_associations_iff)
  have hany := congrArg (List.any · id) hvalues
  rw [List.any_map, List.any_map] at hany
  rw [Declaration.ownerOf?, List.findRev?_eq_find?_reverse, List.isSome_find?, List.any_reverse]
  exact hany

/-- Without an end in the model are the associations that end nowhere. -/
theorem Files.unresolved_finish : d.finish.model.unresolved =
    (associationsIn config ds).filter fun a => (endOf? config ds a).isNone := by
  rw [Model.unresolved, hd.values_associations_finish]
  refine List.filter_congr fun a _ => ?_
  rw [endOf?]
  cases a.source with
  | none => rfl
  | some e =>
      rw [Option.any_some, Option.bind_some, hd.ownsEnd_finish howners hnested]
      cases hn : Declaration.ownerOf? config ds e with
      | none => rfl
      | some n =>
          obtain ⟨_, link, hlink⟩ := Declaration.of_ownerOf?_eq_some hn
          rw [Option.bind_some, hlink]
          rfl

/-- What is found while associations are resolved can be told from the model at the end. -/
theorem Files.withCode_unresolvedAssociationEnd
    (hfound : d.diagnostics = ds.flatMap (Declaration.findings config)) :
    Diagnostic.withCode .unresolvedAssociationEnd d.finish.diagnostics =
      d.finish.model.unresolved.map fun a => .unresolvedAssociationEnd a.id a.source := by
  have hdeclarations : Diagnostic.withCode .unresolvedAssociationEnd
      (ds.flatMap (Declaration.findings config)) = [] := by
    refine Diagnostic.withCode_eq_nil fun found hfound h => ?_
    exact absurd (h ▸ Declaration.code_of_mem_flatMap_findings hfound) (by decide)
  rw [hd.unresolved_finish howners hnested, hd.diagnostics_finish howners, hfound,
    Diagnostic.withCode_append, Diagnostic.withCode_append, hdeclarations, List.nil_append,
    Diagnostic.withCode_eq_self, Diagnostic.withCode_eq_nil, List.append_nil]
  · intro found hfound h
    cases h.symm.trans (code_of_mem_mixedTypes hfound)
  · intro found hfound
    obtain ⟨a, _, rfl⟩ := List.mem_map.mp hfound
    rfl

/-- A finished draft has exactly the findings that its model calls for. -/
theorem Files.reportsExactly (hfound : d.diagnostics = ds.flatMap (Declaration.findings config)) :
    d.finish.ReportsExactly (ds.filterMap Declaration.unheldFinding?) where
  aggregations := by
    rw [hd.withCode_finish howners hfound (by decide),
      hd.filterMap_allProperties howners hnested Property.aggregationFinding?_joined]
    exact Declaration.withCode_flatMap_findings (Or.inr rfl)
      OwnedAttribute.withCode_unknownAggregation
  types := by
    rw [hd.withCode_finish howners hfound (by decide),
      hd.filterMap_allProperties howners hnested Property.typeFinding?_joined]
    exact Declaration.withCode_flatMap_findings (Or.inl rfl)
      OwnedAttribute.withCode_missingPropertyType
  outside := by
    rw [hd.withCode_finish howners hfound (by decide), hd.outside_finish hnested,
      Diagnostic.withCode_flatMap]
    simp only [Declaration.withCode_elementOutsidePackage]
    exact Declaration.flatMap_placeFindings_perm ds
  ends := hd.withCode_unresolvedAssociationEnd howners hnested hfound
  unheld := by
    rw [hd.withCode_finish howners hfound (by decide), Diagnostic.withCode_flatMap,
      List.filterMap_eq_flatMap_toList]
    simp only [Declaration.withCode_unknownElementType]
  mixed := hd.diagnostics_finish_eq howners hfound

end Finished
end Draft

/-- The structural findings of a build are exact. A model has one about each property with an unknown
aggregation, each property without a type, each element outside any package, each association whose
end no class has a link for, and each element of a type that models do not hold that is reached from
the model element through packages with identifiers. Those about names come last, one for each entry
of the index with more than one type. -/
theorem build_reportsExactly {config : BuildConfig} {resource : Option String}
    {document : Element} {result : BuildResult}
    (h : build config resource document = .ok result) :
    ∃ root, modelRoot document = .ok root ∧
      result.ReportsExactly
        (((Place.listIn [] root.children).filter Place.isIdentified).filterMap
          (Place.unheldFinding? config)) := by
  obtain ⟨root, d, hroot, rfl, hd⟩ := exists_draft_of_build h
  have hnested := isNested_visited config root
  have hexact := (Draft.files_of_foldlM hnested hd).reportsExactly (Draft.owners_of_foldlM hd)
    hnested (Draft.diagnostics_of_foldlM hd)
  rw [filterMap_visited] at hexact
  exact ⟨root, hroot, hexact⟩

/-- Everything that a build reports once: a class outside any package whose first attribute has an
unknown aggregation and no type, attributes of one name and two types, an association without an
end, and an element of a type that models do not hold. Another such element is not reported. -/
def reportedDocument : Element :=
  packaged "uml:Model" "m" [
    packaged "uml:Class" "C" [
      ⟨"ownedAttribute", .ofList [("xmi:id", "a"), ("name", "x"), ("aggregation", "odd")], none, []⟩,
      ⟨"ownedAttribute", .ofList [("xmi:id", "b"), ("name", "x"), ("type", "C")], none, []⟩,
      ⟨"ownedAttribute", .ofList [("xmi:id", "c"), ("name", "x"), ("type", "D")], none, []⟩],
    packaged "uml:Association" "A" [],
    packaged "uml:Interface" "J" [],
    anonymousPackage [packaged "uml:Interface" "I" []]]

theorem build_reportsExactly_reportedDocument :
    ∃ result root, build .standard none reportedDocument = .ok result ∧
      modelRoot reportedDocument = .ok root ∧
      result.ReportsExactly
        (((Place.listIn [] root.children).filter Place.isIdentified).filterMap
          (Place.unheldFinding? .standard)) ∧
      result.diagnostics.map (fun d => (d.code, d.element)) = [
        (.missingPropertyType, some ⟨"a"⟩), (.unknownAggregation, some ⟨"a"⟩),
        (.elementOutsidePackage, some ⟨"C"⟩), (.unknownElementType, some ⟨"J"⟩),
        (.unresolvedAssociationEnd, some ⟨"A"⟩), (.mixedPropertyTypes, none)] := by
  obtain ⟨result, h, hcodes⟩ := exists_of_map_toOption_eq_some
    (x := build .standard none reportedDocument)
    (f := fun r => r.diagnostics.map fun d => (d.code, d.element))
    (b := [(.missingPropertyType, some ⟨"a"⟩), (.unknownAggregation, some ⟨"a"⟩),
      (.elementOutsidePackage, some ⟨"C"⟩), (.unknownElementType, some ⟨"J"⟩),
      (.unresolvedAssociationEnd, some ⟨"A"⟩), (.mixedPropertyTypes, none)])
    (by decide +kernel)
  obtain ⟨root, hroot, hexact⟩ := build_reportsExactly h
  exact ⟨result, root, h, hroot, hexact, hcodes⟩

/-- An element of a type that models do not hold, in a package without an identifier. -/
def anonymousPackageDocument : Element :=
  ⟨"uml:Model", .ofList [("xmi:id", "m"), ("name", "m")], none,
    [anonymousPackage [packaged "uml:Interface" "I" []]]⟩

/-- An element that is reached through a package without an identifier is not reported. -/
theorem exists_not_reportsExactly_anonymousPackage :
    ∃ result root, build .standard none anonymousPackageDocument = .ok result ∧
      modelRoot anonymousPackageDocument = .ok root ∧
      ¬ result.ReportsExactly
        ((Place.listIn [] root.children).filterMap (Place.unheldFinding? .standard)) := by
  obtain ⟨result, h, hnone⟩ := exists_of_map_toOption_eq_some
    (x := build .standard none anonymousPackageDocument)
    (f := BuildResult.diagnostics) (b := []) (by decide +kernel)
  refine ⟨result, anonymousPackageDocument, h, rfl, fun hexact => ?_⟩
  have hreached := hexact.unheld
  rw [hnone] at hreached
  revert hreached
  decide +kernel

end UmlCatalog
