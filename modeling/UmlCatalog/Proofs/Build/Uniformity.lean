import UmlCatalog.Proofs.Build.Reports
import UmlCatalog.Proofs.View.BackReferences

/-!
# Uniform entries have one target

A property name is used uniformly if all typed properties of that name have one target, and a build
reports exactly the other names. Targets are compared by their texts. So an element and an external
type that go by the same text count as one target, while targets of one kind must be equal.
-/

namespace UmlCatalog

/-- Targets that are equal or differ in their kind only: one is an element of the model, and the
other one is an external type of the same text. -/
inductive Target.SameUpToKind : Target → Target → Prop
  | refl (t : Target) : SameUpToKind t t
  | inside (id : ElementId) : SameUpToKind (.idref id) (.href id.text)
  | outside (id : ElementId) : SameUpToKind (.href id.text) (.idref id)

theorem Target.sameUpToKind_iff {t u : Target} : t.SameUpToKind u ↔ t.key = u.key := by
  constructor
  · rintro (_ | _ | _) <;> rfl
  · intro h
    cases t with
    | idref id =>
        cases u with
        | idref id' =>
            obtain rfl := ElementId.ext h
            exact .refl _
        | href designator =>
            obtain rfl := h
            exact .inside id
    | href designator =>
        cases u with
        | idref id =>
            obtain rfl := h
            exact .outside id
        | href designator' =>
            obtain rfl := h
            exact .refl _

instance Target.decidableSameUpToKind (t u : Target) : Decidable (t.SameUpToKind u) :=
  decidable_of_iff (t.key = u.key) sameUpToKind_iff.symm

namespace Model
variable {m : Model}

/-- The targets of the properties of an entry, in the order of their places. -/
def typedTargets (m : Model) (entry : PropertyEntry) : List Target :=
  entry.sources.filterMap fun s => (m.property? s).bind Property.target

/-- All typed properties of an entry have the same target but for its kind. -/
def HasOneTarget (m : Model) (entry : PropertyEntry) : Prop :=
  ∀ t ∈ m.typedTargets entry, ∀ u ∈ m.typedTargets entry, t.SameUpToKind u

instance decidableHasOneTarget (m : Model) (entry : PropertyEntry) :
    Decidable (m.HasOneTarget entry) :=
  inferInstanceAs (Decidable (∀ t ∈ m.typedTargets entry, ∀ u ∈ m.typedTargets entry,
    t.SameUpToKind u))

theorem targetKeys_eq (m : Model) (entry : PropertyEntry) :
    m.targetKeys entry = (m.typedTargets entry).map Target.key := by
  rw [targetKeys, typedTargets, List.map_filterMap]
  refine List.filterMap_congr fun s _ => ?_
  rw [Option.map_bind]
  rfl

/-- An entry with exact types has at most one of them if its properties have one target. -/
theorem HasExactReferees.isUniform_iff (hm : m.HasExactReferees) {e : String × PropertyEntry}
    (he : e ∈ m.properties.entries) : e.2.isUniform = true ↔ m.HasOneTarget e.2 := by
  have htypes := hm.uniformType e.1 e.2 (OrderedMap.mem_entries_iff.mp he)
  rw [PropertyEntry.isUniform, decide_eq_true_iff, htypes.length_le_one_iff, targetKeys_eq,
    HasOneTarget]
  simp only [List.forall_mem_map, Target.sameUpToKind_iff]

/-- The entries with more than one type are those with more than one target. -/
theorem HasExactReferees.mixedEntries_eq (hm : m.HasExactReferees) :
    m.mixedEntries = m.properties.entries.filter fun e => ¬ m.HasOneTarget e.2 := by
  refine List.filter_congr fun e he => ?_
  rw [decide_eq_decide, ← hm.isUniform_iff he, PropertyEntry.isUniform, decide_eq_true_iff,
    Nat.not_le]

end Model

/-- The entries that a built model calls uniform are those whose typed properties have the same
target but for its kind. The other ones are reported, each once and in the order of the index. -/
theorem build_isUniform_iff {config : BuildConfig} {resource : Option String}
    {document : Markup.Element} {result : BuildResult}
    (h : build config resource document = .ok result) :
    (∀ e ∈ result.model.properties.entries,
      e.2.isUniform = true ↔ result.model.HasOneTarget e.2) ∧
    Diagnostic.withCode .mixedPropertyTypes result.diagnostics =
      (result.model.properties.entries.filter fun e => ¬ result.model.HasOneTarget e.2).map
        fun e => .mixedPropertyTypes e.1 e.2.uniformType := by
  have hexact := (Model.IsObtained.built h).isIndexed.hasExactReferees
  refine ⟨fun e he => hexact.isUniform_iff he, ?_⟩
  rw [← hexact.mixedEntries_eq]
  obtain ⟨root, d, _, rfl, hd⟩ := exists_draft_of_build h
  have hfiles := Draft.files_of_foldlM (isNested_visited config root) hd
  rw [hfiles.diagnostics_finish_eq (Draft.owners_of_foldlM hd) (Draft.diagnostics_of_foldlM hd),
    Diagnostic.withCode_append, Diagnostic.withCode_eq_nil, Diagnostic.withCode_eq_self,
    List.nil_append]
  · intro found hfound
    obtain ⟨e, _, rfl⟩ := List.mem_map.mp hfound
    rfl
  · intro found hfound
    exact of_decide_eq_true (List.mem_filter.mp hfound).2

/-- A class with two properties x, one typed by the datatype D and one by an external type that is
called D as well, and with two properties y that are typed by D and by the class. -/
def sharedTextDocument : Markup.Element :=
  let typed id name type := ⟨"ownedAttribute",
    .ofList [("xmi:id", id), ("name", name), ("type", type)], none, []⟩
  packaged "uml:Model" "m" [packaged "uml:Package" "p" [
    packaged "uml:Class" "C" [
      typed "a" "x" "D",
      ⟨"ownedAttribute", .ofList [("xmi:id", "b"), ("name", "x")], none,
        [⟨"type", .ofList [("href", "D")], none, []⟩]⟩,
      typed "c" "y" "D",
      typed "d" "y" "C"],
    packaged "uml:DataType" "D" []]]

theorem build_isUniform_iff_sharedTextDocument :
    ∃ result x y, build .standard none sharedTextDocument = .ok result ∧
      result.model.properties.entries = [("x", x), ("y", y)] ∧
      result.model.HasOneTarget x ∧ x.isUniform = true ∧
      ¬ result.model.HasOneTarget y ∧ y.isUniform = false ∧
      Diagnostic.withCode .mixedPropertyTypes result.diagnostics =
        [.mixedPropertyTypes "y" ["D", "C"]] := by
  obtain ⟨result, h, hrun⟩ :=
    exists_of_any_eq_true (x := build .standard none sharedTextDocument) (p := fun r => decide (
      r.model.properties.entries =
        [("x", ⟨[⟨⟨"C"⟩, 0⟩, ⟨⟨"C"⟩, 1⟩], ["D"]⟩), ("y", ⟨[⟨⟨"C"⟩, 2⟩, ⟨⟨"C"⟩, 3⟩], ["D", "C"]⟩)]))
      (by decide +kernel)
  have hentries := of_decide_eq_true hrun
  obtain ⟨huniform, hreported⟩ := build_isUniform_iff h
  rw [hentries] at huniform hreported
  have hx := (huniform _ List.mem_cons_self).mp rfl
  have hy := mt (huniform _ (List.mem_cons_of_mem _ List.mem_cons_self)).mpr (by decide)
  refine ⟨result, _, _, h, hentries, hx, rfl, hy, rfl, ?_⟩
  simpa [hx, hy] using hreported

/-- An entry may be uniform, and not be reported, although its properties have different targets. -/
theorem exists_isUniform_sharedTextDocument :
    ∃ result e t u, build .standard none sharedTextDocument = .ok result ∧
      e ∈ result.model.properties.entries ∧ t ∈ result.model.typedTargets e.2 ∧
      u ∈ result.model.typedTargets e.2 ∧ t ≠ u ∧ e.2.isUniform = true ∧
      .mixedPropertyTypes e.1 e.2.uniformType ∉ result.diagnostics := by
  obtain ⟨result, h, hrun⟩ :=
    exists_of_any_eq_true (x := build .standard none sharedTextDocument) (p := fun r => decide (
      r.model.properties.entries.head?.map (fun e => (e, r.model.typedTargets e.2)) =
        some (("x", ⟨[⟨⟨"C"⟩, 0⟩, ⟨⟨"C"⟩, 1⟩], ["D"]⟩), [.idref ⟨"D"⟩, .href "D"]) ∧
      r.diagnostics = [.mixedPropertyTypes "y" ["D", "C"]]))
      (by decide +kernel)
  obtain ⟨hfirst, hreported⟩ := of_decide_eq_true hrun
  obtain ⟨e, he, hcontents⟩ := Option.map_eq_some_iff.mp hfirst
  obtain ⟨rfl, htargets⟩ := Prod.mk.inj hcontents
  refine ⟨result, _, .idref ⟨"D"⟩, .href "D", h, List.mem_of_head? he, ?_, ?_, nofun, rfl, ?_⟩
  · rw [htargets]
    exact List.mem_cons_self
  · rw [htargets]
    exact List.mem_cons_of_mem _ List.mem_cons_self
  · rw [hreported]
    decide +kernel

end UmlCatalog
