import UmlCatalog.Build.Model
import UmlCatalog.Proofs.Build.Filing
import UmlCatalog.Proofs.Model.Canonical
import UmlCatalog.Proofs.View.Walk
import UmlCatalog.Wire.Record

/-!
# Models are canonical wherever they come from

A model is made in one of three ways: it is built from a document, extracted from another
model, or read. Building and reading bring upper bounds and aggregations into their one
spelling, and extracting copies properties as they are.
-/

namespace UmlCatalog

/-! ## Building -/

namespace OwnedAttribute
variable (config : BuildConfig) (classId : ElementId) (e : Markup.Element)

/-- What an attribute declares is brought into its one spelling. -/
theorem isCanonical_read (position : Nat) :
    (read config classId e position).property.IsCanonical ∧
      ∀ l, (read config classId e position).link = some l → l.IsCanonical := by
  have haggregation : ∀ a, (e.attrElseText? "aggregation").map Aggregation.ofWord = some a →
      a.IsCanonical := by
    intro a ha
    obtain ⟨w, _, rfl⟩ := Option.map_eq_some_iff.mp ha
    exact Aggregation.isCanonical_ofWord w
  constructor
  · exact ⟨canonicalUpper_ne_writtenUnlimited _, haggregation⟩
  · intro l hl
    simp only [read] at hl
    split at hl
    · obtain rfl := Option.some.inj hl
      exact haggregation
    · cases hl

theorem exists_position_of_mem_readAll {a : OwnedAttribute} (h : a ∈ readAll config classId e) :
    ∃ child position, a = read config classId child position := by
  obtain ⟨⟨child, position⟩, _, rfl⟩ := List.mem_map.mp h
  exact ⟨child, position, rfl⟩

end OwnedAttribute

theorem Declaration.isCanonical_toClass (config : BuildConfig) (n : Declaration) :
    (n.toClass config).IsCanonical where
  properties := by
    intro p hp
    obtain ⟨a, ha, rfl⟩ := List.mem_map.mp hp
    obtain ⟨child, position, rfl⟩ := OwnedAttribute.exists_position_of_mem_readAll _ _ _ ha
    exact (OwnedAttribute.isCanonical_read _ _ _ _).1
  associations := by
    intro l hl
    obtain ⟨⟨_, l'⟩, hlink, rfl⟩ := List.mem_map.mp (OrderedMap.mem_values_ofList hl)
    obtain ⟨a, ha, hlink⟩ := List.mem_filterMap.mp hlink
    obtain ⟨found, hfound, he⟩ := Option.map_eq_some_iff.mp hlink
    obtain ⟨child, position, rfl⟩ := OwnedAttribute.exists_position_of_mem_readAll _ _ _ ha
    obtain rfl := (Prod.mk.inj he).2
    exact (OwnedAttribute.isCanonical_read _ _ _ _).2 _ hfound

/-- A resolved property takes over the aggregation of its link. -/
theorem Property.IsCanonical.resolved {p : Property} (hp : p.IsCanonical) {l : AssociationLink}
    (hl : l.IsCanonical) (a : Association) : (p.resolved l a).IsCanonical where
  upper := hp.upper
  aggregation := by
    intro kind hkind
    obtain h | ⟨_, h⟩ := Option.or_eq_some_iff.mp hkind
    · exact hl kind h
    · exact hp.aggregation kind h

theorem Class.IsCanonical.modifyProperty {c : Class} (hc : c.IsCanonical) (position : Nat)
    {f : Property → Property} (hf : ∀ p, p.IsCanonical → (f p).IsCanonical) :
    (c.modifyProperty position f).IsCanonical where
  properties := by
    intro p hp
    obtain ⟨i, hi, rfl⟩ := List.mem_iff_getElem.mp hp
    have hold : i < c.properties.length := by simpa [Class.modifyProperty] using hi
    have hcanonical := hc.properties _ (List.getElem_mem hold)
    simp only [Class.modifyProperty, List.getElem_modify]
    split
    · exact hf _ hcanonical
    · exact hcanonical
  associations := hc.associations

namespace Draft
variable {config : BuildConfig} {d d' : Draft} {n : Declaration}

theorem Added.isCanonical (h : Added config d n d') (hd : d.model.IsCanonical) :
    d'.model.IsCanonical := by
  intro c hc
  rw [h.classes_eq] at hc
  split at hc
  · obtain rfl | hold := OrderedMap.mem_values_insert hc
    · exact n.isCanonical_toClass config
    · exact hd c hold
  · exact hd c hc

theorem isCanonical_foldlM {ns : List Declaration} (hd : d.model.IsCanonical)
    (h : ns.foldlM (add config) d = .ok d') : d'.model.IsCanonical :=
  foldlM_induction (P := fun _ d => d.model.IsCanonical)
    (fun _ _ _ _ _ _ hs ht => (added_of_add_eq_ok ht).isCanonical hs) hd h

theorem isCanonical_resolve (hd : d.model.IsCanonical) (a : Association) :
    (d.resolve a).model.IsCanonical := by
  unfold resolve
  split
  · exact hd
  · rename_i source classId c howner
    split
    · exact hd
    · rename_i link hlink
      have hc : c.IsCanonical := hd c (OrderedMap.mem_values_of_get? (of_ownerOf? howner).2.2)
      have hlink' : link.IsCanonical := hc.associations _ (OrderedMap.mem_values_of_get? hlink)
      intro c' hc'
      obtain ⟨k, old, hold, rfl⟩ := OrderedMap.mem_values_mapWithKey hc'
      dsimp only
      split
      · exact (hd old hold).modifyProperty _ fun p hp => hp.resolved hlink' a
      · exact hd old hold

theorem isCanonical_applyAssociations (hd : d.model.IsCanonical) :
    d.applyAssociations.model.IsCanonical := by
  apply List.foldlRecOn (motive := fun d : Draft => d.model.IsCanonical)
  · exact hd
  · exact fun d' hd' a _ => isCanonical_resolve hd' a

end Draft

/-- A built model is canonical. -/
theorem Model.isCanonical_of_build {config : BuildConfig} {resource : Option String}
    {document : Markup.Element} {result : BuildResult}
    (h : build config resource document = .ok result) : result.model.IsCanonical := by
  obtain ⟨root, d, _, rfl, hd⟩ := exists_draft_of_build h
  have hstart : (Draft.start config resource root).model.IsCanonical :=
    fun _ hc => absurd hc List.not_mem_nil
  have hdraft := Draft.isCanonical_applyAssociations (Draft.isCanonical_foldlM hstart hd)
  exact IsCanonical.withReferees (m := d.applyAssociations.model.withPropertyIndex) hdraft

/-! ## Extracting -/

/-- A class of a view has the properties of its source, and no links. -/
theorem Class.IsCanonical.copyClass {c : Class} (h : c.IsCanonical) :
    (View.copyClass c).IsCanonical :=
  ⟨h.properties, fun _ hl => absurd hl List.not_mem_nil⟩

theorem View.Walks.isCanonical {source : Model} {options : ViewOptions}
    {pending : List (ElementId × Bool)} {classes : OrderedMap ElementId Class}
    {s : Surroundings} {r : OrderedMap ElementId Class × Surroundings}
    (h : Walks source options pending classes s r) (hsource : source.IsCanonical) :
    (∀ c ∈ classes.values, c.IsCanonical) → ∀ c ∈ r.1.values, c.IsCanonical := by
  induction h with
  | nil => exact fun hclasses => hclasses
  | known _ _ ih | foreign _ _ ih => exact ih
  | copy _ hc _ _ ih =>
      intro hclasses
      apply ih
      intro c' hc'
      obtain rfl | hold := OrderedMap.mem_values_insert hc'
      · exact (hsource _ (OrderedMap.mem_values_of_get? hc)).copyClass
      · exact hclasses c' hold

/-- A view of a canonical model is canonical. -/
theorem Model.IsCanonical.of_extractView {source v : Model} (hsource : source.IsCanonical)
    {origin : ModelSource} {names : List String} {options : ViewOptions}
    (h : source.extractView origin names options = .ok v) : v.IsCanonical := by
  obtain ⟨⟨copies, s⟩, hwalk, h⟩ := exists_of_bind_eq_ok h
  obtain rfl := Except.ok.inj h
  have hcopies := (View.walks_of_walk_eq_ok _ _ _ _ hwalk).isCanonical hsource
    fun _ hc => absurd hc List.not_mem_nil
  exact IsCanonical.withReferees
    (m := (View.assemble source origin names copies s).withPropertyIndex) hcopies

/-! ## Reading -/

/-- Whatever a reading yields has a property. -/
def Yields {α : Type} (x : ReadM α) (P : α → Prop) : Prop :=
  ∀ s a s', x s = .ok (a, s') → P a

namespace Yields
variable {α β : Type} {P : α → Prop} {Q : β → Prop}

theorem pure {a : α} (h : P a) : Yields (Pure.pure a) P := by
  intro s b s' hb
  cases hb
  exact h

theorem throw (e : ReadError) : Yields (throw e) P := nofun

theorem bind {x : ReadM α} {f : α → ReadM β} (hx : Yields x P) (hf : ∀ a, P a → Yields (f a) Q) :
    Yields (x >>= f) Q := by
  intro s b s' hb
  obtain ⟨⟨a, t⟩, ha, hb⟩ := exists_of_bind_eq_ok hb
  exact hf a (hx s a t ha) t b s' hb

/-- Nothing need be known of what is read first. -/
theorem skip {x : ReadM α} {f : α → ReadM β} (hf : ∀ a, Yields (f a) Q) : Yields (x >>= f) Q :=
  bind (P := fun _ => True) (fun _ _ _ _ => trivial) fun a _ => hf a

theorem map {x : ReadM α} {f : α → β} (hx : Yields x P) (hf : ∀ a, P a → Q (f a)) :
    Yields (f <$> x) Q := by
  rw [map_eq_pure_bind]
  exact hx.bind fun a ha => .pure (hf a ha)

theorem mapM {γ : Type} {f : γ → ReadM α} (h : ∀ n, Yields (f n) P) (l : List γ) :
    Yields (l.mapM f) fun as => ∀ a ∈ as, P a := by
  induction l with
  | nil => exact .pure nofun
  | cons n l ih =>
      rw [List.mapM_cons]
      exact (h n).bind fun a ha => ih.bind fun as has => .pure (List.forall_mem_cons.mpr ⟨ha, has⟩)

end Yields

section Read
variable {ν : Type} [Readable ν] {α : Type} {P : α → Prop} {read : Reader ν α}

theorem Reader.yields_listOf (h : ∀ n, Yields (read n) P) (n : ν) :
    Yields (listOf read n) fun as => ∀ a ∈ as, P a :=
  .skip fun items => .mapM h items

theorem Reader.yields_optional (h : ∀ n, Yields (read n) P) (n : ν) :
    Yields (optional read n) fun o => ∀ a, o = some a → P a := by
  refine .skip fun n => ?_
  split
  · exact .pure nofun
  · exact (h n).map fun a ha b hb => Option.some.inj hb ▸ ha
  · exact .throw _

theorem Reader.yields_mapOf {κ : Type} [DecidableEq κ] (key : String → κ)
    (h : ∀ n, Yields (read n) P) (n : ν) :
    Yields (mapOf key read n) fun m => ∀ a ∈ m.values, P a := by
  have hbinding : ∀ b : ν × ν,
      Yields (do return (key (← Reader.text b.1), ← read b.2)) fun e => P e.2 :=
    fun b => .skip fun _ => (h b.2).bind fun a ha => .pure ha
  refine .skip fun bindings => (Yields.mapM hbinding bindings).bind fun es hes => .pure ?_
  intro a ha
  obtain ⟨e, he, rfl⟩ := List.mem_map.mp (OrderedMap.mem_values_ofList ha)
  exact hes e he

omit [Readable ν] in
theorem FieldTable.yields_withDefault {t : FieldTable ν} {name : String} {default : α}
    (hdefault : P default) (h : ∀ n, Yields (read n) P) :
    Yields (t.withDefault name default read) P := by
  unfold withDefault
  split
  · exact h _
  · exact .pure hdefault

omit [Readable ν] in
theorem FieldTable.yields_required {t : FieldTable ν} {name : String}
    (h : ∀ n, Yields (read n) P) : Yields (t.required name read) P := by
  unfold required
  split
  · exact h _
  · exact .throw _

theorem Aggregation.yields_read (n : ν) : Yields (Aggregation.read n) Aggregation.IsCanonical :=
  Yields.map (P := fun _ => True) (fun _ _ _ _ => trivial) fun w _ => isCanonical_ofWord w

theorem FieldTable.yields_aggregation (t : FieldTable ν) :
    Yields (t.optional "aggregation" Aggregation.read) fun o => ∀ a, o = some a → a.IsCanonical :=
  yields_withDefault nofun (Reader.yields_optional Aggregation.yields_read)

theorem Property.yields_read (n : ν) : Yields (Property.read n) Property.IsCanonical :=
  .skip fun t => .skip fun _ => .skip fun _ => .skip fun _ => .skip fun _ => .skip fun _ =>
    .skip fun _ => .skip fun upper => t.yields_aggregation.bind fun _ haggregation =>
      .skip fun _ => .skip fun _ =>
        .pure ⟨canonicalUpper_ne_writtenUnlimited upper, haggregation⟩

section Positions
variable (hword : ∀ (n : ν) k, Readable.index? n = some k → k ≤ Json.maxIndex)
include hword

theorem Reader.yields_index (n : ν) : Yields (index n) fun k => k ≤ Json.maxIndex := by
  refine .skip fun n => ?_
  split
  · rename_i k hk
    exact .pure (hword n k hk)
  · exact .throw _

theorem AssociationLink.yields_read (n : ν) :
    Yields (AssociationLink.read n) fun l => l.IsCanonical ∧ l.property ≤ Json.maxIndex :=
  .skip fun t => .skip fun _ => .skip fun _ => .skip fun _ => .skip fun _ => .skip fun _ =>
    .skip fun _ => .skip fun _ => t.yields_aggregation.bind fun _ haggregation =>
      (FieldTable.yields_required (Reader.yields_index hword)).bind fun _ hposition =>
        .pure ⟨haggregation, hposition⟩

theorem Class.yields_read (n : ν) : Yields (Class.read n) fun c =>
    c.IsCanonical ∧ ∀ l ∈ c.associations.values, l.property ≤ Json.maxIndex :=
  .skip fun _ => .skip fun _ => .skip fun _ => .skip fun _ =>
    (FieldTable.yields_withDefault nofun (Reader.yields_listOf Property.yields_read)).bind
      fun _ hproperties =>
    (FieldTable.yields_withDefault nofun
      (Reader.yields_mapOf ElementId.mk (AssociationLink.yields_read hword))).bind
      fun _ hlinks =>
    .skip fun _ => .skip fun _ => .skip fun _ => .skip fun _ =>
      .pure ⟨⟨hproperties, fun l hl => (hlinks l hl).1⟩, fun l hl => (hlinks l hl).2⟩

theorem PropertySource.yields_read (n : ν) :
    Yields (PropertySource.read n) fun s => s.index ≤ Json.maxIndex :=
  .skip fun _ => .skip fun _ =>
    (FieldTable.yields_required (Reader.yields_index hword)).bind fun _ hindex => .pure hindex

theorem PropertyEntry.yields_read (n : ν) :
    Yields (PropertyEntry.read n) fun e => ∀ s ∈ e.sources, s.index ≤ Json.maxIndex :=
  .skip fun _ =>
    (FieldTable.yields_required (Reader.yields_listOf (PropertySource.yields_read hword))).bind
      fun _ hsources => .skip fun _ => .pure hsources

/-- A model that is read is canonical, whatever document it is read from. -/
theorem Model.yields_read (n : ν) :
    Yields (Model.read n) fun m => m.IsCanonical ∧ m.HasWordPositions :=
  .skip fun _ => .skip fun _ => .skip fun _ => .skip fun _ => .skip fun _ =>
    (FieldTable.yields_withDefault nofun
      (Reader.yields_mapOf ElementId.mk (Class.yields_read hword))).bind fun _ hclasses =>
    (FieldTable.yields_withDefault nofun
      (Reader.yields_mapOf (fun name => name) (PropertyEntry.yields_read hword))).bind
      fun _ hentries =>
    .skip fun _ => .skip fun _ => .skip fun _ => .skip fun _ => .skip fun _ => .skip fun _ =>
      .skip fun _ => .pure
        ⟨fun c hc => (hclasses c hc).1, fun c hc => (hclasses c hc).2, hentries⟩

end Positions
end Read
end UmlCatalog
