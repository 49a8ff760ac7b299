import UmlCatalog.Proofs.Build.Findings

/-!
# Which associations are recorded

An association whose end is an attribute of no class is reported, and no other one is. The others
end at one property each, where the last association that selects the end is recorded. So an association
is neither recorded nor reported exactly if a later one selects the same end of a class.
-/

namespace UmlCatalog
open Markup (Element)
open Declaration (associationsIn endOf? endingAt)

/-- An association is recorded at a property. -/
def Model.RecordsAt (m : Model) (id : ElementId) (place : PropertySource) : Prop :=
  (m.property? place).bind Property.association = some id

/-- The end of an association is reported to be an attribute of no class. -/
def BuildResult.ReportsEnd (r : BuildResult) (id : ElementId) : Prop :=
  ∃ found ∈ r.diagnostics, found.code = .unresolvedAssociationEnd ∧ found.element = some id

/-- An association is recorded at exactly one property or its end is reported. -/
def BuildResult.AccountsFor (r : BuildResult) (id : ElementId) : Prop :=
  (∃! place, r.model.RecordsAt id place) ∨ r.ReportsEnd id

/-- An element that passes a filter comes out last if nothing behind it passes. -/
theorem getLast?_filter_eq_some_iff {α : Type} {p : α → Bool} {before after : List α} {a : α}
    (hnodup : (before ++ a :: after).Nodup) (ha : p a = true) :
    ((before ++ a :: after).filter p).getLast? = some a ↔ ∀ b ∈ after, p b ≠ true := by
  have hnot : a ∉ after := (List.nodup_cons.mp (List.nodup_append.mp hnodup).2.1).1
  rw [List.filter_append, List.filter_cons_of_pos ha, List.getLast?_append, List.getLast?_cons,
    Option.some_or, Option.some.injEq]
  constructor
  · intro hlast
    refine List.filter_eq_nil_iff.mp ?_
    cases hafter : (after.filter p).getLast? with
    | none => exact List.getLast?_eq_none_iff.mp hafter
    | some b =>
        rw [hafter, Option.getD_some] at hlast
        subst hlast
        exact absurd (List.mem_filter.mp (List.mem_of_getLast? hafter)).1 hnot
  · intro hnone
    rw [List.filter_eq_nil_iff.mpr hnone]
    rfl

/-- The last element that passes a filter is one that passes or stands behind it. -/
theorem exists_getLast?_filter {α : Type} {p : α → Bool} (before after : List α) {a : α}
    (ha : p a = true) :
    ∃ b ∈ a :: after, p b = true ∧ ((before ++ a :: after).filter p).getLast? = some b := by
  rw [List.filter_append, List.filter_cons_of_pos ha, List.getLast?_append]
  obtain ⟨b, hb⟩ := Option.ne_none_iff_exists'.mp
    (mt List.getLast?_eq_none_iff.mp (List.cons_ne_nil a (after.filter p)))
  have hmem : b ∈ (a :: after).filter p := by
    rw [List.filter_cons_of_pos ha]
    exact List.mem_of_getLast? hb
  obtain ⟨hmem, hpasses⟩ := List.mem_filter.mp hmem
  exact ⟨b, hmem, hpasses, by rw [hb, Option.some_or]⟩

/-- An association that no property names is recorded nowhere. -/
theorem Model.not_recordsAt {m : Model} {id : ElementId}
    (h : ∀ c ∈ m.classes.values, ∀ p ∈ c.properties, p.association ≠ some id)
    (place : PropertySource) : ¬ m.RecordsAt id place := by
  intro hrecord
  obtain ⟨p, hp, hid⟩ := Option.bind_eq_some_iff.mp hrecord
  obtain ⟨c, hc, hp⟩ := Option.bind_eq_some_iff.mp hp
  exact h c (OrderedMap.mem_values_of_get? hc) p (List.mem_of_getElem? hp) hid

namespace Draft
variable {config : BuildConfig} {resource : Option String} {root : Element} {d : Draft}
  {ds : List Declaration} {a b : Association} {place : PropertySource}

theorem Files.nodup_ids_associations (hd : d.Files config ds) :
    ((associationsIn config ds).map Association.id).Nodup := by
  rw [associationsIn, List.map_map]
  exact hd.nodup_idsIn .associations

variable (hd : d.Files config ds)
  (howners : d.owners = .ofList (Declaration.ownedEnds config ds))
include hd howners

/-- An association is recorded where it is the last one that ends there. -/
theorem Files.recordsAt_iff (ha : a ∈ associationsIn config ds) :
    d.finish.model.RecordsAt a.id place ↔ (endingAt config ds place).getLast? = some a := by
  rw [Model.RecordsAt, hd.property?_finish howners]
  constructor
  · intro hrecord
    obtain ⟨_, hp, hid⟩ := Option.bind_eq_some_iff.mp hrecord
    obtain ⟨p, _, rfl⟩ := Option.map_eq_some_iff.mp hp
    obtain ⟨b, hb, hid⟩ := Option.map_eq_some_iff.mp hid
    have hmem := (List.mem_filter.mp (List.mem_of_getLast? hb)).1
    obtain rfl := List.inj_on_of_nodup_map hd.nodup_ids_associations hmem ha hid
    exact hb
  · intro hlast
    have hend := of_decide_eq_true (List.mem_filter.mp (List.mem_of_getLast? hlast)).2
    obtain ⟨n, hn, _, link, hlink, rfl⟩ := Declaration.exists_of_endOf?_eq_some hend
    obtain ⟨p, hp, _⟩ := Declaration.exists_of_get?_associations hlink
    obtain ⟨_, hc, rfl⟩ := hd.classes.exists_get? n hn
    rw [Model.property?, hc, Option.bind_some, hp, Option.map_some, Option.bind_some,
      Property.joined, hlast]
    rfl

/-- Reported are the associations whose end no class has. -/
theorem Files.reportsEnd_iff (hfound : d.diagnostics = ds.flatMap (Declaration.findings config))
    (ha : a ∈ associationsIn config ds) :
    d.finish.ReportsEnd a.id ↔ endOf? config ds a = none := by
  rw [BuildResult.ReportsEnd, hd.diagnostics_finish howners, hfound]
  constructor
  · rintro ⟨found, hmem, hcode, hid⟩
    rcases List.mem_append.mp hmem with hmem | hmem
    · rcases List.mem_append.mp hmem with hmem | hmem
      · exact absurd (hcode ▸ Declaration.code_of_mem_flatMap_findings hmem) (by decide)
      · obtain ⟨b, hb, rfl⟩ := List.mem_map.mp hmem
        obtain ⟨hb, hnone⟩ := List.mem_filter.mp hb
        obtain rfl := List.inj_on_of_nodup_map hd.nodup_ids_associations hb ha
          (Option.some.inj hid)
        exact Option.isNone_iff_eq_none.mp hnone
    · cases hcode.symm.trans (code_of_mem_mixedTypes hmem)
  · intro hnone
    refine ⟨.unresolvedAssociationEnd a.id a.source, ?_, rfl, rfl⟩
    refine List.mem_append_left _ (List.mem_append_right _ (List.mem_map_of_mem ?_))
    exact List.mem_filter.mpr ⟨ha, Option.isNone_iff_eq_none.mpr hnone⟩

/-- Associations end at one property only if they select one end. -/
theorem Files.source_eq_of_endOf?_eq (ha : endOf? config ds a = some place)
    (hb : endOf? config ds b = some place) : b.source = a.source := by
  rw [hd.endOf?_eq howners] at ha hb
  obtain ⟨⟨k, link⟩, hlink, rfl⟩ := Option.map_eq_some_iff.mp ha
  obtain ⟨⟨k', link'⟩, hlink', hplace⟩ := Option.map_eq_some_iff.mp hb
  obtain ⟨rfl, hposition⟩ := PropertySource.mk.inj hplace
  by_contra hne
  exact hd.property_ne hlink' hlink hne hposition

/-- An association that ends at a property is the last one there if no later one selects its end. -/
theorem Files.getLast?_endingAt_iff {before after : List Association}
    (hsplit : associationsIn config ds = before ++ a :: after)
    (ha : endOf? config ds a = some place) :
    (endingAt config ds place).getLast? = some a ↔ ∀ b ∈ after, b.source ≠ a.source := by
  have hnodup : (before ++ a :: after).Nodup := hsplit ▸ hd.nodup_ids_associations.of_map _
  rw [endingAt, hsplit, getLast?_filter_eq_some_iff hnodup (decide_eq_true ha)]
  refine forall₂_congr fun b _ => not_congr (decide_eq_true_iff.trans ⟨fun hb => ?_, fun hb => ?_⟩)
  · exact hd.source_eq_of_endOf?_eq howners ha hb
  · rw [endOf?, hb]
    exact ha

/-- Where an association ends, it or a later one that selects the same end is recorded. -/
theorem Files.exists_recordsAt {before after : List Association}
    (hsplit : associationsIn config ds = before ++ a :: after)
    (ha : endOf? config ds a = some place) :
    ∃ b ∈ a :: after, b.source = a.source ∧ d.finish.model.RecordsAt b.id place := by
  obtain ⟨b, hb, hend, hlast⟩ := exists_getLast?_filter
    (p := fun b => endOf? config ds b = some place) before after (decide_eq_true ha)
  have hmem : b ∈ associationsIn config ds := by
    rw [hsplit]
    exact List.mem_append_right _ hb
  refine ⟨b, hb, hd.source_eq_of_endOf?_eq howners ha (of_decide_eq_true hend), ?_⟩
  rw [hd.recordsAt_iff howners hmem, endingAt, hsplit]
  exact hlast

/-- An association that ends at a property is recorded there or nowhere. -/
theorem Files.existsUnique_recordsAt_iff (hmem : a ∈ associationsIn config ds)
    (ha : endOf? config ds a = some place) :
    (∃! place, d.finish.model.RecordsAt a.id place) ↔
      (endingAt config ds place).getLast? = some a := by
  have honly : ∀ place', d.finish.model.RecordsAt a.id place' → place' = place := by
    intro place' hrecord
    have hlast := (hd.recordsAt_iff howners hmem).mp hrecord
    have hend := of_decide_eq_true (List.mem_filter.mp (List.mem_of_getLast? hlast)).2
    exact Option.some.inj (hend.symm.trans ha)
  rw [← hd.recordsAt_iff howners hmem]
  constructor
  · rintro ⟨place', hrecord, _⟩
    exact honly place' hrecord ▸ hrecord
  · exact fun hrecord => ⟨place, hrecord, honly⟩

end Draft

/-- What becomes of the associations of a built model. An association is reported exactly if its end
is an attribute of no class, and then it is recorded nowhere. Any other association is accounted for
exactly if no later one selects the same end; at that end it or a later one is recorded. -/
theorem build_accountsFor_iff {config : BuildConfig} {resource : Option String}
    {document : Element} {result : BuildResult}
    (h : build config resource document = .ok result) :
    ∃ root, modelRoot document = .ok root ∧
      ∀ before a after, result.model.associations.values = before ++ a :: after →
        (result.ReportsEnd a.id ↔ endOf? config (visited config root) a = none) ∧
        (result.ReportsEnd a.id → ∀ place, ¬ result.model.RecordsAt a.id place) ∧
        (result.AccountsFor a.id ↔
          result.ReportsEnd a.id ∨ ∀ b ∈ after, b.source ≠ a.source) ∧
        ∀ place, endOf? config (visited config root) a = some place →
          ∃ b ∈ a :: after, b.source = a.source ∧ result.model.RecordsAt b.id place := by
  obtain ⟨root, d, hroot, rfl, hd⟩ := exists_draft_of_build h
  have hnested := isNested_visited config root
  have hfiles := Draft.files_of_foldlM hnested hd
  have howners := Draft.owners_of_foldlM hd
  refine ⟨root, hroot, fun before a after hsplit => ?_⟩
  rw [hfiles.values_associations_finish] at hsplit
  have hmem : a ∈ associationsIn config (visited config root) := by
    rw [hsplit]
    exact List.mem_append_right _ List.mem_cons_self
  have hreports := hfiles.reportsEnd_iff howners (Draft.diagnostics_of_foldlM hd) hmem
  refine ⟨hreports, fun hreported place hrecord => ?_,
    or_comm.trans (or_congr_right' fun hnot => ?_),
    fun place hend => hfiles.exists_recordsAt howners hsplit hend⟩
  · have hlast := (hfiles.recordsAt_iff howners hmem).mp hrecord
    have hend := of_decide_eq_true (List.mem_filter.mp (List.mem_of_getLast? hlast)).2
    cases (hreports.mp hreported).symm.trans hend
  · obtain ⟨place, hend⟩ := Option.ne_none_iff_exists'.mp fun hnone => hnot (hreports.mpr hnone)
    rw [hfiles.existsUnique_recordsAt_iff howners hmem hend,
      hfiles.getLast?_endingAt_iff howners hsplit hend]

theorem build_accountsFor_iff_sharedEndDocument :
    ∃ result x y z, build .standard none sharedEndDocument = .ok result ∧
      result.model.associations.values = [x, y, z] ∧ x.id = ⟨"X"⟩ ∧ y.id = ⟨"Y"⟩ ∧ z.id = ⟨"Z"⟩ ∧
      y.source = x.source ∧ ¬ result.AccountsFor x.id ∧ result.AccountsFor y.id ∧
      result.ReportsEnd z.id := by
  obtain ⟨result, h, hrun⟩ :=
    exists_of_any_eq_true (x := build .standard none sharedEndDocument) (p := fun r => decide (
      r.model.associations.values = [⟨⟨"X"⟩, some "X", some ⟨"a"⟩, []⟩,
        ⟨⟨"Y"⟩, some "Y", some ⟨"a"⟩, []⟩, ⟨⟨"Z"⟩, some "Z", some ⟨"c"⟩, []⟩]))
      (by decide +kernel)
  have hvalues := of_decide_eq_true hrun
  obtain ⟨root, hroot, hassociations⟩ := build_accountsFor_iff h
  obtain rfl : sharedEndDocument = root := Except.ok.inj ((modelRoot_packaged _ _).symm.trans hroot)
  obtain ⟨hreported, _, hx, _⟩ := hassociations [] _ _ hvalues
  obtain ⟨_, _, hy, _⟩ := hassociations [_] _ _ hvalues
  obtain ⟨hz, _⟩ := hassociations [_, _] _ _ hvalues
  refine ⟨result, _, _, _, h, hvalues, rfl, rfl, rfl, rfl, fun haccounts => ?_,
    hy.mpr (Or.inr (by decide)), hz.mpr (by decide +kernel)⟩
  rcases hx.mp haccounts with hreport | hlast
  · exact absurd (hreported.mp hreport) (by decide +kernel)
  · exact hlast _ List.mem_cons_self rfl

/-- An association may be neither recorded nor reported. -/
theorem exists_not_accountsFor_sharedEndDocument :
    ∃ result a, build .standard none sharedEndDocument = .ok result ∧
      a ∈ result.model.associations.values ∧ ¬ result.AccountsFor a.id := by
  obtain ⟨result, h, hrun⟩ :=
    exists_of_any_eq_true (x := build .standard none sharedEndDocument) (p := fun r => decide (
      r.model.associations.values.head?.map Association.id = some ⟨"X"⟩ ∧
      (∀ c ∈ r.model.classes.values, ∀ p ∈ c.properties, p.association ≠ some ⟨"X"⟩) ∧
      ∀ found ∈ r.diagnostics, ¬ (found.code = .unresolvedAssociationEnd ∧
        found.element = some ⟨"X"⟩)))
      (by decide +kernel)
  obtain ⟨hfirst, hclasses, hdiagnostics⟩ := of_decide_eq_true hrun
  obtain ⟨a, ha, hid⟩ := Option.map_eq_some_iff.mp hfirst
  refine ⟨result, a, h, List.mem_of_head? ha, ?_⟩
  rw [hid]
  rintro (⟨place, hrecord, _⟩ | ⟨found, hmem, hfound⟩)
  · exact Model.not_recordsAt hclasses place hrecord
  · exact hdiagnostics found hmem hfound

end UmlCatalog
