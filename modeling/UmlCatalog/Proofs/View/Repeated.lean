import UmlCatalog.Proofs.Model.Agreement
import UmlCatalog.Proofs.View.Pipeline

/-!
# Extracting a view again

Taking the view of a view under the same names and options changes nothing but orders. A view is
the part of its source on its own classes, and whatever made a class a part of it can be followed
inside the view: the superclasses of a member up to any seed are seeds themselves. So the second
extraction meets the same classes, and these determine all else that a view gathers.
-/

namespace UmlCatalog
open Relation

namespace Model
variable {m v : Model} {names : List String} {options : ViewOptions}

/-! ## The classes of the second view -/

/-- A model relates its classes as another one does, and its named views have the same members. -/
structure IsPartOf (v m : Model) (names : List String) : Prop where
  isMember_iff : ∀ x, v.IsMember names x ↔ m.IsMember names x
  refersTo_iff : ∀ x y, v.RefersTo x y ↔ x ∈ v.classes.keys ∧ y ∈ v.classes.keys ∧ m.RefersTo x y
  superEdge_iff : ∀ general x, v.SuperEdge general x ↔ x ∈ v.classes.keys ∧ m.SuperEdge general x

theorem views_of_extractView {origin : ModelSource}
    (h : m.extractView origin names options = .ok v) : v.views = View.selected m names := by
  obtain ⟨⟨copies, s⟩, _, h⟩ := exists_of_bind_eq_ok h
  obtain rfl := Except.ok.inj h
  rfl

theorem isPartOf_of_extractView (hm : m.IsSound) (hids : m.KeepsIds) {origin : ModelSource}
    (h : m.extractView origin names options = .ok v) : v.IsPartOf m names where
  isMember_iff := by
    intro x
    unfold IsMember
    rw [views_of_extractView h]
    simp only [mem_selected_iff]
    constructor
    · rintro ⟨view, ⟨hview, _⟩, hname, hx⟩
      exact ⟨view, hview, hname, hx⟩
    · rintro ⟨view, hview, ⟨name, hname, heq⟩, hx⟩
      exact ⟨view, ⟨hview, name, hname, heq⟩, ⟨name, hname, heq⟩, hx⟩
  refersTo_iff := by
    intro x y
    constructor
    · rintro ⟨⟨c, hc, p, hp, hkey⟩, hy⟩
      obtain ⟨old, hold, hproperties, _⟩ := exists_class_of_extractView hm hids h hc
      obtain ⟨d, hd⟩ := Option.isSome_iff_exists.mp (OrderedMap.get?_isSome_iff.mpr hy)
      obtain ⟨_, hdeclared, _⟩ := exists_class_of_extractView hm hids h hd
      exact ⟨OrderedMap.mem_keys_of_get? hc, hy, ⟨old, hold, p, hproperties ▸ hp, hkey⟩,
        OrderedMap.mem_keys_of_get? hdeclared⟩
    · rintro ⟨hx, hy, ⟨old, hold, p, hp, hkey⟩, _⟩
      obtain ⟨c, hc⟩ := Option.isSome_iff_exists.mp (OrderedMap.get?_isSome_iff.mpr hx)
      obtain ⟨_, hold', hproperties, _⟩ := exists_class_of_extractView hm hids h hc
      obtain rfl := Option.some.inj (hold.symm.trans hold')
      exact ⟨⟨c, hc, p, hproperties ▸ hp, hkey⟩, hy⟩
  superEdge_iff := by
    intro general x
    constructor
    · rintro ⟨c, hc, hgeneral⟩
      obtain ⟨old, hold, _, hsuper⟩ := exists_class_of_extractView hm hids h hc
      exact ⟨OrderedMap.mem_keys_of_get? hc, old, hold, hsuper ▸ hgeneral⟩
    · rintro ⟨hx, old, hold, hgeneral⟩
      obtain ⟨c, hc⟩ := Option.isSome_iff_exists.mp (OrderedMap.get?_isSome_iff.mpr hx)
      obtain ⟨_, hold', _, hsuper⟩ := exists_class_of_extractView hm hids h hc
      obtain rfl := Option.some.inj (hold.symm.trans hold')
      exact ⟨c, hc, hsuper ▸ hgeneral⟩

/-- A path up from a seed stays within a part that has all shown classes. -/
theorem IsPartOf.transGen_superEdge (hpart : v.IsPartOf m names) (hm : m.IsSound)
    (hshown : m.shown names ⊆ {x | x ∈ v.classes.keys}) {general x : ElementId}
    (hx : m.IsSeed names x) (path : TransGen m.SuperEdge general x) :
    TransGen v.SuperEdge general x := by
  have hstep : ∀ {y z}, m.IsSeed names z → m.SuperEdge y z → v.SuperEdge y z := by
    intro y z hz he
    have hclass : z ∈ m.classes.keys := he.elim fun _ hc => OrderedMap.mem_keys_of_get? hc.1
    exact (hpart.superEdge_iff y z).mpr ⟨hshown ⟨hz, hclass⟩, he⟩
  -- every class between the two is a seed, because it lies above one
  have hseeds : ∀ z, ReflTransGen m.SuperEdge z x → m.IsSeed names z := by
    intro z hz
    induction hz using ReflTransGen.head_induction_on with
    | refl => exact hx
    | head he _ ih => exact hm.isSeed_of_superEdge ih he
  induction path using TransGen.head_induction_on with
  | single he => exact .single (hstep hx he)
  | head he hpath ih => exact .head (hstep (hseeds _ hpath.to_reflTransGen) he) ih

theorem IsPartOf.isSeed_of_isSeed (hpart : v.IsPartOf m names) (hm : m.IsSound) (hv : v.IsSound)
    (hshown : m.shown names ⊆ {x | x ∈ v.classes.keys}) {x : ElementId}
    (hx : m.IsSeed names x) : v.IsSeed names x := by
  obtain ⟨member, hmember, hx⟩ := hx
  refine ⟨member, (hpart.isMember_iff member).mpr hmember, hx.imp_right fun hx => ?_⟩
  rw [hm.classHierarchy.mem_parentsOf_iff] at hx
  rw [hv.classHierarchy.mem_parentsOf_iff]
  exact hpart.transGen_superEdge hm hshown ⟨member, hmember, Or.inl rfl⟩ hx

/-- The classes of a view are the least set that lacks nothing, inside the view as well. -/
theorem IsPartOf.isLeast (hpart : v.IsPartOf m names) (hm : m.IsSound) (hv : v.IsSound)
    (h : IsLeast {classes | m.IsComplete names options classes} {x | x ∈ v.classes.keys}) :
    IsLeast {classes | v.IsComplete names options classes} {x | x ∈ v.classes.keys} := by
  have hall : v.IsComplete names options {x | x ∈ v.classes.keys} :=
    ⟨fun _ hx => hx.2, fun _ _ _ _ hrefer => hrefer.2, fun _ _ _ _ _ hinherit => hinherit.2⟩
  refine ⟨hall, fun classes hclasses => ?_⟩
  obtain ⟨hshown, hrefer, hinherit⟩ := h.1
  have hcomplete : m.IsComplete names options (classes ∩ {x | x ∈ v.classes.keys}) := by
    refine ⟨?_, ?_, ?_⟩
    · rintro x hx
      exact ⟨hclasses.1 ⟨hpart.isSeed_of_isSeed hm hv hshown hx.1, hshown hx⟩, hshown hx⟩
    · rintro hon x ⟨hx, hxv⟩ y hxy
      have hyv := hrefer hon x hxv y hxy
      exact ⟨hclasses.2.1 hon x hx y ((hpart.refersTo_iff x y).mpr ⟨hxv, hyv, hxy⟩), hyv⟩
    · rintro hon hfollow x ⟨hx, hxv⟩ y hxy
      have hyv := hinherit hon hfollow x hxv y hxy
      have he : v.SuperEdge y x := (hpart.superEdge_iff y x).mpr ⟨hxv, hxy.1⟩
      exact ⟨hclasses.2.2 hon hfollow x hx y ⟨he, hyv⟩, hyv⟩
  exact fun x hx => (h.2 hcomplete hx).1

/-- The second view has the same classes as the first. -/
theorem mem_keys_of_extractView_twice (hm : m.IsSound) (hids : m.KeepsIds)
    {origin origin' : ModelSource} {w : Model} (hv : m.extractView origin names options = .ok v)
    (hw : v.extractView origin' names options = .ok w) (x : ElementId) :
    x ∈ w.classes.keys ↔ x ∈ v.classes.keys := by
  obtain ⟨hsound, _, _, _⟩ := hm.of_extractView hids hv
  obtain ⟨v', hv', hleast⟩ := hm.isLeast_extractView origin names options
  obtain rfl := Except.ok.inj (hv.symm.trans hv')
  obtain ⟨w', hw', hleast'⟩ := hsound.isLeast_extractView origin' names options
  obtain rfl := Except.ok.inj (hw.symm.trans hw')
  have hpart := isPartOf_of_extractView hm hids hv
  exact Set.ext_iff.mp (hleast'.unique (hpart.isLeast hm hsound hleast)) x

end Model

/-! ## What the second view gathers -/

/-- Copying copies again gives the same records. -/
theorem Copies.agrees {α : Type} {source records records' : OrderedMap ElementId α} {copy : α → α}
    {wanted wanted' : ElementId → Prop} {f : ElementId → α → α}
    (h : Copies source copy wanted records) (h' : Copies (records.mapWithKey f) copy wanted' records')
    (hcopy : ∀ k r, copy (f k (copy r)) = copy r) (hwanted : ∀ k ∈ records.keys, wanted' k) :
    records.Agrees Eq records' := by
  refine OrderedMap.agrees_eq_iff.mpr fun k => Option.ext fun r => ?_
  rw [h' k r, OrderedMap.get?_mapWithKey, Option.map_map]
  constructor
  · rintro ⟨_, hr⟩
    obtain ⟨x, hx, rfl⟩ := Option.map_eq_some_iff.mp hr
    obtain ⟨old, _, rfl⟩ := Option.map_eq_some_iff.mp ((h k x).mp hx).2
    rw [hx, Function.comp_apply, hcopy]
  · intro hr
    refine ⟨hwanted k (OrderedMap.mem_keys_of_get? hr), ?_⟩
    obtain ⟨old, _, rfl⟩ := Option.map_eq_some_iff.mp ((h k r).mp hr).2
    rw [hr, Option.map_some, Function.comp_apply, hcopy]

namespace View
open Surroundings (Present IsInduced)

section Induced
variable {source part : Model} {wanted here : ElementRef → Prop} {s t : Surroundings}

/-- What is there is there again. -/
theorem Surroundings.present_iff_of_chainOf? (h : ∀ e chain, part.chainOf? e = some chain ↔
      Present source wanted e ∧ source.chainOf? e = some chain) (e : ElementRef) :
    Present part wanted e ↔ Present source wanted e := by
  constructor
  · rintro (⟨he, found⟩ | ⟨he, found, mem⟩)
    · exact .wanted he ((h _ _).mp found).2
    · exact .around he ((h _ _).mp found).2 mem
  · rintro (⟨he, found⟩ | ⟨he, found, mem⟩)
    · exact .wanted he ((h _ _).mpr ⟨.wanted he found, found⟩)
    · exact .around he ((h _ _).mpr ⟨.wanted he found, found⟩) mem

/-- The packages are copied and listed as before. -/
theorem Surroundings.IsInduced.agrees_packages (hs : s.IsInduced source here)
    (ht : t.IsInduced part here) (hpackages : part.packages = s.packages) (hids : part.KeepsIds)
    (hnearest : ∀ e k, part.nearest? e = some k ↔ here e ∧ source.nearest? e = some k) :
    s.packages.Agrees Package.SameUpToOrder t.packages where
  keys := by
    refine (List.perm_ext_iff_of_nodup s.packages.keys_nodup t.packages.keys_nodup).mpr fun k => ?_
    rw [hs.mem_keys_iff, ht.mem_keys_iff]
  values := by
    intro k p p' hp hp'
    have hcopied := ht.copied k (OrderedMap.mem_keys_of_get? hp')
    rw [hpackages, hp, hp'] at hcopied
    have hempty : p'.emptied = p.copiedAs k := Option.some.inj hcopied
    have hid : p.id = k := hids.packages (hpackages ▸ hp)
    refine ⟨?_, ?_⟩
    · refine (List.perm_ext_iff_of_nodup (hs.lists k p hp).1 (ht.lists k p' hp').1).mpr fun e => ?_
      rw [(hs.lists k p hp).2, (ht.lists k p' hp').2, hnearest, and_self_left]
    · calc p' = { p'.emptied with elements := p'.elements } := rfl
        _ = { p with id := k, elements := p'.elements } := by
            rw [hempty]
            rfl
        _ = { p with elements := p'.elements } := by rw [← hid]

theorem Surroundings.IsInduced.sameNodes (hs : s.IsInduced source here)
    (ht : t.IsInduced part here)
    (hnearest : ∀ e k, part.nearest? e = some k ↔ here e ∧ source.nearest? e = some k) :
    s.packageHierarchy.SameNodes t.packageHierarchy := by
  refine Hierarchy.IsClosure.sameNodes hs.links (ht.links.congr fun parent k => ?_)
  rw [hnearest, and_self_left]

end Induced

section Gathered
variable {source : Model} {copies copies' : OrderedMap ElementId Class} {s t : Surroundings}
  {origin origin' : ModelSource} {names : List String}

theorem Wanted.congr (h : ∀ k, copies'.get? k = copies.get? k) {e : ElementRef}
    (he : Wanted copies e) : Wanted copies' e := by
  rcases he with hmem | ⟨value, record, property, typed⟩
  · refine .umlClass ?_
    rw [← OrderedMap.get?_isSome_iff] at hmem ⊢
    rwa [h]
  · exact .valueType value ((h _).trans record) property typed

theorem selected_selected {v : Model} (h : v.views = selected source names) :
    selected v names = selected source names := by
  rw [selected, h, selected, List.filter_filter]
  simp only [Bool.and_self]

/-- Gathering from what was gathered, around the same classes, gives the same contents. -/
theorem Gathered.sameDeclared {v : Model} (hg : Gathered source copies s) (hids : source.KeepsIds)
    (hv : v = (assemble source origin names copies s).withPropertyIndex.withReferees)
    (hpart : v.IsPartOf source names) (hg' : Gathered v copies' t)
    (hkeys : ∀ k, k ∈ copies'.keys ↔ k ∈ v.classes.keys) :
    (assemble source origin names copies s).SameDeclared
      (assemble v v.source names copies' t) := by
  have hsame : v.SameOutline (assemble source origin names copies s) :=
    hv ▸ Model.sameOutline_indexed _
  have hviews : v.views = selected source names := by rw [hv]; rfl
  have hpackages : v.packages = s.packages := by rw [hv]; rfl
  have hkeys' : v.classes.keys = copies.keys := by
    rw [hv]
    exact OrderedMap.keys_mapWithKey _ copies
  have hkeeps : v.KeepsIds := by
    rw [hv]
    have hids' : Model.KeepsIds (assemble source origin names copies s) := hg.keepsIds hids
    exact Model.KeepsIds.withReferees ⟨hids'.packages, hids'.enums, hids'.datatypes⟩
  have hclasses : copies.Agrees Eq copies' := by
    have hcopies := hg'.classes
    rw [hv, Model.classes_withReferees] at hcopies
    exact hg.classes.agrees hcopies (fun _ _ => rfl) fun k hk =>
      (hkeys k).mpr (hkeys' ▸ hk)
  have hget := OrderedMap.agrees_eq_iff.mp hclasses
  have hwanted : ∀ e, Wanted copies' e ↔ Wanted copies e := fun e =>
    ⟨.congr fun k => (hget k).symm, .congr hget⟩
  have hgathers := hg'.toGathers.congr fun e _ _ => (hwanted e).symm
  have hchains : ∀ e chain, v.chainOf? e = some chain ↔
      Present source (Wanted copies) e ∧ source.chainOf? e = some chain := by
    intro e chain
    rw [hsame.chainOf?_eq]
    exact hg.chainOf?_eq_some_iff
  have hnearest : ∀ e k, v.nearest? e = some k ↔
      Present source (Wanted copies) e ∧ source.nearest? e = some k := by
    intro e k
    rw [hsame.nearest?_eq]
    exact hg.nearest?_eq_some_iff
  have hinduced := hgathers.packages.congr fun e =>
    (Surroundings.present_iff_of_chainOf? hchains e).symm
  exact {
    id := by rw [hv]; rfl
    name := by rw [hv]; rfl
    source := by rw [hv]; rfl
    packages := hg.packages.agrees_packages hinduced hpackages hkeeps hnearest
    classes := hclasses
    enums := by
      have henums := hgathers.enums
      rw [hv, Model.enums_withReferees] at henums
      exact hg.enums.agrees henums (fun _ _ => rfl) fun k hk => (hg.enums.mem_keys_iff.mp hk).1
    datatypes := by
      have hdatatypes := hgathers.datatypes
      rw [hv, Model.datatypes_withReferees] at hdatatypes
      exact hg.datatypes.agrees hdatatypes (fun _ _ => rfl) fun k hk =>
        (hg.datatypes.mem_keys_iff.mp hk).1
    imports := ⟨.refl _, nofun⟩
    associations := ⟨.refl _, nofun⟩
    classHierarchy := by
      refine hg.classHierarchy.sameNodes (hg'.classHierarchy.congr fun general k => ?_)
      rw [hpart.superEdge_iff, hkeys, hkeys', and_self_left]
    packageHierarchy := hg.packages.sameNodes hinduced hnearest
    views := by
      show (selected source names).Perm (selected v names)
      rw [selected_selected hviews] }

end Gathered
end View

/-- A view of an obtained model can be extracted from itself again, under its own source, its names
and the same options. This gives the same view up to the order of what its records list. -/
theorem extractView_extractView {m : Model} (h : m.IsObtained) (origin : ModelSource)
    (names : List String) (options : ViewOptions) :
    ∃ v w, m.extractView origin names options = .ok v ∧
      v.extractView v.source names options = .ok w ∧ v.SameUpToOrder w ∧ v.views = w.views := by
  obtain ⟨hsound, hids⟩ := h.isSound
  obtain ⟨v, hv, _⟩ := hsound.isLeast_extractView origin names options
  obtain ⟨hsound', hids', _, _⟩ := hsound.of_extractView hids hv
  obtain ⟨w, hw, _⟩ := hsound'.isLeast_extractView v.source names options
  refine ⟨v, w, hv, hw, ?_, ?_⟩
  · have hpart := Model.isPartOf_of_extractView hsound hids hv
    have hkeys := Model.mem_keys_of_extractView_twice hsound hids hv hw
    obtain ⟨copies, s, hg, heq⟩ := Model.exists_gathered_of_extractView hsound hids hv
    obtain ⟨copies', t, hg', rfl⟩ := Model.exists_gathered_of_extractView hsound' hids' hw
    have hdeclared := hg.sameDeclared hids heq hpart hg' fun k => by
      rw [← hkeys k]
      exact (OrderedMap.keys_mapWithKey _ copies').symm ▸ Iff.rfl
    rw [heq] at hdeclared ⊢
    exact hdeclared.withReferees
  · have hviews := Model.views_of_extractView hv
    rw [Model.views_of_extractView hw, View.selected_selected hviews, hviews]

theorem extractView_extractView_viewedDocument :
    ∃ result, build viewedConfig none viewedDocument = .ok result ∧ result.model.IsObtained ∧
      ∃ v w, result.model.extractView .unknown ["V"] ⟨true, true⟩ = .ok v ∧
        v.extractView v.source ["V"] ⟨true, true⟩ = .ok w ∧ v.SameUpToOrder w ∧
          v.views = w.views := by
  obtain ⟨result, h⟩ := exists_build_viewedDocument
  have hbuilt : result.model.IsObtained := .built h
  exact ⟨result, h, hbuilt, extractView_extractView hbuilt .unknown ["V"] ⟨true, true⟩⟩

end UmlCatalog
