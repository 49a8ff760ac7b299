import Mathlib.Order.Bounds.Basic
import UmlCatalog.Proofs.Build.Sound
import UmlCatalog.Proofs.Build.Visited
import UmlCatalog.Proofs.View.Walk

/-!
# The classes of a view

Which classes a view of a built model has. They start with the members of the chosen views and
all classes above them, and follow from these by the relations that the options name. The walk
meets some classes without following their superclasses; this loses nothing, because the classes
above a member are there from the start.
-/

namespace UmlCatalog
open Relation

namespace Model

/-- Views of the given names have the member. -/
def IsMember (m : Model) (names : List String) (member : ElementId) : Prop :=
  ∃ v ∈ m.views, (∃ name ∈ names, v.name = some name) ∧ member ∈ v.members

/-- The members of the views and everything above them, classes of the model or not. -/
def IsSeed (m : Model) (names : List String) (x : ElementId) : Prop :=
  ∃ member, m.IsMember names member ∧ (x = member ∨ x ∈ m.classHierarchy.parentsOf member)

/-- The classes that the views show themselves. -/
def shown (m : Model) (names : List String) : Set ElementId :=
  {x | m.IsSeed names x ∧ x ∈ m.classes.keys}

/-- A class has a property typed by a class of the model. -/
def RefersTo (m : Model) (x y : ElementId) : Prop :=
  (∃ c, m.classes.get? x = some c ∧ ∃ p ∈ c.properties, p.targetKey? = some y.text) ∧
    y ∈ m.classes.keys

/-- A class has a direct superclass that the model has. -/
def InheritsFrom (m : Model) (x y : ElementId) : Prop := m.SuperEdge y x ∧ y ∈ m.classes.keys

end Model

/-- A set contains whatever its elements are related to. -/
def ClosedUnder (related : ElementId → ElementId → Prop) (classes : Set ElementId) : Prop :=
  ∀ x ∈ classes, ∀ y, related x y → y ∈ classes

namespace Model

/-- A set of classes that lacks nothing a view must have under the options. -/
def IsComplete (m : Model) (names : List String) (options : ViewOptions)
    (classes : Set ElementId) : Prop :=
  m.shown names ⊆ classes ∧
    (options.followReferencedClasses = true → ClosedUnder m.RefersTo classes) ∧
      (options.followReferencedClasses = true → options.followReferentHierarchy = true →
        ClosedUnder m.InheritsFrom classes)

variable {m : Model} {names : List String} {options : ViewOptions}

theorem mem_selected_iff {v : UmlCatalog.View} :
    v ∈ View.selected m names ↔ v ∈ m.views ∧ ∃ name ∈ names, v.name = some name := by
  unfold View.selected
  rw [List.mem_filter]
  cases hv : v.name with
  | none => simp
  | some name => simp

theorem mem_seeds_iff {x : ElementId} :
    x ∈ View.seeds m (View.selected m names) ↔ m.IsSeed names x := by
  unfold View.seeds IsSeed IsMember
  rw [OrderedSet.mem_toList, OrderedSet.mem_ofList]
  simp only [List.mem_flatMap, List.mem_cons, OrderedSet.mem_toList, mem_selected_iff]
  constructor
  · rintro ⟨v, ⟨hv, hname⟩, member, hmember, hx⟩
    exact ⟨member, ⟨v, hv, hname, hmember⟩, hx⟩
  · rintro ⟨member, ⟨v, hv, hname, hmember⟩, hx⟩
    exact ⟨v, ⟨hv, hname⟩, member, hmember, hx⟩

/-- What a seed inherits from is a seed. -/
theorem IsSound.isSeed_of_superEdge (hm : m.IsSound) {x general : ElementId}
    (hx : m.IsSeed names x) (he : m.SuperEdge general x) : m.IsSeed names general := by
  obtain ⟨member, hmember, hx⟩ := hx
  refine ⟨member, hmember, Or.inr ?_⟩
  rw [hm.classHierarchy.mem_parentsOf_iff]
  rcases hx with rfl | hx
  · exact .single he
  · exact .head he (hm.classHierarchy.mem_parentsOf_iff.mp hx)

end Model

namespace View
variable {m : Model} {names : List String} {options : ViewOptions}
  {r : OrderedMap ElementId Class × Surroundings}

theorem mem_start_iff {p : ElementId × Bool} :
    p ∈ start m names ↔ m.IsSeed names p.1 ∧ p.2 = true := by
  obtain ⟨x, f⟩ := p
  unfold start
  rw [List.mem_map]
  constructor
  · rintro ⟨y, hy, he⟩
    obtain ⟨rfl, rfl⟩ := Prod.mk.inj he
    exact ⟨Model.mem_seeds_iff.mp hy, rfl⟩
  · rintro ⟨hx, rfl⟩
    exact ⟨x, Model.mem_seeds_iff.mpr hx, rfl⟩

theorem mem_referencedClasses_iff {c : Class} {x : ElementId} :
    x ∈ referencedClasses m c ↔
      (∃ p ∈ c.properties, p.targetKey? = some x.text) ∧ x ∈ m.classes.keys := by
  unfold referencedClasses
  rw [List.mem_filter, List.mem_filterMap, OrderedMap.contains_iff]
  refine and_congr_left' (exists_congr fun p => and_congr_right fun _ => ?_)
  rw [Option.map_eq_some_iff]
  constructor
  · rintro ⟨key, hkey, rfl⟩
    exact hkey
  · exact fun hkey => ⟨x.text, hkey, rfl⟩

theorem mem_successors_iff {f : Bool} {c : Class} {x : ElementId} :
    x ∈ successors m options f c ↔
      options.followReferencedClasses = true ∧ x ∈ referencedClasses m c ∨
        f = true ∧ x ∈ c.superClasses := by
  unfold successors
  rw [List.mem_append]
  refine or_congr ?_ ?_
  · cases options.followReferencedClasses <;> simp
  · cases f <;> simp

/-- A walk from the seeds gathers a set of classes that lacks nothing. -/
theorem Walks.isComplete (h : Walks m options (start m names) ∅ .empty r) :
    m.IsComplete names options {x | x ∈ r.1.keys} := by
  refine ⟨?_, ?_, ?_⟩
  · rintro x ⟨hx, hclass⟩
    exact h.covers.2 (x, true) (mem_start_iff.mpr ⟨hx, rfl⟩) hclass
  · rintro hrefer x hx y ⟨⟨c, hc, hproperty⟩, hy⟩
    have hnext : ∀ f c, True → ∀ x ∈ referencedClasses m c, x ∈ successors m options f c :=
      fun f c _ x hx => mem_successors_iff.mpr (Or.inl ⟨hrefer, hx⟩)
    exact h.closed (F := fun _ => True) trivial hnext (fun _ _ => trivial)
      (fun k hk => nomatch hk) x hx c hc y (mem_referencedClasses_iff.mpr ⟨hproperty, hy⟩) hy
  · rintro hrefer hinherit x hx y ⟨⟨c, hc, hgeneral⟩, hy⟩
    have hnext : ∀ f c, f = true → ∀ x ∈ c.superClasses, x ∈ successors m options f c :=
      fun f c hf x hx => mem_successors_iff.mpr (Or.inr ⟨hf, hx⟩)
    exact h.closed (F := fun f => f = true) hinherit hnext (fun p hp => (mem_start_iff.mp hp).2)
      (fun k hk => nomatch hk) x hx c hc y hgeneral hy

/-- A class is wanted in a set of classes. It is pending with the word that its superclasses follow
only if it is a seed or if all superclasses follow. -/
def IsWanted (m : Model) (names : List String) (options : ViewOptions) (classes : Set ElementId)
    (x : ElementId) (followParents : Bool) : Prop :=
  (x ∈ m.classes.keys → x ∈ classes) ∧
    (followParents = true → m.IsSeed names x ∨
      options.followReferencedClasses = true ∧ options.followReferentHierarchy = true)

section Wanted
variable {classes : Set ElementId} (hcomplete : m.IsComplete names options classes)
include hcomplete

theorem isWanted_of_isSeed {x : ElementId} (hx : m.IsSeed names x) (f : Bool) :
    IsWanted m names options classes x f :=
  ⟨fun hclass => hcomplete.1 ⟨hx, hclass⟩, fun _ => Or.inl hx⟩

/-- What follows from a wanted class is wanted. -/
theorem IsWanted.successor (hm : m.IsSound) {id x : ElementId} {f : Bool} {c : Class}
    (hid : IsWanted m names options classes id f) (hc : m.classes.get? id = some c)
    (hx : x ∈ successors m options f c) :
    IsWanted m names options classes x options.followReferentHierarchy := by
  obtain ⟨hmem, hword⟩ := hid
  have hin : id ∈ classes := hmem (OrderedMap.mem_keys_of_get? hc)
  rcases mem_successors_iff.mp hx with ⟨hon, hx⟩ | ⟨hf, hx⟩
  · obtain ⟨hproperty, hclass⟩ := mem_referencedClasses_iff.mp hx
    refine ⟨fun _ => ?_, fun hfollow => Or.inr ⟨hon, hfollow⟩⟩
    exact hcomplete.2.1 hon id hin x ⟨⟨c, hc, hproperty⟩, hclass⟩
  · rcases hword hf with hseed | ⟨hon, hfollow⟩
    · exact isWanted_of_isSeed hcomplete (hm.isSeed_of_superEdge hseed ⟨c, hc, hx⟩) _
    · refine ⟨fun hclass => ?_, fun _ => Or.inr ⟨hon, hfollow⟩⟩
      exact hcomplete.2.2 hon hfollow id hin x ⟨⟨c, hc, hx⟩, hclass⟩

end Wanted

/-- A walk from the seeds gathers the least set of classes that lacks nothing. -/
theorem Walks.isLeast (hm : m.IsSound)
    (h : Walks m options (start m names) ∅ .empty r) :
    IsLeast {classes | m.IsComplete names options classes} {x | x ∈ r.1.keys} := by
  refine ⟨h.isComplete, fun classes hcomplete k hk => ?_⟩
  have hstart : ∀ p ∈ start m names, IsWanted m names options classes p.1 p.2 := fun p hp =>
    isWanted_of_isSeed hcomplete (mem_start_iff.mp hp).1 p.2
  have hnext : ∀ id f c, IsWanted m names options classes id f → m.classes.get? id = some c →
      ∀ x ∈ successors m options f c,
        IsWanted m names options classes x options.followReferentHierarchy :=
    fun id f c hid hc x hx => hid.successor hcomplete hm hc hx
  rcases h.sound hnext hstart k hk with hk | ⟨hclass, f, hin, _⟩
  · cases hk
  · exact hin hclass

theorem extractView_of_walk {origin : ModelSource} {copies : OrderedMap ElementId Class}
    {s : Surroundings} (h : walk m options (start m names) ∅ .empty = .ok (copies, s)) :
    m.extractView origin names options =
      .ok (assemble m origin names copies s).withPropertyIndex.withReferees := by
  unfold Model.extractView
  rw [h]
  rfl

end View

namespace Model
variable {m : Model} {names : List String} {options : ViewOptions}

/-- The view of a sound model has the least set of classes that lacks nothing. -/
theorem IsSound.isLeast_extractView (hm : m.IsSound) (origin : ModelSource)
    (names : List String) (options : ViewOptions) :
    ∃ v, m.extractView origin names options = .ok v ∧
      IsLeast {classes | m.IsComplete names options classes} {x | x ∈ v.classes.keys} := by
  obtain ⟨⟨copies, s⟩, hwalk⟩ := View.exists_walk_eq_ok hm
    (View.start m names) ∅ .empty (View.Surroundings.isWithin_empty m)
  have hwalks := View.walks_of_walk_eq_ok _ _ _ _ hwalk
  refine ⟨_, View.extractView_of_walk hwalk, ?_⟩
  have hkeys : (View.assemble m origin names copies s).withPropertyIndex.withReferees.classes.keys
      = copies.keys := OrderedMap.keys_mapWithKey _ _
  rw [hkeys]
  exact hwalks.isLeast hm

/-- A view has exactly the classes that the options ask for: those that are shown, and whatever
follows from them by the relations that are switched on. -/
structure IsExactView (m : Model) (names : List String) (options : ViewOptions) (v : Model) :
    Prop where
  of_nothing_followed : options.followReferencedClasses = false →
    {x | x ∈ v.classes.keys} = m.shown names
  of_references_followed : options.followReferencedClasses = true →
    options.followReferentHierarchy = false →
      IsLeast {classes | m.shown names ⊆ classes ∧ ClosedUnder m.RefersTo classes}
        {x | x ∈ v.classes.keys}
  of_both_followed : options.followReferencedClasses = true →
    options.followReferentHierarchy = true →
      IsLeast {classes | m.shown names ⊆ classes ∧ ClosedUnder m.RefersTo classes ∧
        ClosedUnder m.InheritsFrom classes} {x | x ∈ v.classes.keys}

theorem isExactView_of_isLeast {v : Model}
    (h : IsLeast {classes | m.IsComplete names options classes} {x | x ∈ v.classes.keys}) :
    m.IsExactView names options v where
  of_nothing_followed := by
    intro hoff
    apply subset_antisymm
    · apply h.2
      refine ⟨subset_rfl, fun hon => ?_, fun hon => ?_⟩
      · rw [hoff] at hon
        cases hon
      · rw [hoff] at hon
        cases hon
    · exact h.1.1
  of_references_followed := by
    intro hon hoff
    constructor
    · exact ⟨h.1.1, h.1.2.1 hon⟩
    · rintro classes ⟨hshown, hrefer⟩
      apply h.2
      refine ⟨hshown, fun _ => hrefer, fun _ hfollow => ?_⟩
      rw [hoff] at hfollow
      cases hfollow
  of_both_followed := by
    intro hon hfollow
    constructor
    · exact ⟨h.1.1, h.1.2.1 hon, h.1.2.2 hon hfollow⟩
    · rintro classes ⟨hshown, hrefer, hinherit⟩
      exact h.2 ⟨hshown, fun _ => hrefer, fun _ _ => hinherit⟩

/-- Where no references are followed, a view has the classes that it starts with. -/
theorem IsSound.mem_keys_of_nothing_followed (hm : m.IsSound) {origin : ModelSource} {v : Model}
    (hv : m.extractView origin names options = .ok v)
    (hoff : options.followReferencedClasses = false) {x : ElementId} :
    x ∈ v.classes.keys ↔
      x ∈ View.seeds m (View.selected m names) ∧ x ∈ m.classes.keys := by
  obtain ⟨v', hv', hleast⟩ := hm.isLeast_extractView origin names options
  obtain rfl := Except.ok.inj (hv.symm.trans hv')
  rw [mem_seeds_iff]
  exact Set.ext_iff.mp ((isExactView_of_isLeast hleast).of_nothing_followed hoff) x

/-- Two models have the same classes, members, references and superclasses, in whatever order
each lists them. -/
structure SameContents (m' m : Model) (names : List String) : Prop where
  mem_keys_iff : ∀ x, x ∈ m'.classes.keys ↔ x ∈ m.classes.keys
  isMember_iff : ∀ x, m'.IsMember names x ↔ m.IsMember names x
  refersTo_iff : ∀ x y, m'.RefersTo x y ↔ m.RefersTo x y
  superEdge_iff : ∀ x y, m'.SuperEdge x y ↔ m.SuperEdge x y

/-- Which sets are complete does not depend on any order. -/
theorem SameContents.isComplete_iff {m' : Model} (h : m'.SameContents m names)
    (hm' : m'.IsSound) (hm : m.IsSound) {classes : Set ElementId} :
    m'.IsComplete names options classes ↔ m.IsComplete names options classes := by
  have hedge : m'.SuperEdge = m.SuperEdge :=
    funext fun x => funext fun y => propext (h.superEdge_iff x y)
  have hrefer : m'.RefersTo = m.RefersTo :=
    funext fun x => funext fun y => propext (h.refersTo_iff x y)
  have hinherit : m'.InheritsFrom = m.InheritsFrom := by
    funext x y
    unfold InheritsFrom
    rw [hedge, h.mem_keys_iff]
  have hseed : ∀ x, m'.IsSeed names x ↔ m.IsSeed names x := by
    intro x
    unfold IsSeed
    simp only [h.isMember_iff, hm'.classHierarchy.mem_parentsOf_iff,
      hm.classHierarchy.mem_parentsOf_iff, hedge]
  have hshown : m'.shown names = m.shown names := by
    ext x
    exact and_congr (hseed x) (h.mem_keys_iff x)
  unfold IsComplete
  rw [hshown, hrefer, hinherit]

end Model

/-- The view of a built model can always be extracted and has exactly the classes that the names
and the options ask for. They are the same for every built model that has the same contents in
another order. -/
theorem extractView_isExactView {config : BuildConfig} {resource : Option String}
    {document : Markup.Element} {result : BuildResult}
    (h : build config resource document = .ok result) (origin : ModelSource)
    (names : List String) (options : ViewOptions) :
    ∃ v, result.model.extractView origin names options = .ok v ∧
      result.model.IsExactView names options v ∧
      ∀ config' resource' document' result', build config' resource' document' = .ok result' →
        result'.model.SameContents result.model names →
          ∃ v', result'.model.extractView origin names options = .ok v' ∧
            ∀ x, x ∈ v'.classes.keys ↔ x ∈ v.classes.keys := by
  have hm := Model.isSound_of_build h
  obtain ⟨v, hv, hleast⟩ := hm.isLeast_extractView origin names options
  refine ⟨v, hv, Model.isExactView_of_isLeast hleast, ?_⟩
  intro config' resource' document' result' h' hsame
  have hm' := Model.isSound_of_build h'
  obtain ⟨v', hv', hleast'⟩ := hm'.isLeast_extractView origin names options
  refine ⟨v', hv', fun x => ?_⟩
  have hsets : {classes | result'.model.IsComplete names options classes} =
      {classes | result.model.IsComplete names options classes} := by
    ext classes
    exact hsame.isComplete_iff hm' hm
  rw [hsets] at hleast'
  have hequal := hleast'.unique hleast
  exact Set.ext_iff.mp hequal x

/-- A class A below a class B with a property typed by C, a class D beside them, and a view V
that has A as its only member. -/
def viewedDocument : Markup.Element :=
  ⟨"uml:Model", .ofList [("xmi:id", "m")], none, [
    packaged "uml:Package" "p" [
      packaged "uml:Class" "A" [
        ⟨"generalization", .ofList [("general", "B")], none, []⟩,
        ⟨"ownedAttribute", .ofList [("xmi:id", "a"), ("type", "C")], none, []⟩],
      packaged "uml:Class" "B" [],
      packaged "uml:Class" "C" [],
      packaged "uml:Class" "D" []],
    packaged "uml:Package" "views" [
      packaged "uml:Class" "V" [
        ⟨"elementImport", .ofList [("importedElement", "A")], none, []⟩]]]⟩

/-- A configuration under which packages with a v in their identifier hold views. -/
def viewedConfig : BuildConfig := { BuildConfig.standard with viewPattern := some (.literal 'v') }

theorem extractView_viewedDocument_isExactView :
    ∃ result v, build viewedConfig none viewedDocument = .ok result ∧
      result.model.extractView .unknown ["V"] ⟨true, false⟩ = .ok v ∧
      result.model.IsExactView ["V"] ⟨true, false⟩ v ∧
      ⟨"A"⟩ ∈ v.classes.keys ∧ ⟨"B"⟩ ∈ v.classes.keys ∧
      ∃ v', result.model.extractView .unknown ["V"] ⟨true, false⟩ = .ok v' ∧
        ∀ x, x ∈ v'.classes.keys ↔ x ∈ v.classes.keys := by
  have hseeds : (build viewedConfig none viewedDocument).toOption.map (fun r =>
      (View.seeds r.model (View.selected r.model ["V"]), r.model.classes.keys)) =
        some ([⟨"A"⟩, ⟨"B"⟩], [⟨"A"⟩, ⟨"B"⟩, ⟨"C"⟩, ⟨"D"⟩]) := by
    decide +kernel
  cases h : build viewedConfig none viewedDocument with
  | error e =>
      rw [h] at hseeds
      cases hseeds
  | ok result =>
      rw [h] at hseeds
      have hpair := Option.some.inj hseeds
      have hstart : View.seeds result.model (View.selected result.model ["V"]) = [⟨"A"⟩, ⟨"B"⟩] :=
        congrArg Prod.fst hpair
      have hkeys : result.model.classes.keys = [⟨"A"⟩, ⟨"B"⟩, ⟨"C"⟩, ⟨"D"⟩] :=
        congrArg Prod.snd hpair
      obtain ⟨v, hv, hexact, hsame⟩ :=
        extractView_isExactView h .unknown ["V"] ⟨true, false⟩
      have hshown : ∀ x ∈ View.seeds result.model (View.selected result.model ["V"]),
          x ∈ result.model.classes.keys → x ∈ v.classes.keys := fun x hx hclass =>
        (hexact.of_references_followed rfl rfl).1.1 ⟨Model.mem_seeds_iff.mp hx, hclass⟩
      refine ⟨result, v, rfl, hv, hexact, hshown _ ?_ ?_, hshown _ ?_ ?_,
        hsame viewedConfig none viewedDocument result h
          ⟨fun _ => Iff.rfl, fun _ => Iff.rfl, fun _ _ => Iff.rfl, fun _ _ => Iff.rfl⟩⟩
      · rw [hstart]
        simp
      · rw [hkeys]
        simp
      · rw [hstart]
        simp
      · rw [hkeys]
        simp

end UmlCatalog
