import UmlCatalog.Build.Model
import UmlCatalog.Proofs.Build.Draft
import UmlCatalog.Proofs.Build.Nesting

/-!
# Records in the order of declarations

A draft has one record for each declaration that it has taken in and whose kind has an arena. The
records stand in the order of the declarations. A package lists its imports and, in the order of
declarations, what is declared directly inside it.

## Implementation notes

A declaration changes the arena of its kind and no other, so one rule for a new record covers all
arenas. Only packages change after they are entered, because elements are listed in them later.
-/

namespace UmlCatalog

/-- The arena that has the records of a kind of declaration. -/
def DeclarationKind.arena? : DeclarationKind → Option Arena
  | umlClass => some .classes
  | enumeration => some .enumerations
  | datatype => some .datatypes
  | package => some .packages
  | excludedPackage => some .packages
  | association => some .associations
  | viewPackage => none
  | other _ => none

/-- The kind under which a package lists a declaration, if it does. -/
def DeclarationKind.element? : DeclarationKind → Option ElementKind
  | umlClass => some .umlClass
  | enumeration => some .enumeration
  | datatype => some .datatype
  | package => some .package
  | excludedPackage => none
  | association => none
  | viewPackage => none
  | other _ => none

theorem DeclarationKind.element?_inj {kind kind' : DeclarationKind} {e : ElementKind}
    (h : kind.element? = some e) (h' : kind'.element? = some e) : kind = kind' := by
  cases kind <;> cases h <;> cases kind' <;> first | rfl | cases h'

theorem DeclarationKind.exists_arena? {kind : DeclarationKind} {e : ElementKind}
    (h : kind.element? = some e) : ∃ arena, kind.arena? = some arena := by
  cases kind <;> first | exact ⟨_, rfl⟩ | cases h

namespace Declaration

/-- The declarations whose records an arena has. -/
def inArena (ds : List Declaration) (arena : Arena) : List Declaration :=
  ds.filter fun n => n.kind.arena? = some arena

/-- The identifiers declared in an arena. -/
def idsIn (ds : List Declaration) (arena : Arena) : List ElementId :=
  (inArena ds arena).map Declaration.id

/-- What a package says of a declaration in its list. -/
def listing? (n : Declaration) : Option ElementRef :=
  n.kind.element?.map fun kind => ⟨kind, n.id⟩

/-- What a package says of a declaration if that is directly inside it. -/
def listingIn? (package : ElementId) (n : Declaration) : Option ElementRef :=
  if n.chain.head? = some package then n.listing? else none

/-- The imports that a package lists. Those of packages that are left out are not read. -/
def importEntries (n : Declaration) : List ElementRef :=
  if n.kind = .package then n.element.elementImports.map fun i => ⟨.elementImport, i.id⟩ else []

/-- The elements of a package after some declarations. -/
def elementsIn (ds : List Declaration) (n : Declaration) : List ElementRef :=
  n.importEntries ++ ds.filterMap (listingIn? n.id)

/-- The record of a package with the given elements. -/
def filled (config : BuildConfig) (elements : Declaration → List ElementRef) (n : Declaration) :
    Package :=
  { n.toPackage config with elements := elements n }

variable {ds : List Declaration} {n : Declaration} {arena : Arena}

theorem mem_inArena : n ∈ inArena ds arena ↔ n ∈ ds ∧ n.kind.arena? = some arena := by
  simp [inArena]

theorem inArena_append_of_mem (h : n.kind.arena? = some arena) :
    inArena (ds ++ [n]) arena = inArena ds arena ++ [n] := by
  simp [inArena, h]

theorem inArena_append_of_not_mem (h : n.kind.arena? ≠ some arena) :
    inArena (ds ++ [n]) arena = inArena ds arena := by
  simp [inArena, h]

/-- No declaration lies in a package that is declared later. -/
theorem IsNested.head?_ne (h : IsNested [] (ds ++ [n])) (hnew : n.id ∉ idsIn ds .packages) :
    ∀ x ∈ ds ++ [n], x.chain.head? ≠ some n.id := by
  have hpackage : ∀ p ∈ ds, p.kind = .package → p.id ≠ n.id := by
    intro p hp hkind he
    refine hnew (List.mem_map.mpr ⟨p, mem_inArena.mpr ⟨hp, ?_⟩, he⟩)
    rw [hkind]
    rfl
  intro x hx hhead
  rcases List.mem_append.mp hx with hx | hx
  · obtain ⟨p, hp, hkind, hid⟩ := h.of_append.exists_package hx hhead
    exact hpackage p hp hkind hid
  · obtain rfl := List.mem_singleton.mp hx
    rcases h ds x [] rfl with hchain | ⟨p, hp, hkind, hchain⟩
    · rw [hchain] at hhead
      cases hhead
    · rw [hchain] at hhead
      exact hpackage p hp hkind (Option.some.inj hhead)

theorem elementsIn_append (ds : List Declaration) (n p : Declaration) :
    elementsIn (ds ++ [n]) p = elementsIn ds p ++ (listingIn? p.id n).toList := by
  unfold elementsIn
  rw [List.filterMap_append, List.append_assoc]
  cases h : listingIn? p.id n with
  | none => rw [List.filterMap_cons_none h]; rfl
  | some e => rw [List.filterMap_cons_some h]; rfl

theorem toList_listingIn? {e : ElementRef} (he : n.listing? = some e) (package : ElementId) :
    (listingIn? package n).toList = if n.chain.head? = some package then [e] else [] := by
  unfold listingIn?
  split
  · rw [he]
    rfl
  · rfl

theorem listingIn?_of_none (he : n.listing? = none) (package : ElementId) :
    listingIn? package n = none := by
  rw [listingIn?, he, ite_self]

/-- A package that nothing lies in yet has its imports. -/
theorem elementsIn_eq_importEntries (h : ∀ x ∈ ds, x.chain.head? ≠ some n.id) :
    elementsIn ds n = n.importEntries := by
  unfold elementsIn
  rw [List.filterMap_eq_nil_iff.mpr, List.append_nil]
  intro x hx
  exact if_neg (h x hx)

end Declaration

/-- The records of declarations, in the same order. -/
structure IsFiled {α : Type} (records : OrderedMap ElementId α) (Describes : Declaration → α → Prop)
    (ns : List Declaration) : Prop where
  /-- The keys are the identifiers of the declarations. -/
  keys : records.keys = ns.map Declaration.id
  exists_get? : ∀ n ∈ ns, ∃ r, records.get? n.id = some r ∧ Describes n r

namespace IsFiled
variable {α : Type} {records : OrderedMap ElementId α} {Describes Describes' : Declaration → α → Prop}
  {ns : List Declaration} {n : Declaration} {r : α}

theorem nil : IsFiled (∅ : OrderedMap ElementId α) Describes [] :=
  ⟨rfl, fun _ hn => nomatch hn⟩

theorem keys_eq_idsIn {ds : List Declaration} {arena : Arena}
    (h : IsFiled records Describes (Declaration.inArena ds arena)) :
    records.keys = Declaration.idsIn ds arena :=
  h.keys

theorem id_mem_keys (h : IsFiled records Describes ns) (hn : n ∈ ns) : n.id ∈ records.keys := by
  rw [h.keys]
  exact List.mem_map_of_mem hn

/-- Every record is that of a declaration. -/
theorem exists_of_get? (h : IsFiled records Describes ns) {k : ElementId}
    (hr : records.get? k = some r) : ∃ n ∈ ns, n.id = k ∧ Describes n r := by
  have hk := OrderedMap.mem_keys_of_get? hr
  rw [h.keys] at hk
  obtain ⟨n, hn, rfl⟩ := List.mem_map.mp hk
  obtain ⟨r', hr', hdescribes⟩ := h.exists_get? n hn
  obtain rfl := Option.some.inj (hr.symm.trans hr')
  exact ⟨n, hn, rfl, hdescribes⟩

/-- A new record goes behind the others. -/
theorem insert (h : IsFiled records Describes ns) (hnew : n.id ∉ records.keys)
    (hr : Describes n r) : IsFiled (records.insert n.id r) Describes (ns ++ [n]) where
  keys := by
    rw [OrderedMap.keys_insert, if_neg hnew, h.keys, List.map_append]
    rfl
  exists_get? := by
    intro x hx
    rcases List.mem_append.mp hx with hx | hx
    · have hne : x.id ≠ n.id := fun he => hnew (he ▸ h.id_mem_keys hx)
      rw [OrderedMap.get?_insert_of_ne _ _ hne]
      exact h.exists_get? x hx
    · obtain rfl := List.mem_singleton.mp hx
      exact ⟨r, OrderedMap.get?_insert_self _ _ _, hr⟩

/-- Records may be changed and described anew. -/
theorem mapWithKey {β : Type} {Describes' : Declaration → β → Prop} {f : ElementId → α → β}
    (h : IsFiled records Describes ns)
    (hf : ∀ n ∈ ns, ∀ r, Describes n r → Describes' n (f n.id r)) :
    IsFiled (records.mapWithKey f) Describes' ns where
  keys := by rw [OrderedMap.keys_mapWithKey, h.keys]
  exists_get? := by
    intro n hn
    obtain ⟨r, hr, hdescribes⟩ := h.exists_get? n hn
    refine ⟨f n.id r, ?_, hf n hn r hdescribes⟩
    rw [OrderedMap.get?_mapWithKey, hr, Option.map_some]

theorem modify {k : ElementId} {f : α → α} (h : IsFiled records Describes ns)
    (hf : ∀ n ∈ ns, ∀ r, Describes n r → Describes' n (if n.id = k then f r else r)) :
    IsFiled (records.modify k f) Describes' ns := by
  unfold OrderedMap.modify
  exact h.mapWithKey hf

theorem imp (h : IsFiled records Describes ns)
    (hd : ∀ n ∈ ns, ∀ r, Describes n r → Describes' n r) : IsFiled records Describes' ns :=
  ⟨h.keys, fun n hn => by
    obtain ⟨r, hr, hdescribes⟩ := h.exists_get? n hn
    exact ⟨r, hr, hd n hn r hdescribes⟩⟩

/-- What the records tell is what the declarations tell, in the same order. -/
theorem map_entries {β : Type} {f : α → β} {g : Declaration → β} (h : IsFiled records Describes ns)
    (hd : ∀ n r, Describes n r → f r = g n) :
    records.entries.map (fun e => (e.1, f e.2)) = ns.map fun n => (n.id, g n) := by
  have hinj : ∀ x y : ElementId × β, (x.1, some x.2) = (y.1, some y.2) → x = y :=
    fun _ _ he => Prod.ext (Prod.mk.inj he).1 (Option.some.inj (Prod.mk.inj he).2)
  refine (List.map_inj_right hinj).mp ?_
  rw [List.map_map, List.map_map]
  calc records.entries.map (fun e => (e.1, some (f e.2)))
    _ = records.keys.map fun k => (k, (records.get? k).map f) := records.map_entries_some f
    _ = ns.map fun n => (n.id, some (g n)) := by
        rw [h.keys, List.map_map]
        refine List.map_congr_left fun n hn => ?_
        obtain ⟨r, hr, hdescribes⟩ := h.exists_get? n hn
        rw [Function.comp_apply, hr, Option.map_some, hd n r hdescribes]

theorem map_values {β : Type} {f : α → β} {g : Declaration → β} (h : IsFiled records Describes ns)
    (hd : ∀ n r, Describes n r → f r = g n) : records.values.map f = ns.map g := by
  have hentries := congrArg (List.map Prod.snd) (h.map_entries hd)
  rw [List.map_map, List.map_map] at hentries
  rw [OrderedMap.values, List.map_map]
  exact hentries

/-- Records that follow from their declarations stand in the same order. -/
theorem values_eq {g : Declaration → α} (h : IsFiled records (fun n r => r = g n) ns) :
    records.values = ns.map g := by
  rw [← h.map_values (f := id) fun _ _ hr => hr, List.map_id]

/-- Taking in one declaration adds its record to the arena of its kind. -/
theorem step {records' : OrderedMap ElementId α} {before : List Declaration} {arena : Arena}
    (h : IsFiled records Describes (Declaration.inArena before arena))
    (hnew : n.kind.arena? = some arena → n.id ∉ records.keys) (hr : Describes n r)
    (he : records' = if n.kind.arena? = some arena then records.insert n.id r else records) :
    IsFiled records' Describes (Declaration.inArena (before ++ [n]) arena) := by
  by_cases ha : n.kind.arena? = some arena
  · rw [he, if_pos ha, Declaration.inArena_append_of_mem ha]
    exact h.insert (hnew ha) hr
  · rw [he, if_neg ha, Declaration.inArena_append_of_not_mem ha]
    exact h

end IsFiled

namespace Model

/-- The keys of an arena. -/
def keysOf (m : Model) : Arena → List ElementId
  | .classes => m.classes.keys
  | .enumerations => m.enums.keys
  | .datatypes => m.datatypes.keys
  | .packages => m.packages.keys
  | .associations => m.associations.keys

/-- Two models agree in what is not changed by listing elements and imports. -/
structure SameRecords (m' m : Model) : Prop where
  classes : m'.classes = m.classes
  enums : m'.enums = m.enums
  datatypes : m'.datatypes = m.datatypes
  associations : m'.associations = m.associations
  views : m'.views = m.views

end Model

namespace Draft
variable {config : BuildConfig} {d d' : Draft} {n : Declaration} {before : List Declaration}

theorem sameRecords_listIn (d : Draft) (chain : List ElementId) (e : ElementRef) :
    (d.listIn chain e).model.SameRecords d.model := by
  cases chain <;> exact ⟨rfl, rfl, rfl, rfl, rfl⟩

theorem sameRecords_addImports (d : Draft) (n : Declaration) :
    (d.addImports n).model.SameRecords d.model := by
  apply List.foldlRecOn (motive := fun m : Model => m.SameRecords d.model)
  · exact ⟨rfl, rfl, rfl, rfl, rfl⟩
  · exact fun m hm i _ => ⟨hm.classes, hm.enums, hm.datatypes, hm.associations, hm.views⟩

namespace Added

/-- A declaration is new in its arena. -/
theorem not_mem_keysOf (h : Added config d n d') {arena : Arena}
    (ha : n.kind.arena? = some arena) : n.id ∉ d.model.keysOf arena := by
  cases h with
  | umlClass kind new _ | enumeration kind new _ | datatype kind new _ | topPackage kind new _
  | nestedPackage kind new _ _ | excludedPackage kind new | association kind new =>
      rw [kind] at ha
      obtain rfl := Option.some.inj ha
      exact new
  | viewPackage kind | other kind =>
      rw [kind] at ha
      cases ha

theorem classes_eq (h : Added config d n d') : d'.model.classes =
    if n.kind.arena? = some .classes then d.model.classes.insert n.id (n.toClass config)
    else d.model.classes := by
  cases h <;> simp [*, DeclarationKind.arena?, (sameRecords_listIn _ _ _).classes,
    (sameRecords_addImports _ _).classes, report]

theorem enums_eq (h : Added config d n d') : d'.model.enums =
    if n.kind.arena? = some .enumerations then
      d.model.enums.insert n.id (n.toEnumeration config)
    else d.model.enums := by
  cases h <;> simp [*, DeclarationKind.arena?, (sameRecords_listIn _ _ _).enums,
    (sameRecords_addImports _ _).enums, report]

theorem datatypes_eq (h : Added config d n d') : d'.model.datatypes =
    if n.kind.arena? = some .datatypes then d.model.datatypes.insert n.id (n.toDatatype config)
    else d.model.datatypes := by
  cases h <;> simp [*, DeclarationKind.arena?, (sameRecords_listIn _ _ _).datatypes,
    (sameRecords_addImports _ _).datatypes, report]

theorem associations_eq (h : Added config d n d') : d'.model.associations =
    if n.kind.arena? = some .associations then
      d.model.associations.insert n.id (n.toAssociation config)
    else d.model.associations := by
  cases h <;> simp [*, DeclarationKind.arena?, (sameRecords_listIn _ _ _).associations,
    (sameRecords_addImports _ _).associations, report]

theorem views_eq (h : Added config d n d') : d'.model.views =
    if n.kind = .viewPackage then d.model.views ++ n.element.views config
    else d.model.views := by
  cases h <;> simp [*, (sameRecords_listIn _ _ _).views, (sameRecords_addImports _ _).views,
    report]

end Added

section Packages
variable {elements : Declaration → List ElementRef} {ns : List Declaration}

/-- An element goes behind the others of its package. -/
theorem isFiled_listElement {m : Model}
    (h : IsFiled m.packages (fun p r => r = p.filled config elements) ns) (package : ElementId)
    (e : ElementRef) :
    IsFiled (m.listElement package e).packages (fun p r => r = p.filled config fun p =>
      elements p ++ if p.id = package then [e] else []) ns := by
  unfold Model.listElement
  dsimp only
  refine h.modify fun p _ r hr => ?_
  rw [hr]
  by_cases hp : p.id = package
  · simp only [Declaration.filled, if_pos hp]
  · simp only [Declaration.filled, if_neg hp, List.append_nil]

theorem isFiled_listIn
    (h : IsFiled d.model.packages (fun p r => r = p.filled config elements) ns)
    (chain : List ElementId) (e : ElementRef) :
    IsFiled (d.listIn chain e).model.packages (fun p r => r = p.filled config fun p =>
      elements p ++ if chain.head? = some p.id then [e] else []) ns := by
  cases chain with
  | nil =>
      refine h.imp fun p _ r hr => ?_
      rw [hr]
      simp [Declaration.filled]
  | cons package outer =>
      refine (isFiled_listElement h package e).imp fun p _ r hr => ?_
      rw [hr]
      simp only [List.head?_cons, Option.some.injEq, eq_comm]

theorem isFiled_foldl_addImport (imports : List ElementImport) (package : ElementId) :
    ∀ {elements : Declaration → List ElementRef} {m : Model},
      IsFiled m.packages (fun p r => r = p.filled config elements) ns →
      IsFiled (imports.foldl (addImport package) m).packages (fun p r => r = p.filled config
        fun p => elements p ++ if p.id = package then
          imports.map fun i => ⟨.elementImport, i.id⟩ else []) ns := by
  induction imports with
  | nil =>
      intro elements m h
      refine h.imp fun p _ r hr => ?_
      rw [hr]
      simp [Declaration.filled]
  | cons i imports ih =>
      intro elements m h
      have hlisted := isFiled_listElement (m := { m with imports := m.imports.insert i.id i }) h
        package ⟨.elementImport, i.id⟩
      refine (ih hlisted).imp fun p _ r hr => ?_
      rw [hr]
      by_cases hp : p.id = package
      · simp [Declaration.filled, hp]
      · simp [Declaration.filled, hp]

/-- A new package has no elements yet. -/
theorem isFiled_insertPackage
    (h : IsFiled d.model.packages (fun p r => r = p.filled config elements) ns)
    (hnew : n.id ∉ d.model.packages.keys) :
    IsFiled (d.model.packages.insert n.id (n.toPackage config)) (fun p r => r = p.filled config
      fun p => if p.id = n.id then [] else elements p) (ns ++ [n]) := by
  have hold : IsFiled d.model.packages (fun p r => r = p.filled config
      fun p => if p.id = n.id then [] else elements p) ns := by
    refine h.imp fun p hp r hr => ?_
    have hne : p.id ≠ n.id := fun he => hnew (he ▸ h.id_mem_keys hp)
    rw [hr]
    simp only [Declaration.filled, if_neg hne]
  refine hold.insert hnew ?_
  simp only [Declaration.filled, if_pos]
  rfl

/-- The packages are filed with what the given declarations put in them. -/
def FilesPackages (config : BuildConfig) (d : Draft) (ds : List Declaration) : Prop :=
  IsFiled d.model.packages (fun p r => r = p.filled config (Declaration.elementsIn ds))
    (Declaration.inArena ds .packages)

/-- What is no package is listed in the package around it. -/
theorem FilesPackages.listIn (hd : d.FilesPackages config before)
    (hkind : n.kind.arena? ≠ some .packages) {e : ElementRef} (he : n.listing? = some e) :
    (d.listIn n.chain e).FilesPackages config (before ++ [n]) := by
  unfold FilesPackages
  rw [Declaration.inArena_append_of_not_mem hkind]
  refine (isFiled_listIn hd n.chain e).imp fun p _ r hr => ?_
  rw [hr, Declaration.filled, Declaration.filled, Declaration.elementsIn_append,
    Declaration.toList_listingIn? he]

/-- What is neither a package nor listed leaves the packages as they are. -/
theorem FilesPackages.skip (hd : d.FilesPackages config before)
    (hkind : n.kind.arena? ≠ some .packages) (he : n.listing? = none)
    (hd' : d'.model.packages = d.model.packages) : d'.FilesPackages config (before ++ [n]) := by
  unfold FilesPackages
  rw [Declaration.inArena_append_of_not_mem hkind, hd']
  refine hd.imp fun p _ r hr => ?_
  rw [hr, Declaration.filled, Declaration.filled, Declaration.elementsIn_append,
    Declaration.listingIn?_of_none he, Option.toList_none, List.append_nil]

/-- A new package has its imports, and is listed in the package around it if it is entered. -/
theorem FilesPackages.of_isFiled {elements : Declaration → List ElementRef}
    (hd : d.FilesPackages config before) (hkind : n.kind.arena? = some .packages)
    (hnested : Declaration.IsNested [] (before ++ [n])) (hnew : n.id ∉ d.model.packages.keys)
    (hd' : IsFiled d'.model.packages (fun p r => r = p.filled config elements)
      (Declaration.inArena before .packages ++ [n]))
    (hself : n.chain.head? ≠ some n.id → elements n = n.importEntries)
    (hothers : ∀ p, p.id ≠ n.id →
      elements p = Declaration.elementsIn before p ++ (Declaration.listingIn? p.id n).toList) :
    d'.FilesPackages config (before ++ [n]) := by
  have hhead := hnested.head?_ne (n := n) (by rw [← hd.keys_eq_idsIn]; exact hnew)
  unfold FilesPackages
  rw [Declaration.inArena_append_of_mem hkind]
  refine hd'.imp fun p hp r hr => ?_
  rw [hr, Declaration.filled, Declaration.filled]
  rcases List.mem_append.mp hp with hp | hp
  · have hne : p.id ≠ n.id := fun he => hnew (he ▸ hd.id_mem_keys hp)
    rw [hothers p hne, Declaration.elementsIn_append]
  · obtain rfl := List.mem_singleton.mp hp
    rw [hself (hhead p (List.mem_append_right _ hp)), Declaration.elementsIn_eq_importEntries hhead]

theorem Added.filesPackages (h : Added config d n d')
    (hnested : Declaration.IsNested [] (before ++ [n])) (hd : d.FilesPackages config before) :
    d'.FilesPackages config (before ++ [n]) := by
  have hentry : n.listing? = n.kind.element?.map fun kind => ⟨kind, n.id⟩ := rfl
  cases h with
  | umlClass kind _ _ | enumeration kind _ _ | datatype kind _ _ =>
      rw [kind] at hentry
      refine FilesPackages.listIn ?_ (by rw [kind]; nofun) hentry
      exact hd
  | topPackage kind new chain =>
      have himports : n.importEntries = _ := if_pos kind
      refine hd.of_isFiled (by rw [kind]; rfl) hnested new
        (isFiled_foldl_addImport _ _ (isFiled_insertPackage hd new)) (fun _ => ?_) fun p hp => ?_
      · rw [himports, if_pos rfl, if_pos rfl, List.nil_append]
      · have hoffside : Declaration.listingIn? p.id n = none := by
          rw [Declaration.listingIn?, chain]
          exact if_neg nofun
        rw [hoffside, if_neg hp, if_neg hp]
        rfl
  | nestedPackage kind new chain edge =>
      have himports : n.importEntries = _ := if_pos kind
      rw [kind] at hentry
      refine hd.of_isFiled (by rw [kind]; rfl) hnested new
        (isFiled_foldl_addImport _ _ (isFiled_listIn (isFiled_insertPackage hd new) _ _))
        (fun hhead => ?_) fun p hp => ?_
      · rw [himports, if_pos rfl, if_neg hhead, if_pos rfl, List.nil_append, List.nil_append]
      · rw [Declaration.toList_listingIn? hentry, if_neg hp, if_neg hp, List.append_nil]
  | excludedPackage kind new =>
      rw [kind] at hentry
      refine hd.of_isFiled (by rw [kind]; rfl) hnested new (isFiled_insertPackage hd new)
        (fun _ => ?_) fun p hp => ?_
      · rw [if_pos rfl, Declaration.importEntries, if_neg (by rw [kind]; nofun)]
      · rw [if_neg hp, Declaration.listingIn?_of_none hentry]
        exact (List.append_nil _).symm
  | viewPackage kind | association kind _ | other kind =>
      rw [kind] at hentry
      exact hd.skip (by rw [kind]; nofun) hentry rfl

end Packages

/-- A draft has the records of the declarations, in their order. -/
structure Files (config : BuildConfig) (d : Draft) (ds : List Declaration) : Prop where
  classes : IsFiled d.model.classes (fun n c => c = n.toClass config)
    (Declaration.inArena ds .classes)
  enums : IsFiled d.model.enums (fun n e => e = n.toEnumeration config)
    (Declaration.inArena ds .enumerations)
  datatypes : IsFiled d.model.datatypes (fun n t => t = n.toDatatype config)
    (Declaration.inArena ds .datatypes)
  associations : IsFiled d.model.associations (fun n a => a = n.toAssociation config)
    (Declaration.inArena ds .associations)
  packages : d.FilesPackages config ds
  views : d.model.views =
    (ds.filter fun n => n.kind = .viewPackage).flatMap fun n => n.element.views config
  imports : ∀ k i, d.model.imports.get? k = some i → i.id = k

theorem files_start (config : BuildConfig) (resource : Option String) (root : Markup.Element) :
    (start config resource root).Files config [] :=
  ⟨.nil, .nil, .nil, .nil, .nil, rfl, fun _ _ hi => nomatch hi⟩

theorem imports_listIn (d : Draft) (chain : List ElementId) (e : ElementRef) :
    (d.listIn chain e).model.imports = d.model.imports := by
  cases chain <;> rfl

theorem imports_addImports (d : Draft) (n : Declaration) : (d.addImports n).model.imports =
    n.element.elementImports.foldl (fun imports i => imports.insert i.id i) d.model.imports := by
  have hfold : ∀ (imports : List ElementImport) (m : Model),
      (imports.foldl (addImport n.id) m).imports =
        imports.foldl (fun imports i => imports.insert i.id i) m.imports := by
    intro imports
    induction imports with
    | nil => exact fun _ => rfl
    | cons i imports ih => exact fun m => ih (addImport n.id m i)
  exact hfold _ _

theorem Added.imports_eq (h : Added config d n d') : d'.model.imports =
    if n.kind = .package then
      n.element.elementImports.foldl (fun imports i => imports.insert i.id i) d.model.imports
    else d.model.imports := by
  cases h <;> simp [*, imports_listIn, imports_addImports, report]

/-- The imports are filed under their own identifiers. -/
theorem Added.id_of_imports (h : Added config d n d')
    (hd : ∀ k i, d.model.imports.get? k = some i → i.id = k) :
    ∀ k i, d'.model.imports.get? k = some i → i.id = k := by
  rw [h.imports_eq]
  split
  · apply List.foldlRecOn (motive := fun imports : OrderedMap ElementId ElementImport =>
      ∀ k i, imports.get? k = some i → i.id = k)
    · exact hd
    · intro imports himports j _ k i hi
      rcases OrderedMap.of_get?_insert hi with ⟨rfl, rfl⟩ | ⟨_, hi⟩
      · rfl
      · exact himports k i hi
  · exact hd

/-- Taking in a declaration files its record behind the others. -/
theorem Added.files (h : Added config d n d')
    (hnested : Declaration.IsNested [] (before ++ [n])) (hd : d.Files config before) :
    d'.Files config (before ++ [n]) where
  classes := hd.classes.step h.not_mem_keysOf rfl h.classes_eq
  enums := hd.enums.step h.not_mem_keysOf rfl h.enums_eq
  datatypes := hd.datatypes.step h.not_mem_keysOf rfl h.datatypes_eq
  associations := hd.associations.step h.not_mem_keysOf rfl h.associations_eq
  packages := h.filesPackages hnested hd.packages
  views := by
    rw [h.views_eq, hd.views, List.filter_append, List.flatMap_append]
    by_cases hkind : n.kind = .viewPackage
    · simp [hkind]
    · simp [hkind]
  imports := h.id_of_imports hd.imports

/-- A draft that has taken in nested declarations files them. -/
theorem files_of_foldlM {resource : Option String} {root : Markup.Element}
    {ds : List Declaration} (hnested : Declaration.IsNested [] ds)
    (h : ds.foldlM (add config) (start config resource root) = .ok d) : d.Files config ds := by
  refine foldlM_induction (P := fun before d => d.Files config before) ?_
    (files_start config resource root) h
  rintro before n after s t hsplit hs hadd
  refine (added_of_add_eq_ok hadd).files ?_ hs
  rw [hsplit, List.append_cons] at hnested
  exact hnested.of_append

end Draft
end UmlCatalog
