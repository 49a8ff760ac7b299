import UmlCatalog.Build.Compile
import UmlCatalog.Proofs.Model.Outline

/-!
# Taking in one declaration

What a draft becomes when a declaration is taken in, one rule for each kind of declaration. A
declaration that is refused has no rule.
-/

namespace UmlCatalog

theorem exists_of_bind_eq_ok {ε α β : Type} {x : Except ε α} {f : α → Except ε β} {b : β}
    (h : x.bind f = .ok b) : ∃ a, x = .ok a ∧ f a = .ok b := by
  cases x with
  | error e => cases h
  | ok a => exact ⟨a, rfl, h⟩

theorem exists_of_bind_eq_error {ε α β : Type} {x : Except ε α} {f : α → Except ε β} {e : ε}
    (h : x.bind f = .error e) : x = .error e ∨ ∃ a, x = .ok a ∧ f a = .error e := by
  cases x with
  | error e' => exact Or.inl (congrArg Except.error (Except.error.inj h))
  | ok a => exact Or.inr ⟨a, rfl, h⟩

/-- A result that passes a test is there. -/
theorem exists_of_any_eq_true {ε α : Type} {x : Except ε α} {p : α → Bool}
    (h : x.toOption.any p = true) : ∃ a, x = .ok a ∧ p a = true := by
  cases x with
  | error e => cases h
  | ok a => exact ⟨a, rfl, h⟩

/-- A result that something can be read off is there. -/
theorem exists_of_map_toOption_eq_some {ε α β : Type} {x : Except ε α} {f : α → β} {b : β}
    (h : x.toOption.map f = some b) : ∃ a, x = .ok a ∧ f a = b := by
  cases x with
  | error e => cases h
  | ok a => exact ⟨a, rfl, Option.some.inj h⟩

/-- A fold fails at the first step that fails. -/
theorem exists_of_foldlM_eq_error {ε α σ : Type} {f : σ → α → Except ε σ} {e : ε} {xs : List α} :
    ∀ {s}, xs.foldlM f s = .error e →
      ∃ before x after t, xs = before ++ x :: after ∧ before.foldlM f s = .ok t ∧
        f t x = .error e := by
  induction xs with
  | nil =>
      intro s h
      cases h
  | cons x xs ih =>
      intro s h
      rw [List.foldlM_cons] at h
      rcases exists_of_bind_eq_error h with hx | ⟨u, hu, h⟩
      · exact ⟨[], x, xs, s, rfl, rfl, hx⟩
      · obtain ⟨before, y, after, t, rfl, ht, hy⟩ := ih h
        refine ⟨x :: before, y, after, t, rfl, ?_, hy⟩
        rw [List.foldlM_cons, hu]
        exact ht

/-- What is kept by every step of a fold holds at its end. A step may use what was folded before
it. -/
theorem foldlM_induction {ε α σ : Type} {f : σ → α → Except ε σ} {P : List α → σ → Prop}
    {xs : List α}
    (step : ∀ before x after s t, xs = before ++ x :: after → P before s → f s x = .ok t →
      P (before ++ [x]) t)
    {s t : σ} (start : P [] s) (h : xs.foldlM f s = .ok t) : P xs t := by
  have hrest : ∀ after before s, xs = before ++ after → P before s →
      after.foldlM f s = .ok t → P xs t := by
    intro after
    induction after with
    | nil =>
        intro before s hxs hs hfold
        rw [hxs, List.append_nil]
        obtain rfl := Except.ok.inj hfold
        exact hs
    | cons x after ih =>
        intro before s hxs hs hfold
        rw [List.foldlM_cons] at hfold
        obtain ⟨u, hu, hfold⟩ := exists_of_bind_eq_ok hfold
        refine ih (before ++ [x]) u ?_ (step before x after s u hxs hs hu) hfold
        rw [hxs, List.append_assoc]
        rfl
  exact hrest xs [] s rfl start h

namespace Model

theorem enterNew_eq_ok {α : Type} {arena : Arena} {records records' : OrderedMap ElementId α}
    {id : ElementId} {record : α} (h : enterNew arena records id record = .ok records') :
    id ∉ records.keys ∧ records' = records.insert id record := by
  obtain ⟨_, hnew, h⟩ := exists_of_bind_eq_ok h
  exact ⟨requireNew_eq_ok_iff.mp hnew, (Except.ok.inj h).symm⟩

/-- Only an identifier that is there already is refused. -/
theorem requireNew_eq_error {α : Type} {arena : Arena} {records : OrderedMap ElementId α}
    {id : ElementId} {e : ModelError} (h : requireNew arena records id = .error e) :
    id ∈ records.keys ∧ e = .duplicateId arena id := by
  unfold requireNew at h
  split at h
  · rename_i hid
    exact ⟨OrderedMap.contains_iff.mp hid, (Except.error.inj h).symm⟩
  · cases h

/-- Entering a record fails only if its identifier is there already. -/
theorem enterNew_bind_eq_error {α β : Type} {arena : Arena} {records : OrderedMap ElementId α}
    {id : ElementId} {record : α} {f : OrderedMap ElementId α → β} {e : ModelError}
    (h : ((enterNew arena records id record).bind fun r => .ok (f r)) = .error e) :
    id ∈ records.keys ∧ e = .duplicateId arena id := by
  rcases exists_of_bind_eq_error h with h | ⟨_, _, h⟩
  · rcases exists_of_bind_eq_error h with h | ⟨_, _, h⟩
    · exact requireNew_eq_error h
    · cases h
  · cases h

theorem addPackage_eq_error {m : Model} {p : Package} {e : ModelError}
    (h : m.addPackage p = .error e) : p.id ∈ m.packages.keys ∧ e = .duplicateId .packages p.id :=
  enterNew_bind_eq_error h

theorem addPackage_eq_ok {m m' : Model} {p : Package} (h : m.addPackage p = .ok m') :
    p.id ∉ m.packages.keys ∧ m' = { m with packages := m.packages.insert p.id p } := by
  obtain ⟨packages, hp, h⟩ := exists_of_bind_eq_ok h
  obtain ⟨hnew, rfl⟩ := enterNew_eq_ok hp
  exact ⟨hnew, (Except.ok.inj h).symm⟩

end Model

namespace Draft
variable {config : BuildConfig} {d d' : Draft} {n : Declaration}

/-- `Added config d n d'`: taking `n` into `d` gives `d'`. -/
inductive Added (config : BuildConfig) (d : Draft) (n : Declaration) : Draft → Prop
  | umlClass {hierarchy : Hierarchy} (kind : n.kind = .umlClass)
      (new : n.id ∉ d.model.classes.keys)
      (edges : addEdges d.model.classHierarchy n.id n.element.generals = .ok hierarchy) :
      Added config d n (listIn
        { model := { d.model with
            classHierarchy := hierarchy
            classes := d.model.classes.insert n.id (n.toClass config) }
          diagnostics := d.diagnostics ++
            (n.attributes config).flatMap OwnedAttribute.diagnostics
          owners := (n.toClass config).associations.keys.foldl
            (fun owners a => owners.insert a n.id) d.owners }
        n.chain ⟨.umlClass, n.id⟩)
  | enumeration (kind : n.kind = .enumeration) (new : n.id ∉ d.model.enums.keys)
      (plain : n.element.firstNamed? "generalization" = none) :
      Added config d n (listIn
        { d with model := { d.model with
            enums := d.model.enums.insert n.id (n.toEnumeration config) } }
        n.chain ⟨.enumeration, n.id⟩)
  | datatype (kind : n.kind = .datatype) (new : n.id ∉ d.model.datatypes.keys)
      (plain : n.element.firstNamed? "generalization" = none) :
      Added config d n (listIn
        { d with model := { d.model with
            datatypes := d.model.datatypes.insert n.id (n.toDatatype config) } }
        n.chain ⟨.datatype, n.id⟩)
  | topPackage (kind : n.kind = .package) (new : n.id ∉ d.model.packages.keys)
      (chain : n.chain = []) :
      Added config d n (addImports
        { d with model := { d.model with
            packages := d.model.packages.insert n.id (n.toPackage config)
            packageHierarchy := d.model.packageHierarchy.insert n.id } } n)
  | nestedPackage {parent : ElementId} {outer : List ElementId} {hierarchy : Hierarchy}
      (kind : n.kind = .package) (new : n.id ∉ d.model.packages.keys)
      (chain : n.chain = parent :: outer)
      (edge : d.model.packageHierarchy.add parent n.id = .ok hierarchy) :
      Added config d n (addImports (listIn
        { d with model := { d.model with
            packages := d.model.packages.insert n.id (n.toPackage config)
            packageHierarchy := hierarchy } }
        n.chain ⟨.package, n.id⟩) n)
  | excludedPackage (kind : n.kind = .excludedPackage) (new : n.id ∉ d.model.packages.keys) :
      Added config d n { d with model := { d.model with
        packages := d.model.packages.insert n.id (n.toPackage config) } }
  | viewPackage (kind : n.kind = .viewPackage) :
      Added config d n { d with model := { d.model with
        views := d.model.views ++ n.element.views config } }
  | association (kind : n.kind = .association) (new : n.id ∉ d.model.associations.keys) :
      Added config d n { d with model := { d.model with
        associations := d.model.associations.insert n.id (n.toAssociation config) } }
  | other {type : String} (kind : n.kind = .other type) :
      Added config d n (d.report [.unknownElementType n.id type])

theorem refuseGeneralization_eq_ok {kind : ValueTypeKind}
    (h : refuseGeneralization kind n = .ok ()) :
    n.element.firstNamed? "generalization" = none := by
  unfold refuseGeneralization at h
  split at h
  · cases h
  · assumption

theorem addClass_eq_ok (kind : n.kind = .umlClass) (h : d.addClass config n = .ok d') :
    Added config d n d' := by
  obtain ⟨_, hnew, h⟩ := exists_of_bind_eq_ok h
  obtain ⟨hierarchy, hedges, h⟩ := exists_of_bind_eq_ok h
  obtain ⟨m, hm, h⟩ := exists_of_bind_eq_ok h
  obtain ⟨classes, hc, hm⟩ := exists_of_bind_eq_ok hm
  obtain ⟨_, rfl⟩ := Model.enterNew_eq_ok hc
  obtain rfl := Except.ok.inj hm
  obtain rfl := Except.ok.inj h
  exact .umlClass kind (Model.requireNew_eq_ok_iff.mp hnew) hedges

/-- A value type that is taken in is new and does not inherit. -/
theorem addValueType_eq_ok {α : Type} {kind : ValueTypeKind} {known : OrderedMap ElementId α}
    {added : Except ModelError Model} (h : d.addValueType n kind known added = .ok d') :
    n.id ∉ known.keys ∧ n.element.firstNamed? "generalization" = none ∧
      ∃ m, added = .ok m ∧ d' = { d with model := m }.listIn n.chain ⟨kind.element, n.id⟩ := by
  obtain ⟨_, hnew, h⟩ := exists_of_bind_eq_ok h
  obtain ⟨_, hplain, h⟩ := exists_of_bind_eq_ok h
  obtain ⟨m, hm, h⟩ := exists_of_bind_eq_ok h
  exact ⟨Model.requireNew_eq_ok_iff.mp hnew, refuseGeneralization_eq_ok hplain, m, hm,
    (Except.ok.inj h).symm⟩

theorem addEnumeration_eq_ok (kind : n.kind = .enumeration)
    (h : d.addEnumeration config n = .ok d') : Added config d n d' := by
  obtain ⟨hnew, hplain, m, hm, rfl⟩ := addValueType_eq_ok h
  obtain ⟨enums, he, hm⟩ := exists_of_bind_eq_ok hm
  obtain ⟨_, rfl⟩ := Model.enterNew_eq_ok he
  obtain rfl := Except.ok.inj hm
  exact .enumeration kind hnew hplain

theorem addDatatype_eq_ok (kind : n.kind = .datatype) (h : d.addDatatype config n = .ok d') :
    Added config d n d' := by
  obtain ⟨hnew, hplain, m, hm, rfl⟩ := addValueType_eq_ok h
  obtain ⟨datatypes, hd, hm⟩ := exists_of_bind_eq_ok hm
  obtain ⟨_, rfl⟩ := Model.enterNew_eq_ok hd
  obtain rfl := Except.ok.inj hm
  exact .datatype kind hnew hplain

theorem addPackage_eq_ok (kind : n.kind = .package) (h : d.addPackage config n = .ok d') :
    Added config d n d' := by
  unfold addPackage at h
  obtain ⟨m, hm, h⟩ := exists_of_bind_eq_ok h
  obtain ⟨hnew, rfl⟩ := Model.addPackage_eq_ok hm
  split at h
  · rename_i hchain
    obtain rfl := Except.ok.inj h
    exact .topPackage kind hnew hchain
  · rename_i hchain
    obtain ⟨hierarchy, hedge, h⟩ := exists_of_bind_eq_ok h
    obtain rfl := Except.ok.inj h
    exact .nestedPackage kind hnew hchain hedge

theorem addExcluded_eq_ok (kind : n.kind = .excludedPackage)
    (h : d.addExcluded config n = .ok d') : Added config d n d' := by
  obtain ⟨m, hm, h⟩ := exists_of_bind_eq_ok h
  obtain ⟨hnew, rfl⟩ := Model.addPackage_eq_ok hm
  obtain rfl := Except.ok.inj h
  exact .excludedPackage kind hnew

theorem addAssociation_eq_ok (kind : n.kind = .association)
    (h : d.addAssociation config n = .ok d') : Added config d n d' := by
  obtain ⟨associations, ha, h⟩ := exists_of_bind_eq_ok h
  obtain ⟨hnew, rfl⟩ := Model.enterNew_eq_ok ha
  obtain rfl := Except.ok.inj h
  exact .association kind hnew

/-- Whatever is taken in follows one of the rules. -/
theorem added_of_add_eq_ok (h : d.add config n = .ok d') : Added config d n d' := by
  unfold add at h
  split at h
  · rename_i kind
    exact addClass_eq_ok kind h
  · rename_i kind
    exact addEnumeration_eq_ok kind h
  · rename_i kind
    exact addDatatype_eq_ok kind h
  · rename_i kind
    exact addPackage_eq_ok kind h
  · rename_i kind
    exact addExcluded_eq_ok kind h
  · rename_i kind
    obtain rfl := Except.ok.inj h
    exact .viewPackage kind
  · rename_i kind
    exact addAssociation_eq_ok kind h
  · rename_i type kind
    obtain rfl := Except.ok.inj h
    exact .other kind

end Draft
end UmlCatalog
