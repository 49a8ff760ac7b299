import UmlCatalog.Json.Number
import UmlCatalog.Wire.Record

/-!
# Nodes that represent a written document

A format keeps a document if the nodes that it reads can be taken for what was written. What
that means is said once for all formats: `Represents` relates a node to a document, and
`ReadsBack` says that a reader gets a value back from every node that represents it.

The combinators for lists, sets, maps and the fields of records keep that property, so that
the readers of models have it as soon as those of their parts do.
-/

namespace UmlCatalog
open WireValue

/-! ## Representation -/

section Representation
variable {ν : Type} [Readable ν]

/-- A node that is no alias and does not stand for an absent value. -/
structure IsPresent (n : ν) : Prop where
  aliased? : Readable.aliased? n = none
  isNull? : Readable.isNull? n = some false

/-- A node that can be taken for a text, and for the word that it spells. -/
structure IsTextNode (n : ν) (s : String) : Prop extends IsPresent n where
  text? : Readable.text? n = some s
  word? : Readable.word? n = some s

mutual
/-- A node can be taken for a document, part by part. Nothing is said of an index that does
not fit into a machine word. -/
def Represents : ν → WireValue → Prop
  | n, .text s => IsTextNode n s
  | n, .flag b => IsPresent n ∧ Readable.flag? n = some b
  | n, .index k => IsPresent n ∧ (k ≤ Json.maxIndex → Readable.index? n = some k)
  | n, .list vs => IsPresent n ∧ ∃ items, Readable.items? n = some items ∧ RepresentsItems items vs
  | n, .record fs =>
      IsPresent n ∧ ∃ fields, Readable.fields? n = some fields ∧ RepresentsFields fields fs

/-- Nodes represent the items of a list, one by one. -/
def RepresentsItems : List ν → List WireValue → Prop
  | items, [] => items = []
  | items, v :: vs => ∃ n rest, items = n :: rest ∧ Represents n v ∧ RepresentsItems rest vs

/-- Nodes represent the names and the values of the fields of a record, one by one. -/
def RepresentsFields : List (ν × ν) → List (String × WireValue) → Prop
  | fields, [] => fields = []
  | fields, (name, v) :: fs =>
      ∃ key n rest, fields = (key, n) :: rest ∧ IsTextNode key name ∧ Represents n v ∧
        RepresentsFields rest fs
end

theorem Represents.isPresent {n : ν} {v : WireValue} (h : Represents n v) : IsPresent n := by
  cases v with
  | text s => exact h.toIsPresent
  | flag b => exact h.1
  | index k => exact h.1
  | list vs => exact h.1
  | record fs => exact h.1

/-- A reader gets a value back from every node that represents it. -/
def ReadsBack {α : Type} (read : Reader ν α) (write : α → WireValue) (a : α) : Prop :=
  ∀ n, Represents n (write a) → read n = pure a

end Representation

section ReadsBack
variable {ν : Type} [Readable ν] {α : Type} {read : Reader ν α} {write : α → WireValue}

namespace Reader

theorem follow_of_isPresent {n : ν} (h : IsPresent n) : follow n = pure n :=
  follow_of_aliased?_eq_none h.aliased?

theorem take_of_isPresent {n : ν} (h : IsPresent n) (what : String) {view : ν → Option α} {a : α}
    (hview : view n = some a) : take what view n = pure a := by
  rw [take, follow_of_isPresent h, pure_bind, hview]

theorem readsBack_text (s : String) : ReadsBack (text : Reader ν String) .text s :=
  fun _ h => take_of_isPresent h.toIsPresent _ h.text?

theorem readsBack_flag (b : Bool) : ReadsBack (flag : Reader ν Bool) .flag b :=
  fun _ h => take_of_isPresent h.1 _ h.2

theorem readsBack_index {k : Nat} (hk : k ≤ Json.maxIndex) :
    ReadsBack (index : Reader ν Nat) .index k :=
  fun _ h => take_of_isPresent h.1 _ (h.2 hk)

theorem mapM_of_represents {l : List α} (h : ∀ a ∈ l, ReadsBack read write a) {items : List ν}
    (hitems : RepresentsItems items (l.map write)) : items.mapM read = (pure l : ReadM _) := by
  induction l generalizing items with
  | nil =>
      subst hitems
      rfl
  | cons a l ih =>
      obtain ⟨n, rest, rfl, hn, hrest⟩ := hitems
      rw [List.mapM_cons, h a List.mem_cons_self n hn, pure_bind,
        ih (fun b hb => h b (List.mem_cons_of_mem a hb)) hrest, pure_bind]

theorem readsBack_listOf {l : List α} (h : ∀ a ∈ l, ReadsBack read write a) :
    ReadsBack (listOf read) (WireValue.listOf write) l := by
  rintro n ⟨hpresent, items, hview, hitems⟩
  rw [listOf, take_of_isPresent hpresent _ hview, pure_bind, mapM_of_represents h hitems]

theorem readsBack_setOf [DecidableEq α] {s : OrderedSet α}
    (h : ∀ a ∈ s.toList, ReadsBack read write a) :
    ReadsBack (setOf read) (OrderedSet.toWire write) s := by
  intro n hn
  rw [setOf, readsBack_listOf h n hn, map_pure, OrderedSet.ofList_toList]

theorem mapM_bindings_of_represents {κ : Type} {key : String → κ} {name : κ → String}
    (hkey : ∀ k, key (name k) = k) {l : List (κ × α)}
    (h : ∀ e ∈ l, ReadsBack read write e.2) {bindings : List (ν × ν)}
    (hbindings : RepresentsFields bindings (l.map fun e => (name e.1, write e.2))) :
    (bindings.mapM fun b => do return (key (← text b.1), ← read b.2)) = (pure l : ReadM _) := by
  induction l generalizing bindings with
  | nil =>
      subst hbindings
      rfl
  | cons e l ih =>
      obtain ⟨k, n, rest, rfl, hk, hn, hrest⟩ := hbindings
      have hname : text k = pure (name e.1) := readsBack_text (name e.1) k hk
      rw [List.mapM_cons, hname, h e List.mem_cons_self n hn,
        ih (fun b hb => h b (List.mem_cons_of_mem e hb)) hrest]
      simp only [pure_bind, hkey]

theorem readsBack_mapOf {κ : Type} [DecidableEq κ] {key : String → κ} {name : κ → String}
    (hkey : ∀ k, key (name k) = k) {m : OrderedMap κ α}
    (h : ∀ a ∈ m.values, ReadsBack read write a) :
    ReadsBack (mapOf key read) (OrderedMap.toWire name write) m := by
  rintro n ⟨hpresent, bindings, hview, hbindings⟩
  have hall : ∀ e ∈ m.entries, ReadsBack read write e.2 := fun e he =>
    h e.2 (List.mem_map_of_mem he)
  rw [mapOf, take_of_isPresent hpresent _ hview, pure_bind,
    mapM_bindings_of_represents hkey hall hbindings, pure_bind, OrderedMap.ofList_entries]

end Reader
end ReadsBack

/-! ## The fields of a record -/

/-- The names of some fields stand in the order of a list of names, of which some may be left
out. -/
def FieldsWithin (names : List String) (fs : List (String × WireValue)) : Prop :=
  (fs.map Prod.fst).Sublist names

theorem within_field {name : String} {v : WireValue} : FieldsWithin [name] (field name v) :=
  List.Sublist.refl _

theorem within_optionalField {α : Type} {name : String} {write : α → WireValue} {o : Option α} :
    FieldsWithin [name] (optionalField name write o) := by
  cases o with
  | none => exact List.nil_sublist _
  | some a => exact List.Sublist.refl _

theorem within_nonemptyMapField {κ α : Type} {name : String} {key : κ → String}
    {write : α → WireValue} {m : OrderedMap κ α} :
    FieldsWithin [name] (nonemptyMapField name key write m) := by
  unfold nonemptyMapField
  split
  · exact List.nil_sublist _
  · exact List.Sublist.refl _

theorem within_nonemptyTextsField {name : String} {l : List String} :
    FieldsWithin [name] (nonemptyTextsField name l) := by
  unfold nonemptyTextsField
  split
  · exact List.nil_sublist _
  · exact List.Sublist.refl _

theorem FieldsWithin.append {names names' : List String} {fs fs' : List (String × WireValue)}
    (h : FieldsWithin names fs) (h' : FieldsWithin names' fs') :
    FieldsWithin (names ++ names') (fs ++ fs') := by
  rw [FieldsWithin, List.map_append]
  exact List.Sublist.append h h'

@[simp] theorem lookup_field (name key : String) (v : WireValue) :
    (field name v).lookup key = if key = name then some v else none := by
  by_cases h : key = name
  · simp [field, h]
  · have hne : (key == name) = false := by simpa using h
    simp [field, List.lookup_cons, h, hne]

@[simp] theorem lookup_optionalField {α : Type} (name key : String) (write : α → WireValue)
    (o : Option α) :
    (optionalField name write o).lookup key = if key = name then o.map write else none := by
  cases o with
  | none => simp [optionalField]
  | some a => exact lookup_field name key (write a)

@[simp] theorem lookup_nonemptyMapField {κ α : Type} (name other : String) (key : κ → String)
    (write : α → WireValue) (m : OrderedMap κ α) :
    (nonemptyMapField name key write m).lookup other =
      if other = name then (if m.isEmpty then none else some (m.toWire key write)) else none := by
  unfold nonemptyMapField
  split <;> simp

@[simp] theorem lookup_nonemptyTextsField (name other : String) (l : List String) :
    (nonemptyTextsField name l).lookup other =
      if other = name then (if l.isEmpty then none else some (texts l)) else none := by
  unfold nonemptyTextsField
  split <;> simp

namespace FieldTable
variable {ν : Type}

/-- A record whose fields are known and distinct is kept as it is. -/
theorem select_eq_ok {known : List String} {fields : List (String × ν)}
    (hknown : ∀ e ∈ fields, e.1 ∈ known) (hdistinct : (fields.map Prod.fst).Nodup) :
    select known fields = .ok ⟨fields⟩ := by
  induction fields with
  | nil => rfl
  | cons e rest ih =>
      obtain ⟨name, n⟩ := e
      rw [List.map_cons, List.nodup_cons] at hdistinct
      have hrest := ih (fun e he => hknown e (List.mem_cons_of_mem _ he)) hdistinct.2
      have hnew : (rest.any fun e => e.1 = name) = false := by
        rw [List.any_eq_false]
        intro e he hname
        exact hdistinct.1 (List.mem_map.mpr ⟨e, he, of_decide_eq_true hname⟩)
      have hname : name ∈ known := hknown _ List.mem_cons_self
      rw [select, hrest]
      simp only [bind, Except.bind, if_pos hname, hnew]
      rfl

variable [Readable ν] {α : Type} {reader : Reader ν α} {write : α → WireValue}

/-- A table has the fields of a written record, each with a node that represents its value. -/
structure Holds (t : FieldTable ν) (fs : List (String × WireValue)) : Prop where
  lookup : ∀ name v, fs.lookup name = some v →
    ∃ n, t.fields.lookup name = some n ∧ Represents n v
  lookup_none : ∀ name, fs.lookup name = none → t.fields.lookup name = none

theorem holds_cons {name : String} {n : ν} {v : WireValue} {rest : List (String × ν)}
    {fs : List (String × WireValue)} (hn : Represents n v) (h : Holds ⟨rest⟩ fs) :
    Holds ⟨(name, n) :: rest⟩ ((name, v) :: fs) where
  lookup key w hw := by
    rw [List.lookup_cons] at hw ⊢
    split at hw
    · cases hw
      exact ⟨n, rfl, hn⟩
    · exact h.lookup key w hw
  lookup_none key hw := by
    rw [List.lookup_cons] at hw ⊢
    split at hw
    · cases hw
    · exact h.lookup_none key hw

/-- The names of the fields are read, and the nodes of their values kept. -/
theorem exists_mapM_names {fields : List (ν × ν)} {fs : List (String × WireValue)}
    (h : RepresentsFields fields fs) :
    ∃ named : List (String × ν),
      (fields.mapM fun e => do return (← Reader.text e.1, e.2)) = (pure named : ReadM _) ∧
        named.map Prod.fst = fs.map Prod.fst ∧ Holds ⟨named⟩ fs := by
  induction fs generalizing fields with
  | nil =>
      subst h
      exact ⟨[], rfl, rfl, ⟨nofun, fun _ _ => rfl⟩⟩
  | cons f fs ih =>
      obtain ⟨key, n, rest, rfl, hkey, hn, hrest⟩ := h
      obtain ⟨named, hread, hnames, hholds⟩ := ih hrest
      have hname : Reader.text key = pure f.1 := Reader.readsBack_text f.1 key hkey
      refine ⟨(f.1, n) :: named, ?_, ?_, holds_cons hn hholds⟩
      · rw [List.mapM_cons, hname, hread]
        simp only [pure_bind]
      · rw [List.map_cons, List.map_cons, hnames]

/-- What is read from the table of a record is read from the record, if its fields are known
and stand in their order. -/
theorem read_bind_eq_pure {n : ν} {fs : List (String × WireValue)} {names known : List String}
    {rest : FieldTable ν → ReadM α} {a : α} (h : Represents n (.record fs))
    (hwithin : FieldsWithin names fs) (hnames : names = known) (hdistinct : known.Nodup)
    (hrest : ∀ t : FieldTable ν, t.Holds fs → rest t = pure a) :
    (read known n >>= rest) = pure a := by
  subst hnames
  obtain ⟨hpresent, fields, hview, hfields⟩ := h
  obtain ⟨named, hread, hnamed, hholds⟩ := exists_mapM_names hfields
  have hsublist : (named.map Prod.fst).Sublist names := hnamed ▸ hwithin
  have hselect : select names named = .ok ⟨named⟩ :=
    select_eq_ok (fun e he => hsublist.subset (List.mem_map_of_mem he))
      (hsublist.nodup hdistinct)
  have htable : read names n = pure ⟨named⟩ := by
    rw [read, Reader.follow_of_isPresent hpresent, pure_bind, hview]
    simp only
    rw [hread, pure_bind, hselect]
    rfl
  rw [htable, pure_bind, hrest _ hholds]

namespace Holds
variable {t : FieldTable ν} {fs : List (String × WireValue)} (h : t.Holds fs) (name : String)
include h

theorem required (a : α) (hread : ReadsBack reader write a)
    (hlookup : fs.lookup name = some (write a)) : t.required name reader = pure a := by
  obtain ⟨n, hfield, hn⟩ := h.lookup name _ hlookup
  rw [FieldTable.required, hfield]
  exact hread n hn

/-- A field that is left out is read as its default. -/
theorem withDefault_of_absent (default : α) (hlookup : fs.lookup name = none) :
    t.withDefault name default reader = pure default := by
  rw [FieldTable.withDefault, h.lookup_none name hlookup]

theorem withDefault (a : α) {default : α} (hread : ReadsBack reader write a)
    (hlookup : fs.lookup name = some (write a)) : t.withDefault name default reader = pure a := by
  obtain ⟨n, hfield, hn⟩ := h.lookup name _ hlookup
  rw [FieldTable.withDefault, hfield]
  exact hread n hn

theorem optional (o : Option α) (hread : ∀ a, o = some a → ReadsBack reader write a)
    (hlookup : fs.lookup name = o.map write) : t.optional name reader = pure o := by
  cases o with
  | none => exact h.withDefault_of_absent name none hlookup
  | some a =>
      obtain ⟨n, hfield, hn⟩ := h.lookup name _ hlookup
      rw [FieldTable.optional, FieldTable.withDefault, hfield]
      simp only [Reader.optional]
      rw [Reader.follow_of_isPresent hn.isPresent, pure_bind, hn.isPresent.isNull?]
      simp only
      rw [hread a rfl n hn, map_pure]

end Holds
end FieldTable
end UmlCatalog
