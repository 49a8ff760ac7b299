import UmlCatalog.Json.Number
import UmlCatalog.Model.Index

/-!
# Canonical models

A model is canonical if no record of it changes when it is written and read. Only two things
can change: an upper bound in the spelling that is not kept, and an aggregation that spells a
known kind out as if it were another one. Both are in the classes, so whatever leaves the
properties and links of the classes alone keeps a model canonical.
-/

namespace UmlCatalog

/-! ## The values of a map -/

namespace OrderedMap
variable {κ α β : Type}

theorem mem_values_mapWithKey {m : OrderedMap κ α} {f : κ → α → β} {b : β}
    (h : b ∈ (m.mapWithKey f).values) : ∃ k, ∃ a ∈ m.values, b = f k a := by
  obtain ⟨e, he, rfl⟩ := List.mem_map.mp h
  obtain ⟨e', he', rfl⟩ := List.mem_map.mp he
  exact ⟨e'.1, e'.2, List.mem_map_of_mem he', rfl⟩

variable [DecidableEq κ]

theorem mem_values_insert {m : OrderedMap κ α} {k : κ} {a b : α}
    (h : b ∈ (m.insert k a).values) : b = a ∨ b ∈ m.values := by
  obtain ⟨x, hx⟩ := exists_get?_of_mem_values h
  obtain ⟨_, hb⟩ | ⟨_, hb⟩ := of_get?_insert hx
  · exact Or.inl hb
  · exact Or.inr (mem_values_of_get? hb)

theorem mem_values_ofList {l : List (κ × α)} {a : α} (h : a ∈ (ofList l).values) :
    a ∈ l.map Prod.snd := by
  obtain ⟨k, hk⟩ := exists_get?_of_mem_values h
  exact List.mem_map.mpr ⟨(k, a), mem_of_get?_ofList hk, rfl⟩

end OrderedMap

/-! ## Canonical records -/

/-- An aggregation that does not spell a known kind out. -/
def Aggregation.IsCanonical (a : Aggregation) : Prop :=
  ∀ w, a = other w → w ≠ "none" ∧ w ≠ "shared" ∧ w ≠ "composite"

theorem Aggregation.isCanonical_ofWord (w : String) : (ofWord w).IsCanonical := by
  rw [IsCanonical, ← ofWord_word_iff, word_ofWord]

/-- A property whose upper bound and aggregation have their one spelling. -/
structure Property.IsCanonical (p : Property) : Prop where
  upper : p.upper ≠ writtenUnlimited
  aggregation : ∀ a, p.aggregation = some a → a.IsCanonical

theorem canonicalUpper_ne_writtenUnlimited (upper : String) :
    canonicalUpper upper ≠ writtenUnlimited := by
  rw [← canonicalUpper_eq_self_iff, canonicalUpper_idem]

/-- A link whose aggregation has its one spelling. -/
def AssociationLink.IsCanonical (l : AssociationLink) : Prop :=
  ∀ a, l.aggregation = some a → a.IsCanonical

/-- A class whose properties and links have their one spelling. -/
structure Class.IsCanonical (c : Class) : Prop where
  properties : ∀ p ∈ c.properties, p.IsCanonical
  associations : ∀ l ∈ c.associations.values, l.IsCanonical

/-! ## Canonical models -/

namespace Model

/-- A model all of whose properties and links have their one spelling. -/
def IsCanonical (m : Model) : Prop := ∀ c ∈ m.classes.values, c.IsCanonical

/-- Every position that is stored in a model fits into a machine word, as it does in every model
that a machine can hold. The definitions count positions by natural numbers, which know no such
bound, while the readers take nothing larger for a position. -/
structure HasWordPositions (m : Model) : Prop where
  links : ∀ c ∈ m.classes.values, ∀ l ∈ c.associations.values, l.property ≤ Json.maxIndex
  sources : ∀ e ∈ m.properties.values, ∀ s ∈ e.sources, s.index ≤ Json.maxIndex

instance : DecidablePred HasWordPositions := fun m =>
  decidable_of_iff
    ((∀ c ∈ m.classes.values, ∀ l ∈ c.associations.values, l.property ≤ Json.maxIndex) ∧
      ∀ e ∈ m.properties.values, ∀ s ∈ e.sources, s.index ≤ Json.maxIndex)
    ⟨fun h => ⟨h.1, h.2⟩, fun h => ⟨h.links, h.sources⟩⟩

/-- Back references are no part of what must be canonical. -/
theorem IsCanonical.withReferees {m : Model} (h : m.IsCanonical) :
    m.withReferees.IsCanonical := by
  intro c hc
  obtain ⟨k, old, hold, rfl⟩ := OrderedMap.mem_values_mapWithKey hc
  exact ⟨(h old hold).properties, (h old hold).associations⟩

end Model
end UmlCatalog
