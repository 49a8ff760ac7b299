/-!
# Sets in insertion order

A finite set that remembers the order in which its members were first inserted. Inserting
a member again changes nothing.
-/

namespace UmlCatalog
universe u

/-- A finite set whose members stand in the order of first insertion. -/
structure OrderedSet (κ : Type u) where
  /-- The members, oldest first. -/
  toList : List κ
  /-- No member occurs twice. -/
  nodup : toList.Nodup
  deriving DecidableEq

namespace OrderedSet
variable {κ : Type u}

/-- The set without members. -/
def empty : OrderedSet κ := ⟨[], List.nodup_nil⟩

instance : EmptyCollection (OrderedSet κ) := ⟨empty⟩

instance : Inhabited (OrderedSet κ) := ⟨empty⟩

instance : Membership κ (OrderedSet κ) := ⟨fun s k => k ∈ s.toList⟩

@[ext] theorem ext {s t : OrderedSet κ} (h : s.toList = t.toList) : s = t := by
  cases s; cases t; cases h; rfl

@[simp] theorem mem_toList {s : OrderedSet κ} {k : κ} : k ∈ s.toList ↔ k ∈ s := Iff.rfl

@[simp] theorem not_mem_empty {k : κ} : ¬ k ∈ (∅ : OrderedSet κ) := List.not_mem_nil

/-- The number of members. -/
def size (s : OrderedSet κ) : Nat := s.toList.length

variable [DecidableEq κ]

/-- Whether a value is a member. -/
def contains (s : OrderedSet κ) (k : κ) : Bool := s.toList.contains k

theorem contains_iff {s : OrderedSet κ} {k : κ} : s.contains k = true ↔ k ∈ s := by
  simp [contains, ← mem_toList]

/-- Add a member at the end, unless it is there already. -/
def insert (s : OrderedSet κ) (k : κ) : OrderedSet κ :=
  if h : k ∈ s.toList then s else ⟨s.toList ++ [k], by
    refine List.nodup_append.mpr ⟨s.nodup, by simp, ?_⟩
    intro a ha b hb
    simp at hb
    subst hb
    exact fun he => h (he ▸ ha)⟩

theorem mem_insert {s : OrderedSet κ} {k x : κ} : x ∈ s.insert k ↔ x ∈ s ∨ x = k := by
  simp only [← mem_toList, insert]
  split
  · rename_i h
    constructor
    · exact Or.inl
    · rintro (hx | rfl)
      · exact hx
      · exact h
  · simp

/-- A new member goes behind the others. -/
theorem toList_insert_of_not_mem {s : OrderedSet κ} {k : κ} (h : k ∉ s.toList) :
    (s.insert k).toList = s.toList ++ [k] := by
  rw [insert, dif_neg h]

/-- The old members stay in front, in their old order. -/
theorem toList_isPrefix_insert (s : OrderedSet κ) (k : κ) : s.toList <+: (s.insert k).toList := by
  unfold insert
  split
  · exact List.prefix_rfl
  · exact List.prefix_append _ _

/-- Add the members of a list one after the other. -/
def insertMany (s : OrderedSet κ) (l : List κ) : OrderedSet κ := l.foldl insert s

@[simp] theorem insertMany_nil (s : OrderedSet κ) : s.insertMany [] = s := rfl

@[simp] theorem insertMany_cons (s : OrderedSet κ) (k : κ) (l : List κ) :
    s.insertMany (k :: l) = (s.insert k).insertMany l := rfl

theorem mem_insertMany {s : OrderedSet κ} {l : List κ} {x : κ} :
    x ∈ s.insertMany l ↔ x ∈ s ∨ x ∈ l := by
  induction l generalizing s with
  | nil => simp
  | cons k l ih => rw [insertMany_cons, ih, mem_insert, List.mem_cons, or_assoc]

/-- New members go behind the others, in their order. -/
theorem toList_insertMany_of_nodup {s : OrderedSet κ} {l : List κ} (h : (s.toList ++ l).Nodup) :
    (s.insertMany l).toList = s.toList ++ l := by
  induction l generalizing s with
  | nil => rw [insertMany_nil, List.append_nil]
  | cons k l ih =>
      rw [List.append_cons] at h
      have hk : k ∉ s.toList := fun hm =>
        (List.nodup_append.mp (List.nodup_append.mp h).1).2.2 k hm k (List.mem_singleton_self k) rfl
      have hs := toList_insert_of_not_mem hk
      rw [insertMany_cons, ih (hs.symm ▸ h), hs, List.append_assoc, List.singleton_append]

/-- The old members stay in front, in their old order. -/
theorem toList_isPrefix_insertMany (s : OrderedSet κ) (l : List κ) :
    s.toList <+: (s.insertMany l).toList := by
  induction l generalizing s with
  | nil => exact List.prefix_rfl
  | cons k l ih => exact (toList_isPrefix_insert s k).trans (ih _)

/-- The members of a list, each at its first occurrence. -/
def ofList (l : List κ) : OrderedSet κ := insertMany ∅ l

/-- A set is got back from its members. -/
theorem ofList_toList (s : OrderedSet κ) : ofList s.toList = s :=
  ext (toList_insertMany_of_nodup s.nodup)

theorem mem_ofList {l : List κ} {x : κ} : x ∈ ofList l ↔ x ∈ l := by
  simp [ofList, mem_insertMany]

/-- Remove a member; the others keep their order. -/
def erase (s : OrderedSet κ) (k : κ) : OrderedSet κ :=
  ⟨s.toList.erase k, s.nodup.erase k⟩

theorem mem_erase {s : OrderedSet κ} {k x : κ} : x ∈ s.erase k ↔ x ≠ k ∧ x ∈ s :=
  s.nodup.mem_erase_iff

end OrderedSet
end UmlCatalog
