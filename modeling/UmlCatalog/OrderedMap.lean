/-!
# Maps in insertion order

A finite map that remembers the order in which its keys were first inserted. Writing a
key again replaces the value and keeps the place. The keys are pairwise distinct by
construction, so a map is determined by its entries alone.

The lemmas give the keys after each operation and the value found under each key.
-/

namespace UmlCatalog
universe u v w

/-- A finite map whose entries stand in the order of first insertion. -/
structure OrderedMap (κ : Type u) (α : Type v) where
  /-- The entries, oldest key first. -/
  entries : List (κ × α)
  /-- No key occurs twice. -/
  nodup_keys : (entries.map Prod.fst).Nodup
  deriving DecidableEq

namespace OrderedMap
variable {κ : Type u} {α : Type v} {β : Type w}

/-- The map without entries. -/
def empty : OrderedMap κ α := ⟨[], List.nodup_nil⟩

instance : EmptyCollection (OrderedMap κ α) := ⟨empty⟩

instance : Inhabited (OrderedMap κ α) := ⟨empty⟩

/-- The keys, oldest first. -/
def keys (m : OrderedMap κ α) : List κ := m.entries.map Prod.fst

/-- The values, in the order of their keys. -/
def values (m : OrderedMap κ α) : List α := m.entries.map Prod.snd

/-- The number of keys. -/
def size (m : OrderedMap κ α) : Nat := m.entries.length

/-- Whether the map has no key. -/
def isEmpty (m : OrderedMap κ α) : Bool := m.entries.isEmpty

@[ext] theorem ext {m n : OrderedMap κ α} (h : m.entries = n.entries) : m = n := by
  cases m; cases n; cases h; rfl

@[simp] theorem entries_empty : (∅ : OrderedMap κ α).entries = [] := rfl

@[simp] theorem keys_empty : (∅ : OrderedMap κ α).keys = [] := rfl

theorem keys_nodup (m : OrderedMap κ α) : m.keys.Nodup := m.nodup_keys

/-- The map with every value changed by a function of its key and the value. -/
def mapWithKey (f : κ → α → β) (m : OrderedMap κ α) : OrderedMap κ β where
  entries := m.entries.map fun e => (e.1, f e.1 e.2)
  nodup_keys := by simpa [List.map_map, Function.comp_def] using m.nodup_keys

@[simp] theorem keys_mapWithKey (f : κ → α → β) (m : OrderedMap κ α) :
    (m.mapWithKey f).keys = m.keys := by
  simp [keys, mapWithKey, Function.comp_def]

/-- The map with every value changed. -/
def map (f : α → β) (m : OrderedMap κ α) : OrderedMap κ β := m.mapWithKey fun _ => f

@[simp] theorem keys_map (f : α → β) (m : OrderedMap κ α) : (m.map f).keys = m.keys :=
  keys_mapWithKey _ m

variable [DecidableEq κ]

/-- The value stored under a key. -/
def get? (m : OrderedMap κ α) (k : κ) : Option α := m.entries.lookup k

/-- Whether a key is present. -/
def contains (m : OrderedMap κ α) (k : κ) : Bool := m.keys.contains k

theorem contains_iff {m : OrderedMap κ α} {k : κ} : m.contains k = true ↔ k ∈ m.keys := by
  simp [contains]

/-- The entries with `k` bound to `a`: in place if `k` occurs, at the end otherwise. -/
def upsert (k : κ) (a : α) : List (κ × α) → List (κ × α)
  | [] => [(k, a)]
  | e :: rest => if e.1 = k then (k, a) :: rest else e :: upsert k a rest

theorem map_fst_upsert (k : κ) (a : α) (l : List (κ × α)) :
    (upsert k a l).map Prod.fst =
      if k ∈ l.map Prod.fst then l.map Prod.fst else l.map Prod.fst ++ [k] := by
  induction l with
  | nil => simp [upsert]
  | cons e rest ih =>
      by_cases h : e.1 = k
      · simp [upsert, h]
      · have h' : ¬ k = e.1 := fun hk => h hk.symm
        by_cases hm : k ∈ rest.map Prod.fst
        · simp only [upsert, h, if_false, List.map_cons, ih, if_pos hm, List.mem_cons]
          simp [hm]
        · simp only [upsert, h, if_false, List.map_cons, ih, if_neg hm, List.mem_cons, h',
            false_or]
          simp

/-- Bind a key: a new key goes to the end, a known one keeps its place. -/
def insert (m : OrderedMap κ α) (k : κ) (a : α) : OrderedMap κ α where
  entries := upsert k a m.entries
  nodup_keys := by
    rw [map_fst_upsert]
    split
    · exact m.nodup_keys
    · rename_i h
      exact List.nodup_append.mpr ⟨m.nodup_keys, by simp, by
        intro a ha b hb; simp at hb; subst hb; exact fun he => h (he ▸ ha)⟩

/-- The keys after an insertion. -/
theorem keys_insert (m : OrderedMap κ α) (k : κ) (a : α) :
    (m.insert k a).keys = if k ∈ m.keys then m.keys else m.keys ++ [k] :=
  map_fst_upsert k a m.entries

/-- A new key goes to the end. -/
theorem keys_insert_of_not_contains {m : OrderedMap κ α} {k : κ} (h : m.contains k = false)
    (a : α) : (m.insert k a).keys = m.keys ++ [k] := by
  rw [keys_insert, if_neg]
  rw [← contains_iff, h]
  exact Bool.false_ne_true

theorem mem_keys_insert {m : OrderedMap κ α} {k : κ} {a : α} {x : κ} :
    x ∈ (m.insert k a).keys ↔ x ∈ m.keys ∨ x = k := by
  rw [keys_insert]
  split
  · rename_i h
    constructor
    · exact Or.inl
    · rintro (hx | rfl)
      · exact hx
      · exact h
  · simp

/-- Looking up the key just bound gives the value just bound. -/
@[simp] theorem get?_insert_self (m : OrderedMap κ α) (k : κ) (a : α) :
    (m.insert k a).get? k = some a := by
  show (upsert k a m.entries).lookup k = some a
  induction m.entries with
  | nil => simp [upsert]
  | cons e rest ih =>
      obtain ⟨j, b⟩ := e
      by_cases h : j = k
      · simp [upsert, h]
      · have hk : (k == j) = false := by simpa using fun hk : k = j => h hk.symm
        simp [upsert, h, List.lookup_cons, hk, ih]

/-- Binding a key leaves the other keys alone. -/
theorem get?_insert_of_ne (m : OrderedMap κ α) {k x : κ} (a : α) (hx : x ≠ k) :
    (m.insert k a).get? x = m.get? x := by
  show (upsert k a m.entries).lookup x = m.entries.lookup x
  have hk : (x == k) = false := by simpa using hx
  induction m.entries with
  | nil => simp [upsert, List.lookup_cons, hk]
  | cons e rest ih =>
      obtain ⟨j, b⟩ := e
      by_cases h : j = k
      · subst h
        simp [upsert, List.lookup_cons, hk]
      · simp [upsert, h, List.lookup_cons, ih]

/-- What is found after a key is bound was bound just now or was there before. -/
theorem of_get?_insert {m : OrderedMap κ α} {k x : κ} {a b : α}
    (h : (m.insert k a).get? x = some b) : x = k ∧ b = a ∨ x ≠ k ∧ m.get? x = some b := by
  by_cases hx : x = k
  · rw [hx, get?_insert_self] at h
    exact Or.inl ⟨hx, (Option.some.inj h).symm⟩
  · rw [get?_insert_of_ne m a hx] at h
    exact Or.inr ⟨hx, h⟩

@[simp] theorem get?_empty (k : κ) : (∅ : OrderedMap κ α).get? k = none := rfl

/-- A key has a value exactly if it is one of the keys. -/
theorem get?_isSome_iff {m : OrderedMap κ α} {k : κ} : (m.get? k).isSome ↔ k ∈ m.keys := by
  show (m.entries.lookup k).isSome ↔ k ∈ m.entries.map Prod.fst
  induction m.entries with
  | nil => simp
  | cons e rest ih =>
      obtain ⟨j, b⟩ := e
      by_cases h : k = j
      · simp [h]
      · have hk : (k == j) = false := by simpa using h
        simp [List.lookup_cons, hk, h, ih]

theorem get?_eq_none_iff {m : OrderedMap κ α} {k : κ} : m.get? k = none ↔ k ∉ m.keys := by
  rw [← get?_isSome_iff, Option.not_isSome_iff_eq_none]

theorem mem_keys_of_get? {m : OrderedMap κ α} {k : κ} {a : α} (h : m.get? k = some a) :
    k ∈ m.keys :=
  get?_isSome_iff.mp (by rw [h]; rfl)

/-- The entries are what is found. -/
theorem mem_entries_iff {m : OrderedMap κ α} {k : κ} {a : α} :
    (k, a) ∈ m.entries ↔ m.get? k = some a := by
  obtain ⟨entries, hnodup⟩ := m
  show (k, a) ∈ entries ↔ entries.lookup k = some a
  induction entries with
  | nil => simp
  | cons e rest ih =>
      obtain ⟨j, b⟩ := e
      have hrest := List.nodup_cons.mp hnodup
      by_cases h : k = j
      · subst h
        have hnot : (k, a) ∉ rest := fun hmem => hrest.1 (List.mem_map.mpr ⟨_, hmem, rfl⟩)
        simp [hnot, eq_comm]
      · have hk : (k == j) = false := by simpa using h
        simp [List.lookup_cons, hk, h, ih hrest.2]

theorem exists_get?_of_mem_values {m : OrderedMap κ α} {a : α} (h : a ∈ m.values) :
    ∃ k, m.get? k = some a := by
  obtain ⟨⟨k, b⟩, he, rfl⟩ := List.mem_map.mp h
  exact ⟨k, mem_entries_iff.mp he⟩

theorem mem_values_of_get? {m : OrderedMap κ α} {k : κ} {a : α} (h : m.get? k = some a) :
    a ∈ m.values :=
  List.mem_map.mpr ⟨(k, a), mem_entries_iff.mpr h, rfl⟩

/-- The entries told by the keys and what is found under them. -/
theorem map_entries_some (m : OrderedMap κ α) (f : α → β) :
    m.entries.map (fun e => (e.1, some (f e.2))) = m.keys.map fun k => (k, (m.get? k).map f) := by
  rw [keys, List.map_map]
  refine List.map_congr_left fun e he => ?_
  rw [Function.comp_apply, mem_entries_iff.mp he, Option.map_some]

/-- Maps with the same keys in the same order are equal if the same is found under each key. -/
theorem ext_get? {m n : OrderedMap κ α} (hkeys : m.keys = n.keys) (h : ∀ k, m.get? k = n.get? k) :
    m = n := by
  have hinj : ∀ x y : κ × α, (x.1, some x.2) = (y.1, some y.2) → x = y :=
    fun _ _ he => Prod.ext (Prod.mk.inj he).1 (Option.some.inj (Prod.mk.inj he).2)
  have hm := m.map_entries_some id
  have hn := n.map_entries_some id
  simp only [hkeys, h] at hm
  exact ext ((List.map_inj_right hinj).mp (hm.trans hn.symm))

/-- The value under a key after all values are changed. -/
theorem get?_mapWithKey (f : κ → α → β) (m : OrderedMap κ α) (k : κ) :
    (m.mapWithKey f).get? k = (m.get? k).map (f k) := by
  show (m.entries.map fun e => (e.1, f e.1 e.2)).lookup k = (m.entries.lookup k).map (f k)
  induction m.entries with
  | nil => rfl
  | cons e rest ih =>
      obtain ⟨j, b⟩ := e
      by_cases h : k = j
      · subst h
        simp
      · have hk : (k == j) = false := by simpa using h
        simp [List.lookup_cons, hk, ih]

/-- Change the value under one key; a map without the key is left as it is. -/
def modify (m : OrderedMap κ α) (k : κ) (f : α → α) : OrderedMap κ α :=
  m.mapWithKey fun x a => if x = k then f a else a

@[simp] theorem keys_modify (m : OrderedMap κ α) (k : κ) (f : α → α) :
    (m.modify k f).keys = m.keys :=
  keys_mapWithKey _ m

theorem get?_modify (m : OrderedMap κ α) (k : κ) (f : α → α) (x : κ) :
    (m.modify k f).get? x = if x = k then (m.get? x).map f else m.get? x := by
  rw [modify, get?_mapWithKey]
  by_cases h : x = k
  · simp [h]
  · simp [h]

theorem contains_insert (m : OrderedMap κ α) (k x : κ) (a : α) :
    (m.insert k a).contains x = (m.contains x || decide (x = k)) := by
  rw [Bool.eq_iff_iff, contains_iff, mem_keys_insert]
  simp [contains_iff]

/-- The total weight of the values whose keys another map lacks. -/
def weightOutside (m : OrderedMap κ α) (n : OrderedMap κ β) (weight : α → Nat) : Nat :=
  (m.entries.map fun e => if n.contains e.1 then 0 else weight e.2).foldr (· + ·) 0

/-- Binding a key takes the weight of its value away. -/
theorem weightOutside_insert {m : OrderedMap κ α} {n : OrderedMap κ β} {k : κ} {a : α}
    (weight : α → Nat) (b : β) (hm : m.get? k = some a) (hn : n.contains k = false) :
    m.weightOutside (n.insert k b) weight + weight a = m.weightOutside n weight := by
  obtain ⟨entries, hnodup⟩ := m
  simp only [weightOutside, get?] at hm ⊢
  induction entries with
  | nil => cases hm
  | cons e rest ih =>
      obtain ⟨j, c⟩ := e
      have hrest := List.nodup_cons.mp hnodup
      by_cases hk : k = j
      · subst hk
        have hca : c = a := by simpa using hm
        have hsame : ∀ e ∈ rest, (if (n.insert k b).contains e.1 then 0 else weight e.2) =
            if n.contains e.1 then 0 else weight e.2 := by
          intro e he
          have hne : e.1 ≠ k := fun heq =>
            hrest.1 (List.mem_map.mpr ⟨e, he, heq⟩)
          simp [contains_insert, hne]
        simp only [List.map_cons, List.foldr_cons, List.map_congr_left hsame]
        simp [contains_insert, hn, hca, Nat.add_comm]
      · have hlookup : rest.lookup k = some a := by
          have hkj : (k == j) = false := by simpa using hk
          simpa [List.lookup_cons, hkj] using hm
        have hjk : ¬ j = k := fun heq => hk heq.symm
        have hsum := ih hrest.2 hlookup
        simp only [List.map_cons, List.foldr_cons]
        simp only [contains_insert, hjk, decide_false, Bool.or_false] at hsum ⊢
        omega

/-- Remove a key; the others keep their order. -/
def erase (m : OrderedMap κ α) (k : κ) : OrderedMap κ α where
  entries := m.entries.filter fun e => e.1 ≠ k
  nodup_keys := List.Pairwise.sublist
    (List.Sublist.map Prod.fst List.filter_sublist) m.nodup_keys

/-- Insert pairs one after the other, so that a repeated key keeps its first place and
takes its last value. -/
def ofList (l : List (κ × α)) : OrderedMap κ α :=
  l.foldl (fun m e => m.insert e.1 e.2) ∅

/-- A new key goes behind the others. -/
theorem upsert_of_notMem {k : κ} (a : α) {l : List (κ × α)} (h : k ∉ l.map Prod.fst) :
    upsert k a l = l ++ [(k, a)] := by
  induction l with
  | nil => rfl
  | cons e rest ih =>
      rw [List.map_cons, List.mem_cons, not_or] at h
      rw [upsert, if_neg (Ne.symm h.1), ih h.2, List.cons_append]

theorem entries_foldl_insert (l : List (κ × α)) (m : OrderedMap κ α)
    (h : ((m.entries ++ l).map Prod.fst).Nodup) :
    (l.foldl (fun m e => m.insert e.1 e.2) m).entries = m.entries ++ l := by
  induction l generalizing m with
  | nil => rw [List.foldl_nil, List.append_nil]
  | cons e l ih =>
      have hnew : e.1 ∉ m.entries.map Prod.fst := by
        rw [List.map_append, List.map_cons, List.nodup_append] at h
        exact fun hmem => h.2.2 _ hmem _ List.mem_cons_self rfl
      have hinsert : (m.insert e.1 e.2).entries = m.entries ++ [e] := upsert_of_notMem _ hnew
      rw [List.foldl_cons, ih, hinsert, List.append_assoc, List.singleton_append]
      rwa [hinsert, List.append_assoc, List.singleton_append]

theorem get?_foldl_insert (l : List (κ × α)) (m : OrderedMap κ α) (k : κ) :
    (l.foldl (fun m e => m.insert e.1 e.2) m).get? k = (l.reverse.lookup k).or (m.get? k) := by
  induction l generalizing m with
  | nil => rfl
  | cons e l ih =>
      obtain ⟨j, a⟩ := e
      rw [List.foldl_cons, ih, List.reverse_cons, List.lookup_append, Option.or_assoc]
      congr 1
      by_cases hk : k = j
      · subst hk
        simp
      · have hkj : (k == j) = false := by simpa using hk
        rw [get?_insert_of_ne _ _ hk, List.lookup_cons, hkj]
        rfl

/-- What is found was inserted last under its key. -/
theorem get?_ofList (l : List (κ × α)) (k : κ) : (ofList l).get? k = l.reverse.lookup k := by
  rw [ofList, get?_foldl_insert, get?_empty, Option.or_none]

/-- What is found after insertions was inserted or was there before. -/
theorem of_get?_foldl_insert {l : List (κ × α)} {m : OrderedMap κ α} {k : κ} {a : α}
    (h : (l.foldl (fun m e => m.insert e.1 e.2) m).get? k = some a) :
    (k, a) ∈ l ∨ m.get? k = some a := by
  rw [get?_foldl_insert] at h
  rcases Option.or_eq_some_iff.mp h with hlast | ⟨_, hold⟩
  · obtain ⟨after, before, hsplit, _⟩ := List.lookup_eq_some_iff.mp hlast
    apply Or.inl
    rw [← List.mem_reverse, hsplit]
    exact List.mem_append_right after List.mem_cons_self
  · exact Or.inr hold

/-- Whatever is found was inserted. -/
theorem mem_of_get?_ofList {l : List (κ × α)} {k : κ} {a : α} (h : (ofList l).get? k = some a) :
    (k, a) ∈ l :=
  (of_get?_foldl_insert h).resolve_right nofun

theorem mem_keys_ofList {l : List (κ × α)} {k : κ} :
    k ∈ (ofList l).keys ↔ k ∈ l.map Prod.fst := by
  rw [← get?_isSome_iff, get?_ofList, List.lookup_isSome_iff, List.mem_map]
  simp only [List.mem_reverse, beq_iff_eq, @eq_comm _ k]

/-- Pairs with different keys are all found again. -/
theorem get?_ofList_of_nodup {l : List (κ × α)} (h : (l.map Prod.fst).Nodup) {k : κ} {a : α} :
    (ofList l).get? k = some a ↔ (k, a) ∈ l := by
  rw [← mem_entries_iff, ofList, entries_foldl_insert l ∅ h, entries_empty, List.nil_append]

/-- Pairs with different keys may be inserted in any order. -/
theorem get?_ofList_perm {l l' : List (κ × α)} (hp : l.Perm l') (h : (l.map Prod.fst).Nodup)
    (k : κ) : (ofList l').get? k = (ofList l).get? k := by
  refine Option.ext fun a => ?_
  rw [get?_ofList_of_nodup h, get?_ofList_of_nodup ((hp.map Prod.fst).nodup_iff.mp h), hp.mem_iff]

theorem ofList_append (l r : List (κ × α)) :
    ofList (l ++ r) = r.foldl (fun m e => m.insert e.1 e.2) (ofList l) :=
  List.foldl_append

/-- A map is got back from its entries. -/
theorem ofList_entries (m : OrderedMap κ α) : ofList m.entries = m :=
  ext (entries_foldl_insert m.entries ∅ m.nodup_keys)

end OrderedMap
end UmlCatalog
