import Mathlib.Data.List.Basic
import UmlCatalog.Proofs.Markup.FirstTag
import UmlCatalog.Proofs.Text.Encoding

/-!
# What a tag spells

The inside of a tag is a name and attributes, whose keys must differ. Keys and values are read as
texts; the value of a namespace declaration is not looked at, and the declaration is not kept.
-/

namespace UmlCatalog.Markup

/-- The key of an attribute, and its value if that can be read. -/
abbrev Attribute := String × Option String

/-- The attributes that bytes spell, in their order. -/
inductive AreAttributes : List UInt8 → List Attribute → Prop
  | nil {bytes : List UInt8} (hblank : bytes.dropWhile isBlank = []) : AreAttributes bytes []
  | cons {bytes rest rest' rawKey rawValue : List UInt8} {first : UInt8} {a : Attribute}
      {attrs : List Attribute} (hdrop : bytes.dropWhile isBlank = first :: rest)
      (hsplit : splitAttribute first rest = some (rawKey, rawValue, rest'))
      (hkey : Text.decode? rawKey = some a.1) (hvalue : content? rawValue = a.2)
      (hreadable : isNamespaceKey a.1 = false → a.2 ≠ none) (tail : AreAttributes rest' attrs) :
      AreAttributes bytes (a :: attrs)

/-- The attributes that do not declare a namespace, in their order. -/
def keptAttributes (attrs : List Attribute) : List (String × String) :=
  attrs.filterMap fun a => if isNamespaceKey a.1 then none else a.2.map (a.1, ·)

theorem keptAttributes_cons_of_namespace {a : Attribute} (attrs : List Attribute)
    (h : isNamespaceKey a.1 = true) : keptAttributes (a :: attrs) = keptAttributes attrs :=
  List.filterMap_cons_none (if_pos h)

theorem keptAttributes_cons_of_value {a : Attribute} {value : String} (attrs : List Attribute)
    (h : isNamespaceKey a.1 = false) (hvalue : a.2 = some value) :
    keptAttributes (a :: attrs) = (a.1, value) :: keptAttributes attrs :=
  List.filterMap_cons_some (by rw [h, hvalue]; rfl)

/-- What is kept are some of the keys, in their order. -/
theorem keys_keptAttributes_sublist (attrs : List Attribute) :
    ((keptAttributes attrs).map Prod.fst).Sublist (attrs.map Prod.fst) := by
  induction attrs with
  | nil => exact .slnil
  | cons a attrs ih =>
      rw [List.map_cons]
      by_cases h : isNamespaceKey a.1 = true
      · rw [keptAttributes_cons_of_namespace attrs h]
        exact ih.cons _
      · cases hvalue : a.2 with
        | none =>
            rw [keptAttributes, List.filterMap_cons_none (by rw [hvalue, if_neg h]; rfl)]
            exact ih.cons _
        | some value =>
            rw [keptAttributes_cons_of_value attrs (Bool.eq_false_iff.mpr h) hvalue]
            exact ih.cons_cons _

/-- Attributes with different keys are kept in an element one by one. -/
theorem entries_ofList_keptAttributes {attrs : List Attribute} (h : (attrs.map Prod.fst).Nodup) :
    (OrderedMap.ofList (keptAttributes attrs)).entries = keptAttributes attrs := by
  have hnodup : ((keptAttributes attrs).map Prod.fst).Nodup :=
    h.sublist (keys_keptAttributes_sublist attrs)
  rw [OrderedMap.ofList, OrderedMap.entries_foldl_insert _ _ hnodup, OrderedMap.entries_empty,
    List.nil_append]

/-- None of the keys seen is one of the attributes. -/
def AreNew (seen : List (List UInt8)) (attrs : List Attribute) : Prop :=
  ∀ raw ∈ seen, ∀ key, Text.decode? raw = some key → key ∉ attrs.map Prod.fst

section Seen
variable {seen : List (List UInt8)} {bytes rest rest' rawKey rawValue : List UInt8}
  {first : UInt8} {a : Attribute} {attrs : List Attribute}

/-- A key that does not come again is none of those to come once it is seen. -/
theorem AreNew.see (hnew : AreNew seen (a :: attrs)) (hkey : Text.decode? rawKey = some a.1)
    (hout : a.1 ∉ attrs.map Prod.fst) : AreNew (rawKey :: seen) attrs := by
  intro raw hraw key hdecode
  rcases List.mem_cons.mp hraw with rfl | hraw
  · obtain rfl := Option.some.inj (hkey.symm.trans hdecode)
    exact hout
  · exact fun hmem => hnew _ hraw _ hdecode (List.mem_cons_of_mem _ hmem)

/-- A key that was not seen as bytes is not seen as a text, as a text has one encoding. -/
theorem AreNew.cons (hnew : AreNew (rawKey :: seen) attrs) (hkey : Text.decode? rawKey = some a.1)
    (hnot : rawKey ∉ seen) : AreNew seen (a :: attrs) := by
  intro raw hraw key hdecode hmem
  rcases List.mem_cons.mp hmem with rfl | hmem
  · have hsame : raw = rawKey :=
      (Text.eq_encode_of_decode? hdecode).trans (Text.eq_encode_of_decode? hkey).symm
    exact hnot (hsame ▸ hraw)
  · exact hnew _ (List.mem_cons_of_mem _ hraw) _ hdecode hmem

theorem attributes_nil (acc : List (String × String)) (hblank : bytes.dropWhile isBlank = []) :
    attributes seen acc bytes = .ok acc.reverse := by
  rw [attributes]
  split
  · rfl
  · rename_i hcons
    cases hblank.symm.trans hcons

/-- How an attribute with a new key is read. -/
theorem attributes_cons {key : String} (acc : List (String × String))
    (hdrop : bytes.dropWhile isBlank = first :: rest)
    (hsplit : splitAttribute first rest = some (rawKey, rawValue, rest')) (hnot : rawKey ∉ seen)
    (hkey : Text.decode? rawKey = some key) : attributes seen acc bytes =
      if isNamespaceKey key then attributes (rawKey :: seen) acc rest'
      else
        match content? rawValue with
        | none => .error .badAttributeValue
        | some value => attributes (rawKey :: seen) ((key, value) :: acc) rest' := by
  rw [attributes]
  split
  · rename_i hnil
    cases hdrop.symm.trans hnil
  rename_i hcons
  cases hdrop.symm.trans hcons
  split
  · rename_i hnone
    cases hsplit.symm.trans hnone
  rename_i hsome
  cases hsplit.symm.trans hsome
  rw [if_neg hnot]
  generalize Text.decode? rawKey = decoded at hkey
  subst hkey
  rfl

end Seen

/-- Attributes whose keys differ are read. -/
theorem attributes_of_areAttributes {bytes : List UInt8} {attrs : List Attribute}
    (h : AreAttributes bytes attrs) (hkeys : (attrs.map Prod.fst).Nodup)
    {seen : List (List UInt8)} (hnew : AreNew seen attrs) (acc : List (String × String)) :
    attributes seen acc bytes = .ok (acc.reverse ++ keptAttributes attrs) := by
  induction h generalizing seen acc with
  | nil hblank =>
      rw [attributes_nil acc hblank]
      exact congrArg Except.ok (List.append_nil _).symm
  | @cons bytes rest rest' rawKey rawValue first a attrs hdrop hsplit hkey hvalue hreadable tail
      ih =>
      rw [List.map_cons] at hkeys
      obtain ⟨hout, hkeys⟩ := List.nodup_cons.mp hkeys
      have hnot : rawKey ∉ seen := fun hmem => hnew _ hmem _ hkey List.mem_cons_self
      have htail := ih hkeys (hnew.see hkey hout)
      rw [attributes_cons acc hdrop hsplit hnot hkey]
      split
      · rename_i hnamespace
        rw [htail, keptAttributes_cons_of_namespace attrs hnamespace]
      · rename_i hnamespace
        obtain ⟨value, hsome⟩ :=
          Option.ne_none_iff_exists'.mp (hreadable (Bool.eq_false_iff.mpr hnamespace))
        rw [hvalue, hsome]
        dsimp only
        rw [htail, keptAttributes_cons_of_value attrs (Bool.eq_false_iff.mpr hnamespace) hsome,
          List.reverse_cons, List.append_assoc, List.singleton_append]

/-- Whatever is read are attributes whose keys differ. -/
theorem exists_areAttributes {seen : List (List UInt8)} {acc l : List (String × String)}
    {bytes : List UInt8} (h : attributes seen acc bytes = .ok l) :
    ∃ attrs, AreAttributes bytes attrs ∧ (attrs.map Prod.fst).Nodup ∧ AreNew seen attrs ∧
      l = acc.reverse ++ keptAttributes attrs := by
  fun_induction attributes seen acc bytes with
  | case1 seen acc bytes hdrop =>
      cases h
      exact ⟨[], .nil hdrop, List.nodup_nil, fun _ _ _ _ => List.not_mem_nil,
        (List.append_nil _).symm⟩
  | case5 seen acc bytes first rest hdrop rawKey rawValue rest' hsplit hnot key hkey hnamespace
      ih =>
      obtain ⟨attrs, htail, hkeys, hnew, hl⟩ := ih h
      have hout : key ∉ attrs.map Prod.fst := hnew _ List.mem_cons_self _ hkey
      refine ⟨(key, content? rawValue) :: attrs, .cons hdrop hsplit hkey rfl (fun hno => ?_) htail,
        List.nodup_cons.mpr ⟨hout, hkeys⟩, hnew.cons hkey hnot, ?_⟩
      · cases hno.symm.trans hnamespace
      · rw [hl, keptAttributes_cons_of_namespace attrs hnamespace]
  | case7 seen acc bytes first rest hdrop rawKey rawValue rest' hsplit hnot key hkey hnamespace
      value hvalue ih =>
      obtain ⟨attrs, htail, hkeys, hnew, hl⟩ := ih h
      have hout : key ∉ attrs.map Prod.fst := hnew _ List.mem_cons_self _ hkey
      refine ⟨(key, some value) :: attrs,
        .cons hdrop hsplit hkey hvalue (fun _ => Option.some_ne_none _) htail,
        List.nodup_cons.mpr ⟨hout, hkeys⟩, hnew.cons hkey hnot, ?_⟩
      rw [hl, keptAttributes_cons_of_value attrs (Bool.eq_false_iff.mpr hnamespace) rfl,
        List.reverse_cons, List.append_assoc, List.singleton_append]
  | _ => cases h

/-- What stands inside a tag, up to a slash at its end: a name, and attributes whose keys differ. -/
structure SpellsTag (inside name : List UInt8) (tag : String) (attrs : List Attribute) : Prop where
  name_eq : name = inside.takeWhile fun b => !isBlank b
  decode_name : Text.decode? name = some tag
  attributes : AreAttributes (inside.dropWhile fun b => !isBlank b) attrs
  keys_nodup : (attrs.map Prod.fst).Nodup

section Tag
variable {inside content name : List UInt8} {tag : String} {attrs : List Attribute}

theorem tagEvent_of_spellsTag (h : SpellsTag inside name tag attrs)
    (hinside : (if content.getLast? = some 0x2F then content.dropLast else content) = inside) :
    tagEvent content = .ok (name, if content.getLast? = some 0x2F
      then .emptyTag tag (keptAttributes attrs) else .startTag tag (keptAttributes attrs)) := by
  have hread : Markup.attributes [] [] (inside.dropWhile fun b => !isBlank b) =
      .ok (keptAttributes attrs) := by
    have hnew : AreNew [] attrs := nofun
    exact attributes_of_areAttributes h.attributes h.keys_nodup hnew []
  unfold tagEvent
  simp only [hinside, ← h.name_eq, h.decode_name, hread]
  rfl

/-- A tag that does not end with a slash is a start tag. -/
theorem tagEvent_start (h : SpellsTag inside name tag attrs)
    (hslash : inside.getLast? ≠ some 0x2F) :
    tagEvent inside = .ok (name, .startTag tag (keptAttributes attrs)) := by
  rw [tagEvent_of_spellsTag h (if_neg hslash), if_neg hslash]

/-- A slash at its end makes a tag an empty tag. -/
theorem tagEvent_empty (h : SpellsTag inside name tag attrs) :
    tagEvent (inside ++ [0x2F]) = .ok (name, .emptyTag tag (keptAttributes attrs)) := by
  have hslash : (inside ++ [0x2F]).getLast? = some 0x2F := List.getLast?_concat
  rw [tagEvent_of_spellsTag h (by rw [if_pos hslash, List.dropLast_concat]), if_pos hslash]

/-- An empty tag has the flaws that it has as a start tag. -/
theorem tagEvent_empty_of_error {e : MarkupError} (hslash : inside.getLast? ≠ some 0x2F)
    (h : tagEvent inside = .error e) : tagEvent (inside ++ [0x2F]) = .error e := by
  have hconcat : (inside ++ [0x2F]).getLast? = some 0x2F := List.getLast?_concat
  unfold tagEvent at h ⊢
  simp only [if_neg hslash, if_pos hconcat, List.dropLast_concat] at h ⊢
  split at h
  · exact h
  · cases hattrs : Markup.attributes [] [] (inside.dropWhile fun b => !isBlank b) with
    | error e' =>
        rw [hattrs] at h
        cases h
        rfl
    | ok attrs =>
        rw [hattrs] at h
        cases h

/-- Whatever is read as a tag spells one. -/
theorem exists_spellsTag {e : Event} (h : tagEvent content = .ok (name, e)) :
    ∃ tag attrs,
      (∃ inside, content = inside ++ [0x2F] ∧ SpellsTag inside name tag attrs ∧
        e = .emptyTag tag (keptAttributes attrs)) ∨
      (content.getLast? ≠ some 0x2F ∧ SpellsTag content name tag attrs ∧
        e = .startTag tag (keptAttributes attrs)) := by
  unfold tagEvent at h
  dsimp only at h
  split at h
  · cases h
  rename_i tag htag
  obtain ⟨kept, hattrs, h⟩ := exists_of_bind_eq_ok h
  obtain ⟨rfl, rfl⟩ := Prod.mk.inj (Except.ok.inj h)
  obtain ⟨attrs, hare, hkeys, _, rfl⟩ := exists_areAttributes hattrs
  have hspells : SpellsTag _ _ tag attrs := ⟨rfl, htag, hare, hkeys⟩
  refine ⟨tag, attrs, ?_⟩
  by_cases hslash : content.getLast? = some 0x2F
  · simp only [hslash, if_true] at hspells ⊢
    exact .inl ⟨_, (List.dropLast_append_getLast? 0x2F hslash).symm, hspells, rfl⟩
  · simp only [hslash, if_false] at hspells ⊢
    exact .inr ⟨hslash, hspells, rfl⟩

end Tag
end UmlCatalog.Markup
