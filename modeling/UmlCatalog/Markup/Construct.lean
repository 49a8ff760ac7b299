/-!
# Constructs of a document

Where a construct that starts with a less-than sign ends, and what it holds. Only tags,
end tags and character data sections bear on the tree; comments, processing instructions
and the document type are passed over.

Cutting never goes back: what is left after a construct is a proper part of what was there.
-/

namespace UmlCatalog.Markup

/-- The white space of markup: space, tab, carriage return and line feed. -/
def isBlank (b : UInt8) : Bool := b = 0x20 || b = 0x09 || b = 0x0D || b = 0x0A

/-- Remove white space at the end. -/
def trimEnd (bytes : List UInt8) : List UInt8 := (bytes.reverse.dropWhile isBlank).reverse

/-- Remove white space at both ends. -/
def trim (bytes : List UInt8) : List UInt8 := trimEnd (bytes.dropWhile isBlank)

/-- The bytes of an ASCII word. -/
def ascii (s : String) : List UInt8 := s.toList.map fun c => UInt8.ofNat c.toNat

/-- Split at the first occurrence of a pattern, which belongs to neither part. The bytes
before it are put behind those passed before, latest first. -/
def splitAfter (pattern : List UInt8) (acc : List UInt8) :
    List UInt8 → Option (List UInt8 × List UInt8)
  | [] => none
  | b :: rest =>
      if pattern.isPrefixOf (b :: rest) then some (acc.reverse, (b :: rest).drop pattern.length)
      else splitAfter pattern (b :: acc) rest

/-- The two parts, and the pattern between them, make up what was split. -/
theorem append_of_splitAfter {pattern acc bytes : List UInt8} {r}
    (h : splitAfter pattern acc bytes = some r) :
    ∃ found, acc.reverse ++ bytes = r.1 ++ (found ++ r.2) := by
  fun_induction splitAfter pattern acc bytes with
  | case1 => cases h
  | case2 acc b rest hp =>
      cases h
      exact ⟨(b :: rest).take pattern.length, by rw [List.take_append_drop]⟩
  | case3 acc b rest hp ih =>
      obtain ⟨found, hfound⟩ := ih h
      exact ⟨found, by rw [← hfound, List.reverse_cons, List.append_assoc, List.singleton_append]⟩

theorem suffix_splitAfter {pattern bytes : List UInt8} {r}
    (h : splitAfter pattern [] bytes = some r) : r.2 <:+ bytes := by
  obtain ⟨found, hfound⟩ := append_of_splitAfter h
  exact ⟨r.1 ++ found, by rw [List.append_assoc, ← hfound, List.reverse_nil, List.nil_append]⟩

/-- Split a tag or end tag from what follows it: at the first greater-than sign outside
quotes. -/
def splitTag (acc : List UInt8) (quote : Option UInt8) :
    List UInt8 → Option (List UInt8 × List UInt8)
  | [] => none
  | b :: rest =>
      match quote with
      | some q => splitTag (b :: acc) (if b = q then none else some q) rest
      | none =>
          if b = 0x3E then some (acc.reverse, rest)
          else splitTag (b :: acc) (if b = 0x22 ∨ b = 0x27 then some b else none) rest

theorem append_of_splitTag {acc : List UInt8} {quote : Option UInt8} {bytes : List UInt8} {r}
    (h : splitTag acc quote bytes = some r) : acc.reverse ++ bytes = r.1 ++ 0x3E :: r.2 := by
  fun_induction splitTag acc quote bytes <;> grind

theorem suffix_splitTag {bytes : List UInt8} {r} (h : splitTag [] none bytes = some r) :
    r.2 <:+ bytes :=
  ⟨r.1 ++ [0x3E], by simpa using (append_of_splitTag h).symm⟩

/-- Split a document type from what follows it: at the greater-than sign that is not matched
by a less-than sign inside. -/
def splitBalanced (acc : List UInt8) (depth : Nat) :
    List UInt8 → Option (List UInt8 × List UInt8)
  | [] => none
  | b :: rest =>
      if b = 0x3E then
        match depth with
        | 0 => some (acc.reverse, rest)
        | depth + 1 => splitBalanced (b :: acc) depth rest
      else splitBalanced (b :: acc) (if b = 0x3C then depth + 1 else depth) rest

theorem suffix_splitBalanced {acc : List UInt8} {depth : Nat} {bytes : List UInt8} {r}
    (h : splitBalanced acc depth bytes = some r) : r.2 <:+ bytes := by
  fun_induction splitBalanced acc depth bytes <;> grind

/-- What a construct holds. -/
inductive Construct where
  /-- Nothing that bears on the tree. -/
  | passedOver
  /-- The content of a character data section. -/
  | cdata (content : List UInt8)
  /-- What stands between the slash and the end of an end tag. -/
  | endTag (content : List UInt8)
  /-- What stands between the two ends of a tag. -/
  | tag (content : List UInt8)

/-- A construct cut off, or the place of a flaw counted from the less-than sign. -/
inductive Cut where
  | construct (c : Construct) (rest : List UInt8)
  | malformed (offset : Nat)

/-- A construct if it could be split off, a flaw at its start otherwise. -/
def Cut.ofSplit (f : List UInt8 → Construct) : Option (List UInt8 × List UInt8) → Cut
  | some (content, rest) => .construct (f content) rest
  | none => .malformed 0

/-- A byte as a lower-case letter. -/
def lower (b : UInt8) : UInt8 := if 0x41 ≤ b ∧ b ≤ 0x5A then b + 0x20 else b

/-- Cut a document type, of which the exclamation mark has been read. It must be called so
and have a name; a missing name is noticed where the declaration ends. -/
def cutDoctype (bytes : List UInt8) : Cut :=
  match splitBalanced [] 0 bytes with
  | none => .malformed 0
  | some (content, rest) =>
      if (content.take 7).map lower ≠ ascii "doctype" then .malformed 0
      else if (content.drop 7).all isBlank then .malformed (content.length + 2)
      else .construct .passedOver rest

/-- Cut what starts with an exclamation mark, which has been read. -/
def cutBang (bytes : List UInt8) : Cut :=
  if (ascii "--").isPrefixOf bytes then
    .ofSplit (fun _ => .passedOver) (splitAfter (ascii "-->") [] (bytes.drop 2))
  else if (ascii "[CDATA[").isPrefixOf bytes then
    .ofSplit .cdata (splitAfter (ascii "]]>") [] (bytes.drop 7))
  else if bytes.head?.map lower = some 0x64 then cutDoctype bytes
  else .malformed 0

/-- Cut a processing instruction, of which the question mark has been read. -/
def cutInstruction (bytes : List UInt8) : Cut :=
  if bytes.head? = some 0x3E then .malformed 0
  else .ofSplit (fun _ => .passedOver) (splitAfter (ascii "?>") [] bytes)

/-- Cut the construct of which the less-than sign has been read. -/
def cut : List UInt8 → Cut
  | [] => .malformed 0
  | b :: rest =>
      if b = 0x21 then cutBang rest
      else if b = 0x2F then .ofSplit .endTag (splitTag [] none rest)
      else if b = 0x3F then cutInstruction rest
      else .ofSplit .tag (splitTag [] none (b :: rest))

theorem Cut.ofSplit_eq_construct {f : List UInt8 → Construct} {s c rest}
    (h : Cut.ofSplit f s = .construct c rest) : ∃ content, s = some (content, rest) := by
  cases s with
  | none => cases h
  | some p =>
      cases h
      exact ⟨p.1, rfl⟩

/-- What is left after a construct is the last part of what was there. -/
theorem suffix_cut {bytes rest : List UInt8} {c : Construct} (h : cut bytes = .construct c rest) :
    rest <:+ bytes := by
  have hsplit : ∀ {p : List UInt8} {n : Nat} {l : List UInt8} {content : List UInt8},
      splitAfter p [] (l.drop n) = some (content, rest) → rest <:+ l :=
    fun hs => (suffix_splitAfter hs).trans (List.drop_suffix _ _)
  cases bytes with
  | nil => cases h
  | cons b tail =>
      have hcons : rest <:+ tail → rest <:+ b :: tail :=
        fun hs => hs.trans (List.suffix_cons b tail)
      simp only [cut] at h
      split at h
      · apply hcons
        unfold cutBang at h
        split at h
        · obtain ⟨content, hs⟩ := Cut.ofSplit_eq_construct h
          exact hsplit hs
        · split at h
          · obtain ⟨content, hs⟩ := Cut.ofSplit_eq_construct h
            exact hsplit hs
          · split at h
            · unfold cutDoctype at h
              split at h
              · cases h
              · rename_i content rest' hs
                split at h
                · cases h
                · split at h
                  · cases h
                  · cases h
                    exact suffix_splitBalanced hs
            · cases h
      · split at h
        · obtain ⟨content, hs⟩ := Cut.ofSplit_eq_construct h
          exact hcons (suffix_splitTag hs)
        · split at h
          · unfold cutInstruction at h
            split at h
            · cases h
            · obtain ⟨content, hs⟩ := Cut.ofSplit_eq_construct h
              exact hcons (suffix_splitAfter hs)
          · obtain ⟨content, hs⟩ := Cut.ofSplit_eq_construct h
            exact suffix_splitTag hs

/-- What is left after a construct is no longer than what was there. -/
theorem length_cut {bytes rest : List UInt8} {c : Construct} (h : cut bytes = .construct c rest) :
    rest.length ≤ bytes.length :=
  (suffix_cut h).length_le

end UmlCatalog.Markup
