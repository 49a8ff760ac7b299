import UmlCatalog.Markup.Document
import UmlCatalog.Proofs.Build.Draft
import UmlCatalog.Proofs.Text.Ascii

/-!
# The first tag of a document

The root of a document is the element that its first tag opens, whatever stands in front of the tag
and inside the element. So the name of the root is spelled in the document, and so is every value of
its attributes that is written without entities.
-/

namespace UmlCatalog.Markup

/-- What stands between the two ends of the first tag. -/
def firstTag? (bytes : List UInt8) : Option (List UInt8) :=
  match _h : bytes.dropWhile isTextByte with
  | [] => none
  | _ :: afterSign =>
      match _hc : cut afterSign with
      | .construct (.tag content) _ => some content
      | .construct _ rest => firstTag? rest
      | .malformed _ => none
termination_by bytes.length
decreasing_by
  have h1 := length_dropWhile_le isTextByte bytes
  have h2 := length_cut _hc
  rw [_h] at h1
  simp only [List.length_cons] at h1
  omega

/-- A tag stands in the document as it is. -/
theorem infix_of_cut {bytes content rest : List UInt8}
    (h : cut bytes = .construct (.tag content) rest) : content <:+: bytes := by
  have hsplit : ∀ {f : List UInt8 → Construct} {r}, (∀ l, f l ≠ .tag content) →
      Cut.ofSplit f r ≠ .construct (.tag content) rest := by
    intro f r hf hr
    obtain ⟨l, rfl⟩ := Cut.ofSplit_eq_construct hr
    exact hf l (Cut.construct.inj hr).1
  cases bytes with
  | nil => cases h
  | cons b tail =>
      simp only [cut] at h
      split at h
      · unfold cutBang at h
        split at h
        · exact absurd h (hsplit fun _ hl => by cases hl)
        · split at h
          · exact absurd h (hsplit fun _ hl => by cases hl)
          · split at h
            · unfold cutDoctype at h
              repeat' split at h
              all_goals cases h
            · cases h
      · split at h
        · exact absurd h (hsplit fun _ hl => by cases hl)
        · split at h
          · unfold cutInstruction at h
            split at h
            · cases h
            · exact absurd h (hsplit fun _ hl => by cases hl)
          · obtain ⟨content', hs⟩ := Cut.ofSplit_eq_construct h
            rw [hs] at h
            obtain rfl : content' = content := Construct.tag.inj (Cut.construct.inj h).1
            exact ⟨[], 0x3E :: rest, by simpa using (append_of_splitTag hs).symm⟩

theorem infix_of_firstTag? {bytes content : List UInt8} (h : firstTag? bytes = some content) :
    content <:+: bytes := by
  have hbehind : ∀ {bytes afterSign : List UInt8} {sign : UInt8},
      bytes.dropWhile isTextByte = sign :: afterSign → afterSign <:+ bytes :=
    fun hdrop => (List.suffix_cons _ _).trans (hdrop ▸ List.dropWhile_suffix _)
  fun_induction firstTag? bytes with
  | case1 => cases h
  | case2 bytes sign afterSign hdrop content' rest hcut =>
      obtain rfl := Option.some.inj h
      exact (infix_of_cut hcut).trans (hbehind hdrop).isInfix
  | case3 bytes sign afterSign hdrop c rest _ hcut ih =>
      exact (ih h).trans ((suffix_cut hcut).trans (hbehind hdrop)).isInfix
  | case4 => cases h

theorem firstTag?_of_nil {bytes : List UInt8} (h : bytes.dropWhile isTextByte = []) :
    firstTag? bytes = none := by
  rw [firstTag?]
  split
  · rfl
  · rename_i hdrop
    rw [h] at hdrop
    cases hdrop

section Cut
variable {bytes afterSign rest : List UInt8} {sign : UInt8}
  (hdrop : bytes.dropWhile isTextByte = sign :: afterSign)
include hdrop

theorem firstTag?_of_tag {content : List UInt8}
    (hcut : cut afterSign = .construct (.tag content) rest) : firstTag? bytes = some content := by
  rw [firstTag?]
  split
  · rename_i hnil
    rw [hdrop] at hnil
    cases hnil
  · rename_i hcons
    cases hdrop.symm.trans hcons
    split
    · rename_i hcut'
      cases hcut.symm.trans hcut'
      rfl
    · rename_i hother hcut'
      cases hcut.symm.trans hcut'
      exact absurd rfl (hother content)
    · rename_i hcut'
      cases hcut.symm.trans hcut'

theorem firstTag?_of_construct {c : Construct} (hcut : cut afterSign = .construct c rest)
    (hc : ∀ content, c ≠ .tag content) : firstTag? bytes = firstTag? rest := by
  rw [firstTag?]
  split
  · rename_i hnil
    rw [hdrop] at hnil
    cases hnil
  · rename_i hcons
    cases hdrop.symm.trans hcons
    split
    · rename_i hcut'
      cases hcut.symm.trans hcut'
      exact absurd rfl (hc _)
    · rename_i hcut'
      cases hcut.symm.trans hcut'
      rfl
    · rename_i hcut'
      cases hcut.symm.trans hcut'

end Cut

/-! ## The element that a tag opens -/

/-- The tag and the attributes of an element. -/
def Element.label (e : Element) : String × OrderedMap String String := (e.tag, e.attributes)

@[simp] theorem Element.label_addChild (e child : Element) :
    (e.addChild child).label = e.label := rfl

@[simp] theorem Element.label_addText (e : Element) (piece : String) :
    (e.addText piece).label = e.label := by
  unfold addText
  split <;> rfl

/-- The tag and the attributes that an event starts an element with. -/
def Event.label? : Event → Option (String × OrderedMap String String)
  | startTag tag attributes => some (tag, OrderedMap.ofList attributes)
  | emptyTag tag attributes => some (tag, OrderedMap.ofList attributes)
  | endTag => none
  | text _ => none
  | cdata _ => none

namespace Progress

/-- The tag and the attributes of the first element, complete or not. -/
def label? (p : Progress) : Option (String × OrderedMap String String) :=
  (p.root.map Element.label).or (p.stack.map Element.label).getLast?

theorem label?_complete (e : Element) (stack : List Element) (root : Option Element) :
    (complete e stack root).label? =
      (root.map Element.label).or ((e :: stack).map Element.label).getLast? := by
  cases stack with
  | nil => cases root <;> rfl
  | cons parent rest => cases root <;> simp [complete, label?]

theorem label?_step (p : Progress) (e : Event) : (p.step e).label? = p.label?.or e.label? := by
  have hopen : ∀ (first : Option (String × OrderedMap String String)) l ls,
      first.or (l :: ls).getLast? = (first.or ls.getLast?).or (some l) := by
    intro first l ls
    rw [List.getLast?_cons, Option.or_assoc]
    cases ls.getLast? <;> rfl
  obtain ⟨stack, root⟩ := p
  cases e with
  | startTag tag attributes => exact hopen _ (tag, OrderedMap.ofList attributes) _
  | emptyTag tag attributes =>
      rw [step, label?_complete]
      exact hopen _ (tag, OrderedMap.ofList attributes) _
  | endTag =>
      rw [Event.label?, Option.or_none]
      cases stack with
      | nil => rfl
      | cons e rest => exact label?_complete e rest root
  | text s | cdata s =>
      rw [Event.label?, Option.or_none]
      cases stack <;> simp [step, addText, label?]

theorem label?_foldl (p : Progress) (events : List Event) :
    (events.foldl step p).label? = p.label?.or (events.findSome? Event.label?) := by
  induction events generalizing p with
  | nil => simp
  | cons e events ih =>
      rw [List.foldl_cons, ih, label?_step, Option.or_assoc, List.findSome?_cons]
      cases e.label? <;> simp

end Progress

/-- The root is opened by the first tag. -/
theorem Element.label_of_ofEvents {events : List Event} {root : Element}
    (h : ofEvents events = .ok root) : events.findSome? Event.label? = some root.label := by
  have hlabel := Progress.label?_foldl .start events
  have hstart : Progress.start.label? = none := rfl
  rw [hstart, Option.none_or] at hlabel
  rw [← hlabel]
  unfold ofEvents Progress.finish at h
  split at h
  · cases h
  · rename_i root' hstack hroot
    cases h
    rw [Progress.label?, hroot]
    rfl
  · cases h

/-! ## Reading -/

/-- The tag and the attributes that the inside of a tag spells. -/
def tagLabel? (content : List UInt8) : Option (String × OrderedMap String String) :=
  (tagEvent content).toOption.bind fun e => e.2.label?

/-- The tag and the attributes that a construct spells, if it is a tag. -/
def Construct.label? : Construct → Option (String × OrderedMap String String)
  | passedOver => none
  | cdata _ => none
  | endTag _ => none
  | tag content => tagLabel? content

/-- What the inside of a tag spells: its name comes first, its attributes behind the name. -/
theorem exists_of_tagEvent {content name : List UInt8} {e : Event}
    (h : tagEvent content = .ok (name, e)) :
    ∃ tag attrs inside, e.label? = some (tag, OrderedMap.ofList attrs) ∧
      Text.decode? name = some tag ∧ inside <+: content ∧ name <+: inside ∧
      attributes [] [] (inside.dropWhile fun b => !isBlank b) = .ok attrs := by
  unfold tagEvent at h
  dsimp only at h
  split at h
  · cases h
  · rename_i tag htag
    obtain ⟨attrs, hattrs, h⟩ := exists_of_bind_eq_ok h
    obtain ⟨rfl, rfl⟩ := Prod.mk.inj (Except.ok.inj h)
    refine ⟨tag, attrs, _, ?_, htag, ?_, List.takeWhile_prefix _, hattrs⟩
    · split <;> rfl
    · split
      · exact List.dropLast_prefix _
      · exact List.prefix_refl _

namespace Reading
variable {r r' : Reading}

/-- The tag and the attributes that the first tag read so far spells. -/
def label? (r : Reading) : Option (String × OrderedMap String String) :=
  r.events.reverse.findSome? Event.label?

theorem label?_addText {run : List UInt8} (h : r.addText run = .ok r') : r'.label? = r.label? := by
  unfold addText at h
  split at h
  · cases h
    rfl
  · split at h
    · cases h
      simp [label?, Event.label?]
    · cases h

theorem label?_addConstruct {c : Construct} (h : r.addConstruct c = .ok r') :
    r'.label? = r.label?.or c.label? := by
  cases c with
  | passedOver =>
      cases h
      exact Option.or_none.symm
  | cdata content =>
      cases h
      simp [label?, Event.label?, Construct.label?]
  | endTag content =>
      simp only [addConstruct] at h
      split at h
      · split at h
        · cases h
          simp [label?, Event.label?, Construct.label?]
        · cases h
      · cases h
  | tag content =>
      obtain ⟨⟨name, e⟩, he, h⟩ := exists_of_bind_eq_ok h
      have hevents : r'.events = e :: r.events := by
        dsimp only at h
        split at h <;> cases h <;> rfl
      have hlabel : tagLabel? content = e.label? := by
        rw [tagLabel?, he]
        rfl
      rw [label?, hevents, List.reverse_cons, List.findSome?_append, Construct.label?, hlabel,
        List.findSome?_singleton]
      rfl

theorem label?_run {size : Nat} {bytes : List UInt8} (h : r.run size bytes = .ok r') :
    r'.label? = r.label?.or ((firstTag? bytes).bind tagLabel?) := by
  fun_induction Reading.run size r bytes with
  | case1 | case3 | case4 => cases h
  | case2 r bytes r₁ htext hdrop =>
      cases h
      rw [label?_addText htext, firstTag?_of_nil hdrop, Option.bind_none, Option.or_none]
  | case5 r bytes r₁ htext sign afterSign hdrop c rest hcut r₂ hadd ih =>
      rw [ih h, label?_addConstruct hadd, label?_addText htext, Option.or_assoc]
      congr 1
      cases c with
      | tag content =>
          obtain ⟨⟨name, e⟩, he, _⟩ := exists_of_bind_eq_ok hadd
          obtain ⟨tag, attrs, _, hlabel, _⟩ := exists_of_tagEvent he
          have htag : tagLabel? content = some (tag, OrderedMap.ofList attrs) := by
            rw [tagLabel?, he]
            exact hlabel
          rw [firstTag?_of_tag hdrop hcut, Construct.label?, Option.bind_some, htag, Option.some_or]
      -- What opens no element has no label and is passed over on the way to the first tag.
      | passedOver | cdata _ | endTag _ =>
          rw [firstTag?_of_construct hdrop hcut nofun, Construct.label?, Option.none_or]

end Reading

/-- The first tag opens the root. -/
theorem Element.tagLabel?_of_ofBytes {bytes : List UInt8} {root : Element}
    (h : ofBytes bytes = .ok root) :
    ∃ content, firstTag? (dropMark bytes) = some content ∧ tagLabel? content = some root.label := by
  unfold ofBytes at h
  split at h
  · rename_i es hes
    unfold events at hes
    dsimp only at hes
    cases hr : Reading.run (dropMark bytes).length ⟨[], []⟩ (dropMark bytes) with
    | error e =>
        rw [hr] at hes
        cases hes
    | ok r =>
        rw [hr] at hes
        cases hes
        have hlabel := Reading.label?_run hr
        rw [Reading.label?, label_of_ofEvents h] at hlabel
        exact Option.bind_eq_some_iff.mp (hlabel.symm.trans (Option.none_or ..))
  · cases h

/-! ## What is spelled out -/

/-- The values of attributes are read from parts of the tag. -/
theorem exists_of_attributes {seen : List (List UInt8)} {acc l : List (String × String)}
    {bytes : List UInt8} (h : attributes seen acc bytes = .ok l) :
    ∀ e ∈ l, e ∈ acc ∨ ∃ raw, raw <:+: bytes ∧ content? raw = some e.2 := by
  have hbehind : ∀ {bytes rest : List UInt8} {first : UInt8},
      bytes.dropWhile isBlank = first :: rest → rest <:+ bytes :=
    fun hdrop => (List.suffix_cons _ _).trans (hdrop ▸ List.dropWhile_suffix _)
  fun_induction attributes seen acc bytes with
  | case1 seen acc bytes hdrop =>
      cases h
      exact fun e he => .inl (List.mem_reverse.mp he)
  | case5 seen acc bytes first rest hdrop rawKey rawValue rest' hsplit _ key _ _ ih =>
      intro e he
      refine (ih h e he).imp_right ?_
      rintro ⟨raw, hraw, hvalue⟩
      exact ⟨raw, hraw.trans ((suffix_splitAttribute hsplit).trans (hbehind hdrop)).isInfix, hvalue⟩
  | case7 seen acc bytes first rest hdrop rawKey rawValue rest' hsplit _ key _ _ value hvalue ih =>
      obtain ⟨afterQuote, found, hquote, hparts⟩ := append_of_splitAttribute hsplit
      have hraw : rawValue <:+: rest := by
        rw [hparts] at hquote
        exact (List.prefix_append _ _).isInfix.trans hquote.isInfix
      intro e he
      rcases ih h e he with hacc | ⟨raw, hraw', hvalue'⟩
      · rcases List.mem_cons.mp hacc with rfl | hacc
        · exact .inr ⟨rawValue, hraw.trans (hbehind hdrop).isInfix, hvalue⟩
        · exact .inl hacc
      · refine .inr ⟨raw, ?_, hvalue'⟩
        exact hraw'.trans ((suffix_splitAttribute hsplit).trans (hbehind hdrop)).isInfix
  | _ => cases h

theorem suffix_dropMark (bytes : List UInt8) : dropMark bytes <:+ bytes := by
  unfold dropMark
  split
  · exact ⟨[0xEF, 0xBB, 0xBF], rfl⟩
  · exact List.suffix_refl _

/-- Characters without ampersands are what their entities resolve to. -/
theorem resolveOnto_of_not_mem {cs : List Char} (acc : List Char) (h : '&' ∉ cs) :
    resolveOnto acc cs = some (acc.reverse ++ cs) := by
  induction cs generalizing acc with
  | nil => rw [resolveOnto, List.append_nil]
  | cons c cs ih =>
      rw [List.mem_cons, not_or] at h
      rw [resolveOnto, if_neg (Ne.symm h.1), ih _ h.2, List.reverse_cons, List.append_assoc,
        List.singleton_append]

/-- A value is read as it is written if there is no ampersand in it. -/
theorem decode?_of_content? {raw : List UInt8} {s : String} (h : content? raw = some s)
    (hraw : 0x26 ∉ raw) : Text.decode? raw = some s := by
  obtain ⟨t, ht, hs⟩ := Option.bind_eq_some_iff.mp h
  have hplain : '&' ∉ t.toList := by
    intro hmem
    have hglyph : some '&' ∈ Text.decode raw := by
      rw [Text.decode_eq_glyphs ht]
      exact List.mem_map_of_mem hmem
    exact hraw (Text.IsAscii.mem_of_mem_decode (by decide) hglyph)
  rw [resolve?, resolveOnto_of_not_mem [] hplain, List.reverse_nil, List.nil_append,
    Option.map_some, String.ofList_toList] at hs
  rw [ht, hs]

/-- The root of a document has its tag and its attributes from the first tag. -/
theorem exists_firstTag {bytes : List UInt8} {root : Element}
    (h : Element.ofBytes bytes = .ok root) :
    ∃ content name inside attrs, firstTag? (dropMark bytes) = some content ∧ content <:+: bytes ∧
      name <+: inside ∧ inside <+: content ∧ Text.decode? name = some root.tag ∧
      attributes [] [] (inside.dropWhile fun b => !isBlank b) = .ok attrs ∧
      root.attributes = OrderedMap.ofList attrs := by
  obtain ⟨content, hfirst, hlabel⟩ := Element.tagLabel?_of_ofBytes h
  obtain ⟨⟨name, e⟩, he, hlabel⟩ := Option.bind_eq_some_iff.mp hlabel
  have he : tagEvent content = .ok (name, e) := by
    cases hevent : tagEvent content with
    | error _ => rw [hevent] at he; cases he
    | ok _ => rw [hevent] at he; cases he; rfl
  obtain ⟨tag, attrs, inside, hspelled, hname, hinside, hprefix, hattrs⟩ := exists_of_tagEvent he
  obtain ⟨htag, hattributes⟩ := Prod.mk.inj (Option.some.inj (hlabel.symm.trans hspelled))
  exact ⟨content, name, inside, attrs, hfirst,
    (infix_of_firstTag? hfirst).trans (suffix_dropMark bytes).isInfix, hprefix, hinside,
    htag ▸ hname, hattrs, hattributes⟩

/-- A value in the first tag is spelled with entities. -/
def SpellsByEntities (bytes : List UInt8) (value : String) : Prop :=
  ∃ tag raw, firstTag? (dropMark bytes) = some tag ∧ raw <:+: tag ∧ 0x26 ∈ raw ∧
    content? raw = some value

section Root
variable {bytes : List UInt8} {root : Element} (h : Element.ofBytes bytes = .ok root) {w : String}
  (hw : ∀ c ∈ w.toList, Text.IsAscii c)
include h hw

/-- The tag of the root stands in the document. -/
theorem infix_of_tag (htag : root.tag = w) : ascii w <:+: bytes := by
  obtain ⟨content, name, inside, _, _, hcontent, hname, hinside, hdecode, _⟩ := exists_firstTag h
  rw [htag] at hdecode
  rw [← Text.eq_ascii_of_decode? hw hdecode]
  exact (hname.trans hinside).isInfix.trans hcontent

/-- A value of an attribute of the root stands in the document or is spelled with entities. -/
theorem infix_of_attr? {key : String} (hattr : root.attr? key = some w) :
    ascii w <:+: bytes ∨ SpellsByEntities bytes w := by
  obtain ⟨content, _, inside, attrs, hfirst, hcontent, _, hinside, _, hattrs, hattributes⟩ :=
    exists_firstTag h
  have hmem : (key, w) ∈ attrs := by
    rw [Element.attr?, hattributes] at hattr
    exact OrderedMap.mem_of_get?_ofList hattr
  obtain hnil | ⟨raw, hraw, hvalue⟩ := exists_of_attributes hattrs _ hmem
  · cases hnil
  · have hraw' : raw <:+: content :=
      hraw.trans ((List.dropWhile_suffix _).isInfix.trans hinside.isInfix)
    by_cases hamp : 0x26 ∈ raw
    · exact .inr ⟨content, raw, hfirst, hraw', hamp, hvalue⟩
    · rw [← Text.eq_ascii_of_decode? hw (decode?_of_content? hvalue hamp)]
      exact .inl (hraw'.trans hcontent)

end Root
end UmlCatalog.Markup
