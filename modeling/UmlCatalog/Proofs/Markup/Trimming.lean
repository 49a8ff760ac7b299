import Mathlib
import UmlCatalog.Proofs.Markup.Nesting
import UmlCatalog.Proofs.Text.Trimmed

/-!
# The text of an element

An element has the text that its runs of text and its sections of character data make up, where each
run is trimmed before its entities are resolved, and a section is taken as it is. This is not the
text trimmed at its two ends: white space that a run has next to a comment, a section or an element
is missing from the middle of the text, and white space at the ends of a section, or written with
entities, is left at the ends of the text.

## Main results

`Element.text_eq_trimmedText_iff`: the elements whose text is their character data, trimmed at both
ends only.

## Implementation notes

White space means space, tab, carriage return and line feed, as for runs of text. The character data
is resolved run by run, so an entity cannot be put together from two runs.
-/

namespace UmlCatalog.Markup

open Text (Span isSpacing trimmed IsTight)
open Text.Span (whole keptOf CutsOutside)

/-! ## Runs of text -/

/-- Characters from their bytes. -/
def spacing (bytes : List UInt8) : List Char := bytes.map fun b => Char.ofNat b.toNat

theorem of_isBlank {b : UInt8} (h : isBlank b = true) :
    isSpacing (Char.ofNat b.toNat) = true ∧ Text.IsAscii (Char.ofNat b.toNat) ∧
      Char.ofNat b.toNat ≠ '&' ∧ UInt8.ofNat (Char.ofNat b.toNat).toNat = b := by
  simp only [isBlank, Bool.or_eq_true, decide_eq_true_eq] at h
  obtain ((rfl | rfl) | rfl) | rfl := h <;> decide

section Spacing
variable {bytes : List UInt8} (h : ∀ b ∈ bytes, isBlank b = true)
include h

theorem isSpacing_of_mem_spacing : ∀ c ∈ spacing bytes, isSpacing c = true := by
  intro c hc
  obtain ⟨b, hb, rfl⟩ := List.mem_map.mp hc
  exact (of_isBlank (h b hb)).1

theorem not_mem_spacing : '&' ∉ spacing bytes := by
  intro hmem
  obtain ⟨b, hb, hamp⟩ := List.mem_map.mp hmem
  exact (of_isBlank (h b hb)).2.2.1 hamp

theorem decode_spacing_append (rest : List UInt8) :
    Text.decode (bytes ++ rest) = (spacing bytes).map some ++ Text.decode rest := by
  have hascii : ∀ c ∈ spacing bytes, Text.IsAscii c := by
    intro c hc
    obtain ⟨b, hb, rfl⟩ := List.mem_map.mp hc
    exact (of_isBlank (h b hb)).2.1
  have hbytes : (spacing bytes).map (fun c => UInt8.ofNat c.toNat) = bytes := by
    rw [spacing, List.map_map]
    exact (List.map_congr_left fun b hb => (of_isBlank (h b hb)).2.2.2).trans (List.map_id bytes)
  rw [← Text.decode_ascii_append hascii, hbytes]

theorem decode_append_spacing (front : List UInt8) :
    Text.decode (front ++ bytes) = Text.decode front ++ (spacing bytes).map some := by
  cases bytes with
  | nil => simp [spacing]
  | cons b bytes =>
      have hb : b.toNat < 0x80 := by
        have hblank := h b List.mem_cons_self
        simp only [isBlank, Bool.or_eq_true, decide_eq_true_eq] at hblank
        obtain ((rfl | rfl) | rfl) | rfl := hblank <;> decide
      have hbehind := decode_spacing_append h []
      rw [List.append_nil, Text.decode_nil, List.append_nil] at hbehind
      rw [Text.decode_append hb, hbehind]

end Spacing

theorem resolveOnto_of_entity? {acc rest rest' : List Char} {e : Char}
    (hdrop : (rest.dropWhile fun c => !boundsEntity c) = ';' :: rest')
    (he : entity? (rest.takeWhile fun c => !boundsEntity c) = some e) :
    resolveOnto acc ('&' :: rest) = resolveOnto (e :: acc) rest' := by
  rw [resolveOnto, if_pos rfl]
  split
  · rename_i hdrop'
    obtain rfl := (List.cons.inj (hdrop.symm.trans hdrop')).2
    rw [he]
  · rename_i hother
    exact absurd hdrop (hother rest')

/-- An entity ends where it ends, whatever follows. -/
theorem bounds_append {rest rest' : List Char}
    (h : (rest.dropWhile fun c => !boundsEntity c) = ';' :: rest') (ds : List Char) :
    ((rest ++ ds).dropWhile fun c => !boundsEntity c) = ';' :: (rest' ++ ds) ∧
      ((rest ++ ds).takeWhile fun c => !boundsEntity c) =
        rest.takeWhile fun c => !boundsEntity c := by
  constructor
  · rw [List.dropWhile_append, h]
    rfl
  · have hlength := congrArg List.length
      (List.takeWhile_append_dropWhile (p := fun c => !boundsEntity c) (l := rest))
    rw [h, List.length_append, List.length_cons] at hlength
    rw [List.takeWhile_append, if_neg (by omega)]

/-- What is resolved is resolved alike behind other characters and in front of others. -/
theorem resolveOnto_append {acc cs r : List Char} (h : resolveOnto acc cs = some r)
    (acc' ds : List Char) :
    resolveOnto (acc ++ acc') (cs ++ ds) = resolveOnto (r.reverse ++ acc') ds := by
  fun_induction resolveOnto acc cs with
  | case1 acc =>
      rw [← Option.some.inj h, List.reverse_reverse, List.nil_append]
  | case2 acc rest rest' hdrop e he ih =>
      obtain ⟨hdrop', htake⟩ := bounds_append hdrop ds
      rw [List.cons_append, resolveOnto_of_entity? hdrop' (htake ▸ he)]
      exact ih h
  | case3 | case4 => cases h
  | case5 acc c rest hc ih =>
      rw [List.cons_append, resolveOnto, if_neg hc]
      exact ih h

/-- White space around a text is not resolved. -/
theorem content?_of_spacing {front bytes back : List UInt8} {s : String}
    (hfront : ∀ b ∈ front, isBlank b = true) (hback : ∀ b ∈ back, isBlank b = true)
    (h : content? bytes = some s) :
    content? (front ++ bytes ++ back) =
      some (String.ofList (spacing front ++ s.toList ++ spacing back)) := by
  obtain ⟨t, ht, hs⟩ := Option.bind_eq_some_iff.mp h
  obtain ⟨r, hr, rfl⟩ := Option.map_eq_some_iff.mp hs
  have hdecode : Text.decode (front ++ bytes ++ back) =
      (spacing front ++ t.toList ++ spacing back).map some := by
    rw [List.append_assoc, decode_spacing_append hfront, decode_append_spacing hback,
      Text.decode_eq_glyphs ht, Text.glyphs, List.map_append, List.map_append, List.append_assoc]
  have hresolve : resolveOnto [] (spacing front ++ t.toList ++ spacing back) =
      some (spacing front ++ r ++ spacing back) := by
    have hbefore := resolveOnto_append (resolveOnto_of_not_mem [] (not_mem_spacing hfront)) []
      (t.toList ++ spacing back)
    have hbetween := resolveOnto_append hr (spacing front).reverse (spacing back)
    simp only [List.reverse_nil, List.nil_append, List.append_nil] at hbefore hbetween
    rw [List.append_assoc, hbefore, hbetween,
      resolveOnto_of_not_mem _ (not_mem_spacing hback)]
    simp only [List.reverse_append, List.reverse_reverse]
  rw [content?, Text.decode?_of_decode hdecode, Option.bind_some, resolve?, String.toList_ofList,
    hresolve, Option.map_some, String.toList_ofList]

/-- The parts of a run of text: white space that is cut off in front, what the run says, and white
space that is cut off behind. -/
def runSpans (run : List UInt8) : List Span :=
  [⟨spacing (run.takeWhile isBlank), (runText run).toList⟩,
    ⟨spacing ((run.dropWhile isBlank).rtakeWhile isBlank), []⟩]

theorem isSpacing_of_mem_runSpans (run : List UInt8) :
    ∀ s ∈ runSpans run, ∀ c ∈ s.cut, isSpacing c = true := by
  intro s hs
  rcases List.mem_cons.mp hs with rfl | hs
  · exact isSpacing_of_mem_spacing fun b hb => List.mem_takeWhile_imp hb
  · rw [List.mem_singleton.mp hs]
    exact isSpacing_of_mem_spacing fun b hb => List.mem_rtakeWhile_imp hb

/-- A run whose trimmed bytes can be read can be read as it is, with its white space. -/
theorem content?_run {run : List UInt8} {s : String} (h : content? (trim run) = some s) :
    content? run = some (String.ofList (whole (runSpans run))) := by
  have htrim : trim run = (run.dropWhile isBlank).rdropWhile isBlank := rfl
  have hparts : run.takeWhile isBlank ++ trim run ++ (run.dropWhile isBlank).rtakeWhile isBlank =
      run := by
    rw [htrim, List.append_assoc, List.rdropWhile_append_rtakeWhile,
      List.takeWhile_append_dropWhile]
  have hfront : ∀ b ∈ run.takeWhile isBlank, isBlank b = true :=
    fun b hb => List.mem_takeWhile_imp hb
  have hback : ∀ b ∈ (run.dropWhile isBlank).rtakeWhile isBlank, isBlank b = true :=
    fun b hb => List.mem_rtakeWhile_imp hb
  have hread := content?_of_spacing hfront hback h
  rw [hparts] at hread
  rw [hread, runSpans, runText, h]
  simp [whole]

/-! ## Character data -/

/-- Fragments make up a given text, where no characters are no text. -/
theorem textOf_eq_iff_toList {fragments : List String} {cs : List Char} :
    textOf fragments = (if cs = [] then none else some (String.ofList cs)) ↔
      (String.join fragments).toList = cs := by
  unfold textOf
  constructor
  · intro h
    split at h
    · rename_i hempty
      split at h
      · rename_i hnil
        rw [hempty, hnil]
        rfl
      · cases h
    · split at h
      · cases h
      · rw [Option.some.inj h, String.toList_ofList]
  · rintro rfl
    rw [String.ofList_toList]
    simp only [String.toList_eq_nil_iff]

namespace Content

/-- The character data that does not stand in one of the elements, with entities resolved. -/
def characters : Content → List Char
  | nil => []
  | text run rest => ((content? run).getD "").toList ++ rest.characters
  | cdata bytes rest => (Text.decodeLossy bytes).toList ++ rest.characters
  | element _ _ _ rest => rest.characters

/-- The character data without the white space at both ends, if there is any. -/
def trimmedText (c : Content) : Option String :=
  if trimmed c.characters = [] then none else some (String.ofList (trimmed c.characters))

/-- The character data in parts, with what is cut off of each run of text. -/
def spans : Content → List Span
  | nil => []
  | text run rest => runSpans run ++ rest.spans
  | cdata bytes rest => ⟨[], (Text.decodeLossy bytes).toList⟩ :: rest.spans
  | element _ _ _ rest => rest.spans

variable {c : Content} {ps : List Piece}

theorem isSpacing_of_mem_spans (c : Content) :
    ∀ s ∈ c.spans, ∀ ch ∈ s.cut, isSpacing ch = true := by
  induction c with
  | nil => exact nofun
  | text run rest ih =>
      exact fun s hs => (List.mem_append.mp hs).elim (isSpacing_of_mem_runSpans run s) (ih s)
  | cdata bytes rest ih =>
      intro s hs
      rcases List.mem_cons.mp hs with rfl | hs
      · exact nofun
      · exact ih s hs
  | element tag attributes inner rest _ ih => exact ih

/-- The text of an element is made up of what is kept. -/
theorem toList_join_fragments (c : Content) :
    (String.join c.fragments).toList = keptOf c.spans := by
  induction c with
  | nil => rfl
  | text run rest ih =>
      rw [fragments, String.join_cons, String.toList_append, ih, spans, Text.Span.keptOf_append]
      simp [runSpans, keptOf]
  | cdata bytes rest ih =>
      rw [fragments, String.join_cons, String.toList_append, ih, spans, Text.Span.keptOf_cons]
  | element tag attributes inner rest _ ih => exact ih

theorem IsWritten.characters_eq (h : c.IsWritten ps) : c.characters = whole c.spans := by
  induction h with
  | nil => rfl
  | passedOver _ ih => exact ih
  | text hrun _ ih =>
      rw [characters, spans, Text.Span.whole_append, content?_run hrun, ih, Option.getD_some,
        String.toList_ofList]
  | cdata _ ih =>
      rw [characters, spans, Text.Span.whole_cons, ih]
      rfl
  | emptyTag _ _ ih => exact ih
  | element _ _ _ _ _ _ ih => exact ih

/-- The text of an element is its trimmed character data exactly if no white space is left at its
ends and none is cut off between what is kept. -/
theorem IsWritten.textOf_eq_iff (h : c.IsWritten ps) :
    textOf c.fragments = c.trimmedText ↔ IsTight (keptOf c.spans) ∧ CutsOutside c.spans := by
  rw [← Text.Span.keptOf_eq_trimmed_iff c.isSpacing_of_mem_spans, ← h.characters_eq,
    ← c.toList_join_fragments, trimmedText, textOf_eq_iff_toList]

end Content

/-! ## The elements of a tree -/

/-- An element stands in a tree, or is its root. -/
inductive Element.Contains (root : Element) : Element → Prop
  | root : Contains root root
  | child {e c : Element} (h : Contains root e) (hc : c ∈ e.children) : Contains root c

namespace Content

theorem Holds.trans {c inner inner' : Content} {tag tag' : String} {attrs attrs' : List Attribute}
    (h : c.Holds tag attrs inner) (h' : inner.Holds tag' attrs' inner') :
    c.Holds tag' attrs' inner' := by
  induction h with
  | here => exact .inside h'
  | text _ ih => exact .text (ih h')
  | cdata _ ih => exact .cdata (ih h')
  | inside _ ih => exact .inside (ih h')
  | behind _ ih => exact .behind (ih h')

theorem exists_holds_of_mem {c : Content} {e : Element} (h : e ∈ c.elements) :
    ∃ tag attrs inner, c.Holds tag attrs inner ∧
      e = treeOf tag attrs inner.fragments inner.elements := by
  induction c with
  | nil => cases h
  | text run rest ih =>
      obtain ⟨tag, attrs, inner, hholds, he⟩ := ih h
      exact ⟨tag, attrs, inner, .text hholds, he⟩
  | cdata bytes rest ih =>
      obtain ⟨tag, attrs, inner, hholds, he⟩ := ih h
      exact ⟨tag, attrs, inner, .cdata hholds, he⟩
  | element tag attrs inner rest _ ih =>
      rcases List.mem_cons.mp h with rfl | h
      · exact ⟨tag, attrs, inner, .here, rfl⟩
      · obtain ⟨tag, attrs, inner, hholds, he⟩ := ih h
        exact ⟨tag, attrs, inner, .behind hholds, he⟩

/-- Every element of a tree is told by an element of the content. -/
theorem exists_holds_of_contains {c : Content} {root e : Element}
    (hroot : c.elements.head? = some root) (h : root.Contains e) :
    ∃ tag attrs inner, c.Holds tag attrs inner ∧
      e = treeOf tag attrs inner.fragments inner.elements := by
  induction h with
  | root => exact exists_holds_of_mem (List.mem_of_head? hroot)
  | child _ hc ih =>
      obtain ⟨tag, attrs, inner, hholds, rfl⟩ := ih
      obtain ⟨tag', attrs', inner', hholds', he⟩ := exists_holds_of_mem hc
      exact ⟨tag', attrs', inner', hholds.trans hholds', he⟩

end Content

/-! ## A comment in a text, and a section -/

/-- A text with a comment in it. -/
def commentedText : List UInt8 := ascii "<a>one <!-- c -->two</a>"

/-- A text that is written as a section of character data. -/
def sectionText : List UInt8 := ascii "<a><![CDATA[ x ]]></a>"

namespace Content

/-- The content of a document that is one element. -/
def single (inner : Content) : Content := text [] (element "a" [] inner (text [] nil))

/-- What stands in the element of `commentedText`. -/
def commented : Content := text (ascii "one ") (text (ascii "two") nil)

/-- What stands in the element of `sectionText`. -/
def sectionContent : Content := text [] (cdata (ascii " x ") (text [] nil))

theorem content?_trim_nil : content? (trim []) = some "" := content?_nil

theorem IsWritten.single {inner : Content} {ps : List Piece} (h : inner.IsWritten ps) :
    inner.single.IsWritten (.run [] :: .construct (.tag (ascii "a")) ::
      (ps ++ [.construct (.endTag (ascii "a")), .run []])) := by
  have htag : SpellsTag (ascii "a") (ascii "a") "a" [] := ⟨rfl, by cbv, .nil rfl, .nil⟩
  have hend : endName (ascii "a") = ascii "a" := by decide
  exact .text content?_trim_nil
    (.element htag (by decide) h hend (.text content?_trim_nil .nil))

theorem exists_isWritten_commented :
    ∃ ps, IsCut (dropMark commentedText) ps ∧ commented.single.IsWritten ps := by
  have hcut : IsCut (dropMark commentedText) [.run [], .construct (.tag (ascii "a")),
      .run (ascii "one "), .construct .passedOver, .run (ascii "two"),
      .construct (.endTag (ascii "a")), .run []] := by
    refine @IsCut.cons _ _ (ascii "a>one <!-- c -->two</a>") (ascii "one <!-- c -->two</a>") 0x3C
      _ _ (by cbv) (by cbv) (by cbv) ?_
    refine @IsCut.cons _ _ (ascii "!-- c -->two</a>") (ascii "two</a>") 0x3C
      _ _ (by cbv) (by cbv) (by cbv) ?_
    exact @IsCut.cons _ _ (ascii "/a>") [] 0x3C _ _ (by cbv) (by cbv) (by cbv) (.last rfl)
  have hone : content? (trim (ascii "one ")) = some "one" := by cbv
  have htwo : content? (trim (ascii "two")) = some "two" := by cbv
  exact ⟨_, hcut, IsWritten.single (.text hone (.passedOver (.text htwo .nil)))⟩

theorem exists_isWritten_section :
    ∃ ps, IsCut (dropMark sectionText) ps ∧ sectionContent.single.IsWritten ps := by
  have hcut : IsCut (dropMark sectionText) [.run [], .construct (.tag (ascii "a")),
      .run [], .construct (.cdata (ascii " x ")), .run [],
      .construct (.endTag (ascii "a")), .run []] := by
    refine @IsCut.cons _ _ (ascii "a><![CDATA[ x ]]></a>") (ascii "<![CDATA[ x ]]></a>") 0x3C
      _ _ (by cbv) (by cbv) (by cbv) ?_
    refine @IsCut.cons _ _ (ascii "![CDATA[ x ]]></a>") (ascii "</a>") 0x3C
      _ _ (by cbv) (by cbv) (by cbv) ?_
    exact @IsCut.cons _ _ (ascii "/a>") [] 0x3C _ _ (by cbv) (by cbv) (by cbv) (.last rfl)
  exact ⟨_, hcut, IsWritten.single
    (.text content?_trim_nil (.cdata (.text content?_trim_nil .nil)))⟩

end Content

theorem ofBytes_commentedText :
    Element.ofBytes commentedText = .ok ⟨"a", ∅, some "onetwo", []⟩ := by
  obtain ⟨ps, hcut, hwritten⟩ := Content.exists_isWritten_commented
  exact (Element.ofBytes_of_isWritten hcut hwritten).trans (by cbv)

/-- A comment in a text takes the white space next to it away, and a section keeps the white space
at its ends. -/
theorem text_ne_trimmedText :
    (Element.ofBytes commentedText = .ok ⟨"a", ∅, some "onetwo", []⟩ ∧
      ∃ ps c inner, IsCut (dropMark commentedText) ps ∧ Content.IsWritten c ps ∧
        c.Holds "a" [] inner ∧ inner.trimmedText = some "one two") ∧
    (Element.ofBytes sectionText = .ok ⟨"a", ∅, some " x ", []⟩ ∧
      ∃ ps c inner, IsCut (dropMark sectionText) ps ∧ Content.IsWritten c ps ∧
        c.Holds "a" [] inner ∧ inner.trimmedText = some "x") := by
  constructor
  · obtain ⟨ps, hcut, hwritten⟩ := Content.exists_isWritten_commented
    have htrimmed : Content.commented.trimmedText = some "one two" := by cbv
    exact ⟨ofBytes_commentedText, ps, _, _, hcut, hwritten, .text .here, htrimmed⟩
  · obtain ⟨ps, hcut, hwritten⟩ := Content.exists_isWritten_section
    have htrimmed : Content.sectionContent.trimmedText = some "x" := by cbv
    exact ⟨(Element.ofBytes_of_isWritten hcut hwritten).trans (by cbv), ps, _, _, hcut, hwritten,
      .text .here, htrimmed⟩

/-! ## The text of every element -/

/-- The text of an element of a document. It is put together from runs of text, each trimmed for
itself, and sections of character data. It is the character data of the element, trimmed at its two
ends, exactly if it has no white space at its ends and every run has its white space outside of what
is kept. -/
theorem Element.text_eq_trimmedText_iff {bytes : List UInt8} {root : Element}
    (h : ofBytes bytes = .ok root) :
    (∃ ps c, IsCut (dropMark bytes) ps ∧ Content.IsWritten c ps) ∧
    ∀ (ps : List Piece) (c : Content), IsCut (dropMark bytes) ps → c.IsWritten ps →
      c.elements.head? = some root ∧
      (∀ e, root.Contains e → ∃ tag attrs inner, c.Holds tag attrs inner ∧
        e = treeOf tag attrs inner.fragments inner.elements) ∧
      ∀ tag attrs inner, c.Holds tag attrs inner →
        ((treeOf tag attrs inner.fragments inner.elements).text = inner.trimmedText ↔
          IsTight (keptOf inner.spans) ∧ CutsOutside inner.spans) := by
  have hfirst : ∀ {ps c}, IsCut (dropMark bytes) ps → Content.IsWritten c ps →
      c.elements.head? = some root := by
    intro ps c hcut hwritten
    have hroot := h.symm.trans (ofBytes_of_isWritten hcut hwritten)
    cases hhead : c.elements.head? with
    | none =>
        rw [hhead] at hroot
        cases hroot
    | some e =>
        rw [hhead] at hroot
        exact congrArg some (Except.ok.inj hroot).symm
  refine ⟨?_, fun ps c hcut hwritten => ⟨hfirst hcut hwritten,
    fun e => Content.exists_holds_of_contains (hfirst hcut hwritten), ?_⟩⟩
  · obtain ⟨ps, r, hcut, hr, hroot⟩ := exists_isCut_of_ofBytes h
    obtain ⟨frames, c, hspans, _⟩ := Spans.exists_of_foldlM hr
    cases hspans with
    | closed hwritten => exact ⟨ps, c, hcut, hwritten⟩
    | opened outer htag hslash inner =>
        have herror := ofPieces_of_spans (.opened outer htag hslash inner)
        rw [← ofBytes_of_isCut hcut hr, h] at herror
        cases herror
  · intro tag attrs inner hholds
    obtain ⟨_, ps', hinner⟩ := hwritten.of_holds hholds
    exact hinner.textOf_eq_iff

/-- The document of which the element has a comment in its text. White space is cut between what is
kept there, so the text of the element is not its trimmed character data. -/
theorem Element.text_eq_trimmedText_iff_commentedText :
    ∃ ps c inner, IsCut (dropMark commentedText) ps ∧ Content.IsWritten c ps ∧
      c.elements.head? = some ⟨"a", ∅, some "onetwo", []⟩ ∧ c.Holds "a" [] inner ∧
      (treeOf "a" [] inner.fragments inner.elements).text = some "onetwo" ∧
      inner.trimmedText = some "one two" ∧
      ¬ (IsTight (keptOf inner.spans) ∧ CutsOutside inner.spans) := by
  obtain ⟨ps, hcut, hwritten⟩ := Content.exists_isWritten_commented
  obtain ⟨_, htext⟩ := text_eq_trimmedText_iff ofBytes_commentedText
  obtain ⟨hhead, _, hiff⟩ := htext ps Content.commented.single hcut hwritten
  have hholds : Content.commented.single.Holds "a" [] Content.commented := .text .here
  have hread : (treeOf "a" [] Content.commented.fragments Content.commented.elements).text =
      some "onetwo" := by cbv
  have htrimmed : Content.commented.trimmedText = some "one two" := by cbv
  have hne : some "onetwo" ≠ some "one two" := by decide
  refine ⟨ps, _, _, hcut, hwritten, hhead, hholds, hread, htrimmed, fun houtside => hne ?_⟩
  exact hread.symm.trans (((hiff "a" [] _ hholds).mpr houtside).trans htrimmed)

end UmlCatalog.Markup
