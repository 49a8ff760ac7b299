import Mathlib
import UmlCatalog.Proofs.Markup.Content

/-!
# The tree of a document

Elements that are open stand one inside the other. What is read while they are open goes into the
innermost of them, and an end tag puts it, complete, into the element around it. So what has been
read of a document is told by its open elements, with what stands before each of them.

## Main results

`Element.ofPieces_of_spans`: every sequence of pieces that can be read is content in open elements,
and its tree is the first element of the content if none is open.

## Implementation notes

The pieces before the first element and behind it must be readable too, as must the content of other
elements at the top: a flaw is reported wherever it stands.
-/

namespace UmlCatalog

/-- The members of a list go behind those of a set, each at its first occurrence. -/
theorem OrderedSet.toList_insertMany_eq_eraseDups {κ : Type} [DecidableEq κ] (s : OrderedSet κ)
    (l : List κ) :
    (s.insertMany l).toList = s.toList ++ (l.filter fun a => a ∉ s.toList).eraseDups := by
  induction l generalizing s with
  | nil => simp
  | cons k l ih =>
      rw [insertMany_cons, ih]
      by_cases hk : k ∈ s.toList
      · rw [insert, dif_pos hk, List.filter_cons_of_neg (by simpa using hk)]
      · have hfilter : (l.filter fun a => a ∉ s.toList ++ [k]) =
            l.filter fun a => !(a == k) && decide (a ∉ s.toList) := by
          refine List.filter_congr fun a _ => ?_
          rw [Bool.eq_iff_iff]
          simp [and_comm]
        rw [toList_insert_of_not_mem hk, List.filter_cons_of_pos (by simpa using hk),
          List.eraseDups_cons, List.filter_filter, hfilter, List.append_assoc,
          List.singleton_append]

namespace Markup

/-- An element that is open, with what stands before it in the element around it. -/
structure Frame where
  name : List UInt8
  tag : String
  attributes : List Attribute
  before : Content

/-- Pieces that open some elements, the innermost of them first, and write content in it. -/
inductive Spans : List Piece → List Frame → Content → Prop
  | closed {ps : List Piece} {c : Content} (h : c.IsWritten ps) : Spans ps [] c
  | opened {ps ps' : List Piece} {inside : List UInt8} {f : Frame} {frames : List Frame}
      {c : Content} (outer : Spans ps frames f.before)
      (htag : SpellsTag inside f.name f.tag f.attributes) (hslash : inside.getLast? ≠ some 0x2F)
      (inner : c.IsWritten ps') :
      Spans (ps ++ .construct (.tag inside) :: ps') (f :: frames) c

/-- What has been read of content in open elements. -/
def progressOf : List Frame → Content → Progress
  | [], c => Progress.start.take c
  | f :: frames, c =>
      ((progressOf frames f.before).step (.startTag f.tag (keptAttributes f.attributes))).take c

/-- At the end no element may be open. -/
theorem finish_progressOf_cons (f : Frame) (frames : List Frame) (c : Content) :
    (progressOf (f :: frames) c).finish = .error (.markup (.unclosed f.tag)) := rfl

/-- The tree is the first element. -/
theorem finish_progressOf_nil (c : Content) : (progressOf [] c).finish =
    c.elements.head?.elim (.error (.missing .element "document root")) .ok := by
  rw [progressOf, Progress.take, Progress.start, Option.none_or, Progress.finish]
  cases c.elements.head? <;> rfl

namespace Spans
variable {ps ps' : List Piece} {frames : List Frame} {c d : Content}

theorem append (h : Spans ps frames c) (hd : d.IsWritten ps') :
    Spans (ps ++ ps') frames (c.append d) := by
  cases h with
  | closed h => exact .closed (h.append hd)
  | opened outer htag hslash inner =>
      rw [List.append_assoc, List.cons_append]
      exact .opened outer htag hslash (inner.append hd)

/-- An end tag closes the innermost element, which is part of the content around it from then on. -/
theorem close {f : Frame} {closing : List UInt8} (h : Spans ps (f :: frames) c)
    (hend : endName closing = f.name) : Spans (ps ++ [.construct (.endTag closing)]) frames
      (f.before.append (.element f.tag f.attributes c .nil)) := by
  cases h with
  | opened outer htag hslash inner =>
      rw [List.append_assoc, List.cons_append]
      exact outer.append (.element htag hslash inner hend .nil)

theorem exists_reads (h : Spans ps frames c) :
    ∃ es : List Event, Reads [] ps (frames.map Frame.name) es ∧
      es.foldl Progress.step .start = progressOf frames c := by
  induction h with
  | closed h =>
      obtain ⟨es, hes, htake⟩ := h.exists_reads
      exact ⟨es, hes [], htake _⟩
  | @opened ps ps' inside f frames c outer htag hslash inner ih =>
      obtain ⟨es, hes, hprogress⟩ := ih
      obtain ⟨es', hes', htake⟩ := inner.exists_reads
      refine ⟨_, hes.append ((Reads.startTag htag hslash).append (hes' _)), ?_⟩
      rw [List.foldl_append, List.foldl_append, hprogress, htake]
      rfl

end Spans

/-- A run that can be read leaves the open elements open. -/
theorem Reading.of_addText {r r' : Reading} {run : List UInt8} (h : r.addText run = .ok r') :
    (∃ s, content? (trim run) = some s) ∧ r'.names = r.names := by
  unfold addText at h
  split at h
  · rename_i hblank
    cases h
    exact ⟨⟨"", by rw [hblank, content?_nil]⟩, rfl⟩
  · split at h
    · rename_i s hs
      cases h
      exact ⟨⟨s, hs⟩, rfl⟩
    · cases h

/-- One more piece that can be read: it goes on with the innermost open element, closes it, or opens
another one in it. -/
theorem Spans.exists_add {ps : List Piece} {frames : List Frame} {c : Content} {r r' : Reading}
    {p : Piece} (hspans : Spans ps frames c) (hnames : r.names = frames.map Frame.name)
    (h : r.add p = .ok r') :
    ∃ frames' c', Spans (ps ++ [p]) frames' c' ∧ r'.names = frames'.map Frame.name := by
  cases p with
  | run bytes =>
      obtain ⟨⟨s, hs⟩, hr'⟩ := Reading.of_addText h
      exact ⟨frames, _, hspans.append (.text hs .nil), hr'.trans hnames⟩
  | construct construct =>
      cases construct with
      | passedOver =>
          cases h
          exact ⟨frames, _, hspans.append (.passedOver .nil), hnames⟩
      | cdata bytes =>
          cases h
          exact ⟨frames, _, hspans.append (.cdata .nil), hnames⟩
      | endTag closing =>
          simp only [Reading.add, Reading.addConstruct] at h
          split at h
          · rename_i name names hcons
            split at h
            · rename_i hend
              cases h
              cases frames with
              | nil => cases hcons.symm.trans hnames
              | cons f frames =>
                  obtain ⟨rfl, rfl⟩ := List.cons.inj (hcons.symm.trans hnames)
                  exact ⟨frames, _, hspans.close hend, rfl⟩
            · cases h
          · cases h
      | tag content =>
          obtain ⟨⟨name, e⟩, he, h⟩ := exists_of_bind_eq_ok h
          obtain ⟨tag, attrs, ⟨inside, rfl, htag, rfl⟩ | ⟨hslash, htag, rfl⟩⟩ := exists_spellsTag he
          · cases h
            exact ⟨frames, _, hspans.append (.emptyTag htag .nil), hnames⟩
          · cases h
            exact ⟨⟨name, tag, attrs, c⟩ :: frames, .nil, .opened hspans htag hslash .nil,
              congrArg (name :: ·) hnames⟩

/-- Pieces that can be read are content in the elements that are open. -/
theorem Spans.exists_of_foldlM {ps : List Piece} {r : Reading}
    (h : ps.foldlM Reading.add ⟨[], []⟩ = .ok r) :
    ∃ frames c, Spans ps frames c ∧ r.names = frames.map Frame.name := by
  induction ps using List.reverseRecOn generalizing r with
  | nil =>
      cases h
      exact ⟨[], .nil, .closed .nil, rfl⟩
  | append_singleton ps p ih =>
      rw [List.foldlM_append] at h
      obtain ⟨r₀, hr₀, h⟩ := exists_of_bind_eq_ok h
      simp only [List.foldlM_cons, List.foldlM_nil, bind_pure] at h
      obtain ⟨frames, c, hspans, hnames⟩ := ih hr₀
      exact hspans.exists_add hnames h

namespace Element
variable {ps : List Piece} {c : Content}

theorem ofPieces_of_reads {names : List (List UInt8)} {es : List Event}
    (h : Reads [] ps names es) : ofPieces ps = (es.foldl Progress.step .start).finish := by
  rw [ofPieces, h [], ofReading, List.append_nil, List.reverse_reverse]
  rfl

/-- The tree of written content is its first element. -/
theorem ofPieces_of_isWritten (h : c.IsWritten ps) : ofPieces ps =
    c.elements.head?.elim (.error (.missing .element "document root")) .ok := by
  obtain ⟨es, hes, hprogress⟩ := (Spans.closed h).exists_reads
  rw [ofPieces_of_reads hes, hprogress, finish_progressOf_nil]

/-- The tree of a document with written content is its first element. -/
theorem ofBytes_of_isWritten {bytes : List UInt8} (hcut : IsCut (dropMark bytes) ps)
    (h : c.IsWritten ps) : ofBytes bytes =
      c.elements.head?.elim (.error (.missing .element "document root")) .ok := by
  obtain ⟨es, hes, _⟩ := h.exists_reads
  rw [ofBytes_of_isCut hcut (hes [] []), ofPieces_of_isWritten h]

/-- There is no tree as long as elements are open. -/
theorem ofPieces_of_spans {f : Frame} {frames : List Frame} (h : Spans ps (f :: frames) c) :
    ofPieces ps = .error (.markup (.unclosed f.tag)) := by
  obtain ⟨es, hes, hprogress⟩ := h.exists_reads
  rw [ofPieces_of_reads hes, hprogress, finish_progressOf_cons]

end Element

/-! ## Empty tags -/

namespace Reading

/-- A reading with other events before its own. -/
def after (events : List Event) (r : Reading) : Reading := ⟨r.names, r.events ++ events⟩

/-- What is read of a piece does not depend on the events before it. -/
theorem add_eq_map (names : List (List UInt8)) (events : List Event) (p : Piece) :
    add ⟨names, events⟩ p = (add ⟨names, []⟩ p).map (after events) := by
  cases p with
  | run bytes =>
      simp only [add, addText]
      split
      · rfl
      · split <;> rfl
  | construct c =>
      cases c with
      | passedOver => rfl
      | cdata bytes => rfl
      | endTag closing =>
          simp only [add, addConstruct]
          split
          · split <;> rfl
          · rfl
      | tag content =>
          simp only [add, addConstruct]
          cases tagEvent content with
          | error e => rfl
          | ok e =>
              obtain ⟨name, e⟩ := e
              cases e <;> rfl

@[simp] theorem after_append (events events' : List Event) (r : Reading) :
    r.after (events ++ events') = (r.after events).after events' := by
  rw [after, after, after, List.append_assoc]

theorem foldlM_add_eq_map (names : List (List UInt8)) (events : List Event) (ps : List Piece) :
    ps.foldlM add ⟨names, events⟩ = (ps.foldlM add ⟨names, []⟩).map (after events) := by
  induction ps generalizing names events with
  | nil => rfl
  | cons p ps ih =>
      rw [List.foldlM_cons, List.foldlM_cons, add_eq_map]
      cases add ⟨names, []⟩ p with
      | error e => rfl
      | ok r =>
          show ps.foldlM add ⟨r.names, r.events ++ events⟩ =
            (ps.foldlM add ⟨r.names, r.events⟩).map (after events)
          rw [ih r.names (r.events ++ events), ih r.names r.events]
          cases ps.foldlM add ⟨r.names, []⟩ with
          | error e => rfl
          | ok r' => exact congrArg Except.ok (r'.after_append r.events events)

end Reading

namespace Element

/-- Events that do the same can stand for each other in front of any pieces. -/
theorem ofPieces_congr {events es es' : List Event} (names : List (List UInt8)) (ps : List Piece)
    (h : ∀ p : Progress, es.foldl Progress.step p = es'.foldl Progress.step p) :
    ofReading (ps.foldlM Reading.add ⟨names, es.reverse ++ events⟩) =
      ofReading (ps.foldlM Reading.add ⟨names, es'.reverse ++ events⟩) := by
  rw [Reading.foldlM_add_eq_map, Reading.foldlM_add_eq_map names (es'.reverse ++ events)]
  cases ps.foldlM Reading.add ⟨names, []⟩ with
  | error e => rfl
  | ok r =>
      simp only [Except.map, ofReading, Reading.after, ofEvents, List.reverse_append,
        List.reverse_reverse, List.foldl_append, h]

/-- An empty tag stands for a start tag with its end tag, whatever stands around it. -/
theorem ofPieces_emptyTag {inside closing : List UInt8} (hslash : inside.getLast? ≠ some 0x2F)
    (hend : endName closing = inside.takeWhile fun b => !isBlank b) (before after : List Piece) :
    ofPieces (before ++ .construct (.tag (inside ++ [0x2F])) :: after) =
      ofPieces (before ++ .construct (.tag inside) :: .construct (.endTag closing) :: after) := by
  unfold ofPieces
  rw [List.foldlM_append, List.foldlM_append]
  cases before.foldlM Reading.add ⟨[], []⟩ with
  | error e => rfl
  | ok r =>
      obtain ⟨names, events⟩ := r
      show ofReading (List.foldlM Reading.add ⟨names, events⟩ _) =
        ofReading (List.foldlM Reading.add ⟨names, events⟩ _)
      cases hevent : tagEvent inside with
      | error e =>
          simp only [List.foldlM_cons, Reading.add, Reading.addConstruct, hevent,
            tagEvent_empty_of_error hslash hevent]
          rfl
      | ok found =>
          obtain ⟨name, e⟩ := found
          obtain ⟨tag, attrs, ⟨_, rfl, _⟩ | ⟨_, htag, rfl⟩⟩ := exists_spellsTag hevent
          · exact absurd List.getLast?_concat hslash
          have hempty : Reads names [_] names _ := .emptyTag htag
          have hfull : Reads names [_, _] names _ :=
            (Reads.startTag htag hslash).append (.endTag (hend.trans htag.name_eq.symm))
          have hparts := hempty.foldlM_append after events
          have hparts' := hfull.foldlM_append after events
          refine (congrArg ofReading hparts).trans (Eq.trans ?_ (congrArg ofReading hparts').symm)
          exact ofPieces_congr names after fun p => (step_startTag_endTag p tag _).symm

end Element

/-! ## The elements of content -/

namespace Content

/-- An element stands in content at any depth: its tag, its attributes and its own content. -/
inductive Holds : Content → String → List Attribute → Content → Prop
  | here {tag : String} {attrs : List Attribute} {inner rest : Content} :
      Holds (element tag attrs inner rest) tag attrs inner
  | text {run : List UInt8} {tag : String} {attrs : List Attribute} {inner rest : Content}
      (h : Holds rest tag attrs inner) : Holds (text run rest) tag attrs inner
  | cdata {bytes : List UInt8} {tag : String} {attrs : List Attribute} {inner rest : Content}
      (h : Holds rest tag attrs inner) : Holds (cdata bytes rest) tag attrs inner
  | inside {tag tag' : String} {attrs attrs' : List Attribute} {inner inner' rest : Content}
      (h : Holds inner' tag attrs inner) : Holds (element tag' attrs' inner' rest) tag attrs inner
  | behind {tag tag' : String} {attrs attrs' : List Attribute} {inner inner' rest : Content}
      (h : Holds rest tag attrs inner) : Holds (element tag' attrs' inner' rest) tag attrs inner

/-- An element that stands in written content has different keys, and its content is written. -/
theorem IsWritten.of_holds {c inner : Content} {ps : List Piece} {tag : String}
    {attrs : List Attribute} (h : c.IsWritten ps) (hholds : c.Holds tag attrs inner) :
    (attrs.map Prod.fst).Nodup ∧ ∃ ps', inner.IsWritten ps' := by
  induction h with
  | nil => cases hholds
  | passedOver _ ih => exact ih hholds
  | text _ _ ih =>
      cases hholds with
      | text h => exact ih h
  | cdata _ ih =>
      cases hholds with
      | cdata h => exact ih h
  | emptyTag htag _ ih =>
      cases hholds with
      | here => exact ⟨htag.keys_nodup, _, .nil⟩
      | inside h => cases h
      | behind h => exact ih h
  | element htag _ hinner _ _ ih ih' =>
      cases hholds with
      | here => exact ⟨htag.keys_nodup, _, hinner⟩
      | inside h => exact ih h
      | behind h => exact ih' h

end Content

/-- The children of an element are grouped by tag: tags in order of first appearance, and document
order inside a group. -/
theorem Element.groups_eq (e : Element) : e.groups =
    (e.children.map Element.tag).eraseDups.map fun tag =>
      (tag, e.children.filter fun child => child.tag = tag) := by
  rw [groups, childTags, OrderedSet.ofList, OrderedSet.toList_insertMany_eq_eraseDups]
  have hall : ((e.children.map Element.tag).filter fun a =>
      a ∉ (∅ : OrderedSet String).toList) = e.children.map Element.tag :=
    List.filter_eq_self.mpr fun a _ => by simp
  rw [hall]
  rfl

/-- The tree that a document describes. Pieces can be read exactly if they write content in open
elements. If none is open, the tree is the first element of the content, whatever stands before it
and behind it; an element keeps the attributes that declare no namespace, its own fragments of text
as one text, and its own elements by tag. If one is open, the innermost of them is reported.
An empty tag does the same as a start tag with its end tag. -/
theorem Element.ofPieces_isTree (ps : List Piece) :
    ((∃ r, ps.foldlM Reading.add ⟨[], []⟩ = .ok r) ↔ ∃ frames c, Spans ps frames c) ∧
    (∀ c : Content, c.IsWritten ps →
      (∀ e, c.elements.head? = some e → ofPieces ps = .ok e) ∧
      (c.elements = [] → ofPieces ps = .error (.missing .element "document root")) ∧
      (∀ (before : Content) (tag : String) (attrs : List Attribute) (inner after : Content),
        before.elements = [] → c = before.append (.element tag attrs inner after) →
          ofPieces ps = .ok (treeOf tag attrs inner.fragments inner.elements)) ∧
      ∀ (tag : String) (attrs : List Attribute) (inner : Content), c.Holds tag attrs inner →
        (treeOf tag attrs inner.fragments inner.elements).attributes.entries =
            keptAttributes attrs ∧
          (treeOf tag attrs inner.fragments inner.elements).groups =
            (inner.elements.map Element.tag).eraseDups.map fun tag =>
              (tag, inner.elements.filter fun child => child.tag = tag)) ∧
    (∀ f frames c, Spans ps (f :: frames) c → ofPieces ps = .error (.markup (.unclosed f.tag))) ∧
    (∀ bytes frames c, IsCut (dropMark bytes) ps → Spans ps frames c →
      ofBytes bytes = ofPieces ps) ∧
    ∀ before after inside closing, inside.getLast? ≠ some 0x2F →
      (endName closing = inside.takeWhile fun b => !isBlank b) →
      ps = before ++ .construct (.tag (inside ++ [0x2F])) :: after →
        ofPieces ps =
          ofPieces
            (before ++ .construct (.tag inside) :: .construct (.endTag closing) :: after) := by
  have hread : ∀ {frames c}, Spans ps frames c →
      ∃ r, ps.foldlM Reading.add ⟨[], []⟩ = .ok r := by
    intro frames c h
    obtain ⟨es, hes, _⟩ := h.exists_reads
    exact ⟨_, hes []⟩
  refine ⟨⟨?_, fun ⟨_, _, h⟩ => hread h⟩, fun c h => ⟨?_, ?_, ?_, ?_⟩,
    fun f frames c => ofPieces_of_spans, ?_, ?_⟩
  · rintro ⟨r, hr⟩
    obtain ⟨frames, c, hspans, _⟩ := Spans.exists_of_foldlM hr
    exact ⟨frames, c, hspans⟩
  · intro e he
    rw [ofPieces_of_isWritten h, he, Option.elim_some]
  · intro he
    rw [ofPieces_of_isWritten h, he, List.head?_nil, Option.elim_none]
  · intro before tag attrs inner after hbefore hc
    rw [ofPieces_of_isWritten h, hc, Content.elements_append, hbefore, List.nil_append,
      Content.elements, List.head?_cons, Option.elim_some]
  · intro tag attrs inner hholds
    exact ⟨entries_ofList_keptAttributes (h.of_holds hholds).1, groups_eq _⟩
  · intro bytes frames c hcut hspans
    obtain ⟨r, hr⟩ := hread hspans
    exact ofBytes_of_isCut hcut hr
  · intro before after inside closing hslash hend hps
    rw [hps]
    exact ofPieces_emptyTag hslash hend before after

/-- An element with an attribute, a text and an element in it, and another element behind it. -/
theorem Element.ofPieces_isTree_twoElements :
    ofPieces [.construct (.tag (ascii "a k=\x22v\x22")), .run (ascii " t "),
        .construct (.tag (ascii "b" ++ [0x2F])), .construct (.endTag (ascii "a")),
        .construct (.tag (ascii "c" ++ [0x2F]))] =
      .ok ⟨"a", .ofList [("k", "v")], some "t", [⟨"b", ∅, none, []⟩]⟩ := by
  have hb : SpellsTag (ascii "b") (ascii "b") "b" [] := ⟨rfl, by cbv, .nil rfl, .nil⟩
  have hc : SpellsTag (ascii "c") (ascii "c") "c" [] := ⟨rfl, by cbv, .nil rfl, .nil⟩
  have ha : SpellsTag (ascii "a k=\x22v\x22") (ascii "a") "a" [("k", some "v")] :=
    ⟨rfl, by cbv, .cons rfl rfl (by cbv) (by cbv) (fun _ => Option.some_ne_none _) (.nil rfl),
      by decide⟩
  have htext : content? (trim (ascii " t ")) = some "t" := by cbv
  have hend : endName (ascii "a") = ascii "a" := by decide
  have hwritten := Content.IsWritten.element ha (by decide) (.text htext (.emptyTag hb .nil)) hend
    (.emptyTag hc .nil)
  refine (((ofPieces_isTree _).2.1 _ hwritten).1 _ rfl).trans ?_
  cbv

end Markup
end UmlCatalog
