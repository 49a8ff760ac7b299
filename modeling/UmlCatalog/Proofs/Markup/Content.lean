import Mathlib.Data.List.Induction
import UmlCatalog.Proofs.Markup.Pieces
import UmlCatalog.Proofs.Markup.Tags

/-!
# Content and its pieces

What stands in a document, or between the tags of an element, is text, character data and elements
in turn, and an element has content of its own. The tree of an element is told by this recursion;
nothing around the element bears on it.

Content is written as pieces, with an end tag for each tag. If some end tags are missing at the end
then the elements of their tags are open, one inside the other.

## Main results

`Content.IsWritten.exists_reads`: the pieces of content leave open what was open, and the content is
taken in as a whole by the innermost open element.

## Implementation notes

An empty tag and a start tag with its end tag behind it write the same content, so no result
about content can tell them apart.
-/

namespace UmlCatalog.Markup

/-- What stands between two tags that match, or in a whole document. -/
inductive Content where
  | nil
  /-- A run of text as it is written, and what follows it. -/
  | text (run : List UInt8) (rest : Content)
  /-- A section of character data, and what follows it. -/
  | cdata (bytes : List UInt8) (rest : Content)
  /-- An element with its content, and what follows it. -/
  | element (tag : String) (attributes : List Attribute) (inner rest : Content)

/-- The text that fragments make up, unless all of them are empty. -/
def textOf (fragments : List String) : Option String :=
  if String.join fragments = "" then none else some (String.join fragments)

/-- The tree of an element with given fragments of text and children. -/
def treeOf (tag : String) (attributes : List Attribute) (fragments : List String)
    (children : List Element) : Element :=
  ⟨tag, .ofList (keptAttributes attributes), textOf fragments, children⟩

/-- What a run of text says: white space at both ends is removed, then entities are resolved. -/
def runText (run : List UInt8) : String := (content? (trim run)).getD ""

namespace Content

/-- The fragments of text that do not stand in one of the elements. -/
def fragments : Content → List String
  | nil => []
  | text run rest => runText run :: rest.fragments
  | cdata bytes rest => Text.decodeLossy bytes :: rest.fragments
  | element _ _ _ rest => rest.fragments

/-- The trees of the elements. -/
def elements : Content → List Element
  | nil => []
  | text _ rest => rest.elements
  | cdata _ rest => rest.elements
  | element tag attributes inner rest =>
      treeOf tag attributes inner.fragments inner.elements :: rest.elements

/-- Content with other content behind it. -/
def append : Content → Content → Content
  | nil, d => d
  | text run rest, d => text run (rest.append d)
  | cdata bytes rest, d => cdata bytes (rest.append d)
  | element tag attributes inner rest, d => element tag attributes inner (rest.append d)

theorem elements_append (c d : Content) : (c.append d).elements = c.elements ++ d.elements := by
  induction c with
  | nil => rfl
  | text run rest ih => exact ih
  | cdata bytes rest ih => exact ih
  | element tag attributes inner rest _ ih => exact congrArg (_ :: ·) ih

/-- The pieces that write content. Runs of text can be read, tags spell what they open, and each of
them has its end tag. -/
inductive IsWritten : Content → List Piece → Prop
  | nil : IsWritten nil []
  | passedOver {c : Content} {ps : List Piece} (rest : IsWritten c ps) :
      IsWritten c (.construct .passedOver :: ps)
  | text {run : List UInt8} {c : Content} {ps : List Piece} {s : String}
      (hrun : content? (trim run) = some s) (rest : IsWritten c ps) :
      IsWritten (text run c) (.run run :: ps)
  | cdata {bytes : List UInt8} {c : Content} {ps : List Piece} (rest : IsWritten c ps) :
      IsWritten (cdata bytes c) (.construct (.cdata bytes) :: ps)
  | emptyTag {inside name : List UInt8} {tag : String} {attrs : List Attribute} {c : Content}
      {ps : List Piece} (htag : SpellsTag inside name tag attrs) (rest : IsWritten c ps) :
      IsWritten (element tag attrs .nil c) (.construct (.tag (inside ++ [0x2F])) :: ps)
  | element {inside name closing : List UInt8} {tag : String} {attrs : List Attribute}
      {inner c : Content} {ps ps' : List Piece} (htag : SpellsTag inside name tag attrs)
      (hslash : inside.getLast? ≠ some 0x2F) (hinner : IsWritten inner ps)
      (hend : endName closing = name) (rest : IsWritten c ps') :
      IsWritten (element tag attrs inner c)
        (.construct (.tag inside) :: (ps ++ .construct (.endTag closing) :: ps'))

theorem IsWritten.append {c d : Content} {ps ps' : List Piece} (hc : c.IsWritten ps)
    (hd : d.IsWritten ps') : (c.append d).IsWritten (ps ++ ps') := by
  induction hc with
  | nil => exact hd
  | passedOver _ ih => exact .passedOver ih
  | text hrun _ ih => exact .text hrun ih
  | cdata _ ih => exact .cdata ih
  | emptyTag htag _ ih => exact .emptyTag htag ih
  | element htag hslash hinner hend _ _ ih =>
      rw [List.cons_append, List.append_assoc]
      exact .element htag hslash hinner hend ih

end Content

/-! ## What content does to what is read -/

/-- Text with more text behind it. -/
def withText (text : Option String) (s : String) : Option String :=
  if s = "" then text else some (text.getD "" ++ s)

@[simp] theorem withText_empty (text : Option String) : withText text "" = text := if_pos rfl

theorem withText_append (text : Option String) (s t : String) :
    withText text (s ++ t) = withText (withText text s) t := by
  by_cases hs : s = ""
  · rw [hs, withText_empty, String.empty_append]
  by_cases ht : t = ""
  · rw [ht, withText_empty, String.append_empty]
  have hst : s ++ t ≠ "" := by simpa using fun hs' => absurd hs' hs
  simp only [withText, if_neg hs, if_neg ht, if_neg hst, Option.getD_some, String.append_assoc]

theorem textOf_eq (fragments : List String) :
    textOf fragments = withText none (String.join fragments) := by
  rw [textOf, withText, Option.getD_none, String.empty_append]

theorem Element.addText_eq (e : Element) (s : String) :
    e.addText s = { e with text := withText e.text s } := by
  unfold addText withText
  by_cases hs : s = ""
  · rw [hs, if_pos rfl, if_pos (by decide)]
    cases e
    rfl
  · rw [if_neg hs, if_neg (by simpa using hs)]

/-- An element with content behind what is in it. -/
def Element.fill (e : Element) (c : Content) : Element :=
  { e with
    text := withText e.text (String.join c.fragments)
    children := e.children ++ c.elements }

theorem Element.fill_nil (e : Element) : e.fill .nil = e := by
  have htext : withText e.text (String.join []) = e.text := withText_empty e.text
  rw [fill, Content.fragments, Content.elements, List.append_nil, htext]
  cases e
  rfl

/-- An element is opened empty, and has its tree once its content is in it. -/
theorem fill_opened (tag : String) (attrs : List Attribute) (c : Content) :
    (Progress.opened tag (keptAttributes attrs)).fill c =
      treeOf tag attrs c.fragments c.elements := by
  rw [treeOf, textOf_eq]
  rfl

namespace Progress

/-- What has been read when content is read: it goes into the innermost open element, and if none is
open then its first element may be the root. -/
def take (p : Progress) (c : Content) : Progress :=
  match p.stack with
  | top :: rest => { p with stack := top.fill c :: rest }
  | [] => { p with root := p.root.or c.elements.head? }

variable (p : Progress) (c : Content)

theorem take_nil : p.take .nil = p := by
  obtain ⟨_ | ⟨top, rest⟩, root⟩ := p
  · simp only [take, Content.elements, List.head?_nil, Option.or_none]
  · simp only [take, Element.fill_nil]

/-- Text goes in front of the content behind it. -/
theorem take_addText {c d : Content} {s : String}
    (hfragments : d.fragments = s :: c.fragments) (helements : d.elements = c.elements) :
    (p.addText s).take c = p.take d := by
  obtain ⟨_ | ⟨top, rest⟩, root⟩ := p
  · simp only [addText, take, helements]
  · simp only [addText, take, Element.fill, Element.addText_eq, hfragments, helements,
      String.join_cons, withText_append]

/-- A complete element goes in front of the content behind it. -/
theorem take_complete (tag : String) (attrs : List Attribute) (inner : Content) :
    (complete (treeOf tag attrs inner.fragments inner.elements) p.stack p.root).take c =
      p.take (.element tag attrs inner c) := by
  obtain ⟨_ | ⟨top, rest⟩, root⟩ := p
  · simp only [complete, take, Content.elements, Option.or_assoc, List.head?_cons]
    rfl
  · simp only [complete, take, Element.fill, Element.addChild, Content.fragments,
      Content.elements, List.append_assoc, List.singleton_append]

end Progress

/-! ## The events of pieces -/

/-- Pieces are read as events, and leave other elements open than before. -/
def Reads (names : List (List UInt8)) (ps : List Piece) (names' : List (List UInt8))
    (es : List Event) : Prop :=
  ∀ events, ps.foldlM Reading.add ⟨names, events⟩ = .ok ⟨names', es.reverse ++ events⟩

namespace Reads
variable {names names' names'' : List (List UInt8)} {ps ps' : List Piece} {es es' : List Event}

theorem nil : Reads names [] names [] := fun _ => rfl

theorem foldlM_append (h : Reads names ps names' es) (ps' : List Piece)
    (events : List Event) :
    (ps ++ ps').foldlM Reading.add ⟨names, events⟩ =
      ps'.foldlM Reading.add ⟨names', es.reverse ++ events⟩ := by
  rw [List.foldlM_append, h events]
  rfl

theorem append (h : Reads names ps names' es) (h' : Reads names' ps' names'' es') :
    Reads names (ps ++ ps') names'' (es ++ es') := by
  intro events
  rw [h.foldlM_append, h', List.reverse_append, List.append_assoc]

theorem of_add {p : Piece}
    (h : ∀ events, Reading.add ⟨names, events⟩ p = .ok ⟨names', es.reverse ++ events⟩) :
    Reads names [p] names' es := by
  intro events
  rw [List.foldlM_cons, h events]
  rfl

theorem passedOver : Reads names [.construct .passedOver] names [] := of_add fun _ => rfl

theorem cdata (bytes : List UInt8) :
    Reads names [.construct (.cdata bytes)] names [.cdata (Text.decodeLossy bytes)] :=
  of_add fun _ => rfl

theorem endTag {name closing : List UInt8} (h : endName closing = name) :
    Reads (name :: names) [.construct (.endTag closing)] names [.endTag] := by
  refine of_add fun events => ?_
  simp only [Reading.add, Reading.addConstruct, if_pos h]
  rfl

section Tag
variable {inside name : List UInt8} {tag : String} {attrs : List Attribute}
  (htag : SpellsTag inside name tag attrs)
include htag

theorem emptyTag : Reads names [.construct (.tag (inside ++ [0x2F]))] names
    [.emptyTag tag (keptAttributes attrs)] := by
  refine of_add fun events => ?_
  simp only [Reading.add, Reading.addConstruct, tagEvent_empty htag]
  rfl

theorem startTag (hslash : inside.getLast? ≠ some 0x2F) :
    Reads names [.construct (.tag inside)] (name :: names)
      [.startTag tag (keptAttributes attrs)] := by
  refine of_add fun events => ?_
  simp only [Reading.add, Reading.addConstruct, tagEvent_start htag hslash]
  rfl

end Tag
end Reads

theorem content?_nil : content? [] = some "" := by
  simp [content?, Text.decode?, Text.characters?, resolve?, resolveOnto]

/-- A run of text adds what it says, if only by having no event. -/
theorem exists_reads_run {run : List UInt8} {s : String} (h : content? (trim run) = some s) :
    ∃ es : List Event, (∀ names, Reads names [.run run] names es) ∧
      ∀ p : Progress, es.foldl Progress.step p = p.addText s := by
  cases hblank : trim run with
  | nil =>
      rw [hblank, content?_nil] at h
      refine ⟨[], fun names => Reads.of_add fun events => ?_, fun p => ?_⟩
      · simp only [Reading.add, Reading.addText, hblank]
        rfl
      · rw [← Option.some.inj h]
        obtain ⟨_ | ⟨top, rest⟩, root⟩ := p <;> rfl
  | cons b bytes =>
      rw [hblank] at h
      refine ⟨[.text s], fun names => Reads.of_add fun events => ?_, fun p => rfl⟩
      simp only [Reading.add, Reading.addText, hblank, h]
      rfl

/-- Written content leaves the elements open that were open, and is taken in as a whole. -/
theorem Content.IsWritten.exists_reads {c : Content} {ps : List Piece} (h : c.IsWritten ps) :
    ∃ es : List Event, (∀ names, Reads names ps names es) ∧
      ∀ p : Progress, es.foldl Progress.step p = p.take c := by
  induction h with
  | nil => exact ⟨[], fun _ => .nil, fun p => p.take_nil.symm⟩
  | passedOver _ ih =>
      obtain ⟨es, hes, htake⟩ := ih
      exact ⟨es, fun names => Reads.passedOver.append (hes names), htake⟩
  | @text run c ps s hrun rest ih =>
      obtain ⟨es, hes, htake⟩ := ih
      obtain ⟨es₀, hes₀, hadd⟩ := exists_reads_run hrun
      have hsaid : runText run = s := by rw [runText, hrun, Option.getD_some]
      refine ⟨es₀ ++ es, fun names => (hes₀ names).append (hes names), fun p => ?_⟩
      rw [List.foldl_append, hadd, htake]
      exact p.take_addText (d := .text run c) (congrArg (· :: c.fragments) hsaid) rfl
  | @cdata bytes c ps rest ih =>
      obtain ⟨es, hes, htake⟩ := ih
      refine ⟨_, fun names => (Reads.cdata bytes).append (hes names), fun p => ?_⟩
      rw [List.foldl_append, htake]
      exact p.take_addText rfl rfl
  | @emptyTag inside name tag attrs c ps htag rest ih =>
      obtain ⟨es, hes, htake⟩ := ih
      refine ⟨_, fun names => (Reads.emptyTag htag).append (hes names), fun p => ?_⟩
      rw [List.foldl_append, htake]
      exact p.take_complete c tag attrs .nil
  | @element inside name closing tag attrs inner c ps ps' htag hslash hinner hend rest ih ih' =>
      obtain ⟨es, hes, htake⟩ := ih
      obtain ⟨es', hes', htake'⟩ := ih'
      refine ⟨_, fun names => (Reads.startTag htag hslash).append ((hes (name :: names)).append
        ((Reads.endTag hend).append (hes' names))), fun p => ?_⟩
      rw [List.foldl_append, List.foldl_append, List.foldl_append, htake, htake']
      show (Progress.complete ((Progress.opened tag (keptAttributes attrs)).fill inner)
        p.stack p.root).take c = _
      rw [fill_opened]
      exact p.take_complete c tag attrs inner

end UmlCatalog.Markup
