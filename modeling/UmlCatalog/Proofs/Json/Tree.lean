import UmlCatalog.Json.Document
import UmlCatalog.Proofs.Json.Words
import UmlCatalog.Proofs.Text.Utf8

/-!
# The tree of a written document

The words of a document are put together again into the tree of the document. The machine is
followed through one value at a time: it leaves a value in the state that it has after the
tree of that value, whatever lists and records are still open.
-/

namespace UmlCatalog.Json

mutual
/-- The tree of a document. -/
def Document.ofWire : WireValue → Document
  | .text s => .string (some s)
  | .flag b => .bool b
  | .index n => .number (.ofIndex n)
  | .list vs => .list (listOfWire vs)
  | .record fs => .record (membersOfWire fs)

/-- The trees of the items of a list. -/
def Document.listOfWire : List WireValue → List Document
  | [] => []
  | v :: vs => ofWire v :: listOfWire vs

/-- The trees of the fields of a record, under their names. -/
def Document.membersOfWire : List (String × WireValue) → List (Option String × Document)
  | [] => []
  | (k, v) :: fs => (some k, ofWire v) :: membersOfWire fs
end

namespace State

theorem run_cons {s s' : State} {t : Token} (h : s.step t = some s') (ts : List Token) :
    s.run (t :: ts) = s'.run ts := by
  rw [run, h, Option.bind_some]

/-- No value starts with the end of a list. -/
theorem exists_words_eq_cons (v : WireValue) : ∃ t ts, words v = t :: ts ∧ t ≠ .closeList := by
  cases v with
  | text s => exact ⟨_, _, rfl, Token.noConfusion⟩
  | flag b => exact ⟨_, _, rfl, Token.noConfusion⟩
  | index n => exact ⟨_, _, rfl, Token.noConfusion⟩
  | list vs => cases vs <;> exact ⟨_, _, rfl, Token.noConfusion⟩
  | record fs => cases fs <;> exact ⟨_, _, rfl, Token.noConfusion⟩

/-- The first item of a list is read like any other value. -/
theorem run_firstItem (frames : List Frame) (v : WireValue) (ts : List Token) :
    (firstItem frames).run (words v ++ ts) = (value (.list [] :: frames)).run (words v ++ ts) := by
  obtain ⟨t, us, hwords, hopen⟩ := exists_words_eq_cons v
  have hstep : (firstItem frames).step t = (value (.list [] :: frames)).step t := by
    cases t <;> first | rfl | exact absurd rfl hopen
  rw [hwords, List.cons_append, run, run, hstep]

mutual
/-- The words of a value lead to the state after its tree. -/
theorem run_words (frames : List Frame) :
    ∀ v ts, (value frames).run (words v ++ ts) = (complete (.ofWire v) frames).run ts
  | .text s, ts => run_cons rfl ts
  | .flag b, ts => run_cons rfl ts
  | .index n, ts => run_cons rfl ts
  | .list [], ts => by
      rw [words, List.cons_append, run_cons rfl]
      exact run_cons rfl ts
  | .list (v :: vs), ts => by
      rw [words, List.cons_append, run_cons rfl, List.append_assoc, List.append_assoc,
        run_firstItem, run_words _ v]
      exact run_itemWords frames vs [.ofWire v] ts
  | .record [], ts => by
      rw [words, List.cons_append, run_cons rfl]
      exact run_cons rfl ts
  | .record ((k, v) :: fs), ts => by
      rw [words, List.cons_append, run_cons rfl, List.cons_append, run_cons rfl,
        List.cons_append, run_cons rfl, List.append_assoc, List.append_assoc, run_words _ v]
      exact run_fieldWords frames fs [(some k, .ofWire v)] ts

/-- The words of the remaining items of a list lead to the state after the list. -/
theorem run_itemWords (frames : List Frame) :
    ∀ vs items ts, (afterItem items frames).run (itemWords vs ++ (.closeList :: ts)) =
      (complete (.list (items.reverse ++ Document.listOfWire vs)) frames).run ts
  | [], items, ts => by
      rw [Document.listOfWire, List.append_nil]
      exact run_cons rfl ts
  | v :: vs, items, ts => by
      have hrest := run_itemWords frames vs (.ofWire v :: items) ts
      rw [List.reverse_cons, List.append_assoc] at hrest
      rw [itemWords, List.cons_append, run_cons rfl, List.append_assoc, run_words _ v]
      exact hrest

/-- The words of the remaining fields of a record lead to the state after the record. -/
theorem run_fieldWords (frames : List Frame) :
    ∀ fs members ts, (afterMember members frames).run (fieldWords fs ++ (.closeRecord :: ts)) =
      (complete (.record (members.reverse ++ Document.membersOfWire fs)) frames).run ts
  | [], members, ts => by
      rw [Document.membersOfWire, List.append_nil]
      exact run_cons rfl ts
  | (k, v) :: fs, members, ts => by
      have hrest := run_fieldWords frames fs ((some k, .ofWire v) :: members) ts
      rw [List.reverse_cons, List.append_assoc] at hrest
      rw [fieldWords, List.cons_append, run_cons rfl, List.cons_append, run_cons rfl,
        List.cons_append, run_cons rfl, List.append_assoc, run_words _ v]
      exact hrest
end

end State

/-! ## Reading what was written -/

section Written
variable {layout : Layout} (hlayout : layout.IsBlank) (v : WireValue)
include hlayout

theorem Document.ofGlyphs?_render :
    ofGlyphs? (Text.glyphs (render layout v)) = some (ofWire v) := by
  have hrun := State.run_words [] v []
  rw [List.append_nil] at hrun
  rw [ofGlyphs?, tokens?_render hlayout, Option.bind_some, ofTokens?, hrun]
  rfl

/-- A written document is read as its tree. -/
theorem Document.ofText_render : ofText (render layout v) = .ok (ofWire v) := by
  rw [ofText, ofGlyphs?_render hlayout]

/-- The bytes of a written document are read as its tree. -/
theorem Document.ofBytes_render : ofBytes (Text.encode (render layout v)) = .ok (ofWire v) := by
  rw [ofBytes, Text.decode_encode, ofGlyphs?_render hlayout]

end Written
end UmlCatalog.Json
