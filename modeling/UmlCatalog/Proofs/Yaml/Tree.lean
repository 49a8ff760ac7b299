import UmlCatalog.Proofs.Yaml.Words
import UmlCatalog.Yaml.Document

/-!
# The tree of a written document

The words of a document are put together again into its tree. As nothing is written in front of a
node, the machine only changes its state: it leaves a value in the state that it has after the node
of that value. A list that is no block of its own ends where something else than a hyphen comes,
which is the next key of the record around it or the end of that record.
-/

namespace UmlCatalog.Yaml

mutual
/-- The node that a document is read as. -/
def Node.ofWire : WireValue → Node
  | .text s => .scalar ⟨s, ScalarStyle.ofText s⟩ none
  | .flag b => .scalar ⟨if b then "true" else "false", .plain⟩ none
  | .index n => .scalar ⟨Nat.repr n, .plain⟩ none
  | .list vs => .list (listOfWire vs)
  | .record fs => .record (entriesOfWire fs)

/-- The nodes of the items of a list. -/
def Node.listOfWire : List WireValue → List Node
  | [] => []
  | v :: vs => ofWire v :: listOfWire vs

/-- The nodes of the fields of a record, behind those of their names. -/
def Node.entriesOfWire : List (String × WireValue) → List (Node × Node)
  | [] => []
  | (k, v) :: fs => (.scalar ⟨k, ScalarStyle.ofText k⟩ none, ofWire v) :: entriesOfWire fs
end

namespace Reading
variable {r : Reading} {frames : List Frame}

theorem run_cons {r r' : Reading} {t : Token} (h : r.step t = some r') (ts : List Token) :
    r.run (t :: ts) = r'.run ts := by
  rw [run, h, Option.bind_some]

theorem step_openBlockList (h : mayBeBlock frames = true) :
    (r.expect frames).step .openBlockList = some (r.goTo (.blockItem none [] frames)) := by
  show (r.expect frames).atNode .none frames .openBlockList = _
  rw [atNode, startNode, if_pos h]
  rfl

theorem step_openBlockRecord (h : mayBeBlock frames = true) :
    (r.expect frames).step .openBlockRecord = some (r.goTo (.blockKey none [] frames)) := by
  show (r.expect frames).atNode .none frames .openBlockRecord = _
  rw [atNode, startNode, if_pos h]
  rfl

/-- What stands behind a list that is no block of its own: anything but an item. -/
def EndsItems (ts : List Token) : Prop := ∃ t us, ts = t :: us ∧ t ≠ .item

/-- Where a value can be put: not inside brackets, and a list that is no block of its own only as
the value of a field. -/
structure Admits (sameLine : Bool) (frames : List Frame) (ts : List Token) : Prop where
  mayBeBlock : Yaml.mayBeBlock frames = true
  blockValue : sameLine = false → ∃ a entries key outer, frames = .blockValue a entries key :: outer
  endsItems : sameLine = false → EndsItems ts

theorem endsItems_fieldWords_append (fs : List (String × WireValue)) (ts : List Token) :
    EndsItems (fieldWords fs ++ .closeBlock :: ts) := by
  cases fs with
  | nil => exact ⟨_, _, rfl, Token.noConfusion⟩
  | cons f fs => exact ⟨_, _, rfl, Token.noConfusion⟩

theorem admits_blockValue {sameLine : Bool} {a : Option Nat} {entries : List (Node × Node)}
    {key : Node} (fs : List (String × WireValue)) (ts : List Token) :
    Admits sameLine (.blockValue a entries key :: frames) (fieldWords fs ++ .closeBlock :: ts) :=
  ⟨rfl, fun _ => ⟨_, _, _, _, rfl⟩, fun _ => endsItems_fieldWords_append fs ts⟩

/-- The end of a list that is no block of its own. -/
theorem run_bareItem {a : Option Nat} {entries : List (Node × Node)} {key : Node} {ts : List Token}
    (items : List Node) (h : EndsItems ts) :
    (r.goTo (.bareItem none items (.blockValue a entries key :: frames))).run ts =
      (r.goTo (.blockKey a ((key, .list items.reverse) :: entries) frames)).run ts := by
  obtain ⟨t, us, rfl, ht⟩ := h
  have hstep : (r.goTo (.bareItem none items (.blockValue a entries key :: frames))).step t =
      (r.goTo (.blockKey a ((key, .list items.reverse) :: entries) frames)).step t := by
    show atBareItem _ none items (.blockValue a entries key :: frames) t = _
    rw [atBareItem, if_neg ht]
    rfl
  rw [run, run, hstep]

mutual
/-- The words of a value lead to the state after its node. -/
theorem run_words (r : Reading) (sameLine : Bool) :
    ∀ v frames ts, Admits sameLine frames ts →
      (r.expect frames).run (words sameLine v ++ ts) =
        (r.goTo (.afterNode (.ofWire v) frames)).run ts
  | .text s, frames, ts, _ => run_cons rfl ts
  | .flag b, frames, ts, _ => run_cons rfl ts
  | .index n, frames, ts, _ => run_cons rfl ts
  | .list [], frames, ts, _ => by
      rw [words, List.cons_append, run_cons rfl]
      exact run_cons rfl ts
  | .list (v :: vs), frames, ts, h => by
      -- A block list ends with its block, any other list where `Admits` says that no item comes.
      cases sameLine with
      | true =>
          have hvalue := run_words r true v (.blockList none [] :: frames)
            (itemWords vs ++ .closeBlock :: ts) ⟨rfl, nofun, nofun⟩
          have hrest := run_itemWords r vs frames [.ofWire v] ts
          have hwords : words true (.list (v :: vs)) ++ ts = .openBlockList :: .item ::
              (words true v ++ (itemWords vs ++ .closeBlock :: ts)) := by
            simp [words, Layout.opening]
          rw [hwords, run_cons (step_openBlockList h.mayBeBlock), run_cons rfl]
          exact hvalue.trans hrest
      | false =>
          obtain ⟨a, entries, key, outer, rfl⟩ := h.blockValue rfl
          have hvalue := run_words r true v
            (.bareList none [] :: .blockValue a entries key :: outer) (itemWords vs ++ ts)
            ⟨rfl, nofun, nofun⟩
          have hrest := run_bareItems r vs outer a entries key [.ofWire v] ts (h.endsItems rfl)
          have hwords : words false (.list (v :: vs)) ++ ts = .item ::
              (words true v ++ (itemWords vs ++ ts)) := by
            simp [words, Layout.opening]
          rw [hwords, run_cons rfl]
          exact hvalue.trans hrest
  | .record [], frames, ts, _ => by
      rw [words, List.cons_append, run_cons rfl]
      exact run_cons rfl ts
  | .record ((k, v) :: fs), frames, ts, h => by
      have hvalue := run_words r (!isSimpleKey k) v
        (.blockValue none [] (.scalar ⟨k, ScalarStyle.ofText k⟩ none) :: frames)
        (fieldWords fs ++ .closeBlock :: ts) (admits_blockValue _ _)
      have hrest := run_fieldWords r fs frames
        [(.scalar ⟨k, ScalarStyle.ofText k⟩ none, .ofWire v)] ts
      have hwords : words sameLine (.record ((k, v) :: fs)) ++ ts = .openBlockRecord :: .key ::
          .scalar ⟨k, ScalarStyle.ofText k⟩ :: .value ::
            (words (!isSimpleKey k) v ++ (fieldWords fs ++ .closeBlock :: ts)) := by
        simp [words]
      rw [hwords, run_cons (step_openBlockRecord h.mayBeBlock), run_cons rfl, run_cons rfl,
        run_cons rfl]
      exact hvalue.trans hrest

/-- The words of items lead to the state after the list. -/
theorem run_itemWords (r : Reading) :
    ∀ vs frames items ts,
      (r.goTo (.blockItem none items frames)).run (itemWords vs ++ .closeBlock :: ts) =
        (r.goTo (.afterNode (.list (items.reverse ++ Node.listOfWire vs)) frames)).run ts
  | [], frames, items, ts => by
      rw [Node.listOfWire, List.append_nil]
      exact run_cons rfl ts
  | v :: vs, frames, items, ts => by
      have hvalue := run_words r true v (.blockList none items :: frames)
        (itemWords vs ++ .closeBlock :: ts) ⟨rfl, nofun, nofun⟩
      have hrest := run_itemWords r vs frames (.ofWire v :: items) ts
      rw [List.reverse_cons, List.append_assoc] at hrest
      rw [itemWords, List.cons_append, run_cons rfl, List.append_assoc]
      exact hvalue.trans hrest

/-- The words of items without a block of their own lead to the state after the list. -/
theorem run_bareItems (r : Reading) :
    ∀ vs frames a entries key items ts, EndsItems ts →
      (r.goTo (.bareItem none items (.blockValue a entries key :: frames))).run
          (itemWords vs ++ ts) =
        (r.goTo (.blockKey a ((key, .list (items.reverse ++ Node.listOfWire vs)) :: entries)
          frames)).run ts
  | [], frames, a, entries, key, items, ts, hts => by
      rw [Node.listOfWire, List.append_nil]
      exact run_bareItem items hts
  | v :: vs, frames, a, entries, key, items, ts, hts => by
      have hvalue := run_words r true v
        (.bareList none items :: .blockValue a entries key :: frames) (itemWords vs ++ ts)
        ⟨rfl, nofun, nofun⟩
      have hrest := run_bareItems r vs frames a entries key (.ofWire v :: items) ts hts
      rw [List.reverse_cons, List.append_assoc] at hrest
      rw [itemWords, List.cons_append, run_cons rfl, List.append_assoc]
      exact hvalue.trans hrest

/-- The words of fields lead to the state after the record. -/
theorem run_fieldWords (r : Reading) :
    ∀ fs frames entries ts,
      (r.goTo (.blockKey none entries frames)).run (fieldWords fs ++ .closeBlock :: ts) =
        (r.goTo (.afterNode (.record (entries.reverse ++ Node.entriesOfWire fs)) frames)).run ts
  | [], frames, entries, ts => by
      rw [Node.entriesOfWire, List.append_nil]
      exact run_cons rfl ts
  | (k, v) :: fs, frames, entries, ts => by
      have hvalue := run_words r (!isSimpleKey k) v
        (.blockValue none entries (.scalar ⟨k, ScalarStyle.ofText k⟩ none) :: frames)
        (fieldWords fs ++ .closeBlock :: ts) (admits_blockValue _ _)
      have hrest := run_fieldWords r fs frames
        ((.scalar ⟨k, ScalarStyle.ofText k⟩ none, .ofWire v) :: entries) ts
      rw [List.reverse_cons, List.append_assoc] at hrest
      rw [fieldWords, List.cons_append, List.cons_append, List.cons_append, List.append_assoc,
        run_cons rfl, run_cons rfl, run_cons rfl]
      exact hvalue.trans hrest
end

/-- The first word of a document needs no mark in front of it. -/
theorem exists_words_eq_cons (v : WireValue) :
    ∃ t ts, words true v = t :: ts ∧
      start.step t = (expect ⟨.prologue false [], .none, standardHandles⟩ []).step t := by
  cases v with
  | text s => exact ⟨_, _, rfl, rfl⟩
  | flag b => exact ⟨_, _, rfl, rfl⟩
  | index n => exact ⟨_, _, rfl, rfl⟩
  | list vs => cases vs <;> exact ⟨_, _, rfl, rfl⟩
  | record fs => cases fs <;> exact ⟨_, _, rfl, rfl⟩

end Reading

/-- The words of a document are read as its node, without anchors. -/
theorem Tree.ofTokens?_words (v : WireValue) :
    ofTokens? (words true v ++ [.streamEnd]) = some ⟨.ofWire v, .none⟩ := by
  obtain ⟨t, ts, hwords, hstep⟩ := Reading.exists_words_eq_cons v
  have hstart : Reading.start.run (words true v ++ [.streamEnd]) =
      (Reading.expect ⟨.prologue false [], .none, standardHandles⟩ []).run
        (words true v ++ [.streamEnd]) := by
    rw [hwords, List.cons_append, Reading.run, Reading.run, hstep]
  rw [ofTokens?, hstart, Reading.run_words _ true v [] [.streamEnd] ⟨rfl, nofun, nofun⟩]
  rfl

end UmlCatalog.Yaml
