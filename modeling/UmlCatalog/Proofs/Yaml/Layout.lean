import UmlCatalog.Proofs.Yaml.Literal
import UmlCatalog.Proofs.Yaml.Plain
import UmlCatalog.Proofs.Yaml.Quoted

/-!
# Words and lines of a written text

The layout of a written text is followed from word to word. Where a value ends, the next line is
reached in one of several ways: its indentation may have been passed over with the value or not.
What matters is where the next word starts, so such layouts are not told apart.
-/

namespace UmlCatalog.Yaml.Layout

/-- The layout at some place outside brackets. -/
def outside (rest : List Char) (place : Place) (columns : List Nat) (key : Option PossibleKey)
    (keyAllowed : Bool) (tokens : List Token) : Layout :=
  ⟨rest, place, columns, key, [], keyAllowed, tokens.length, tokens⟩

/-! ## Runs -/

/-- A run from one layout goes on from another one, with a number of words that the text between
them has room for. -/
def Reaches (l l' : Layout) : Prop :=
  ∃ k, k + l'.rest.length ≤ l.rest.length ∧ ∀ n, run (n + k) l = run n l'

theorem Reaches.refl (l : Layout) : l.Reaches l := ⟨0, by omega, fun _ => rfl⟩

theorem Reaches.trans {l l' l'' : Layout} (h : l.Reaches l') (h' : l'.Reaches l'') :
    l.Reaches l'' := by
  obtain ⟨k, hk, hrun⟩ := h
  obtain ⟨k', hk', hrun'⟩ := h'
  refine ⟨k' + k, by omega, fun n => ?_⟩
  rw [← Nat.add_assoc, hrun, hrun']

theorem run_congr {l l' : Layout} (h : l.advance = l'.advance) (n : Nat) : run n l = run n l' := by
  rw [run.eq_def n l, run.eq_def n l']
  dsimp only
  rw [h]

/-- Layouts with the same next word are not told apart. -/
theorem Reaches.of_advance {l l' : Layout} (h : l.advance = l'.advance)
    (hrest : l'.rest.length ≤ l.rest.length) : l.Reaches l' :=
  ⟨0, by omega, run_congr h⟩

/-- A word is read, and what is reached has the same next word as the layout behind it. -/
theorem Reaches.of_token {l l' l'' : Layout} {c : Char} {cs : List Char} (h : l.advance = l)
    (hrest : l.rest = c :: cs) (htoken : l.token c cs = some l') (hsame : l'.advance = l''.advance)
    (hlength : l''.rest.length ≤ cs.length) : l.Reaches l'' := by
  refine ⟨1, by rw [hrest, List.length_cons]; omega, fun n => ?_⟩
  rw [← run_congr hsame n, run.eq_def (n + 1) l]
  simp only [h, hrest, htoken, Option.bind_some]

/-! ## Gaps -/

section Gap
variable {keyAllowed : Bool} {place : Place} {cs : List Char}

theorem skipGap_indentation (n : Nat) :
    skipGap false keyAllowed false place (indentation n ++ cs) =
      skipGap false keyAllowed false (place.past (indentation n)) cs := by
  induction n generalizing place with
  | zero => rfl
  | succ n ih =>
      rw [indentation_succ, List.cons_append, Place.past_cons, ← ih, skipGap]
      simp [isBreak]

theorem skipGap_newline :
    skipGap false keyAllowed false place ('\n' :: cs) =
      skipGap false true false place.nextLine cs := by
  rw [skipGap]
  simp [isBreak]

theorem skipGap_word {c : Char} (h : StartsWord c) (flow : Bool) :
    skipGap flow keyAllowed false place (c :: cs) = ⟨keyAllowed, c :: cs, place⟩ := by
  have hblank := h.isBlank
  simp only [isBlank, Bool.or_eq_false_iff, decide_eq_false_iff_not] at hblank
  rw [skipGap]
  simp [h.isBreak, h.ne_hash, h.ne_mark, hblank]

end Gap

section Advance
variable {rest cs : List Char} {place : Place} {columns : List Nat} {key : Option PossibleKey}
  {keyAllowed : Bool} {tokens : List Token}

theorem advance_outside (s : Scanned Bool)
    (h : skipGap false keyAllowed false place rest = s) :
    (outside rest place columns key keyAllowed tokens).advance =
      outside s.rest s.place (columns.dropWhile fun column => s.place.column < column) key s.result
        (List.replicate (columns.takeWhile fun column => s.place.column < column).length .closeBlock
          ++ tokens) := by
  subst h
  simp [advance, outside, closeBlocks, isFlow, resume, Nat.add_comm]

/-- No block is closed in front of a word that stands inside all of them. -/
theorem advance_outside_of_le (s : Scanned Bool)
    (h : skipGap false keyAllowed false place rest = s)
    (hcolumns : ∀ column, columns.head? = some column → column ≤ s.place.column) :
    (outside rest place columns key keyAllowed tokens).advance =
      outside s.rest s.place columns key s.result tokens := by
  rw [advance_outside s h]
  cases columns with
  | nil => rfl
  | cons column outer =>
      have hle : ¬ s.place.column < column := Nat.not_lt.mpr (hcolumns column rfl)
      simp [hle]

/-- The layout in front of a word stays where it is. -/
theorem advance_word {c : Char} (hc : StartsWord c)
    (hcolumns : ∀ column, columns.head? = some column → column ≤ place.column) :
    (outside (c :: cs) place columns key keyAllowed tokens).advance =
      outside (c :: cs) place columns key keyAllowed tokens :=
  advance_outside_of_le _ (skipGap_word hc false) hcolumns

/-- It does not matter whether the end of a line has been passed over. -/
theorem advance_newline :
    (outside ('\n' :: rest) place columns key keyAllowed tokens).advance =
      (outside rest place.nextLine columns key true tokens).advance := by
  rw [advance_outside _ skipGap_newline, advance_outside _ rfl]

/-- It does not matter whether the indentation of a line has been passed over. -/
theorem advance_indentation (line n : Nat) :
    (outside rest (Place.past ⟨line, 0, 0⟩ (indentation n)) columns key true tokens).advance =
      (outside (indentation n ++ rest) ⟨line, 0, 0⟩ columns key true tokens).advance := by
  rw [advance_outside _ rfl, advance_outside _ (skipGap_indentation n)]

/-- White space in front of a word is passed over. -/
theorem reaches_indentation (n : Nat) :
    (outside (indentation n ++ rest) place columns key keyAllowed tokens).Reaches
      (outside rest (place.past (indentation n)) columns key keyAllowed tokens) := by
  refine .of_advance ?_ (List.length_append ▸ Nat.le_add_left _ _)
  rw [advance_outside _ rfl, advance_outside _ rfl, skipGap_indentation]

theorem reaches_space :
    (outside (' ' :: rest) place columns key keyAllowed tokens).Reaches
      (outside rest (place.along 1) columns key keyAllowed tokens) :=
  reaches_indentation 1

/-- A block ends in front of a line that is not indented as deep. -/
theorem reaches_closeBlock {around inner line : Nat} {outer : List Nat} (hlt : around < inner)
    (h : Follows (around :: outer) rest) :
    (outside rest ⟨line, 0, 0⟩ (inner :: around :: outer) key true tokens).Reaches
      (outside rest ⟨line, 0, 0⟩ (around :: outer) key true (.closeBlock :: tokens)) := by
  refine .of_advance ?_ (Nat.le_refl _)
  have hcolumn : ∀ s, skipGap false true false ⟨line, 0, 0⟩ rest = s → s.place.column < inner := by
    rintro s rfl
    cases h with
    | nil => exact Nat.zero_lt_of_lt hlt
    | @line n _ _ c cs hle hc =>
        rw [skipGap_indentation, skipGap_word hc false, Place.past_column, length_indentation]
        show 0 + n < inner
        omega
  rw [advance_outside _ rfl, advance_outside _ rfl]
  have hlt := hcolumn _ rfl
  simp [hlt, List.replicate_succ', List.append_assoc]

end Advance

/-! ## Indicators -/

/-- A possible key whose colon can no longer come in a line. -/
def IsStale (line : Nat) (key : Option PossibleKey) : Prop :=
  ∀ k, key = some k → k.required = false ∧ k.place.line < line

theorem isStale_none (line : Nat) : IsStale line none := nofun

theorem IsStale.mono {line line' : Nat} {key : Option PossibleKey} (h : IsStale line key)
    (hle : line ≤ line') : IsStale line' key :=
  fun k hk => ⟨(h k hk).1, (h k hk).2.trans_le hle⟩

/-- The line in front of a text is reached, without a key that its colon could still follow. -/
def ReachesLine (l : Layout) (follow : List Char) (columns : List Nat) (tokens : List Token) :
    Prop :=
  ∃ line key, IsStale line key ∧ l.Reaches (outside follow ⟨line, 0, 0⟩ columns key true tokens)

section ReachesLine
variable {l l' : Layout} {follow follow' : List Char} {columns columns' : List Nat}
  {tokens tokens' : List Token}

theorem Reaches.reachesLine (h : l.Reaches l') (h' : l'.ReachesLine follow columns tokens) :
    l.ReachesLine follow columns tokens := by
  obtain ⟨line, key, hkey, hline⟩ := h'
  exact ⟨line, key, hkey, h.trans hline⟩

theorem ReachesLine.trans (h : l.ReachesLine follow columns tokens)
    (h' : ∀ line key, IsStale line key →
      (outside follow ⟨line, 0, 0⟩ columns key true tokens).ReachesLine follow' columns' tokens') :
    l.ReachesLine follow' columns' tokens' := by
  obtain ⟨line, key, hkey, hline⟩ := h
  exact hline.reachesLine (h' line key hkey)

end ReachesLine

/-- The block of a word at a column is a new one inside the open blocks, or the innermost of
them. -/
inductive Opens (column : Nat) (outer : List Nat) : List Nat → Bool → Prop
  | new (h : ∀ around, outer.head? = some around → around < column) : Opens column outer outer true
  | old : Opens column outer (column :: outer) false

theorem Opens.head_le {column : Nat} {outer columns : List Nat} {new : Bool}
    (h : Opens column outer columns new) :
    ∀ around, columns.head? = some around → around ≤ column := by
  cases h with
  | new h => exact fun around ha => (h around ha).le
  | old => exact fun around ha => (Option.some.inj ha).ge

theorem head?_all_lt {column : Nat} {columns : List Nat}
    (h : ∀ around, columns.head? = some around → around < column) :
    columns.head?.all (fun c => c < column) = true := by
  cases hhead : columns.head? with
  | none => rfl
  | some around => exact decide_eq_true (h around hhead)

/-- The token that opens a block, if it is a new one. -/
def opening (t : Token) (new : Bool) : List Token := if new then [t] else []

section Indicators
variable {rest cs : List Char} {place : Place} {columns outer : List Nat}
  {key : Option PossibleKey} {keyAllowed new : Bool} {tokens : List Token} {line : Nat}

theorem openBlock_outside (h : Opens place.column outer columns new) (t : Token) :
    (outside rest place columns key keyAllowed tokens).openBlock t =
      outside rest place (place.column :: outer) key keyAllowed (opening t new ++ tokens) := by
  cases h with
  | old => simp [openBlock, outside, isFlow, isDeeper, opening]
  | new h =>
      have hopen : (!isFlow (outside rest place columns key keyAllowed tokens) &&
          isDeeper (outside rest place columns key keyAllowed tokens) place.column) = true :=
        head?_all_lt h
      exact if_pos hopen

theorem dropKey_outside (h : IsStale line key) :
    (outside rest place columns key keyAllowed tokens).dropKey =
      some (outside rest place columns none keyAllowed tokens) := by
  cases key with
  | none => rfl
  | some k => simp [dropKey, outside, (h k rfl).1]

/-- The hyphen before an item. -/
theorem reaches_item (h : Opens place.column outer columns new) (hkey : IsStale line key)
    (hgap : atGap rest = true) :
    (outside ('-' :: rest) place columns key true tokens).Reaches
      (outside rest (place.along 1) (place.column :: outer) none true
        (.item :: (opening .openBlockList new ++ tokens))) := by
  have hstart : StartsWord '-' := by decide
  refine .of_token (advance_word hstart h.head_le) rfl ?_ rfl (Nat.le_refl _)
  have htoken : (outside ('-' :: rest) place columns key true tokens).token '-' rest =
      (outside ('-' :: rest) place columns key true tokens).item := by
    have hmark : isDocumentMark ('-' :: rest) = false := by
      cases rest with
      | nil => rfl
      | cons c rest =>
          have hc : c ≠ '-' := by
            rintro rfl
            cases hgap
          simp [isDocumentMark, hc]
    simp [token, hmark, hgap]
  rw [htoken, item, openBlock_outside h, dropKey_outside hkey]
  rfl

/-- The mark before a key that has its colon on a line of its own. -/
theorem reaches_key (h : Opens place.column outer columns new) (hkey : IsStale line key)
    (hgap : atGap rest = true) :
    (outside ('?' :: rest) place columns key true tokens).Reaches
      (outside rest (place.along 1) (place.column :: outer) none true
        (.key :: (opening .openBlockRecord new ++ tokens))) := by
  have hstart : StartsWord '?' := by decide
  refine .of_token (advance_word hstart h.head_le) rfl ?_ rfl (Nat.le_refl _)
  have htoken : (outside ('?' :: rest) place columns key true tokens).token '?' rest =
      (outside ('?' :: rest) place columns key true tokens).key := by
    simp [token, isDocumentMark, hgap]
  rw [htoken, Layout.key, openBlock_outside h, dropKey_outside hkey]
  rfl

/-- The colon on a line of its own. -/
theorem reaches_value (hkey : IsStale place.line key) (hgap : atGap rest = true) :
    (outside (':' :: rest) place (place.column :: outer) key true tokens).Reaches
      (outside rest (place.along 1) (place.column :: outer) none true (.value :: tokens)) := by
  have hstart : StartsWord ':' := by decide
  refine .of_token (advance_word hstart Opens.old.head_le) rfl ?_ rfl (Nat.le_refl _)
  have htoken :
      (outside (':' :: rest) place (place.column :: outer) key true tokens).token ':' rest =
      (outside (':' :: rest) place (place.column :: outer) key true tokens).value := by
    simp [token, isDocumentMark, hgap]
  have hexpire : (outside (':' :: rest) place (place.column :: outer) key true tokens).expireKey =
      some (outside (':' :: rest) place (place.column :: outer) none true tokens) := by
    cases key with
    | none => rfl
    | some k =>
        have hpast : k.isPast place = true := by
          simp [PossibleKey.isPast, (hkey k rfl).2]
        rw [expireKey, if_pos (by simpa [outside] using hpast), dropKey_outside hkey]
  have hopen : (outside (':' :: rest) place (place.column :: outer) none true tokens).openBlock
      .openBlockRecord = outside (':' :: rest) place (place.column :: outer) none true tokens :=
    openBlock_outside .old _
  rw [htoken, value, hexpire, Option.bind_eq_bind, Option.bind_some]
  exact congrArg (fun l => some (({ l with keyAllowed := !l.isFlow }.skip 1).push .value)) hopen

/-- The colon behind a key on the same line. The key may open a block. -/
theorem reaches_value_simple {k : PossibleKey} {s : Token}
    (h : Opens k.place.column outer columns new) (hbefore : k.before = tokens.length)
    (hpast : k.isPast place = false)
    (hcolumn : k.place.column ≤ place.column) (hgap : atGap rest = true) :
    (outside (':' :: rest) place columns (some k) false (s :: tokens)).Reaches
      (outside rest (place.along 1) (k.place.column :: outer) none false
        (.value :: s :: .key :: (opening .openBlockRecord new ++ tokens))) := by
  have hstart : StartsWord ':' := by decide
  refine .of_token (advance_word hstart fun around ha => (h.head_le around ha).trans hcolumn) rfl ?_
    rfl (Nat.le_refl _)
  have htoken : (outside (':' :: rest) place columns (some k) false (s :: tokens)).token ':' rest =
      (outside (':' :: rest) place columns (some k) false (s :: tokens)).value := by
    simp [token, isDocumentMark, hgap]
  have hexpire : (outside (':' :: rest) place columns (some k) false (s :: tokens)).expireKey =
      some (outside (':' :: rest) place columns (some k) false (s :: tokens)) := by
    simp [expireKey, outside, hpast]
  have hconfirm : (outside (':' :: rest) place columns (some k) false (s :: tokens)).confirmKey k =
      outside (':' :: rest) place (k.place.column :: outer) none false
        (s :: .key :: (opening .openBlockRecord new ++ tokens)) := by
    cases h with
    | old => simp [confirmKey, outside, isFlow, isDeeper, insertAt, opening, hbefore]
    | new h =>
        have hdeeper := head?_all_lt h
        simp [confirmKey, outside, isFlow, isDeeper, insertAt, opening, hbefore, hdeeper]
  rw [htoken, value, hexpire, Option.bind_eq_bind, Option.bind_some]
  exact congrArg (fun l => some ((skip l 1).push .value)) hconfirm

end Indicators
end UmlCatalog.Yaml.Layout
