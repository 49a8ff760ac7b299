import UmlCatalog.Proofs.Yaml.Character
import UmlCatalog.Yaml.Scalar.Block

/-!
# Reading literal scalars back

A literal scalar keeps its lines as they are. The reader does not know which end of a line is the
last one before it has seen what follows, so it holds the ends back; how many of them belong to the
text is written in front.
-/

namespace UmlCatalog.Yaml.Scalar

/-- The chomping under which a text keeps the ends of its last lines. -/
def chompingOf (cs : List Char) : Chomping :=
  match cs.reverse with
  | [] => .strip
  | [c] => if isBreak c then .keep else .strip
  | c :: d :: _ => if isBreak c then if isBreak d then .keep else .clip else .strip

section Chomping
variable {cs : List Char} {c d : Char}

theorem chompingOf_of_not_isBreak (h : isBreak c = false) : chompingOf (cs ++ [c]) = .strip := by
  unfold chompingOf
  rw [List.reverse_append, List.reverse_singleton, List.singleton_append]
  cases cs.reverse <;> simp [h]

theorem chompingOf_of_getLast? (h : isBreak c = true) (hd : cs.getLast? = some d) :
    chompingOf (cs ++ [c]) = if isBreak d then .keep else .clip := by
  obtain ⟨before, rfl⟩ := List.getLast?_eq_some_iff.mp hd
  simp [chompingOf, h]

end Chomping

/-- What is known of the lines of a literal scalar at a column once a part of its text has been
read: inside a line nothing is held back, and between two lines the ends that the text keeps. -/
inductive Holds (column : Nat) (read : List Char) : Bool → BlockLines → Prop
  | inside {b : BlockLines} {d : Char} (column_eq : b.column = some column)
      (last : read.getLast? = some d) (word : isBreak d = false) (text : b.text = read.reverse)
      (lineEnd : b.lineEnd = none) (empties : b.empties = []) : Holds column read true b
  | between {b : BlockLines} (column_eq : b.column = some column)
      (last : ∀ c, read.getLast? = some c → isBreak c = true)
      (kept : b.reverseText .keep = read.reverse)
      (chomped : b.reverseText (chompingOf read) = read.reverse) : Holds column read false b

section Holds
variable {b : BlockLines} {column least : Nat} {read : List Char} {c : Char} {chomping : Chomping}
  {place : Place}

theorem holds_start (column : Nat) : Holds column [] false (.start (some column)) :=
  .between rfl nofun rfl rfl

/-- The end of a line. -/
theorem Holds.break_inside (h : Holds column read true b) (hc : isBreak c = true) :
    Holds column (read ++ [c]) false { b with lineEnd := some c } := by
  cases h with
  | @inside _ d hcolumn hlast hword htext hend hempties =>
      have hkept : b.empties ++ ([c] ++ b.text) = (read ++ [c]).reverse := by
        rw [hempties, htext, List.reverse_append]
        rfl
      refine .between hcolumn (fun e he => ?_) hkept ?_
      · rw [List.getLast?_concat] at he
        obtain rfl := Option.some.inj he
        exact hc
      · rw [chompingOf_of_getLast? hc hlast, hword, htext, List.reverse_append]
        rfl

/-- An empty line. -/
theorem Holds.break_between (h : Holds column read false b) (hc : isBreak c = true)
    (deepest : Nat) : Holds column (read ++ [c]) false
      { b with empties := c :: b.empties, deepest := deepest } := by
  cases h with
  | between hcolumn hlast hkept hchomped =>
      have hkept' : c :: (b.empties ++ (b.lineEnd.toList ++ b.text)) = (read ++ [c]).reverse := by
        rw [List.reverse_append]
        exact congrArg (List.cons c) hkept
      have hchomping : chompingOf (read ++ [c]) = .keep := by
        cases hread : read.getLast? with
        | none =>
            rw [List.getLast?_eq_none_iff.mp hread]
            simp [chompingOf, hc]
        | some d => rw [chompingOf_of_getLast? hc hread, if_pos (hlast d hread)]
      refine .between hcolumn (fun e he => ?_) hkept' (by rw [hchomping]; exact hkept')
      rw [List.getLast?_concat] at he
      obtain rfl := Option.some.inj he
      exact hc

theorem Holds.char_inside (h : Holds column read true b) (hc : isBreak c = false) :
    Holds column (read ++ [c]) true { b with text := c :: b.text } := by
  cases h with
  | inside hcolumn _ _ htext hend hempties =>
      refine .inside hcolumn List.getLast?_concat hc ?_ hend hempties
      rw [List.reverse_append, ← htext]
      rfl

/-- The first character of a line. -/
theorem Holds.char_between (h : Holds column read false b) (hc : isBreak c = false)
    (isIndented : Bool) (deepest : Nat) : Holds column (read ++ [c]) true
      ⟨c :: b.joined true isIndented, none, [], isIndented, some column, deepest⟩ := by
  cases h with
  | between _ _ hkept _ =>
      refine .inside rfl List.getLast?_concat hc ?_ rfl rfl
      rw [List.reverse_append, ← hkept]
      simp [BlockLines.joined, BlockLines.reverseText]

end Holds

section Steps
variable {b : BlockLines} {column least : Nat} {c : Char} {chomping : Chomping} {place : Place}

/-- Indentation is passed over up to the column of the lines. -/
theorem blockFrom_indentation {n : Nat} (h : ∀ m, b.column = some m → place.column + n ≤ m)
    (cs : List Char) :
    blockFrom true chomping least false b place (indentation n ++ cs) =
      blockFrom true chomping least false b (place.past (indentation n)) cs := by
  induction n generalizing place with
  | zero => rfl
  | succ n ih =>
      have hindent : b.isIndentation place = true := by
        unfold BlockLines.isIndentation
        cases hcolumn : b.column with
        | none => rfl
        | some m =>
            have := h m hcolumn
            exact decide_eq_true (by omega)
      have hstep : ∀ m, b.column = some m → (place.next ' ').column + n ≤ m := fun m hm => by
        have := h m hm
        show place.column + 1 + n ≤ m
        omega
      rw [indentation_succ, List.cons_append, Place.past_cons, ← ih hstep, blockFrom]
      simp [hindent]

theorem blockFrom_break_between (hc : isBreak c = true) (cs : List Char) :
    blockFrom true chomping least false b place (c :: cs) =
      blockFrom true chomping least false
        { b with empties := c :: b.empties, deepest := max b.deepest place.column }
        place.nextLine cs := by
  have hblank := isBlank_eq_false_of_isBreak hc
  simp only [isBlank, Bool.or_eq_false_iff, decide_eq_false_iff_not] at hblank
  rw [blockFrom]
  simp [hc, hblank]

/-- A line starts at the column of the lines, which the first one settles. -/
theorem blockFrom_char_between (hb : b.settledColumn least place = place.column)
    (hindent : ∀ m, b.column = some m → m = place.column) (hspace : c = ' ' → b.column ≠ none)
    (htab : c ≠ '\t') (hc : isBreak c = false) (cs : List Char) :
    blockFrom true chomping least false b place (c :: cs) =
      blockFrom true chomping least true
        ⟨c :: b.joined true (isBlank c), none, [], isBlank c, some place.column, b.deepest⟩
        (place.next c) cs := by
  have hblank : ¬(b.isIndentation place = true ∧ c = ' ') := by
    rintro ⟨h, hc⟩
    obtain ⟨m, hm⟩ := Option.ne_none_iff_exists'.mp (hspace hc)
    rw [BlockLines.isIndentation, hm, hindent m hm] at h
    simp at h
  rw [blockFrom]
  simp [hblank, htab, hc, hb]

end Steps

section Read
variable {column least : Nat} (chomping : Chomping) {follow : List Char}

theorem writeLiteralFrom_break {afterBreak : Bool} {c : Char} (hc : isBreak c = true)
    (cs : List Char) :
    writeLiteralFrom column afterBreak (c :: cs) = c :: writeLiteralFrom column true cs := by
  rw [writeLiteralFrom, if_pos hc]

theorem writeLiteralFrom_char {afterBreak : Bool} {c : Char} (hc : isBreak c = false)
    (cs : List Char) :
    writeLiteralFrom column afterBreak (c :: cs) =
      (if afterBreak then indentation column else []) ++ c :: writeLiteralFrom column false cs := by
  rw [writeLiteralFrom, if_neg (by rw [hc]; exact Bool.false_ne_true)]

variable (least) in
/-- One character is read, with the indentation in front of it if it is the first of its line. -/
theorem exists_blockFrom_step (follow : List Char) {c : Char} (hc : isPrintable c = true)
    (cs : List Char) {inside : Bool} {b : BlockLines} {place : Place} {read : List Char}
    (hb : Holds column read inside b) (hplace : inside = false → ∃ line, place = ⟨line, 0, 0⟩) :
    ∃ b' place', Holds column (read ++ [c]) (!isBreak c) b' ∧
      (isBreak c = true → ∃ line, place' = ⟨line, 0, 0⟩) ∧
      blockFrom true chomping least inside b place
          (writeLiteralFrom column (!inside) (c :: cs) ++ follow) =
        blockFrom true chomping least (!isBreak c) b' place'
          (writeLiteralFrom column (isBreak c) cs ++ follow) := by
  cases hbreak : isBreak c with
  | true =>
      rw [writeLiteralFrom_break hbreak, List.cons_append]
      cases inside with
      | true =>
          refine ⟨_, place.nextLine, hb.break_inside hbreak, fun _ => ⟨_, rfl⟩, ?_⟩
          rw [blockFrom, if_pos rfl, if_pos hbreak]
          rfl
      | false =>
          refine ⟨_, place.nextLine, hb.break_between hbreak (max b.deepest place.column),
            fun _ => ⟨_, rfl⟩, ?_⟩
          exact blockFrom_break_between hbreak _
  | false =>
      rw [writeLiteralFrom_char hbreak, List.append_assoc, List.cons_append]
      cases inside with
      | true =>
          refine ⟨_, place.next c, hb.char_inside hbreak, nofun, ?_⟩
          rw [Bool.not_true, if_neg Bool.false_ne_true, List.nil_append, blockFrom, if_pos rfl,
            if_neg (by rw [hbreak]; exact Bool.false_ne_true)]
          rfl
      | false =>
          -- The column of the lines is known, so the indentation ends there even in front of a space.
          obtain ⟨line, rfl⟩ := hplace rfl
          have hcolumn : b.column = some column := by
            cases hb with
            | between hcolumn _ _ _ => exact hcolumn
          have hpast : (Place.past ⟨line, 0, 0⟩ (indentation column)).column = column := by
            rw [Place.past_column, length_indentation, Nat.zero_add]
          refine ⟨_, (Place.past ⟨line, 0, 0⟩ (indentation column)).next c,
            hb.char_between hbreak (isBlank c) b.deepest, nofun, ?_⟩
          rw [Bool.not_false, if_pos rfl, blockFrom_indentation fun m hm => ?_,
            blockFrom_char_between ?_ ?_ ?_ (ne_tab_of_isPrintable hc) hbreak, hpast]
          · rw [BlockLines.settledColumn, hcolumn, Option.getD_some, hpast]
          · intro m hm
            rw [hpast]
            exact Option.some.inj (hm.symm.trans hcolumn)
          · rw [hcolumn]
            exact fun _ => Option.some_ne_none column
          · obtain rfl := Option.some.inj (hm.symm.trans hcolumn)
            exact Nat.le_of_eq (Nat.zero_add _)

/-- Reading goes through the lines of a text, up to the start of the line behind it. -/
theorem exists_blockFrom (follow : List Char) (cs : List Char)
    (hprint : ∀ c ∈ cs, isPrintable c = true) (inside : Bool) (b : BlockLines) (place : Place)
    (read : List Char) (hb : Holds column read inside b)
    (hplace : inside = false → ∃ line, place = ⟨line, 0, 0⟩) :
    ∃ (b' : BlockLines) (line : Nat), b'.column = some column ∧
      b'.reverseText (chompingOf (read ++ cs)) = (read ++ cs).reverse ∧
      blockFrom true chomping least inside b place
          (writeLiteralFrom column (!inside) cs ++ follow) =
        blockFrom true chomping least false b' ⟨line, 0, 0⟩ follow := by
  induction cs generalizing inside b place read with
  | nil =>
      rw [List.append_nil]
      cases hb with
      | @inside _ d hcolumn hlast hword htext hend hempties =>
          obtain ⟨before, rfl⟩ := List.getLast?_eq_some_iff.mp hlast
          refine ⟨{ b with lineEnd := some '\n' }, place.line + 1, hcolumn, ?_, ?_⟩
          · rw [chompingOf_of_not_isBreak hword]
            exact htext
          · rw [Bool.not_true, writeLiteralFrom, if_neg Bool.false_ne_true, List.singleton_append,
              blockFrom]
            rfl
      | between hcolumn hlast hkept hchomped =>
          obtain ⟨line, rfl⟩ := hplace rfl
          exact ⟨b, line, hcolumn, hchomped, rfl⟩
  | cons c cs ih =>
      obtain ⟨hc, hcs⟩ := List.forall_mem_cons.mp hprint
      obtain ⟨b₁, place₁, hb₁, hplace₁, hstep⟩ :=
        exists_blockFrom_step least chomping follow hc cs hb hplace
      obtain ⟨b', line, hcolumn, htext, hread⟩ := ih hcs (!isBreak c) b₁ place₁ (read ++ [c]) hb₁
        fun hline => hplace₁ (by simpa using hline)
      rw [Bool.not_not] at hread
      rw [List.append_cons]
      exact ⟨b', line, hcolumn, htext, hstep.trans hread⟩

/-- A scalar ends in front of a line that is not indented as deep, or at the end of the text. -/
theorem exists_blockFrom_follow (least : Nat) {columns : List Nat}
    (hfollow : Follows columns follow)
    (hcolumn : ∀ around, columns.head? = some around → around < column) {b : BlockLines}
    (hb : b.column = some column) (line : Nat) :
    ∃ n w, follow = indentation n ++ w ∧
      blockFrom true chomping least false b ⟨line, 0, 0⟩ follow =
        some ⟨(b.reverseText chomping).reverse, w, Place.past ⟨line, 0, 0⟩ (indentation n)⟩ := by
  cases hfollow with
  | nil =>
      refine ⟨0, [], rfl, ?_⟩
      rw [blockFrom]
      rfl
  | @line n around outer c cs hle hc =>
      have hlt : n < column := Nat.lt_of_le_of_lt hle (hcolumn around rfl)
      have hpast : (Place.past ⟨line, 0, 0⟩ (indentation n)).column = n := by
        rw [Place.past_column, length_indentation, Nat.zero_add]
      refine ⟨n, c :: cs, rfl, ?_⟩
      rw [blockFrom_indentation fun m hm => ?_, blockFrom]
      · have hblank := hc.isBlank
        simp only [isBlank, Bool.or_eq_false_iff, decide_eq_false_iff_not] at hblank
        have hsettled :
            b.settledColumn least (Place.past ⟨line, 0, 0⟩ (indentation n)) = column := by
          rw [BlockLines.settledColumn, hb, Option.getD_some]
        simp [hblank, hc.isBreak, hsettled, Nat.ne_of_lt hlt]
      · obtain rfl := Option.some.inj (hm.symm.trans hb)
        show 0 + n ≤ m
        omega

end Read

/-! ## The header -/

/-- How a chomping is written. -/
def Chomping.word : Chomping → List Char
  | strip => ['-']
  | clip => []
  | keep => ['+']

/-- Whether the first line of a text does not show where the lines of a scalar start. -/
def hidesColumn (cs : List Char) : Bool := cs.head?.any fun c => c = ' ' || isBreak c

theorem literalHeader_eq (cs : List Char) : literalHeader cs =
    '|' :: ((if hidesColumn cs then upperHex 1 indentStep else []) ++ (chompingOf cs).word) := by
  refine congrArg (List.cons '|') (congrArg₂ (fun depth chomping => depth ++ chomping) ?_ ?_)
  · cases cs with
    | nil => rfl
    | cons c cs => simp [hidesColumn]
  · unfold chompingOf
    rcases cs.reverse with _ | ⟨c, _ | ⟨d, ds⟩⟩
    · rfl
    · dsimp only
      split <;> rfl
    · dsimp only
      split
      · split <;> rfl
      · rfl

/-- What is written in front of the lines is read back. -/
theorem exists_blockHeader (cs : List Char) (place : Place) (body : List Char) :
    ∃ line, blockHeader place
      ((if hidesColumn cs then upperHex 1 indentStep else []) ++ (chompingOf cs).word ++
        '\n' :: body) =
        some ⟨⟨chompingOf cs, if hidesColumn cs then some indentStep else none⟩, body,
          ⟨line, 0, 0⟩⟩ := by
  cases hidesColumn cs <;> cases chompingOf cs <;> exact ⟨_, rfl⟩

/-- The first line shows the column unless it starts with white space. -/
theorem blockFrom_start {column least : Nat} (hleast : least ≤ column) {chomping : Chomping}
    {c : Char} (hspace : c ≠ ' ') (htab : c ≠ '\t') (hbreak : isBreak c = false) (line : Nat)
    (cs : List Char) :
    blockFrom true chomping least false (.start none) ⟨line, 0, 0⟩
        (indentation column ++ c :: cs) =
      blockFrom true chomping least false (.start (some column)) ⟨line, 0, 0⟩
        (indentation column ++ c :: cs) := by
  have hpast : (Place.past ⟨line, 0, 0⟩ (indentation column)).column = column := by
    rw [Place.past_column, length_indentation, Nat.zero_add]
  have hstart : ∀ known : Option Nat, (∀ m, known = some m → m = column) →
      blockFrom true chomping least false (.start known) ⟨line, 0, 0⟩
          (indentation column ++ c :: cs) =
        blockFrom true chomping least true
          ⟨[c], none, [], isBlank c, some column, 0⟩
          ((Place.past ⟨line, 0, 0⟩ (indentation column)).next c) cs := by
    intro known hknown
    rw [blockFrom_indentation fun m hm => ?_,
      blockFrom_char_between ?_ ?_ (fun h => absurd h hspace) htab hbreak, hpast]
    · rfl
    · rw [BlockLines.settledColumn, hpast]
      cases known with
      | none =>
          show max (max 0 column) least = column
          omega
      | some m => exact hknown m rfl
    · intro m hm
      rw [hpast]
      exact hknown m hm
    · rw [hknown m hm]
      exact Nat.le_of_eq (Nat.zero_add _)
  rw [hstart none nofun, hstart (some column) fun m hm => (Option.some.inj hm).symm]

/-- The lines of a scalar start at the column that its header or its first line shows. -/
theorem blockFrom_start_written {column least : Nat} (hleast : least ≤ column)
    (chomping : Chomping) {cs : List Char} (hne : cs ≠ [])
    (hprint : ∀ c ∈ cs, isPrintable c = true) (line : Nat) (follow : List Char) :
    blockFrom true chomping least false
        (.start (if hidesColumn cs then some column else none)) ⟨line, 0, 0⟩
        (writeLiteralFrom column true cs ++ follow) =
      blockFrom true chomping least false (.start (some column)) ⟨line, 0, 0⟩
        (writeLiteralFrom column true cs ++ follow) := by
  cases hhides : hidesColumn cs with
  | true => rfl
  | false =>
      cases cs with
      | nil => exact absurd rfl hne
      | cons c cs =>
          simp only [hidesColumn, List.head?_cons, Option.any_some, Bool.or_eq_false_iff,
            decide_eq_false_iff_not] at hhides
          rw [writeLiteralFrom_char hhides.2, if_pos rfl, List.append_assoc, List.cons_append]
          exact blockFrom_start hleast hhides.1
            (ne_tab_of_isPrintable (hprint c List.mem_cons_self)) hhides.2 line _

/-- A literal scalar is read back, and the indentation of the line behind it is passed over. -/
theorem exists_block {columns : List Nat} {cs follow : List Char} (hne : cs ≠ [])
    (hprint : ∀ c ∈ cs, isPrintable c = true) (hfollow : Follows columns follow) (place : Place) :
    ∃ header line n w, literalHeader cs = '|' :: header ∧ follow = indentation n ++ w ∧
      block true columns.head? place (header ++
        '\n' :: (writeLiteralFrom (columns.head?.getD 0 + indentStep) true cs ++ follow)) =
        some ⟨cs, w, Place.past ⟨line, 0, 0⟩ (indentation n)⟩ := by
  have hleast : max 1 (columns.head?.elim 0 Nat.succ) ≤ columns.head?.getD 0 + indentStep := by
    cases columns.head? with
    | none => decide
    | some around =>
        show max 1 (around + 1) ≤ around + 2
        omega
  have hcolumn : ∀ around, columns.head? = some around →
      around < columns.head?.getD 0 + indentStep := by
    intro around h
    rw [h]
    exact Nat.lt_add_of_pos_right (by decide)
  obtain ⟨line, hheader⟩ := exists_blockHeader cs place
    (writeLiteralFrom (columns.head?.getD 0 + indentStep) true cs ++ follow)
  obtain ⟨b, line', hb, htext, hread⟩ := exists_blockFrom (chompingOf cs) follow cs hprint
    false _ ⟨line, 0, 0⟩ [] (holds_start _) fun _ => ⟨line, rfl⟩
  obtain ⟨n, w, hsplit, hend⟩ := exists_blockFrom_follow (chompingOf cs)
    (max 1 (columns.head?.elim 0 Nat.succ)) hfollow hcolumn hb line'
  have hstart : (if hidesColumn cs then some indentStep else none).map
      (fun depth => columns.head?.getD 0 + depth) =
        if hidesColumn cs then some (columns.head?.getD 0 + indentStep) else none := by
    cases hidesColumn cs <;> rfl
  have hlines := blockFrom_start_written hleast (chompingOf cs) hne hprint line follow
  refine ⟨_, line', n, w, literalHeader_eq cs, hsplit, ?_⟩
  rw [List.nil_append] at htext
  rw [block, hheader]
  show blockFrom true (chompingOf cs) (max 1 (columns.head?.elim 0 Nat.succ)) false
    (.start ((if hidesColumn cs then some indentStep else none).map
      fun depth => columns.head?.getD 0 + depth)) ⟨line, 0, 0⟩
    (writeLiteralFrom (columns.head?.getD 0 + indentStep) true cs ++ follow) = _
  rw [hstart, hlines]
  refine hread.trans (hend.trans ?_)
  rw [htext, List.reverse_reverse]

end UmlCatalog.Yaml.Scalar
