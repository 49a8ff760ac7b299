import UmlCatalog.Proofs.Yaml.Character
import UmlCatalog.Yaml.Scalar.Quoted

/-!
# Reading quoted scalars back

Between single quotes a text keeps its spaces and its separators, because no end of a line stands
next to a space in it: the indentation of a further line is all that is dropped. Between double
quotes every character that could be dropped or taken for something else is escaped.
-/

namespace UmlCatalog.Yaml

/-- Neighbours that are in two relations each are in both of them. -/
theorem isChain_and {α : Type} {R S : α → α → Prop} {l : List α} (h : l.IsChain R)
    (h' : l.IsChain S) : l.IsChain fun a b => R a b ∧ S a b := by
  induction h with
  | nil => exact .nil
  | singleton a => exact .singleton a
  | cons_cons hab _ ih =>
      obtain ⟨hab', hrest⟩ := List.isChain_cons_cons.mp h'
      exact .cons_cons ⟨hab, hab'⟩ (ih hrest)

theorem Gap.reverseText_lines {c : Char} (h : c ≠ '\n') (more : List Char) :
    (Gap.lines (some c) more).reverseText = more ++ [c] := by
  unfold reverseText
  split
  · rename_i heq
    cases heq
  · rename_i heq
    cases heq
    exact absurd rfl h
  · rename_i heq
    cases heq
    exact absurd rfl h
  · rename_i heq
    cases heq
    rfl
  · rename_i heq
    cases heq

namespace Scalar
variable {before : List Char} {gap : Gap} {place : Place} {follow : List Char}

/-! ## Single quotes -/

/-- A character as it is written between single quotes. -/
def singleQuote (c : Char) : List Char := if c = '\'' then ['\'', '\''] else [c]

theorem length_singleQuote_pos (c : Char) : 0 < (singleQuote c).length := by
  unfold singleQuote
  split <;> simp

/-- What has been read between single quotes ends in a character: the gap behind it is what was read
since the last word, and it holds an end of a line exactly if the character is one. -/
inductive GapBehind (prev : Char) : Bool → Gap → Prop
  | blanks {cs : List Char} (h : cs = [] ∨ prev = ' ') : GapBehind prev false (.blanks cs)
  | lines {first : Char} {more : List Char} (hfirst : first ≠ '\n') (h : isBreak prev = true) :
      GapBehind prev true (.lines (some first) more)

theorem singleQuotedFrom_blank (cs : List Char) :
    singleQuotedFrom before gap place (' ' :: cs) =
      singleQuotedFrom before (gap.addBlank ' ') (place.next ' ') cs := by
  rw [singleQuotedFrom] <;> simp [isBlank]

theorem singleQuotedFrom_break {c : Char} (h : isBreak c = true) (cs : List Char) :
    singleQuotedFrom before gap place (c :: cs) =
      singleQuotedFrom before (gap.addBreak c) place.nextLine cs := by
  have hquote : c ≠ '\'' := by
    rintro rfl
    exact absurd h (by decide)
  have hblank := isBlank_eq_false_of_isBreak h
  rw [singleQuotedFrom] <;> simp [h, hblank, hquote]

theorem singleQuotedFrom_singleQuote {c : Char} (hblank : isBlank c = false)
    (hbreak : isBreak c = false) (hcolumn : 0 < place.column) (cs : List Char) :
    singleQuotedFrom before gap place (singleQuote c ++ cs) =
      singleQuotedFrom (gap.close c before) .none (place.past (singleQuote c)) cs := by
  by_cases hquote : c = '\''
  · subst hquote
    rfl
  · have hwritten : singleQuote c = [c] := if_neg hquote
    rw [hwritten, List.singleton_append, singleQuotedFrom]
    · simp [hblank, hbreak, Nat.ne_of_gt hcolumn, Place.past]
    · simp [hquote]
    · simp [hquote]

theorem singleQuotedFrom_indentation (first : Option Char) (more : List Char) (column : Nat) :
    singleQuotedFrom before (.lines first more) place (indentation column ++ follow) =
      singleQuotedFrom before (.lines first more) (place.past (indentation column)) follow := by
  induction column generalizing place with
  | zero => rfl
  | succ column ih =>
      rw [indentation_succ, List.cons_append, Place.past_cons, ← ih, singleQuotedFrom_blank]
      rfl

theorem singleQuotedFrom_end (h : follow.head? ≠ some '\'') :
    singleQuotedFrom before gap place ('\'' :: follow) =
      some ⟨before.reverse ++ gap.reverseText.reverse, follow, place.along 1⟩ := by
  cases follow with
  | nil => rfl
  | cons c follow =>
      rw [singleQuotedFrom]
      rintro rest heq
      cases heq
      exact h rfl

/-- A character that is no space ends the gap, at the column of its line. -/
theorem singleQuotedFrom_word {column : Nat} (hcolumn : 0 < column) {prev c : Char}
    {afterBreak : Bool} (hgap : GapBehind prev afterBreak gap) (hblank : isBlank c = false)
    (hbreak : isBreak c = false) (hplace : afterBreak = false → 0 < place.column)
    (cs : List Char) :
    singleQuotedFrom before gap place
        ((if afterBreak then indentation column else []) ++ (singleQuote c ++ cs)) =
      singleQuotedFrom (gap.close c before) .none
        ((place.past (if afterBreak then indentation column else [])).past (singleQuote c)) cs := by
  cases hgap with
  | blanks _ => exact singleQuotedFrom_singleQuote hblank hbreak (hplace rfl) cs
  | lines _ _ =>
      have hpos : 0 < (place.past (indentation column)).column := by
        rw [Place.past_column, length_indentation]
        omega
      rw [if_pos rfl, singleQuotedFrom_indentation, singleQuotedFrom_singleQuote hblank hbreak hpos]

/-- Whether a character may stand in front of another one between single quotes. -/
def KeepsQuoted (c d : Char) : Prop :=
  (c = ' ' → isBreak d = false) ∧ (isBreak c = true → d ≠ ' ')

theorem writeSingleQuotedFrom_of_isBreak {column : Nat} {afterBreak : Bool} {c : Char}
    (h : isBreak c = true) (cs : List Char) :
    writeSingleQuotedFrom column afterBreak (c :: cs) =
      c :: writeSingleQuotedFrom column true cs := by
  rw [writeSingleQuotedFrom, if_pos h]

theorem writeSingleQuotedFrom_word {column : Nat} {afterBreak : Bool} {c : Char}
    (h : isBreak c = false) (cs : List Char) :
    writeSingleQuotedFrom column afterBreak (c :: cs) =
      (if afterBreak then indentation column else []) ++
        (singleQuote c ++ writeSingleQuotedFrom column false cs) := by
  rw [writeSingleQuotedFrom, if_neg (by rw [h]; exact Bool.false_ne_true)]
  rfl

/-- The text between single quotes up to a gap and with it. -/
def readQuoted (before : List Char) (gap : Gap) : List Char :=
  before.reverse ++ gap.reverseText.reverse

variable (before) in
/-- An end of a line joins the gap, in front of which there are no spaces. -/
theorem GapBehind.addBreak {prev c : Char} {afterBreak : Bool}
    (hgap : GapBehind prev afterBreak gap) (hkeeps : KeepsQuoted prev c)
    (hnewline : c ≠ '\n') (hbreak : isBreak c = true) :
    GapBehind c true (gap.addBreak c) ∧
      readQuoted before (gap.addBreak c) = readQuoted before gap ++ [c] := by
  suffices hbehind : GapBehind c true (gap.addBreak c) ∧
      (gap.addBreak c).reverseText = c :: gap.reverseText by
    refine ⟨hbehind.1, ?_⟩
    rw [readQuoted, hbehind.2, List.reverse_cons, ← List.append_assoc, readQuoted]
  cases hgap with
  | @blanks bs h =>
      obtain rfl : bs = [] := h.resolve_right fun hprev => by
        rw [hkeeps.1 hprev] at hbreak
        cases hbreak
      exact ⟨.lines hnewline hbreak, Gap.reverseText_lines hnewline []⟩
  | @lines first more hfirst h =>
      refine ⟨.lines hfirst hbreak, ?_⟩
      rw [Gap.reverseText_lines hfirst]
      exact Gap.reverseText_lines hfirst (c :: more)

/-- One character is read, with the indentation in front of it if it is the first of its line. On
the same line exactly what is written for it is passed over. -/
theorem exists_singleQuotedFrom_step {column : Nat} (hcolumn : 0 < column) {prev c : Char}
    {afterBreak : Bool} (before : List Char) (place : Place) (hgap : GapBehind prev afterBreak gap)
    (hc : isPrintable c = true) (hnewline : c ≠ '\n') (hkeeps : KeepsQuoted prev c)
    (hplace : afterBreak = false → 0 < place.column) (cs follow : List Char) :
    ∃ before' gap' place', GapBehind c (isBreak c) gap' ∧
      readQuoted before' gap' = readQuoted before gap ++ [c] ∧
      place.line ≤ place'.line ∧ (isBreak c = false → 0 < place'.column) ∧
      (afterBreak = false → isBreak c = false → place' = place.past (singleQuote c)) ∧
      singleQuotedFrom before gap place
          (writeSingleQuotedFrom column afterBreak (c :: cs) ++ follow) =
        singleQuotedFrom before' gap' place'
          (writeSingleQuotedFrom column (isBreak c) cs ++ follow) := by
  cases hbreak : isBreak c with
  | true =>
      obtain ⟨hbehind, htext⟩ := hgap.addBreak before hkeeps hnewline hbreak
      refine ⟨before, gap.addBreak c, place.nextLine, hbehind, htext, Nat.le_succ _, nofun, nofun,
        ?_⟩
      rw [writeSingleQuotedFrom_of_isBreak hbreak, List.cons_append, singleQuotedFrom_break hbreak]
  | false =>
      rw [writeSingleQuotedFrom_word hbreak]
      by_cases hspace : c = ' '
      · subst hspace
        cases hgap with
        -- Behind the end of a line a space would be taken for indentation.
        | lines hfirst h => exact absurd rfl (hkeeps.2 h)
        | @blanks bs h =>
            refine ⟨before, .blanks (' ' :: bs), place.next ' ', .blanks (Or.inr rfl), ?_,
              Nat.le_refl _, fun _ => Nat.succ_pos _, fun _ _ => rfl, singleQuotedFrom_blank _⟩
            rw [readQuoted, readQuoted, Gap.reverseText_blanks, Gap.reverseText_blanks,
              List.reverse_cons, List.append_assoc]
      · have hblank : isBlank c = false := by
          rw [← Bool.not_eq_true, isBlank_iff_of_isPrintable hc]
          exact hspace
        refine ⟨gap.close c before, .none,
          (place.past (if afterBreak then indentation column else [])).past (singleQuote c),
          .blanks (Or.inl rfl), ?_, by simp, fun _ => ?_, ?_, ?_⟩
        · simp [readQuoted, Gap.close]
        · rw [Place.past_column]
          exact Nat.lt_of_lt_of_le (length_singleQuote_pos c) (Nat.le_add_left _ _)
        · rintro rfl _
          rfl
        · rw [List.append_assoc, List.append_assoc,
            singleQuotedFrom_word hcolumn hgap hblank hbreak hplace]

/-- Reading goes on to the closing quote. On one line it passes over exactly what is written. -/
theorem exists_singleQuotedFrom {column : Nat} (hcolumn : 0 < column) {prev : Char} {cs : List Char}
    {afterBreak : Bool} (before : List Char) (place : Place) (hgap : GapBehind prev afterBreak gap)
    (hprint : ∀ c ∈ cs, isPrintable c = true ∧ c ≠ '\n')
    (hchain : (prev :: cs).IsChain KeepsQuoted)
    (hplace : afterBreak = false → 0 < place.column) (hfollow : follow.head? ≠ some '\'') :
    ∃ place', singleQuotedFrom before gap place
        (writeSingleQuotedFrom column afterBreak cs ++ follow) =
          some ⟨readQuoted before gap ++ cs, follow, place'⟩ ∧
      place.line ≤ place'.line ∧
      (afterBreak = false → (∀ c ∈ cs, isBreak c = false) →
        place' = place.past (writeSingleQuotedFrom column false cs)) := by
  induction cs generalizing prev before gap afterBreak place with
  | nil =>
      rw [List.append_nil]
      cases hgap with
      | blanks h =>
          exact ⟨place.along 1, singleQuotedFrom_end hfollow, Nat.le_refl _, fun _ _ => rfl⟩
      | @lines first more hfirst h =>
          refine ⟨(place.past (indentation column)).along 1, ?_, (Place.past_line _ _).ge, nofun⟩
          rw [writeSingleQuotedFrom, if_pos rfl, List.append_assoc, singleQuotedFrom_indentation]
          exact singleQuotedFrom_end hfollow
  | cons c cs ih =>
      obtain ⟨⟨hc, hnewline⟩, hcs⟩ := List.forall_mem_cons.mp hprint
      obtain ⟨hkeeps, hrest⟩ := List.isChain_cons_cons.mp hchain
      obtain ⟨before₁, gap₁, place₁, hgap₁, htext, hline₁, hplace₁, hexact₁, hstep⟩ :=
        exists_singleQuotedFrom_step hcolumn before place hgap hc hnewline hkeeps hplace cs follow
      obtain ⟨place', hread, hline, hexact⟩ := ih before₁ place₁ hgap₁ hcs hrest hplace₁
      refine ⟨place', ?_, hline₁.trans hline, fun hsame hnone => ?_⟩
      · rw [hstep, hread, htext, List.append_assoc, List.singleton_append]
      · obtain ⟨hbreak, hnone⟩ := List.forall_mem_cons.mp hnone
        rw [hexact hbreak hnone, hexact₁ hsame hbreak, writeSingleQuotedFrom_word hbreak]
        exact (Place.past_append _ _ _).symm

/-- A text between single quotes is read back. -/
theorem exists_singleQuoted {column : Nat} (hcolumn : 0 < column) {cs : List Char}
    (h : ScalarStyle.allowsSingleQuoted cs = true) (hnewline : '\n' ∉ cs)
    (hplace : 0 < place.column) (hfollow : follow.head? ≠ some '\'') :
    ∃ place', singleQuoted place (writeSingleQuotedFrom column false cs ++ follow) =
        some ⟨cs, follow, place'⟩ ∧
      place.line ≤ place'.line ∧
      ((∀ c ∈ cs, isBreak c = false) →
        place' = place.past (writeSingleQuotedFrom column false cs)) := by
  simp only [ScalarStyle.allowsSingleQuoted, ScalarStyle.isSpecial, ScalarStyle.hasSpaceBreak,
    ScalarStyle.hasBreakSpace, Bool.and_eq_true, Bool.not_eq_true', List.any_eq_false,
    Bool.not_eq_false, ScalarStyle.hasPair_eq_false_iff] at h
  obtain ⟨⟨hprint, hspaceBreak⟩, hbreakSpace⟩ := h
  have hchain : cs.IsChain KeepsQuoted :=
    (isChain_and hspaceBreak hbreakSpace).imp fun c d hcd => by simpa [KeepsQuoted] using hcd
  have hquote : ('\'' :: cs).IsChain KeepsQuoted := by
    cases cs with
    | nil => exact .singleton _
    | cons c cs => exact .cons_cons ⟨nofun, nofun⟩ hchain
  have hbehind : GapBehind '\'' false .none := .blanks (Or.inl rfl)
  obtain ⟨place', hread, hline, hexact⟩ := exists_singleQuotedFrom hcolumn [] place hbehind
    (fun c hc => ⟨hprint c hc, fun h => hnewline (h ▸ hc)⟩) hquote (fun _ => hplace) hfollow
  exact ⟨place', hread, hline, hexact rfl⟩

/-! ## Double quotes -/

theorem mapM_hexDigit?_upperHex (count n : Nat) :
    ∃ ds, (upperHex count n).mapM hexDigit? = some ds ∧
      ∀ acc, ds.foldl (fun n d => n * 16 + d) acc =
        acc * Nat.pow 16 count + n % Nat.pow 16 count := by
  induction count generalizing n with
  | zero =>
      refine ⟨[], rfl, fun acc => ?_⟩
      rw [Nat.pow, Nat.mul_one, Nat.mod_one]
      rfl
  | succ count ih =>
      obtain ⟨ds, hds, hvalue⟩ := ih (n / 16)
      refine ⟨ds ++ [n % 16], ?_, fun acc => ?_⟩
      · rw [upperHex, List.mapM_append, hds, List.mapM_cons, List.mapM_nil,
          hexDigit?_upperHexDigit (Nat.mod_lt n (by decide))]
        rfl
      · have hpow : Nat.pow 16 (count + 1) = 16 * Nat.pow 16 count := Nat.mul_comm ..
        rw [List.foldl_append, hvalue, List.foldl_cons, List.foldl_nil, hpow, Nat.mod_mul,
          Nat.mul_left_comm acc]
        omega

/-- A character is read back from enough digits of its number. -/
theorem codePoint?_upperHex {c : Char} {count : Nat} (h : c.toNat < Nat.pow 16 count) :
    codePoint? (upperHex count c.toNat) = some c := by
  obtain ⟨ds, hds, hvalue⟩ := mapM_hexDigit?_upperHex count c.toNat
  have hnumber : ds.foldl (fun n d => n * 16 + d) 0 = c.toNat := by
    rw [hvalue, Nat.zero_mul, Nat.zero_add, Nat.mod_eq_of_lt h]
  have hvalid : c.toNat.isValidChar := c.valid
  have hchar : Char.ofNatAux c.toNat hvalid = c := by
    have hof := Char.ofNat_toNat c
    unfold Char.ofNat at hof
    rwa [dif_pos hvalid] at hof
  rw [codePoint?, hds, Option.bind_eq_bind, Option.bind_some]
  dsimp only
  rw [hnumber, dif_pos hvalid, hchar]

/-- An escape by digits is read back. -/
theorem escape_upperHex {c letter : Char} {count : Nat} (hletter : escaped? letter = none)
    (hwidth : escapeWidth? letter = some count) (h : c.toNat < Nat.pow 16 count) (cs : List Char) :
    escape place (letter :: (upperHex count c.toNat ++ cs)) =
      some ⟨c, cs, place.along (count + 1)⟩ := by
  have htake : (upperHex count c.toNat ++ cs).take count = upperHex count c.toNat :=
    List.take_left' (length_upperHex count c.toNat)
  have hdrop : (upperHex count c.toNat ++ cs).drop count = cs :=
    List.drop_left' (length_upperHex count c.toNat)
  simp [escape, hletter, hwidth, htake, hdrop, codePoint?_upperHex h]

theorem toNat_lt_of_mem_upperHex {count n : Nat} {c : Char} (h : c ∈ upperHex count n) :
    c.toNat < 128 := by
  have hdigit : ∀ m : Fin 16, (upperHexDigit m).toNat < 128 := by decide
  induction count generalizing n with
  | zero => cases h
  | succ count ih =>
      rcases List.mem_append.mp h with h | h
      · exact ih h
      · rw [List.mem_singleton.mp h]
        exact hdigit ⟨n % 16, Nat.mod_lt n (by decide)⟩

/-- A character is written behind a backslash, in ASCII, and is read back from there. -/
def IsEscaped (c : Char) (written : List Char) : Prop :=
  ∃ letter more, written = '\\' :: letter :: more ∧ isBreak letter = false ∧
    (∀ d ∈ written, d.toNat < 128) ∧ ∀ place cs,
      escape place (letter :: (more ++ cs)) = some ⟨c, cs, place.along (more.length + 1)⟩

theorem isEscaped_letter {c letter : Char} (h : escapeLetter? c = some letter) :
    IsEscaped c ['\\', letter] := by
  have hletter : letter.toNat < 128 ∧ isBreak letter = false ∧
      ∀ place cs, escape place (letter :: cs) = some ⟨c, cs, place.along 1⟩ := by
    unfold escapeLetter? at h
    split at h <;> cases h <;> exact ⟨by decide, rfl, fun _ _ => rfl⟩
  refine ⟨letter, [], rfl, hletter.2.1, ?_, hletter.2.2⟩
  rw [List.forall_mem_cons, List.forall_mem_singleton]
  exact ⟨by decide, hletter.1⟩

theorem isEscaped_upperHex {c letter : Char} {count : Nat} (hletter : escaped? letter = none)
    (hwidth : escapeWidth? letter = some count) (hbreak : isBreak letter = false)
    (hascii : letter.toNat < 128) (h : c.toNat < Nat.pow 16 count) :
    IsEscaped c ('\\' :: letter :: upperHex count c.toNat) := by
  refine ⟨letter, _, rfl, hbreak, ?_, fun place cs => ?_⟩
  · simp only [List.forall_mem_cons]
    exact ⟨by decide, hascii, fun d hd => toNat_lt_of_mem_upperHex hd⟩
  · rw [length_upperHex]
    exact escape_upperHex hletter hwidth h cs

/-- A character that has no letter of its own neither closes the quotes nor starts an escape. -/
theorem of_escapeLetter?_eq_none {c : Char} (h : escapeLetter? c = none) :
    isBreak c = false ∧ c ≠ '\x22' ∧ c ≠ '\\' := by
  refine ⟨?_, ?_, ?_⟩
  · rw [← Bool.not_eq_true]
    simp only [isBreak, Bool.or_eq_true, decide_eq_true_eq]
    rintro ((((rfl | rfl) | rfl) | rfl) | rfl) <;> cases h
  · rintro rfl
    cases h
  · rintro rfl
    cases h

/-- Every character is escaped or printable, and then it stands for itself. -/
theorem writeEscaped_cases (c : Char) :
    IsEscaped c (writeEscaped c) ∨
      writeEscaped c = [c] ∧ isPrintable c = true ∧ isBreak c = false ∧ c ≠ '\x22' ∧ c ≠ '\\' := by
  unfold writeEscaped
  split
  · rename_i letter h
    exact Or.inl (isEscaped_letter h)
  · rename_i h
    split
    · rename_i hprint
      exact Or.inr ⟨rfl, hprint, of_escapeLetter?_eq_none h⟩
    · refine Or.inl ?_
      split
      · rename_i hbyte
        exact isEscaped_upperHex rfl rfl rfl (by decide) (Nat.lt_of_le_of_lt hbyte (by decide))
      · split
        · rename_i hword
          exact isEscaped_upperHex rfl rfl rfl (by decide) (Nat.lt_of_le_of_lt hword (by decide))
        · have hlimit : c.toNat < 4294967296 := by
            have hvalid : c.toNat.isValidChar := c.valid
            obtain h | ⟨_, h⟩ := hvalid <;> omega
          exact isEscaped_upperHex rfl rfl rfl (by decide) hlimit

theorem doubleQuotedFrom_blank (cs : List Char) :
    doubleQuotedFrom before gap place (' ' :: cs) =
      doubleQuotedFrom before (gap.addBlank ' ') (place.next ' ') cs := by
  rw [doubleQuotedFrom.eq_def]
  simp [isBlank]

/-- An escaped character ends the gap. -/
theorem doubleQuotedFrom_isEscaped {c : Char} {written : List Char} (h : IsEscaped c written)
    (hcolumn : 0 < place.column) (cs : List Char) :
    doubleQuotedFrom before gap place (written ++ cs) =
      doubleQuotedFrom (gap.close c before) .none (place.past written) cs := by
  obtain ⟨letter, more, rfl, hbreak, hascii, hescape⟩ := h
  have hback : isBlank '\\' = false ∧ isBreak '\\' = false := by decide
  have hread := hescape (place.along 1) cs
  have hplace : (place.along 1).along (more.length + 1) =
      place.along ('\\' :: letter :: more).length := by
    unfold Place.along
    rw [Nat.add_assoc, Nat.add_assoc, Nat.add_comm 1]
    rfl
  rw [Place.past_of_isAscii place hascii, ← hplace, List.cons_append, List.cons_append,
    doubleQuotedFrom.eq_def]
  dsimp only
  rw [if_neg (by rw [hback.1]; exact Bool.false_ne_true),
    if_neg (by rw [hback.2]; exact Bool.false_ne_true), if_neg fun h => absurd h.1 (by omega),
    if_neg (by decide), if_pos rfl, if_neg (by rw [hbreak]; exact Bool.false_ne_true)]
  split
  · rename_i hnone
    cases hread.symm.trans hnone
  · rename_i s hsome
    obtain rfl := Option.some.inj (hread.symm.trans hsome)
    rfl

/-- A character that stands for itself ends the gap, unless it is a space. -/
theorem doubleQuotedFrom_char {c : Char} (hblank : isBlank c = false) (hbreak : isBreak c = false)
    (hquote : c ≠ '\x22') (hback : c ≠ '\\') (hcolumn : 0 < place.column) (cs : List Char) :
    doubleQuotedFrom before gap place (c :: cs) =
      doubleQuotedFrom (gap.close c before) .none (place.next c) cs := by
  rw [doubleQuotedFrom.eq_def]
  simp [hblank, hbreak, hquote, hback, Nat.ne_of_gt hcolumn]

theorem doubleQuotedFrom_end (hcolumn : 0 < place.column) :
    doubleQuotedFrom before gap place ('\x22' :: follow) =
      some ⟨before.reverse ++ gap.reverseText.reverse, follow, place.along 1⟩ := by
  rw [doubleQuotedFrom.eq_def]
  simp [isBlank, isBreak, Nat.ne_of_gt hcolumn]

/-- Reading goes through what is written for each character, up to the closing quote. -/
theorem doubleQuotedFrom_append (before bs cs : List Char) (place : Place)
    (hcolumn : 0 < place.column) :
    doubleQuotedFrom before (.blanks bs) place (cs.flatMap writeEscaped ++ '\x22' :: follow) =
      some ⟨before.reverse ++ (bs.reverse ++ cs), follow,
        (place.past (cs.flatMap writeEscaped)).along 1⟩ := by
  induction cs generalizing before bs place with
  | nil =>
      rw [List.append_nil]
      exact doubleQuotedFrom_end hcolumn
  | cons c cs ih =>
      have hnext : 0 < (place.past (writeEscaped c)).column := by
        rw [Place.past_column]
        omega
      rw [List.flatMap_cons, List.append_assoc, Place.past_append]
      by_cases hspace : c = ' '
      · subst hspace
        refine (doubleQuotedFrom_blank _).trans ((ih _ (' ' :: bs) _ hnext).trans ?_)
        rw [List.reverse_cons, List.append_assoc, List.singleton_append]
      · have hstep : doubleQuotedFrom before (.blanks bs) place
            (writeEscaped c ++ (cs.flatMap writeEscaped ++ '\x22' :: follow)) =
              doubleQuotedFrom (c :: (bs ++ before)) (.blanks []) (place.past (writeEscaped c))
                (cs.flatMap writeEscaped ++ '\x22' :: follow) := by
          rcases writeEscaped_cases c with h | ⟨h, hprint, hbreak, hquote, hback⟩
          · exact doubleQuotedFrom_isEscaped h hcolumn _
          · have hblank : isBlank c = false := by
              rw [← Bool.not_eq_true, isBlank_iff_of_isPrintable hprint]
              exact hspace
            rw [h]
            exact doubleQuotedFrom_char hblank hbreak hquote hback hcolumn _
        rw [hstep, ih _ [] _ hnext]
        simp

/-- A text between double quotes is read back. -/
theorem doubleQuoted_append (cs : List Char) (hcolumn : 0 < place.column) :
    doubleQuoted place (cs.flatMap writeEscaped ++ '\x22' :: follow) =
      some ⟨cs, follow, (place.past (cs.flatMap writeEscaped)).along 1⟩ :=
  doubleQuotedFrom_append [] [] cs place hcolumn

/-! ## Sizes -/

theorem length_writeEscaped_le (c : Char) : (writeEscaped c).length ≤ 4 * c.utf8Size := by
  have hpos := Char.utf8Size_pos c
  unfold writeEscaped
  split
  · rw [List.length_cons, List.length_singleton]
    omega
  · split
    · rw [List.length_singleton]
      omega
    · rename_i hprint
      split
      · simp only [List.length_cons, length_upperHex]
        omega
      · rename_i hwide
        have hsize : c.utf8Size ≠ 1 := fun h => by
          have hascii := UInt32.le_iff_toNat_le.mp (Char.utf8Size_eq_one_iff.mp h)
          have hnat : c.toNat ≤ 127 := hascii
          omega
        split
        · simp only [List.length_cons, length_upperHex]
          omega
        · rename_i hastral
          have hadmissible : 0x10000 ≤ c.toNat := by omega
          exact absurd (by simp [isPrintable, hadmissible]) hprint

/-- What is written for a character takes at most four times as many bytes. -/
theorem bytes_writeEscaped_le (c : Char) : Place.bytes (writeEscaped c) ≤ 4 * c.utf8Size := by
  rcases writeEscaped_cases c with ⟨letter, more, hwritten, _, hascii, _⟩ | ⟨h, _⟩
  · rw [Place.bytes_of_isAscii hascii]
    exact length_writeEscaped_le c
  · rw [h]
    show c.utf8Size + 0 ≤ _
    omega

theorem bytes_flatMap_writeEscaped_le (cs : List Char) :
    Place.bytes (cs.flatMap writeEscaped) ≤ 4 * Place.bytes cs := by
  induction cs with
  | nil => exact Nat.le_refl 0
  | cons c cs ih =>
      have hc := bytes_writeEscaped_le c
      rw [List.flatMap_cons, Place.bytes_append, Place.bytes_cons]
      omega

/-- Between single quotes a line takes at most twice as many bytes, and the closing quote. -/
theorem bytes_writeSingleQuotedFrom_le {column : Nat} {cs : List Char}
    (h : ∀ c ∈ cs, isBreak c = false) :
    Place.bytes (writeSingleQuotedFrom column false cs) ≤ 2 * Place.bytes cs + 1 := by
  induction cs with
  | nil => exact Nat.le_refl 1
  | cons c cs ih =>
      obtain ⟨hc, hcs⟩ := List.forall_mem_cons.mp h
      have hquote : Place.bytes (singleQuote c) ≤ 2 * c.utf8Size := by
        by_cases hquote : c = '\''
        · subst hquote
          decide
        · rw [singleQuote, if_neg hquote, Place.bytes_cons]
          show c.utf8Size + 0 ≤ _
          omega
      have htail := ih hcs
      rw [writeSingleQuotedFrom_word hc, if_neg Bool.false_ne_true, List.nil_append,
        Place.bytes_append, Place.bytes_cons]
      omega

end Scalar
end UmlCatalog.Yaml
