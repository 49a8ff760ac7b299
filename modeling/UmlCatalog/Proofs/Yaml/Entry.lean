import UmlCatalog.Proofs.Yaml.Layout

/-!
# Scalars and keys in a written text

A scalar at the end of a line leaves the layout in front of the next line, however it is written. A
key leaves it behind the colon: on the same line the scalar was only a possible key, and short
enough to be one still, behind a mark the colon stands on a line of its own.
-/

namespace UmlCatalog.Yaml

/-! ## Styles -/

/-- What the choice of a style says about a text. -/
inductive ScalarStyle.Suits (s : String) : ScalarStyle → Prop
  | plain (h : allowsPlain s.toList = true) (hmeaning : isAmbiguous s = false) : Suits s plain
  | singleQuoted (h : allowsSingleQuoted s.toList = true) (hline : '\n' ∉ s.toList) :
      Suits s singleQuoted
  | literal (h : allowsLiteral s.toList = true) (hlines : '\n' ∈ s.toList) : Suits s literal
  | doubleQuoted : Suits s doubleQuoted

theorem ScalarStyle.suits_ofText (s : String) : Suits s (ofText s) := by
  unfold ofText
  dsimp only
  split
  · rename_i hlines
    split
    · exact .literal ‹_› (List.contains_iff_mem.mp hlines)
    · exact .doubleQuoted
  · rename_i hline
    split
    · rename_i hplain
      rw [Bool.and_eq_true, Bool.not_eq_true'] at hplain
      exact .plain hplain.1 hplain.2
    · split
      · exact .singleQuoted ‹_› fun h => hline (List.contains_iff_mem.mpr h)
      · exact .doubleQuoted

/-- A text that can be written plain and does not look empty has a first character. -/
theorem exists_isPlain {cs : List Char} (h : ScalarStyle.allowsPlain cs = true) (hne : cs ≠ []) :
    ∃ c others, cs = c :: others ∧ IsPlain c others := by
  cases cs with
  | nil => exact absurd rfl hne
  | cons c cs => exact ⟨c, cs, rfl, isPlain_of_allowsPlain h⟩

/-- What a text that starts like a plain scalar does not start with. -/
theorem ScalarStyle.of_startsOtherwise_eq_false {c : Char} {cs : List Char}
    (h : startsOtherwise (c :: cs) = false) :
    c ∉ indicators ∧ (c = '-' ∨ c = '?' → atGap cs = false) ∧
      ∀ d more, d = '-' ∨ d = '.' → c :: cs ≠ d :: d :: d :: more := by
  have hmark : ∀ d more, d = '-' ∨ d = '.' → c :: cs ≠ d :: d :: d :: more := by
    rintro d more (rfl | rfl) heq
    · rw [heq] at h
      cases h
    · rw [heq] at h
      cases h
  unfold startsOtherwise at h
  split at h
  · cases h
  · cases h
  · rename_i heq
    cases heq
  · rename_i heq
    cases heq
    rw [Bool.or_eq_false_iff, Bool.and_eq_false_imp] at h
    refine ⟨fun hmem => ?_, fun hc => h.2 (by simpa using hc), hmark⟩
    rw [List.contains_iff_mem.mpr hmem] at h
    cases h.1

theorem ne_nil_of_not_isAmbiguous {s : String} (h : isAmbiguous s = false) : s.toList ≠ [] := by
  intro hnil
  obtain rfl : s = "" := String.toList_eq_nil_iff.mp hnil
  exact absurd h (by decide)

namespace IsPlain
variable {c : Char} {cs : List Char} (h : IsPlain c cs)
include h

theorem not_mem_indicators : c ∉ indicators :=
  (ScalarStyle.of_startsOtherwise_eq_false h.startsOtherwise).1

/-- A hyphen, question mark or colon in front of a gap would be an indicator. -/
theorem atGap_append (hc : c = '-' ∨ c = '?' ∨ c = ':') (follow : List Char) :
    atGap (cs ++ follow) = false := by
  obtain hc | rfl : (c = '-' ∨ c = '?') ∨ c = ':' := or_assoc.mpr hc
  · have hgap := (ScalarStyle.of_startsOtherwise_eq_false h.startsOtherwise).2.1 hc
    cases cs with
    | nil => cases hgap
    | cons d cs => exact hgap
  · exact h.atGap_eq_false follow

theorem startsWord : StartsWord c where
  isBlank := by
    rw [← Bool.not_eq_true, isBlank_iff_of_isPrintable h.first_isPrintable]
    exact h.first_ne_space
  isBreak := h.first_isBreak
  ne_hash := fun hc => h.not_mem_indicators (by rw [hc]; decide)
  ne_mark := ne_byteOrderMark_of_isPrintable h.first_isPrintable

/-- Neither the end of the line nor a colon makes a mark between documents of a plain scalar. -/
theorem isDocumentMark_eq_false {d : Char} (hd : d = '\n' ∨ d = ':') (follow : List Char) :
    isDocumentMark (c :: (cs ++ d :: follow)) = false := by
  have hmark := (ScalarStyle.of_startsOtherwise_eq_false h.startsOtherwise).2.2
  have hends : d ≠ '-' ∧ d ≠ '.' := by
    rcases hd with rfl | rfl <;> decide
  have hnot : ∀ e more, e = '-' ∨ e = '.' → c :: (cs ++ d :: follow) ≠ e :: e :: e :: more := by
    intro e more he heq
    have hde : d ≠ e := by
      rcases he with rfl | rfl
      · exact hends.1
      · exact hends.2
    match cs, heq with
    | [], heq => exact hde (List.cons.inj (List.cons.inj heq).2).1
    | [_], heq => exact hde (List.cons.inj (List.cons.inj (List.cons.inj heq).2).2).1
    | a :: b :: cs, heq =>
        simp only [List.cons_append, List.cons.injEq] at heq
        obtain ⟨rfl, rfl, rfl, _⟩ := heq
        exact hmark _ cs he rfl
  unfold isDocumentMark
  split
  · rename_i heq
    exact absurd heq (hnot '-' _ (Or.inl rfl))
  · rename_i heq
    exact absurd heq (hnot '.' _ (Or.inr rfl))
  · rfl

/-- A plain scalar is read as one. -/
theorem token_eq {l : Layout} (hflow : l.isFlow = false) {d : Char} (hd : d = '\n' ∨ d = ':')
    (follow : List Char) : l.token c (cs ++ d :: follow) = l.plainScalar := by
  have hindicator := h.not_mem_indicators
  have hgap := h.atGap_append
  have hmark := h.isDocumentMark_eq_false hd follow
  have hblank := h.startsWord.isBlank
  have hstarts : Layout.startsPlain false c (cs ++ d :: follow) = true := by
    unfold Layout.startsPlain
    split
    · rename_i hc
      have hnext := hgap (Or.inl hc) (d :: follow)
      cases hrest : cs ++ d :: follow with
      | nil => rfl
      | cons e rest =>
          rw [hrest] at hnext
          simp [(Bool.or_eq_false_iff.mp hnext).1]
    · split
      · rename_i hc
        simp [hgap (Or.inr hc)]
      · simp [hblank, hindicator]
  have hword : ∀ e, e = '-' ∨ e = '?' ∨ e = ':' → ¬(c = e ∧ atGap (cs ++ d :: follow) = true) := by
    rintro e he ⟨rfl, h⟩
    rw [hgap he] at h
    cases h
  simp only [indicators, List.mem_cons, not_or] at hindicator
  unfold Layout.token
  simp [hindicator, hmark, hflow, hstarts, hword]

end IsPlain

namespace Layout
variable {cs rest follow : List Char} {place : Place} {columns : List Nat}
  {key : Option PossibleKey} {keyAllowed : Bool} {tokens : List Token} {line : Nat}

/-! ## Scalars -/

/-- The possible key once a word has been read that may be one. -/
def keyAt (place : Place) (columns : List Nat) (key : Option PossibleKey) (keyAllowed : Bool)
    (tokens : List Token) : Option PossibleKey :=
  if keyAllowed then some ⟨tokens.length, columns.head? = some place.column, place⟩ else key

theorem markKey_outside (hkey : IsStale line key) :
    (outside rest place columns key keyAllowed tokens).markKey =
      some (outside rest place columns (keyAt place columns key keyAllowed tokens) keyAllowed
        tokens) := by
  cases keyAllowed with
  | false => rfl
  | true =>
      have hdrop : (outside rest place columns key true tokens).dropKey =
          some (outside rest place columns none true tokens) := dropKey_outside hkey
      simp only [markKey, hdrop]
      rfl

/-- A word inside a block is no key unless its colon stands on the same line. -/
theorem isStale_keyAt (hkey : IsStale place.line key)
    (hcolumn : keyAllowed = true → columns.head? ≠ some place.column) (h : place.line < line) :
    IsStale line (keyAt place columns key keyAllowed tokens) := by
  cases keyAllowed with
  | false => exact hkey.mono h.le
  | true =>
      intro k hk
      cases hk
      exact ⟨decide_eq_false (hcolumn rfl), h⟩

theorem plainScalar_outside {s : Scanned (List Char × Bool)} (hkey : IsStale line key)
    (hread : Scalar.plain false (columns.head?.elim 0 Nat.succ) place rest = some s) :
    (outside rest place columns key keyAllowed tokens).plainScalar =
      some (outside s.rest s.place columns (keyAt place columns key keyAllowed tokens) s.result.2
        (scalarToken .plain s.result.1 :: tokens)) := by
  rw [plainScalar, markKey_outside hkey]
  show (Scalar.plain false (columns.head?.elim 0 Nat.succ) place rest).bind _ = _
  rw [hread]
  rfl

theorem word_outside {scan : Place → List Char → Option (Scanned Token)} {s : Scanned Token}
    (hkey : IsStale line key) (hread : scan place rest = some s) :
    (outside rest place columns key keyAllowed tokens).word scan =
      some (outside s.rest s.place columns (keyAt place columns key keyAllowed tokens) false
        (s.result :: tokens)) := by
  rw [word, markKey_outside hkey]
  show (scan place rest).bind _ = _
  rw [hread]
  rfl

theorem blockScalar_outside {s : Scanned (List Char)} (hkey : IsStale line key)
    (hread : Scalar.block true columns.head? (place.along 1) (rest.drop 1) = some s) :
    (outside rest place columns key keyAllowed tokens).blockScalar true =
      some (outside s.rest s.place columns none true
        (scalarToken .literal s.result :: tokens)) := by
  rw [blockScalar, dropKey_outside hkey]
  show (Scalar.block true columns.head? (place.along 1) (rest.drop 1)).bind _ = _
  rw [hread]
  rfl

theorem nextColumn_le_succ
    (hinside : ∀ around, columns.head? = some around → around ≤ place.column) :
    columns.head?.elim 0 Nat.succ ≤ place.column + 1 := by
  cases hhead : columns.head? with
  | none => exact Nat.zero_le _
  | some around => exact Nat.succ_le_succ (hinside around hhead)

theorem token_singleQuote (l : Layout) (cs : List Char) :
    l.token '\'' cs = l.word (behindMark Scalar.singleQuoted (scalarToken .singleQuoted)) := by
  simp [token, isDocumentMark]

theorem token_doubleQuote (l : Layout) (cs : List Char) :
    l.token '\x22' cs = l.word (behindMark Scalar.doubleQuoted (scalarToken .doubleQuoted)) := by
  simp [token, isDocumentMark]

theorem token_literal {l : Layout} (hflow : l.isFlow = false) (cs : List Char) :
    l.token '|' cs = l.blockScalar true := by
  simp [token, isDocumentMark, hflow]

theorem bytes_le_of_isSimpleKey {s : String} (h : isSimpleKey s = true) :
    Place.bytes s.toList ≤ maxSimpleKeySize ∧ ∀ c ∈ s.toList, isBreak c = false := by
  simp only [isSimpleKey, Bool.and_eq_true, decide_eq_true_eq, Bool.not_eq_true',
    List.any_eq_false, Bool.not_eq_true] at h
  exact ⟨(Place.bytes_toList s).trans_le h.1, h.2⟩

/-- The end of a scalar that was written as a key: on the same line, further on, and so few bytes
from its start that it can still be a key. -/
structure EndsInKey (place place' : Place) : Prop where
  line : place'.line = place.line
  column : place.column ≤ place'.column
  offset : place'.offset ≤ place.offset + maxKeyLength

section OneLine
variable (s : String) {column : Nat} (follow) (place) (columns) (keyAllowed) (tokens)
  (hkey : IsStale place.line key)
include hkey

/-- A scalar between single quotes is read up to the closing one. -/
theorem exists_token_singleQuoted (hcolumn : 0 < column)
    (h : ScalarStyle.allowsSingleQuoted s.toList = true) (hline : '\n' ∉ s.toList)
    (hfollow : follow.head? ≠ some '\'') :
    ∃ place', (outside ('\'' :: writeSingleQuotedFrom column false s.toList ++ follow) place columns
          key keyAllowed tokens).token '\''
            (writeSingleQuotedFrom column false s.toList ++ follow) =
        some (outside follow place' columns (keyAt place columns key keyAllowed tokens) false
          (.scalar ⟨s, .singleQuoted⟩ :: tokens)) ∧
      place.line ≤ place'.line ∧ (isSimpleKey s = true → EndsInKey place place') := by
  have hpos : 0 < (place.along 1).column := Nat.succ_pos _
  obtain ⟨place', hread, hle, hexact⟩ := Scalar.exists_singleQuoted hcolumn h hline hpos hfollow
  have hscan : behindMark Scalar.singleQuoted (scalarToken .singleQuoted) place
      ('\'' :: writeSingleQuotedFrom column false s.toList ++ follow) =
        some ⟨scalarToken .singleQuoted s.toList, follow, place'⟩ := congrArg (Option.map _) hread
  refine ⟨place', ?_, hle, fun hs => ?_⟩
  · rw [token_singleQuote, word_outside hkey hscan, scalarToken, String.ofList_toList]
  · obtain ⟨hbytes, hbreaks⟩ := bytes_le_of_isSimpleKey hs
    have hsize : Place.bytes (writeSingleQuotedFrom column false s.toList) ≤ _ :=
      Scalar.bytes_writeSingleQuotedFrom_le hbreaks
    rw [hexact hbreaks]
    refine ⟨Place.past_line _ _, ?_, ?_⟩
    · rw [Place.past_column]
      show place.column ≤ place.column + 1 + _
      omega
    · rw [Place.past_offset]
      show place.offset + 1 + _ ≤ _
      simp only [maxSimpleKeySize, maxKeyLength] at *
      omega

/-- A scalar between double quotes is read up to the closing one. -/
theorem exists_token_doubleQuoted :
    ∃ place', (outside ('\x22' :: (s.toList.flatMap writeEscaped ++ ['\x22']) ++ follow) place
          columns key keyAllowed tokens).token '\x22'
            (s.toList.flatMap writeEscaped ++ ['\x22'] ++ follow) =
        some (outside follow place' columns (keyAt place columns key keyAllowed tokens) false
          (.scalar ⟨s, .doubleQuoted⟩ :: tokens)) ∧
      place.line ≤ place'.line ∧ (isSimpleKey s = true → EndsInKey place place') := by
  have hpos : 0 < (place.along 1).column := Nat.succ_pos _
  have hscan : behindMark Scalar.doubleQuoted (scalarToken .doubleQuoted) place
      ('\x22' :: (s.toList.flatMap writeEscaped ++ '\x22' :: follow)) =
        some ⟨scalarToken .doubleQuoted s.toList, follow,
          ((place.along 1).past (s.toList.flatMap writeEscaped)).along 1⟩ :=
    congrArg (Option.map _) (Scalar.doubleQuoted_append s.toList hpos)
  rw [List.cons_append, List.append_assoc, List.singleton_append]
  refine ⟨((place.along 1).past (s.toList.flatMap writeEscaped)).along 1, ?_,
    (Place.past_line (place.along 1) _).ge, fun hs => ?_⟩
  · rw [token_doubleQuote, word_outside hkey hscan, scalarToken, String.ofList_toList]
  · obtain ⟨hbytes, _⟩ := bytes_le_of_isSimpleKey hs
    have hsize := Scalar.bytes_flatMap_writeEscaped_le s.toList
    refine ⟨Place.past_line _ _, ?_, ?_⟩
    · show place.column ≤ ((place.along 1).past _).column + 1
      rw [Place.past_column]
      show place.column ≤ place.column + 1 + _ + 1
      omega
    · show ((place.along 1).past _).offset + 1 ≤ _
      rw [Place.past_offset]
      show place.offset + 1 + _ + 1 ≤ _
      simp only [maxSimpleKeySize, maxKeyLength] at *
      omega

/-- A key that its colon follows on the same line is read up to the colon. -/
theorem exists_token_key (hsimple : isSimpleKey s = true) (hindent : 0 < column)
    (hgap : atGap follow = true)
    (hinside : ∀ around, columns.head? = some around → around ≤ place.column) :
    ∃ c body place', writeText column s = c :: body ++ ['\n'] ∧ StartsWord c ∧
      (outside (c :: body ++ ':' :: follow) place columns key keyAllowed tokens).token c
          (body ++ ':' :: follow) =
        some (outside (':' :: follow) place' columns (keyAt place columns key keyAllowed tokens)
          false (.scalar ⟨s, ScalarStyle.ofText s⟩ :: tokens)) ∧ EndsInKey place place' := by
  obtain ⟨hbytes, hbreaks⟩ := bytes_le_of_isSimpleKey hsimple
  have hsuits := ScalarStyle.suits_ofText s
  unfold writeText
  dsimp only
  cases hstyle : ScalarStyle.ofText s with rw [hstyle] at hsuits
  | plain =>
      cases hsuits with
      | plain h hmeaning =>
          obtain ⟨c, cs, hs, hplain⟩ := exists_isPlain h (ne_nil_of_not_isAmbiguous hmeaning)
          have hread := Scalar.plain_key hplain (nextColumn_le_succ hinside) hgap
          have htext : String.ofList (c :: cs) = s := by rw [← hs, String.ofList_toList]
          refine ⟨c, cs, place.past (c :: cs), by rw [hs], hplain.startsWord, ?_,
            Place.past_line _ _, ?_, ?_⟩
          · rw [hplain.token_eq rfl (Or.inr rfl), plainScalar_outside hkey hread, scalarToken,
              htext]
          · rw [Place.past_column]
            exact Nat.le_add_right _ _
          · rw [Place.past_offset, ← hs]
            exact Nat.add_le_add_left (hbytes.trans (by decide)) _
  | singleQuoted =>
      cases hsuits with
      | singleQuoted h hline =>
          obtain ⟨place', htoken, _, hends⟩ := exists_token_singleQuoted (':' :: follow) place
            columns keyAllowed tokens s hkey hindent h hline (by simp)
          exact ⟨_, _, place', rfl, (by decide), htoken, hends hsimple⟩
  | literal =>
      cases hsuits with
      | literal h hlines => exact absurd (hbreaks '\n' hlines) (by decide)
  | doubleQuoted =>
      obtain ⟨place', htoken, _, hends⟩ := exists_token_doubleQuoted (':' :: follow) place columns
        keyAllowed tokens s hkey
      exact ⟨_, _, place', by simp, (by decide), htoken, hends hsimple⟩
  | folded => cases hsuits

end OneLine

/-! ## The last word of a line -/

theorem token_openList (l : Layout) (cs : List Char) :
    l.token '[' cs = l.openFlow .openFlowList := by
  simp [token, isDocumentMark]

theorem token_closeList (l : Layout) (cs : List Char) :
    l.token ']' cs = l.closeFlow .closeFlowList := by
  simp [token, isDocumentMark]

theorem token_openRecord (l : Layout) (cs : List Char) :
    l.token '\x7b' cs = l.openFlow .openFlowRecord := by
  simp [token, isDocumentMark]

theorem token_closeRecord (l : Layout) (cs : List Char) :
    l.token '\x7d' cs = l.closeFlow .closeFlowRecord := by
  simp [token, isDocumentMark]

section LastWord
variable (follow) (place) (columns) (keyAllowed) (tokens) (hkey : IsStale place.line key)
  (hcolumn : keyAllowed = true → columns.head? ≠ some place.column)
  (hinside : ∀ around, columns.head? = some around → around ≤ place.column)
include hkey hcolumn hinside

/-- A plain scalar at the end of a line. -/
theorem reachesLine_plain {s : String} (h : ScalarStyle.allowsPlain s.toList = true)
    (hne : s.toList ≠ [])
    (hfollow : Follows columns follow) :
    (outside (s.toList ++ '\n' :: follow) place columns key keyAllowed tokens).ReachesLine
      follow columns (.scalar ⟨s, .plain⟩ :: tokens) := by
  obtain ⟨c, cs, hs, hplain⟩ := exists_isPlain h hne
  obtain ⟨n, w, hsplit, hread⟩ :=
    Scalar.exists_plain_value hplain (nextColumn_le_succ hinside) hfollow
  have hline : (place.past (c :: cs)).nextLine = ⟨place.line + 1, 0, 0⟩ := by
    rw [Place.nextLine, Place.past_line]
  have htext : String.ofList (c :: cs) = s := by rw [← hs, String.ofList_toList]
  have hlength : follow.length ≤ (cs ++ '\n' :: follow).length := by
    rw [List.length_append, List.length_cons]
    omega
  rw [List.cons_append] at hread
  rw [hs, List.cons_append]
  have hstale : IsStale (place.line + 1) (keyAt place columns key keyAllowed tokens) :=
    isStale_keyAt hkey hcolumn (Nat.lt_succ_self _)
  refine ⟨_, _, hstale, ?_⟩
  refine .of_token (advance_word hplain.startsWord hinside) rfl ?_
    ((advance_indentation (place.line + 1) n).trans (by rw [hsplit])) hlength
  rw [hplain.token_eq rfl (Or.inl rfl), plainScalar_outside hkey hread, hline, scalarToken, htext]

/-- A scalar between quotes at the end of a line. -/
theorem reachesLine_of_token {quote : Char} {body : List Char} {t : Token} {place' : Place}
    (hquote : StartsWord quote)
    (htoken : (outside (quote :: body ++ '\n' :: follow) place columns key keyAllowed tokens).token
        quote (body ++ '\n' :: follow) =
      some (outside ('\n' :: follow) place' columns (keyAt place columns key keyAllowed tokens)
        false (t :: tokens)))
    (hline : place.line ≤ place'.line) :
    (outside (quote :: body ++ '\n' :: follow) place columns key keyAllowed tokens).ReachesLine
      follow columns (t :: tokens) := by
  have hlength : follow.length ≤ (body ++ '\n' :: follow).length := by
    rw [List.length_append, List.length_cons]
    omega
  exact ⟨_, _, isStale_keyAt hkey hcolumn (Nat.lt_succ_of_le hline),
    .of_token (advance_word hquote hinside) rfl htoken advance_newline hlength⟩

/-- Any text at the end of a line. -/
theorem reachesLine_writeText (s : String) (hfollow : Follows columns follow) :
    (outside (writeText (columns.head?.getD 0 + indentStep) s ++ follow) place columns key
      keyAllowed tokens).ReachesLine follow columns
        (.scalar ⟨s, ScalarStyle.ofText s⟩ :: tokens) := by
  have hsuits := ScalarStyle.suits_ofText s
  unfold writeText
  dsimp only
  cases hstyle : ScalarStyle.ofText s with rw [hstyle] at hsuits
  | plain =>
      cases hsuits with
      | plain h hmeaning =>
          rw [List.append_assoc]
          exact reachesLine_plain _ _ _ _ _ hkey hcolumn hinside h
            (ne_nil_of_not_isAmbiguous hmeaning) hfollow
  | singleQuoted =>
      cases hsuits with
      | singleQuoted h hline =>
          have hindent : 0 < columns.head?.getD 0 + indentStep := Nat.succ_pos _
          obtain ⟨place', htoken, hle, _⟩ := exists_token_singleQuoted ('\n' :: follow) place
            columns keyAllowed tokens s hkey hindent h hline (by simp)
          have hquote : StartsWord '\'' := by decide
          simpa using reachesLine_of_token _ _ _ _ _ hkey hcolumn hinside hquote htoken hle
  | literal =>
      cases hsuits with
      | literal h hlines =>
          have hne : s.toList ≠ [] := List.ne_nil_of_mem hlines
          have hprint : ∀ c ∈ s.toList, isPrintable c = true := by
            simp only [ScalarStyle.allowsLiteral, ScalarStyle.isSpecial, Bool.and_eq_true,
              Bool.not_eq_true', List.any_eq_false, Bool.not_eq_false] at h
            exact h.1.1
          obtain ⟨header, line, n, w, hheader, hsplit, hread⟩ :=
            Scalar.exists_block hne hprint hfollow (place.along 1)
          have hlength : follow.length ≤ (header ++
              '\n' :: (writeLiteralFrom (columns.head?.getD 0 + indentStep) true s.toList ++
                follow)).length := by
            simp only [List.length_append, List.length_cons]
            omega
          rw [hheader, List.append_assoc, List.cons_append, List.cons_append]
          refine ⟨line, none, isStale_none line, ?_⟩
          refine .of_token (advance_word (by decide) hinside) rfl ?_
            ((advance_indentation line n).trans (by rw [hsplit])) hlength
          rw [token_literal rfl, blockScalar_outside hkey hread, scalarToken, String.ofList_toList]
  | doubleQuoted =>
      obtain ⟨place', htoken, hle, _⟩ := exists_token_doubleQuoted ('\n' :: follow) place columns
        keyAllowed tokens s hkey
      have hquote : StartsWord '\x22' := by decide
      simpa using reachesLine_of_token _ _ _ _ _ hkey hcolumn hinside hquote htoken hle
  | folded => cases hsuits

theorem reachesLine_flag (b : Bool) (hfollow : Follows columns follow) :
    (outside ((if b then "true" else "false").toList ++ ['\n'] ++ follow) place columns key
      keyAllowed tokens).ReachesLine follow columns
        (.scalar ⟨if b then "true" else "false", .plain⟩ :: tokens) := by
  have hplain : ∀ c ∈ (if b then "true" else "false").toList, c.isAlphanum = true := by
    rw [← List.all_eq_true]
    cases b <;> decide
  have hne : (if b then "true" else "false").toList ≠ [] := by
    cases b <;> decide
  rw [List.append_assoc]
  exact reachesLine_plain _ _ _ _ _ hkey hcolumn hinside (allowsPlain_of_isAlphanum hplain) hne
    hfollow

theorem reachesLine_index (n : Nat) (hfollow : Follows columns follow) :
    (outside ((Nat.repr n).toList ++ ['\n'] ++ follow) place columns key keyAllowed
      tokens).ReachesLine follow columns (.scalar ⟨Nat.repr n, .plain⟩ :: tokens) := by
  have hplain : ∀ c ∈ (Nat.repr n).toList, c.isAlphanum = true := fun _ => isAlphanum_of_mem_repr
  have hne : (Nat.repr n).toList ≠ [] := by
    rw [Nat.toList_repr]
    exact Nat.toDigits_ne_nil
  rw [List.append_assoc]
  exact reachesLine_plain _ _ _ _ _ hkey hcolumn hinside (allowsPlain_of_isAlphanum hplain) hne
    hfollow

/-- A pair of brackets at the end of a line. -/
theorem reachesLine_brackets {o c : Char} {t u : Token} (ho : StartsWord o) (hc : StartsWord c)
    (hopen : ∀ (l : Layout) cs, l.token o cs = l.openFlow t)
    (hclose : ∀ (l : Layout) cs, l.token c cs = l.closeFlow u) :
    (outside (o :: c :: '\n' :: follow) place columns key keyAllowed tokens).ReachesLine follow
      columns (u :: t :: tokens) := by
  have hbetween : Reaches (outside (o :: c :: '\n' :: follow) place columns key keyAllowed tokens)
      ⟨c :: '\n' :: follow, place.along 1, columns, none,
        [keyAt place columns key keyAllowed tokens], true, tokens.length + 1, t :: tokens⟩ := by
    refine .of_token (advance_word ho hinside) rfl ?_ rfl (Nat.le_refl _)
    rw [hopen, openFlow, markKey_outside hkey]
    rfl
  have hstays : skipGap true true false (place.along 1) (c :: '\n' :: follow) =
      ⟨true, c :: '\n' :: follow, place.along 1⟩ := skipGap_word hc true
  have hsame : (outside ('\n' :: follow) ((place.along 1).along 1) columns
      (keyAt place columns key keyAllowed tokens) false (u :: t :: tokens)).advance =
        (outside follow ⟨place.line + 1, 0, 0⟩ columns (keyAt place columns key keyAllowed tokens)
          true (u :: t :: tokens)).advance := advance_newline
  have hstale : IsStale (place.line + 1) (keyAt place columns key keyAllowed tokens) :=
    isStale_keyAt hkey hcolumn (Nat.lt_succ_self _)
  refine ⟨_, _, hstale, hbetween.trans ?_⟩
  refine .of_token ?_ rfl ?_ hsame (Nat.le_succ _)
  · simp [advance, isFlow, closeBlocks, resume, hstays]
  · rw [hclose]
    rfl

theorem reachesLine_emptyList :
    (outside ('[' :: ']' :: '\n' :: follow) place columns key keyAllowed tokens).ReachesLine follow
      columns (.closeFlowList :: .openFlowList :: tokens) :=
  reachesLine_brackets _ _ _ _ _ hkey hcolumn hinside (by decide) (by decide) token_openList
    token_closeList

theorem reachesLine_emptyRecord :
    (outside ('\x7b' :: '\x7d' :: '\n' :: follow) place columns key keyAllowed tokens).ReachesLine
      follow columns (.closeFlowRecord :: .openFlowRecord :: tokens) :=
  reachesLine_brackets _ _ _ _ _ hkey hcolumn hinside (by decide) (by decide) token_openRecord
    token_closeRecord

end LastWord

/-! ## Keys -/

/-- A key behind a mark: its text is followed by the line of the colon. -/
theorem exists_reaches_markedKey {outer : List Nat} {new : Bool} (s : String)
    (hopens : Opens place.column outer columns new) (hgap : atGap rest = true)
    (hkey : IsStale place.line key) :
    ∃ place' : Place, place'.column = place.column + 1 ∧
      (outside ('?' :: ' ' :: (writeText (place.column + indentStep) s ++
          (indentation place.column ++ ':' :: rest))) place columns key true tokens).Reaches
        (outside rest place' (place.column :: outer) none true
          (.value :: .scalar ⟨s, ScalarStyle.ofText s⟩ :: .key ::
            (opening .openBlockRecord new ++ tokens))) := by
  have hfollow : Follows (place.column :: outer) (indentation place.column ++ ':' :: rest) :=
    .line rest (Nat.le_refl _) (by decide)
  have hcolumn : (place.column :: outer).head? ≠ some (place.column + 1 + 1) := by
    rw [List.head?_cons, ne_eq, Option.some.injEq]
    omega
  have hinside : ∀ around, (place.column :: outer).head? = some around →
      around ≤ place.column + 1 + 1 := by
    rintro around ⟨⟩
    omega
  obtain ⟨line', key', hstale, htext⟩ := reachesLine_writeText
    (indentation place.column ++ ':' :: rest) ((place.along 1).along 1) (place.column :: outer) true
    (.key :: (opening .openBlockRecord new ++ tokens)) (isStale_none _) (fun _ => hcolumn) hinside s
    hfollow
  have hcolon : (Place.past ⟨line', 0, 0⟩ (indentation place.column)).column = place.column := by
    rw [Place.past_column, length_indentation, Nat.zero_add]
  have hstale' := hstale.mono (Place.past_line ⟨line', 0, 0⟩ (indentation place.column)).ge
  refine ⟨(Place.past ⟨line', 0, 0⟩ (indentation place.column)).along 1,
    congrArg Nat.succ hcolon, ?_⟩
  refine (reaches_key hopens hkey rfl).trans (reaches_space.trans (htext.trans ?_))
  refine (reaches_indentation place.column).trans ?_
  have hvalue := @reaches_value rest (Place.past ⟨line', 0, 0⟩ (indentation place.column)) outer
    key' (.scalar ⟨s, ScalarStyle.ofText s⟩ :: .key :: (opening .openBlockRecord new ++ tokens))
    hstale' hgap
  rwa [hcolon] at hvalue

/-- A key with its colon, up to what stands behind the colon. -/
theorem exists_reaches_writeKey {column : Nat} {outer : List Nat} {new : Bool} (s : String)
    (hopens : Opens column outer columns new) (hcolumn : place.column = column)
    (hgap : atGap rest = true) (hkey : IsStale place.line key) :
    ∃ place' : Place, column < place'.column ∧
      (isSimpleKey s = false → place'.column = column + 1) ∧
      (outside (writeKey column s ++ rest) place columns key true tokens).Reaches
        (outside rest place' (column :: outer) none (!isSimpleKey s)
          (.value :: .scalar ⟨s, ScalarStyle.ofText s⟩ :: .key ::
            (opening .openBlockRecord new ++ tokens))) := by
  subst hcolumn
  cases hsimple : isSimpleKey s with
  | true =>
      have hindent : 0 < place.column + indentStep := Nat.succ_pos _
      obtain ⟨c, body, place', hwritten, hc, htoken, hends⟩ := exists_token_key rest place columns
        true tokens s hkey hsimple hindent hgap hopens.head_le
      have htext : writeKey place.column s ++ rest = c :: body ++ ':' :: rest := by
        rw [writeKey, if_pos hsimple, hwritten, List.dropLast_concat, List.append_assoc,
          List.singleton_append]
      have hpast : PossibleKey.isPast ⟨tokens.length, columns.head? = some place.column, place⟩
          place' = false := by
        simp [PossibleKey.isPast, hends.line, hends.offset]
      have hlength : (':' :: rest).length ≤ (body ++ ':' :: rest).length :=
        List.length_append ▸ Nat.le_add_left _ _
      rw [htext]
      refine ⟨place'.along 1, Nat.lt_succ_of_le hends.column, fun h => absurd h (by decide), ?_⟩
      exact (Reaches.of_token (advance_word hc hopens.head_le) rfl htoken rfl hlength).trans
        (reaches_value_simple hopens rfl hpast hends.column hgap)
  | false =>
      obtain ⟨place', hplace, hreaches⟩ := exists_reaches_markedKey s hopens hgap hkey
      have htext : writeKey place.column s ++ rest = '?' :: ' ' ::
          (writeText (place.column + indentStep) s ++
            (indentation place.column ++ ':' :: rest)) := by
        simp [writeKey, hsimple]
      rw [htext]
      exact ⟨place', by omega, fun _ => hplace, hreaches⟩

end Layout
end UmlCatalog.Yaml
