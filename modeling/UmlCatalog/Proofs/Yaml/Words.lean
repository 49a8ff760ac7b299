import Mathlib.Data.List.TakeWhile
import UmlCatalog.Proofs.Yaml.Entry

/-!
# The words of a written document

Every value that is written inside a block leaves the layout in front of the next line, with the
words of the value behind those that were there. So the words of a document follow one another as
its values do, and a document as a whole is cut into its words.
-/

namespace UmlCatalog.Yaml

mutual
/-- The words of a value that is written on the line of its indicator, or not. A list that starts at
the column of its key is no block of its own. -/
def words (sameLine : Bool) : WireValue → List Token
  | .text s => [.scalar ⟨s, ScalarStyle.ofText s⟩]
  | .flag b => [.scalar ⟨if b then "true" else "false", .plain⟩]
  | .index n => [.scalar ⟨Nat.repr n, .plain⟩]
  | .list [] => [.openFlowList, .closeFlowList]
  | .list (v :: vs) =>
      Layout.opening .openBlockList sameLine ++
        .item :: (words true v ++ (itemWords vs ++ Layout.opening .closeBlock sameLine))
  | .record [] => [.openFlowRecord, .closeFlowRecord]
  | .record ((k, v) :: fs) =>
      .openBlockRecord :: .key :: .scalar ⟨k, ScalarStyle.ofText k⟩ :: .value ::
        (words (!isSimpleKey k) v ++ (fieldWords fs ++ [.closeBlock]))

/-- The words of items of a list. -/
def itemWords : List WireValue → List Token
  | [] => []
  | v :: vs => .item :: (words true v ++ itemWords vs)

/-- The words of fields of a record. -/
def fieldWords : List (String × WireValue) → List Token
  | [] => []
  | (k, v) :: fs =>
      .key :: .scalar ⟨k, ScalarStyle.ofText k⟩ :: .value ::
        (words (!isSimpleKey k) v ++ fieldWords fs)
end

/-! ## What stands in front and behind -/

/-- An indicator is always followed by white space. -/
theorem atGap_write_append (sameLine : Bool) (column : Nat) (v : WireValue) (rest : List Char) :
    atGap (write sameLine column v ++ rest) = true := by
  cases v with
  | text s => rfl
  | flag b => rfl
  | index n => rfl
  | list vs =>
      cases vs with
      | nil => rfl
      | cons v vs => cases sameLine <;> rfl
  | record fs =>
      cases fs with
      | nil => rfl
      | cons f fs => cases sameLine <;> rfl

theorem exists_writeKey_append (column : Nat) (s : String) (rest : List Char) :
    ∃ c cs, writeKey column s ++ rest = c :: cs ∧ StartsWord c := by
  cases hsimple : isSimpleKey s with
  | true =>
      have hindent : 0 < column + indentStep := Nat.succ_pos _
      obtain ⟨c, body, _, hwritten, hc, _⟩ := Layout.exists_token_key [] .start [] true [] s
        (Layout.isStale_none _) hsimple hindent rfl nofun
      refine ⟨c, body ++ ':' :: rest, ?_, hc⟩
      rw [writeKey, if_pos hsimple, hwritten, List.dropLast_concat, List.append_assoc]
      rfl
  | false =>
      refine ⟨'?',
        ' ' :: (writeText (column + indentStep) s ++ (indentation column ++ ':' :: rest)), ?_,
        (by decide)⟩
      simp [writeKey, hsimple]

section Follows
variable {column : Nat} {outer : List Nat} {follow : List Char}
  (h : Follows (column :: outer) follow)
include h

theorem follows_writeItems_append (vs : List WireValue) :
    Follows (column :: outer) (writeItems column vs ++ follow) := by
  cases vs with
  | nil => exact h
  | cons v vs =>
      rw [writeItems, List.append_assoc]
      exact .line _ (Nat.le_refl _) (by decide)

theorem follows_writeFields_append (fs : List (String × WireValue)) :
    Follows (column :: outer) (writeFields column fs ++ follow) := by
  cases fs with
  | nil => exact h
  | cons f fs =>
      obtain ⟨k, v⟩ := f
      obtain ⟨c, cs, hkey, hc⟩ := exists_writeKey_append column k
        (write (!isSimpleKey k) column v ++ writeFields column fs ++ follow)
      rw [writeFields, List.append_assoc, List.append_assoc, hkey]
      exact .line _ (Nat.le_refl _) hc

end Follows

namespace Layout

/-! ## Values, items and fields -/

section Steps
variable {sameLine new : Bool} {column : Nat} {outer columns : List Nat} {place : Place}
  {rest : List Char} {key : Option PossibleKey} (tokens : List Token)

/-- A value behind an indicator is read up to the next line. -/
def ReadsValue (sameLine : Bool) (column : Nat) (outer : List Nat) (v : WireValue)
    (rest : List Char) : Prop :=
  ∀ (place : Place) (tokens : List Token), column < place.column →
    (sameLine = true → place.column = column + 1) →
    (outside (write sameLine column v ++ rest) place (column :: outer) none sameLine
      tokens).ReachesLine rest (column :: outer) ((words sameLine v).reverse ++ tokens)

/-- What a block holds is read up to the line behind it. -/
def ReadsLines (text : List Char) (column : Nat) (outer : List Nat) (read : List Token)
    (rest : List Char) : Prop :=
  ∀ (line : Nat) (key : Option PossibleKey) (tokens : List Token), IsStale line key →
    (outside (text ++ rest) ⟨line, 0, 0⟩ (column :: outer) key true tokens).ReachesLine rest
      (column :: outer) (read.reverse ++ tokens)

variable {tokens} in
/-- A block is read from its first word on. -/
theorem reachesLine_blockStart {follow : List Char} {columns' : List Nat} {tokens' : List Token}
    (hsame : sameLine = true → place.column + 1 = column)
    (h : ∀ place' : Place, place'.column = column →
      (outside rest place' columns none true tokens).ReachesLine follow columns' tokens') :
    (outside (blockStart sameLine column ++ rest) place columns none sameLine tokens).ReachesLine
      follow columns' tokens' := by
  cases sameLine with
  | true => exact reaches_space.reachesLine (h (place.along 1) (hsame rfl))
  | false =>
      have hline : (outside ('\n' :: (indentation column ++ rest)) place columns none false
          tokens).Reaches (outside (indentation column ++ rest) place.nextLine columns none true
            tokens) := .of_advance advance_newline (Nat.le_succ _)
      have hcolumn : (place.nextLine.past (indentation column)).column = column := by
        rw [Place.past_column, length_indentation]
        exact Nat.zero_add _
      exact hline.reachesLine ((reaches_indentation column).reachesLine (h _ hcolumn))

/-- A line is read from its first word on. -/
theorem readsLines_indentation {text : List Char} {read : List Token}
    (h : ∀ (place : Place) (key : Option PossibleKey) (tokens : List Token), place.column = column →
      IsStale place.line key → (outside (text ++ rest) place (column :: outer) key true
        tokens).ReachesLine rest (column :: outer) (read.reverse ++ tokens)) :
    ReadsLines (indentation column ++ text) column outer read rest := by
  intro line key tokens hkey
  have hcolumn : (Place.past ⟨line, 0, 0⟩ (indentation column)).column = column := by
    rw [Place.past_column, length_indentation, Nat.zero_add]
  rw [List.append_assoc]
  exact (reaches_indentation column).reachesLine (h _ key tokens hcolumn (by simpa using hkey))

/-- The first item of a list from its hyphen on, and the other items. -/
theorem reachesLine_items {v : WireValue} {vs : List WireValue}
    (hopens : Opens column outer columns new) (hplace : place.column = column)
    (hkey : IsStale place.line key)
    (hvalue : ReadsValue true column outer v (writeItems column vs ++ rest))
    (hrest : ReadsLines (writeItems column vs) column outer (itemWords vs) rest) :
    (outside ('-' :: (write true column v ++ (writeItems column vs ++ rest))) place columns key true
      tokens).ReachesLine rest (column :: outer)
      ((.item :: (words true v ++ itemWords vs)).reverse ++
        (opening .openBlockList new ++ tokens)) := by
  subst hplace
  have hgap := atGap_write_append true place.column v (writeItems place.column vs ++ rest)
  refine (reaches_item hopens hkey hgap).reachesLine ?_
  refine (hvalue (place.along 1) _ (Nat.lt_succ_self _) fun _ => rfl).trans ?_
  intro line key hkey
  simpa using hrest line key
    ((words true v).reverse ++ .item :: (opening .openBlockList new ++ tokens)) hkey

/-- The first field of a record from its key on, and the other fields. -/
theorem reachesLine_fields {k : String} {v : WireValue} {fs : List (String × WireValue)}
    (hopens : Opens column outer columns new) (hplace : place.column = column)
    (hkey : IsStale place.line key)
    (hvalue : ReadsValue (!isSimpleKey k) column outer v (writeFields column fs ++ rest))
    (hrest : ReadsLines (writeFields column fs) column outer (fieldWords fs) rest) :
    (outside (writeKey column k ++ (write (!isSimpleKey k) column v ++
      (writeFields column fs ++ rest))) place columns key true tokens).ReachesLine rest
        (column :: outer)
        ((.key :: .scalar ⟨k, ScalarStyle.ofText k⟩ :: .value ::
          (words (!isSimpleKey k) v ++ fieldWords fs)).reverse ++
            (opening .openBlockRecord new ++ tokens)) := by
  obtain ⟨place', hbehind, hmarked, hreaches⟩ := exists_reaches_writeKey k hopens hplace
    (atGap_write_append (!isSimpleKey k) column v (writeFields column fs ++ rest)) hkey
  refine hreaches.reachesLine ((hvalue place' _ hbehind fun hsame => hmarked ?_).trans ?_)
  · simpa using hsame
  · intro line key hkey
    simpa using hrest line key ((words (!isSimpleKey k) v).reverse ++ .value ::
      .scalar ⟨k, ScalarStyle.ofText k⟩ :: .key :: (opening .openBlockRecord new ++ tokens)) hkey

theorem opens_deeper {inner : Nat} (outer : List Nat) (h : column < inner) :
    Opens inner (column :: outer) (column :: outer) true :=
  .new fun _ haround => Option.some.inj haround ▸ h

/-- A value that is a single word, or a pair of brackets, on the line of its indicator. -/
theorem readsValue_space {v : WireValue} {text : List Char}
    (hwrite : write sameLine column v = ' ' :: text)
    (h : ∀ (place : Place) (tokens : List Token),
      (sameLine = true → (column :: outer).head? ≠ some place.column) →
      (∀ around, (column :: outer).head? = some around → around ≤ place.column) →
      (outside (text ++ rest) place (column :: outer) none sameLine tokens).ReachesLine rest
        (column :: outer) ((words sameLine v).reverse ++ tokens)) :
    ReadsValue sameLine column outer v rest := by
  intro place tokens hplace _
  rw [hwrite]
  refine reaches_space.reachesLine (h (place.along 1) tokens (fun _ hhead => ?_) ?_)
  · have hcolumn : column = place.column + 1 := Option.some.inj hhead
    omega
  · rintro around ⟨⟩
    exact Nat.le_succ_of_le hplace.le

variable {tokens} in
/-- A block closes in front of the line behind it. -/
theorem ReachesLine.closeBlock {l : Layout} {inner : Nat} (hinner : column < inner)
    (hfollow : Follows (column :: outer) rest)
    (h : l.ReachesLine rest (inner :: column :: outer) tokens) :
    l.ReachesLine rest (column :: outer) (.closeBlock :: tokens) :=
  h.trans fun line key hkey => ⟨line, key, hkey, reaches_closeBlock hinner hfollow⟩

variable {tokens} in
/-- A block inside another one is read from its first word on, and it closes in front of the line
behind it. -/
theorem reachesLine_innerBlock {text : List Char} {tokens' : List Token}
    (hsame : sameLine = true → place.column = column + 1)
    (hfollow : Follows (column :: outer) rest)
    (h : ∀ place' : Place, place'.column = column + indentStep →
      (outside text place' (column :: outer) none true tokens).ReachesLine rest
        ((column + indentStep) :: column :: outer) tokens') :
    (outside (blockStart sameLine (column + indentStep) ++ text) place (column :: outer) none
      sameLine tokens).ReachesLine rest (column :: outer) (.closeBlock :: tokens') := by
  have hdeeper : column < column + indentStep := Nat.lt_add_of_pos_right (by decide)
  have hstep : sameLine = true → place.column + 1 = column + indentStep := fun heq => by
    rw [hsame heq]
    rfl
  exact reachesLine_blockStart hstep fun place' hplace' =>
    (h place' hplace').closeBlock hdeeper hfollow

end Steps

mutual
theorem readsValue_write (sameLine : Bool) (column : Nat) :
    ∀ v outer rest, Follows (column :: outer) rest → ReadsValue sameLine column outer v rest
  | .text s, outer, rest, hfollow =>
      readsValue_space (by rw [write]; rfl) fun place tokens hcolumn hinside =>
        reachesLine_writeText rest place (column :: outer) sameLine tokens (isStale_none _) hcolumn
          hinside s hfollow
  | .flag b, outer, rest, hfollow =>
      readsValue_space (by rw [write]) fun place tokens hcolumn hinside =>
        reachesLine_flag rest place (column :: outer) sameLine tokens (isStale_none _) hcolumn
          hinside b hfollow
  | .index n, outer, rest, hfollow =>
      readsValue_space (by rw [write]) fun place tokens hcolumn hinside =>
        reachesLine_index rest place (column :: outer) sameLine tokens (isStale_none _) hcolumn
          hinside n hfollow
  | .list [], outer, rest, _ =>
      readsValue_space (by rw [write]) fun place tokens hcolumn hinside =>
        reachesLine_emptyList rest place (column :: outer) sameLine tokens (isStale_none _) hcolumn
          hinside
  | .list (v :: vs), outer, rest, hfollow => by
      intro place tokens hplace hsame
      -- Behind a simple key the items stand at the column of the key, in no block of their own;
      -- anywhere else they stand deeper, in a block that closes behind them.
      cases sameLine with
      | false =>
          have hvalue := readsValue_write true column v outer (writeItems column vs ++ rest)
            (follows_writeItems_append hfollow vs)
          have hrest := readsLines_writeItems column vs outer rest hfollow
          have hnever : false = true → place.column + 1 = column := nofun
          have hstart := reachesLine_blockStart hnever fun place' hplace' =>
            reachesLine_items tokens .old hplace' (isStale_none _) hvalue hrest
          rw [write, words]
          simpa [opening, listColumn] using hstart
      | true =>
          have hdeeper : column < column + indentStep := Nat.lt_add_of_pos_right (by decide)
          have hinner : Follows ((column + indentStep) :: column :: outer) rest :=
            hfollow.deeper hdeeper.le
          have hvalue := readsValue_write true (column + indentStep) v (column :: outer)
            (writeItems (column + indentStep) vs ++ rest) (follows_writeItems_append hinner vs)
          have hrest := readsLines_writeItems (column + indentStep) vs (column :: outer) rest hinner
          have hstart := reachesLine_innerBlock hsame hfollow fun place' hplace' =>
            reachesLine_items tokens (opens_deeper outer hdeeper) hplace' (isStale_none _) hvalue
              hrest
          rw [write, words]
          simpa [opening, listColumn] using hstart
  | .record [], outer, rest, _ =>
      readsValue_space (by rw [write]) fun place tokens hcolumn hinside =>
        reachesLine_emptyRecord rest place (column :: outer) sameLine tokens (isStale_none _)
          hcolumn hinside
  | .record ((k, v) :: fs), outer, rest, hfollow => by
      intro place tokens hplace hsame
      have hdeeper : column < column + indentStep := Nat.lt_add_of_pos_right (by decide)
      have hinner : Follows ((column + indentStep) :: column :: outer) rest :=
        hfollow.deeper hdeeper.le
      have hvalue := readsValue_write (!isSimpleKey k) (column + indentStep) v (column :: outer)
        (writeFields (column + indentStep) fs ++ rest) (follows_writeFields_append hinner fs)
      have hrest := readsLines_writeFields (column + indentStep) fs (column :: outer) rest hinner
      have hstart := reachesLine_innerBlock hsame hfollow fun place' hplace' =>
        reachesLine_fields tokens (opens_deeper outer hdeeper) hplace' (isStale_none _) hvalue hrest
      rw [write, words]
      simpa [opening] using hstart

theorem readsLines_writeItems (column : Nat) :
    ∀ vs outer rest, Follows (column :: outer) rest →
      ReadsLines (writeItems column vs) column outer (itemWords vs) rest
  | [], outer, rest, _ => fun line key tokens hkey => ⟨line, key, hkey, .refl _⟩
  | v :: vs, outer, rest, hfollow => by
      have hvalue := readsValue_write true column v outer (writeItems column vs ++ rest)
        (follows_writeItems_append hfollow vs)
      have hrest := readsLines_writeItems column vs outer rest hfollow
      rw [writeItems, itemWords]
      refine readsLines_indentation fun place key tokens hplace hkey => ?_
      simpa [opening] using reachesLine_items tokens .old hplace hkey hvalue hrest

theorem readsLines_writeFields (column : Nat) :
    ∀ fs outer rest, Follows (column :: outer) rest →
      ReadsLines (writeFields column fs) column outer (fieldWords fs) rest
  | [], outer, rest, _ => fun line key tokens hkey => ⟨line, key, hkey, .refl _⟩
  | (k, v) :: fs, outer, rest, hfollow => by
      have hvalue := readsValue_write (!isSimpleKey k) column v outer
        (writeFields column fs ++ rest) (follows_writeFields_append hfollow fs)
      have hrest := readsLines_writeFields column fs outer rest hfollow
      rw [writeFields, fieldWords]
      refine readsLines_indentation fun place key tokens hplace hkey => ?_
      simpa [opening] using reachesLine_fields tokens .old hplace hkey hvalue hrest
end

/-! ## Documents -/

/-- In front of the end of a text all blocks are closed. -/
theorem tokens?_of_reachesLine {cs : List Char} {columns : List Nat} {tokens : List Token}
    (hcolumns : ∀ column, columns.head? = some column → column ≤ 0)
    (h : (outside cs .start [] none true []).ReachesLine [] columns tokens) :
    tokens? cs =
      some (tokens.reverse ++ (List.replicate columns.length .closeBlock ++ [.streamEnd])) := by
  obtain ⟨line, key, hkey, k, hk, hrun⟩ := h
  have hlength : k ≤ cs.length := by simpa [outside] using hk
  have hadvance : (outside [] ⟨line, 0, 0⟩ columns key true tokens).advance =
      outside [] ⟨line, 0, 0⟩ columns key true tokens :=
    advance_outside_of_le ⟨true, [], ⟨line, 0, 0⟩⟩ rfl hcolumns
  have hclose : (outside [] ⟨line, 0, 0⟩ columns key true tokens).closeBlocks (fun _ => true) =
      outside [] ⟨line, 0, 0⟩ [] key true
        (List.replicate columns.length .closeBlock ++ tokens) := by
    have htake : columns.takeWhile (fun _ => true) = columns :=
      List.takeWhile_eq_self_iff.mpr fun _ _ => rfl
    have hdrop : columns.dropWhile (fun _ => true) = [] :=
      List.dropWhile_eq_nil_iff.mpr fun _ _ => rfl
    simp [closeBlocks, outside, isFlow, htake, hdrop, Nat.add_comm]
  have hfinish : (outside [] ⟨line, 0, 0⟩ columns key true tokens).finish =
      some (tokens.reverse ++ (List.replicate columns.length .closeBlock ++ [.streamEnd])) := by
    rw [finish, hclose, dropKey_outside hkey]
    simp [outside]
  calc tokens? cs
    _ = run (cs.length - k + k) (start cs) := by rw [tokens?, Nat.sub_add_cancel hlength]
    _ = run (cs.length - k) (outside [] ⟨line, 0, 0⟩ columns key true tokens) := hrun _
    _ = (outside [] ⟨line, 0, 0⟩ columns key true tokens).finish := by
        rw [run.eq_def]
        simp only [hadvance]
        rfl
    _ = _ := hfinish

end Layout

section Documents
variable {v : WireValue} {text : List Char} (hrender : (render v).toList = text)
include hrender

/-- A document that opens no block is cut into its words. -/
theorem tokens?_of_word (h : (Layout.outside text .start [] none true []).ReachesLine [] []
      ((words true v).reverse ++ [])) :
    tokens? (render v).toList = some (words true v ++ [.streamEnd]) := by
  rw [hrender, Layout.tokens?_of_reachesLine (by rintro column ⟨⟩) h]
  simp

/-- A document that is a block at the first column is cut into its words. -/
theorem tokens?_of_block {t : Token} {read : List Token}
    (hwords : words true v = t :: (read ++ [.closeBlock]))
    (h : (Layout.outside text .start [] none true []).ReachesLine [] [0]
      (read.reverse ++ (Layout.opening t true ++ []))) :
    tokens? (render v).toList = some (words true v ++ [.streamEnd]) := by
  have hcolumns : ∀ column, [0].head? = some column → column ≤ 0 := by
    rintro column ⟨⟩
    exact Nat.le_refl 0
  rw [hrender, Layout.tokens?_of_reachesLine hcolumns h, hwords]
  simp [Layout.opening]

end Documents

/-- A written document is cut into its words. -/
theorem tokens?_render (v : WireValue) :
    tokens? (render v).toList = some (words true v ++ [.streamEnd]) := by
  have houtside : ∀ column, true = true → ([] : List Nat).head? ≠ some column := by
    rintro column _ ⟨⟩
  have hfollow : Follows [0] [] := .nil [0]
  have hopens : Layout.Opens 0 [] [] true := .new nofun
  cases v with
  | text s =>
      have hline := Layout.reachesLine_writeText [] .start [] true [] (Layout.isStale_none _)
        (houtside _) nofun s (.nil [])
      refine tokens?_of_word ?_ hline
      simp [render, write]
  | flag b =>
      have hline := Layout.reachesLine_flag [] .start [] true [] (Layout.isStale_none _)
        (houtside _) nofun b (.nil [])
      refine tokens?_of_word ?_ hline
      simp [render, write]
  | index n =>
      have hline := Layout.reachesLine_index [] .start [] true [] (Layout.isStale_none _)
        (houtside _) nofun n (.nil [])
      refine tokens?_of_word ?_ hline
      simp [render, write]
  | list vs =>
      cases vs with
      | nil =>
          have hline := Layout.reachesLine_emptyList [] .start [] true [] (Layout.isStale_none _)
            (houtside _) nofun
          refine tokens?_of_word ?_ hline
          simp [render, write]
      | cons v vs =>
          have hvalue := Layout.readsValue_write true 0 v [] _
            (follows_writeItems_append hfollow vs)
          have hrest := Layout.readsLines_writeItems 0 vs [] [] hfollow
          have hitems := Layout.reachesLine_items [] hopens rfl
            (Layout.isStale_none Place.start.line) hvalue hrest
          refine tokens?_of_block ?_ ?_ hitems
          · simp [render, writeItems, indentation]
          · simp [words, Layout.opening]
  | record fs =>
      cases fs with
      | nil =>
          have hline := Layout.reachesLine_emptyRecord [] .start [] true [] (Layout.isStale_none _)
            (houtside _) nofun
          refine tokens?_of_word ?_ hline
          simp [render, write]
      | cons f fs =>
          obtain ⟨k, v⟩ := f
          have hvalue := Layout.readsValue_write (!isSimpleKey k) 0 v [] _
            (follows_writeFields_append hfollow fs)
          have hrest := Layout.readsLines_writeFields 0 fs [] [] hfollow
          have hfields := Layout.reachesLine_fields [] hopens rfl
            (Layout.isStale_none Place.start.line) hvalue hrest
          refine tokens?_of_block ?_ ?_ hfields
          · simp [render, writeFields, indentation]
          · simp [words]

end UmlCatalog.Yaml
