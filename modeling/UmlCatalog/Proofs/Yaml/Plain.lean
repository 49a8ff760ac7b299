import UmlCatalog.Proofs.Yaml.Character
import UmlCatalog.Yaml.Layout

/-!
# Reading plain scalars back

A text that can be written plain is read up to its end, both as a key and as the last word of a
line. Nothing inside it ends the scalar, because neither a colon stands before white space in it
nor a number sign behind.
-/

namespace UmlCatalog.Yaml

/-- Whether a character may stand in front of another one inside a plain scalar. -/
def KeepsPlain (c d : Char) : Prop := (c = ':' → atGap [d] = false) ∧ (atGap [c] = true → d ≠ '#')

/-- A plain scalar goes on behind a character up to the end of a text. -/
structure ContinuesPlain (prev : Char) (cs : List Char) : Prop where
  isPrintable : ∀ c ∈ cs, isPrintable c = true
  isBreak : ∀ c ∈ cs, isBreak c = false
  last_ne_space : (prev :: cs).getLast? ≠ some ' '
  last_ne_colon : (prev :: cs).getLast? ≠ some ':'
  chain : (prev :: cs).IsChain KeepsPlain

theorem ContinuesPlain.tail {prev c : Char} {cs : List Char} (h : ContinuesPlain prev (c :: cs)) :
    ContinuesPlain c cs where
  isPrintable := fun d hd => h.isPrintable d (List.mem_cons_of_mem c hd)
  isBreak := fun d hd => h.isBreak d (List.mem_cons_of_mem c hd)
  last_ne_space := by
    have hlast := h.last_ne_space
    rwa [List.getLast?_cons_cons] at hlast
  last_ne_colon := by
    have hlast := h.last_ne_colon
    rwa [List.getLast?_cons_cons] at hlast
  chain := (List.isChain_cons_cons.mp h.chain).2

/-- A colon inside a plain scalar never stands in front of a gap, whatever follows the scalar. -/
theorem ContinuesPlain.atGap_eq_false {cs : List Char} (h : ContinuesPlain ':' cs)
    (follow : List Char) : atGap (cs ++ follow) = false := by
  cases cs with
  | nil => exact absurd rfl h.last_ne_colon
  | cons d cs => exact (List.isChain_cons_cons.mp h.chain).1.1 rfl

/-- A text that can be written plain and is not empty: its first character and the others. -/
structure IsPlain (first : Char) (others : List Char) : Prop
    extends ContinuesPlain first others where
  first_isPrintable : Yaml.isPrintable first = true
  first_isBreak : Yaml.isBreak first = false
  first_ne_space : first ≠ ' '
  startsOtherwise : ScalarStyle.startsOtherwise (first :: others) = false

theorem isPlain_of_allowsPlain {c : Char} {cs : List Char}
    (h : ScalarStyle.allowsPlain (c :: cs) = true) : IsPlain c cs := by
  simp only [ScalarStyle.allowsPlain, ScalarStyle.endsInside, Bool.and_eq_true, Bool.not_eq_true',
    Bool.or_eq_false_iff, ScalarStyle.hasPair_eq_false_iff, decide_eq_true_eq,
    decide_eq_false_iff_not, ScalarStyle.isSpecial, List.any_eq_false, Bool.not_eq_false,
    Bool.not_eq_true, List.forall_mem_cons] at h
  obtain ⟨⟨⟨⟨⟨hprint, hbreak⟩, hfirst⟩, hlast⟩, hstart⟩, hcolon, hchain⟩ := h
  refine ⟨⟨hprint.2, hbreak.2, hlast, hcolon, hchain.imp fun a b hab => ?_⟩, hprint.1, hbreak.1,
    by simpa using hfirst, hstart⟩
  simpa [KeepsPlain] using hab

theorem isPrintable_of_isAlphanum {c : Char} (h : c.isAlphanum = true) : isPrintable c = true := by
  delta Char.isAlphanum Char.isAlpha Char.isUpper Char.isLower Char.isDigit at h
  simp only [Bool.or_eq_true, Bool.and_eq_true, decide_eq_true_eq, ge_iff_le,
    UInt32.le_iff_toNat_le] at h
  have hascii : ∀ n : Nat, (65 ≤ n ∧ n ≤ 90 ∨ 97 ≤ n ∧ n ≤ 122) ∨ 48 ≤ n ∧ n ≤ 57 →
      32 ≤ n ∧ n ≤ 126 := by omega
  simp only [isPrintable, Char.toNat, Bool.or_eq_true, Bool.and_eq_true, decide_eq_true_eq]
  exact .inl (.inl (.inr (hascii _ h)))

theorem isAlphanum_of_mem_repr {n : Nat} {c : Char} (h : c ∈ (Nat.repr n).toList) :
    c.isAlphanum = true := by
  rw [Nat.toList_repr] at h
  have hdigit := Nat.isDigit_of_mem_toDigits (by decide) (by decide) h
  simp [Char.isAlphanum, hdigit]

/-- Letters and digits are written plain, unless they stand for something else. -/
theorem allowsPlain_of_isAlphanum {cs : List Char} (h : ∀ c ∈ cs, c.isAlphanum = true) :
    ScalarStyle.allowsPlain cs = true := by
  have hne : ∀ d : Char, d.isAlphanum = false → d ∉ cs := by
    intro d hd hmem
    rw [h d hmem] at hd
    cases hd
  have hspecial : ScalarStyle.isSpecial cs = false := by
    simp only [ScalarStyle.isSpecial, List.any_eq_false, Bool.not_eq_true', Bool.not_eq_false]
    exact fun c hc => isPrintable_of_isAlphanum (h c hc)
  have hbreak : cs.any isBreak = false := by
    simp only [List.any_eq_false, isBreak, Bool.or_eq_true, decide_eq_true_eq]
    rintro c hc ((((rfl | rfl) | rfl) | rfl) | rfl) <;> exact hne _ (by decide) hc
  have hends : ∀ d : Char, d.isAlphanum = false → cs.head? ≠ some d ∧ cs.getLast? ≠ some d :=
    fun d hd => ⟨fun he => hne d hd (List.mem_of_mem_head? he),
      fun he => hne d hd (List.mem_of_getLast? he)⟩
  have hstarts : ScalarStyle.startsOtherwise cs = false := by
    unfold ScalarStyle.startsOtherwise
    split
    · exact absurd List.mem_cons_self (hne '-' (by decide))
    · exact absurd List.mem_cons_self (hne '.' (by decide))
    · rfl
    · rename_i c cs _ _
      have hother : ∀ d : Char, d.isAlphanum = false → c ≠ d :=
        fun d hd he => hne d hd (he ▸ List.mem_cons_self)
      have hindicators : indicators.all (fun d => !d.isAlphanum) = true := by decide
      have hc : c ∉ indicators := fun hmem =>
        hother c (Bool.not_eq_true' _ ▸ List.all_eq_true.mp hindicators c hmem) rfl
      simp [hc, hother '-' (by decide), hother '?' (by decide)]
  have hinside : ScalarStyle.endsInside cs = false := by
    rw [ScalarStyle.endsInside, Bool.or_eq_false_iff, decide_eq_false_iff_not]
    refine ⟨(hends ':' (by decide)).2, ?_⟩
    rw [← Bool.not_eq_true, ScalarStyle.hasPair_iff]
    rintro ⟨before, c, d, after, rfl, hpair⟩
    have hcolon : c ≠ ':' := by
      rintro rfl
      exact hne ':' (by decide) (by simp)
    have hhash : d ≠ '#' := by
      rintro rfl
      exact hne '#' (by decide) (by simp)
    simp [hcolon, hhash] at hpair
  simp [ScalarStyle.allowsPlain, hspecial, hbreak, hends ' ' (by decide), hstarts, hinside]
namespace Scalar
variable {indent : Nat} {before : List Char} {place : Place} {follow : List Char}

/-- A space inside a line is added to the gap. -/
theorem plainFrom_space (bs cs : List Char) :
    plainFrom false indent before (.blanks bs) place (' ' :: cs) =
      plainFrom false indent before (.blanks (' ' :: bs)) (place.next ' ') cs := by
  rw [plainFrom]
  simp [isBlank, Gap.spansLines, Gap.addBlank]

/-- Reading goes through what continues a scalar, one character at a time. -/
theorem plainFrom_append {prev : Char} {cs bs : List Char} (h : ContinuesPlain prev cs)
    (hgap : bs = [] ∨ prev = ' ') (hcolumn : indent ≤ place.column) (hpos : 0 < place.column) :
    plainFrom false indent before (.blanks bs) place (cs ++ follow) =
      plainFrom false indent (cs.reverse ++ (bs ++ before)) (.blanks []) (place.past cs)
        follow := by
  induction cs generalizing prev bs before place with
  | nil =>
      obtain rfl : bs = [] := hgap.resolve_right fun hprev => h.last_ne_space (by rw [hprev]; rfl)
      rfl
  | cons c cs ih =>
      have hprint := h.isPrintable c List.mem_cons_self
      have hbreak := h.isBreak c List.mem_cons_self
      have hnext : indent ≤ (place.next c).column := Nat.le_succ_of_le hcolumn
      by_cases hspace : c = ' '
      · subst hspace
        rw [List.cons_append, plainFrom_space, ih h.tail (Or.inr rfl) hnext (Nat.succ_pos _),
          Place.past_cons, List.reverse_cons, List.append_assoc]
        rfl
      · have hblank : isBlank c = false := by
          rw [← Bool.not_eq_true, isBlank_iff_of_isPrintable hprint]
          exact hspace
        have hcolon : (c = ':' && atGap (cs ++ follow)) = false := by
          rw [Bool.and_eq_false_iff, decide_eq_false_iff_not, ← imp_iff_not_or]
          rintro rfl
          exact h.tail.atGap_eq_false follow
        have hword : (!(Gap.blanks bs).isNone && endsPlainAtWord false indent place
            (c :: (cs ++ follow))) = false := by
          rcases hgap with rfl | hprev
          · rfl
          · have hhash : c ≠ '#' := (List.isChain_cons_cons.mp h.chain).1.2 (by rw [hprev]; rfl)
            simp [endsPlainAtWord, hhash, Nat.ne_of_gt hpos, Nat.not_lt.mpr hcolumn]
        calc plainFrom false indent before (.blanks bs) place (c :: (cs ++ follow))
          _ = plainFrom false indent (c :: (bs ++ before)) (.blanks []) (place.next c)
                (cs ++ follow) := by
              rw [plainFrom]
              simp [hblank, hbreak, endsPlain, hcolon, hword, isStrayColon, Gap.close, Gap.none]
          _ = plainFrom false indent (cs.reverse ++ (c :: (bs ++ before))) (.blanks [])
                ((place.next c).past cs) follow :=
              ih h.tail (Or.inl rfl) hnext (Nat.succ_pos _)
          _ = plainFrom false indent ((c :: cs).reverse ++ (bs ++ before)) (.blanks [])
                (place.past (c :: cs)) follow := by
              rw [Place.past_cons, List.reverse_cons, List.append_assoc, List.singleton_append]

/-- Reading goes through a whole scalar. -/
theorem plain_append {c : Char} {cs : List Char} (h : IsPlain c cs)
    (hcolumn : indent ≤ place.column + 1) :
    plain false indent place (c :: cs ++ follow) =
      plainFrom false indent (c :: cs).reverse (.blanks []) (place.past (c :: cs)) follow := by
  have hblank : isBlank c = false := by
    rw [← Bool.not_eq_true, isBlank_iff_of_isPrintable h.first_isPrintable]
    exact h.first_ne_space
  have hcolon : (c = ':' && atGap (cs ++ follow)) = false := by
    rw [Bool.and_eq_false_iff, decide_eq_false_iff_not, ← imp_iff_not_or]
    rintro rfl
    exact h.atGap_eq_false follow
  calc plain false indent place (c :: (cs ++ follow))
    _ = plainFrom false indent [c] (.blanks []) (place.next c) (cs ++ follow) := by
        rw [plain, plainFrom]
        simp [hblank, h.first_isBreak, endsPlain, hcolon, isStrayColon, Gap.none, Gap.isNone,
          Gap.close, Gap.reverseText]
    _ = plainFrom false indent (c :: cs).reverse (.blanks []) (place.past (c :: cs)) follow := by
        have hpos : 0 < (place.next c).column := Nat.succ_pos _
        rw [plainFrom_append h.toContinuesPlain (Or.inl rfl) hcolumn hpos, Place.past_cons,
          List.reverse_cons]
        rfl

/-- A key ends in front of its colon. -/
theorem plain_key {c : Char} {cs : List Char} (h : IsPlain c cs)
    (hcolumn : indent ≤ place.column + 1) (hfollow : atGap follow = true) :
    plain false indent place (c :: cs ++ ':' :: follow) =
      some ⟨(c :: cs, false), ':' :: follow, place.past (c :: cs)⟩ := by
  rw [plain_append h hcolumn, plainFrom]
  simp [isBlank, isBreak, endsPlain, hfollow, Gap.spansLines]

/-- Behind the end of its line a scalar passes over indentation. -/
theorem plainFrom_indentation (first : Option Char) (more : List Char) (column : Nat) :
    plainFrom false indent before (.lines first more) place (indentation column ++ follow) =
      plainFrom false indent before (.lines first more) (place.past (indentation column))
        follow := by
  induction column generalizing place with
  | zero => rfl
  | succ column ih =>
      rw [indentation_succ, List.cons_append, Place.past_cons, ← ih, plainFrom]
      simp [isBlank, Gap.spansLines, Gap.addBlank]

/-- A value ends in front of the next line, or at the end of the text. The indentation of that line
has been passed over. -/
theorem exists_plain_value {columns : List Nat} {c : Char} {cs : List Char} (h : IsPlain c cs)
    (hcolumn : columns.head?.elim 0 Nat.succ ≤ place.column + 1)
    (hfollow : Follows columns follow) :
    ∃ column w, follow = indentation column ++ w ∧
      plain false (columns.head?.elim 0 Nat.succ) place (c :: cs ++ '\n' :: follow) =
        some ⟨(c :: cs, true), w, (place.past (c :: cs)).nextLine.past (indentation column)⟩ := by
  have hline : ∀ column w, plain false (columns.head?.elim 0 Nat.succ) place
      (c :: cs ++ '\n' :: (indentation column ++ w)) =
        plainFrom false (columns.head?.elim 0 Nat.succ) (c :: cs).reverse (.lines (some '\n') [])
          ((place.past (c :: cs)).nextLine.past (indentation column)) w := by
    intro column w
    rw [plain_append h hcolumn, plainFrom]
    exact plainFrom_indentation (some '\n') [] column
  cases hfollow with
  | nil =>
      refine ⟨0, [], rfl, (hline 0 []).trans ?_⟩
      rw [plainFrom, List.reverse_reverse]
      rfl
  | @line column around outer d w hle hd =>
      refine ⟨column, d :: w, rfl, (hline column (d :: w)).trans ?_⟩
      have hends : endsPlainAtWord false (around + 1)
          ((place.past (c :: cs)).nextLine.past (indentation column)) (d :: w) = true := by
        simp [endsPlainAtWord, Place.nextLine, Nat.lt_succ_of_le hle]
      rw [plainFrom]
      simp [hd.isBlank, hd.isBreak, hends, Gap.isNone, Gap.spansLines]

end Scalar
end UmlCatalog.Yaml
