import Mathlib.Data.List.Forall2
import UmlCatalog.Json.Printer
import UmlCatalog.Json.Token

/-!
# The words of a written document

A document that is written as JSON is cut into the words that it was written from: strings
with their escapes, numbers, the two flags and the signs of lists and records. What is written
between the words may be any white space.

Only a number does not end by itself. What follows a number must therefore not carry it on.
-/

namespace UmlCatalog.Json
open Text (Glyph)

/-! ## Strings -/

/-- A piece of a string that stands for a character by itself. -/
inductive Stands : CodeUnit → Char → Prop
  | char (c : Char) : Stands (.char c) c
  | unit (c : Char) (h : c.toNat < 0xD800) : Stands (.unit c.toNat) c

theorem joinOnto_unit {n : Nat} (h : n < 0xD800) (acc : List Char) (rest : List CodeUnit) :
    joinOnto acc (.unit n :: rest) = joinOnto (Char.ofNat n :: acc) rest := by
  rw [joinOnto.eq_def]
  exact if_pos (Or.inl h)

theorem joinOnto_of_stands {units : List CodeUnit} {cs : List Char}
    (h : List.Forall₂ Stands units cs) (acc : List Char) :
    joinOnto acc units = some (cs.reverse ++ acc) := by
  induction h generalizing acc with
  | nil => rw [joinOnto]; rfl
  | @cons u c units cs hu _ ih =>
      rw [List.reverse_cons, List.append_assoc, List.singleton_append, ← ih]
      cases hu with
      | char => rw [joinOnto]
      | unit _ hc => rw [joinOnto_unit hc, Char.ofNat_toNat]

theorem join_of_stands {units : List CodeUnit} {s : String}
    (h : List.Forall₂ Stands units s.toList) : join units = some s := by
  rw [join, joinOnto_of_stands h, List.append_nil, Option.map_some, List.reverse_reverse,
    String.ofList_toList]

theorem hexDigit?_hexDigit : ∀ n < 16, hexDigit? (hexDigit n) = some n := by decide

theorem hexUnit?_control {n : Nat} (h : n < 0x20) :
    hexUnit? (some '0') (some '0') (some (hexDigit (n / 16))) (some (hexDigit (n % 16))) =
      some n := by
  have hzero : hexDigit? '0' = some 0 := by decide
  have hhigh := hexDigit?_hexDigit (n / 16) (by omega)
  have hlow := hexDigit?_hexDigit (n % 16) (by omega)
  have hsum : n / 16 * 16 + n % 16 = n := by omega
  simp [hexUnit?, hzero, hhigh, hlow, hsum]

/-- A character without an escape stands for itself. -/
theorem scanString_plain {c : Char} (hquote : c ≠ '\x22') (hback : c ≠ '\\')
    (hcontrol : ¬c.toNat < 0x20) (acc : List CodeUnit) (rest : List Glyph) :
    scanString acc (some c :: rest) = scanString (.char c :: acc) rest := by
  rw [scanString]
  · rw [if_neg hquote, if_neg (not_or.mpr ⟨hback, hcontrol⟩)]
  · exact fun _ _ _ _ _ _ hc => hback hc
  · exact fun _ _ _ hc => hback hc

/-- A character is read back from its escape, or from itself if it has none. -/
theorem exists_scanString_escape (c : Char) :
    ∃ u, Stands u c ∧ ∀ acc rest,
      scanString acc ((escape c).map some ++ rest) = scanString (u :: acc) rest := by
  by_cases hshort : c = '\x22' ∨ c = '\\' ∨ c = '\x08' ∨ c = '\x0c' ∨ c = '\n' ∨ c = '\r' ∨ c = '\t'
  · refine ⟨.char c, .char c, fun acc rest => ?_⟩
    obtain rfl | rfl | rfl | rfl | rfl | rfl | rfl := hshort <;> rfl
  · simp only [not_or] at hshort
    by_cases hcontrol : c.toNat < 0x20
    · refine ⟨.unit c.toNat, .unit c (by omega), fun acc rest => ?_⟩
      simp [escape, hshort, hcontrol, scanString, hexUnit?_control hcontrol]
    · refine ⟨.char c, .char c, fun acc rest => ?_⟩
      have hescape : escape c = [c] := by simp [escape, hshort, hcontrol]
      rw [hescape]
      exact scanString_plain hshort.1 hshort.2.1 hcontrol acc rest

/-- The text in quotes is read back up to its closing quote. -/
theorem exists_scanString_escaped (cs : List Char) :
    ∃ units, List.Forall₂ Stands units cs ∧ ∀ acc rest,
      scanString acc ((cs.flatMap escape).map some ++ some '\x22' :: rest) =
        some (acc.reverse ++ units, rest) := by
  induction cs with
  | nil =>
      refine ⟨[], .nil, fun acc rest => ?_⟩
      simp [scanString]
  | cons c cs ih =>
      obtain ⟨u, hu, hscan⟩ := exists_scanString_escape c
      obtain ⟨units, hunits, hrest⟩ := ih
      refine ⟨u :: units, .cons hu hunits, fun acc rest => ?_⟩
      rw [List.flatMap_cons, List.map_append, List.append_assoc, hscan, hrest,
        List.reverse_cons, List.append_assoc, List.singleton_append]

/-- A text in quotes is one word. -/
theorem scanToken_quote (s : String) (rest : List Glyph) :
    scanToken '\x22' ((s.toList.flatMap escape ++ ['\x22']).map some ++ rest) =
      some (.string (some s), rest) := by
  obtain ⟨units, hunits, hscan⟩ := exists_scanString_escaped s.toList
  have htext : (s.toList.flatMap escape ++ ['\x22']).map some ++ rest =
      (s.toList.flatMap escape).map some ++ some '\x22' :: rest := by simp
  have hread : scanString [] ((s.toList.flatMap escape).map some ++ some '\x22' :: rest) =
      some (units, rest) := hscan [] rest
  rw [htext]
  simp [scanToken, hread, join_of_stands hunits]

/-! ## Numbers -/

/-- Whether a glyph can stand inside a number. -/
def carriesNumber (g : Glyph) : Bool :=
  isDigit g || g = some '.' || g = some 'e' || g = some 'E'

/-- What may follow a number. -/
def EndsNumber (rest : List Glyph) : Prop := ∀ g, rest.head? = some g → carriesNumber g = false

/-- The spelling of an index. -/
def Number.ofIndex (n : Nat) : Number where
  negative := false
  whole := (Nat.toDigits 10 n).map fun c => digitValue (some c)
  fraction := none
  exponent := none

theorem ofDigits_whole_ofIndex (n : Nat) : ofDigits 0 (Number.ofIndex n).whole = n := by
  calc ofDigits 0 (Number.ofIndex n).whole
    _ = Nat.ofDigitChars 10 (Nat.toDigits 10 n) 0 := by
        rw [ofDigits, Number.ofIndex, List.foldl_map, Nat.ofDigitChars_eq_foldl]
        simp only [digitValue, Nat.mul_comm]
    _ = n := Nat.ofDigitChars_toDigits (by decide) (by decide)

theorem index?_ofIndex {n : Nat} (h : n ≤ maxIndex) : (Number.ofIndex n).index? = some n := by
  have hvalue := ofDigits_whole_ofIndex n
  simp only [Number.index?, hvalue]
  simp [Number.ofIndex, h]

/-- The last digit of an index, and those before it. -/
theorem whole_ofIndex (n : Nat) :
    (Number.ofIndex n).whole =
      if n < 10 then [n] else (Number.ofIndex (n / 10)).whole ++ [n % 10] := by
  have hvalue : ∀ d < 10, digitValue (some (Nat.digitChar d)) = d := fun d hd =>
    Nat.toNat_digitChar_sub_48_of_lt_ten hd
  rw [Number.ofIndex, Nat.toDigits_eq_if (by decide)]
  split
  · rename_i hsmall
    simp [hvalue n hsmall]
  · simp [Number.ofIndex, hvalue (n % 10) (Nat.mod_lt n (by decide))]

/-- Only the index zero starts with the digit zero. -/
theorem eq_zero_of_head?_whole {n : Nat} (h : (Number.ofIndex n).whole.head? = some 0) :
    n = 0 := by
  induction n using Nat.strongRecOn with
  | ind n ih =>
      rw [whole_ofIndex] at h
      split at h
      · simpa using h
      · rename_i hlarge
        have hzero : n / 10 = 0 := ih (n / 10) (by omega) (by
          cases hfront : (Number.ofIndex (n / 10)).whole with
          | nil =>
              rw [whole_ofIndex] at hfront
              split at hfront <;> simp at hfront
          | cons d ds => simpa [hfront] using h)
        omega

theorem isDigit_of_mem_toDigits {n : Nat} {c : Char} (h : c ∈ Nat.toDigits 10 n) :
    '0' ≤ c ∧ c ≤ '9' := by
  simpa [Char.isDigit, Char.le_def] using
    Nat.isDigit_of_mem_toDigits (by decide) (by decide) h

section Scan
variable {rest : List Glyph} (hrest : EndsNumber rest)
include hrest

theorem scanDigits_toDigits (n : Nat) :
    scanDigits ((Nat.toDigits 10 n).map some ++ rest) = some ((Number.ofIndex n).whole, rest) := by
  have hdigits : ∀ g ∈ (Nat.toDigits 10 n).map some, isDigit g = true := by
    intro g hg
    obtain ⟨c, hc, rfl⟩ := List.mem_map.mp hg
    exact decide_eq_true (isDigit_of_mem_toDigits hc)
  have hnone : ∀ g, rest.head? = some g → isDigit g = false := fun g hg => by
    have hcarries := hrest g hg
    simp only [carriesNumber, Bool.or_eq_false_iff] at hcarries
    exact hcarries.1.1.1
  have htake : rest.takeWhile isDigit = [] := by
    cases rest with
    | nil => rfl
    | cons g rest => simp [hnone g rfl]
  have hdrop : rest.dropWhile isDigit = rest := by
    cases rest with
    | nil => rfl
    | cons g rest => simp [hnone g rfl]
  have hall : ((Nat.toDigits 10 n).map some ++ rest).takeWhile isDigit =
      (Nat.toDigits 10 n).map some := by
    rw [List.takeWhile_append_of_pos hdigits, htake, List.append_nil]
  rw [scanDigits, hall]
  split
  · rename_i hempty
    exact absurd (List.map_eq_nil_iff.mp hempty) Nat.toDigits_ne_nil
  · rw [List.dropWhile_append_of_pos hdigits, hdrop, List.map_map]
    rfl

theorem scanWhole_toDigits (n : Nat) :
    scanWhole ((Nat.toDigits 10 n).map some ++ rest) = some ((Number.ofIndex n).whole, rest) := by
  have hlead : ¬((Number.ofIndex n).whole.head? = some 0 ∧
      1 < (Number.ofIndex n).whole.length) := by
    rintro ⟨hhead, hlength⟩
    rw [eq_zero_of_head?_whole hhead] at hlength
    exact absurd hlength (by decide)
  simp [scanWhole, scanDigits_toDigits hrest, hlead]

theorem scanFraction_of_endsNumber : scanFraction rest = some (none, rest) := by
  unfold scanFraction
  split
  · exact absurd (hrest _ rfl) (by decide)
  · rfl

theorem scanExponent_of_endsNumber : scanExponent rest = some (none, rest) := by
  unfold scanExponent
  split
  · rename_i c rest
    have hc := hrest _ rfl
    simp only [carriesNumber, Bool.or_eq_false_iff, decide_eq_false_iff_not, Option.some.injEq]
      at hc
    rw [if_neg (not_or.mpr ⟨hc.1.2, hc.2⟩)]
  · rfl

/-- An index is read back if what follows does not carry it on. -/
theorem scanNumber_toDigits (n : Nat) :
    scanNumber false ((Nat.toDigits 10 n).map some ++ rest) = some (.ofIndex n, rest) := by
  simp [scanNumber, scanWhole_toDigits hrest, scanFraction_of_endsNumber hrest,
    scanExponent_of_endsNumber hrest, Number.ofIndex]

end Scan

/-! ## Cutting into words -/

/-- A text is cut into words wherever it stands, unless what follows carries its last number
on. -/
def Spells (text : List Char) (tokens : List Token) : Prop :=
  ∀ acc rest, EndsNumber rest →
    tokensOnto acc (text.map some ++ rest) = tokensOnto (tokens.reverse ++ acc) rest

/-- A text whose first character does not carry a number on. -/
def StandsApart (text : List Char) : Prop :=
  ∀ c, text.head? = some c → carriesNumber (some c) = false

theorem StandsApart.endsNumber {text : List Char} (h : StandsApart text) {rest : List Glyph}
    (hrest : EndsNumber rest) : EndsNumber (text.map some ++ rest) := by
  cases text with
  | nil => exact hrest
  | cons c text =>
      intro g hg
      cases hg
      exact h c rfl

theorem standsApart_cons {c : Char} {text : List Char} (h : carriesNumber (some c) = false) :
    StandsApart (c :: text) := by
  intro d hd
  cases hd
  exact h

theorem tokensOnto_blank {c : Char} (h : isBlank c = true) (acc : List Token)
    (rest : List Glyph) : tokensOnto acc (some c :: rest) = tokensOnto acc rest := by
  rw [tokensOnto, if_pos h]

theorem tokensOnto_word {c : Char} {rest rest' : List Glyph} {t : Token}
    (hblank : isBlank c = false) (h : scanToken c rest = some (t, rest')) (acc : List Token) :
    tokensOnto acc (some c :: rest) = tokensOnto (t :: acc) rest' := by
  rw [tokensOnto, if_neg (by simp [hblank])]
  split
  · rename_i hscan
    rw [h] at hscan
    cases hscan
    rfl
  · rename_i hscan
    rw [h] at hscan
    cases hscan

theorem spells_nil : Spells [] [] := fun _ _ _ => rfl

theorem Spells.append {text text' : List Char} {tokens tokens' : List Token}
    (h : Spells text tokens) (h' : Spells text' tokens') (hapart : StandsApart text') :
    Spells (text ++ text') (tokens ++ tokens') := by
  intro acc rest hrest
  rw [List.map_append, List.append_assoc, h _ _ (hapart.endsNumber hrest), h' _ _ hrest,
    List.reverse_append, List.append_assoc]

/-- White space in front of a text is no word. -/
theorem Spells.blank_append {blanks text : List Char} {tokens : List Token}
    (hblanks : ∀ c ∈ blanks, isBlank c = true) (h : Spells text tokens) :
    Spells (blanks ++ text) tokens := by
  induction blanks with
  | nil => exact h
  | cons c blanks ih =>
      have hrest := ih fun d hd => hblanks d (List.mem_cons_of_mem c hd)
      intro acc rest hends
      rw [List.cons_append, List.map_cons, List.cons_append,
        tokensOnto_blank (hblanks c List.mem_cons_self)]
      exact hrest acc rest hends

theorem StandsApart.blank_append {blanks text : List Char}
    (hblanks : ∀ c ∈ blanks, isBlank c = true) (h : StandsApart text) :
    StandsApart (blanks ++ text) := by
  cases blanks with
  | nil => exact h
  | cons c blanks =>
      have hc := hblanks c List.mem_cons_self
      refine standsApart_cons ?_
      simp only [isBlank, Bool.or_eq_true, decide_eq_true_eq] at hc
      obtain ((rfl | rfl) | rfl) | rfl := hc <;> decide

/-- A sign in front of a text is a word of its own. -/
theorem Spells.sign {c : Char} {t : Token} {text : List Char} {tokens : List Token}
    (hblank : isBlank c = false) (hscan : ∀ rest, scanToken c rest = some (t, rest))
    (h : Spells text tokens) : Spells (c :: text) (t :: tokens) := by
  intro acc rest hrest
  rw [List.map_cons, List.cons_append, tokensOnto_word hblank (hscan _), h _ _ hrest,
    List.reverse_cons, List.append_assoc, List.singleton_append]

/-- A text in quotes in front of a text is a word of its own. -/
theorem Spells.quote_append (s : String) {text : List Char} {tokens : List Token}
    (h : Spells text tokens) : Spells (quote s ++ text) (.string (some s) :: tokens) := by
  intro acc rest hrest
  rw [quote, List.cons_append, List.map_cons, List.cons_append, List.map_append,
    List.append_assoc, tokensOnto_word (by decide) (scanToken_quote s _), h _ _ hrest,
    List.reverse_cons, List.append_assoc, List.singleton_append]

theorem ne_of_digit {c d : Char} (h : '0' ≤ c ∧ c ≤ '9') (hd : ¬('0' ≤ d ∧ d ≤ '9')) : c ≠ d :=
  fun he => hd (he ▸ h)

theorem scanToken_digit {c : Char} (h : '0' ≤ c ∧ c ≤ '9') (rest : List Glyph) :
    scanToken c rest = (scanNumber false (some c :: rest)).map fun r => (.number r.1, r.2) := by
  have hne : ∀ d, ¬('0' ≤ d ∧ d ≤ '9') → c ≠ d := fun _ => ne_of_digit h
  simp only [scanToken, hne '[' (by decide), hne ']' (by decide), hne '\x7b' (by decide),
    hne '\x7d' (by decide), hne ',' (by decide), hne ':' (by decide), hne '\x22' (by decide),
    hne '-' (by decide), if_false, if_pos h]

theorem spells_index (n : Nat) : Spells (Nat.repr n).toList [.number (.ofIndex n)] := by
  intro acc rest hrest
  have hscan := scanNumber_toDigits hrest n
  rw [Nat.toList_repr]
  cases hdigits : Nat.toDigits 10 n with
  | nil => exact absurd hdigits Nat.toDigits_ne_nil
  | cons c digits =>
      have hc : '0' ≤ c ∧ c ≤ '9' := isDigit_of_mem_toDigits (n := n) (by simp [hdigits])
      have hne : ∀ d, ¬('0' ≤ d ∧ d ≤ '9') → c ≠ d := fun _ => ne_of_digit hc
      have hblank : isBlank c = false := by
        simp [isBlank, hne ' ' (by decide), hne '\n' (by decide), hne '\t' (by decide),
          hne '\r' (by decide)]
      rw [hdigits] at hscan
      refine tokensOnto_word hblank ?_ acc
      rw [scanToken_digit hc]
      exact congrArg (Option.map _) hscan

theorem spells_flag (b : Bool) : Spells (if b then "true" else "false").toList [.bool b] := by
  intro acc rest _
  cases b with
  | false => exact tokensOnto_word (c := 'f') (by decide) rfl acc
  | true => exact tokensOnto_word (c := 't') (by decide) rfl acc

/-- Nothing but white space is written between words, apart from the colon. -/
structure Layout.IsBlank (layout : Layout) : Prop where
  line : ∀ depth, ∀ c ∈ layout.line depth, Json.isBlank c = true
  colon : ∃ blanks, layout.colon = ':' :: blanks ∧ ∀ c ∈ blanks, Json.isBlank c = true

theorem Layout.isBlank_compact : Layout.compact.IsBlank where
  line := fun _ _ hc => absurd hc List.not_mem_nil
  colon := ⟨[], rfl, fun _ hc => absurd hc List.not_mem_nil⟩

theorem Layout.isBlank_pretty : Layout.pretty.IsBlank where
  line := by
    intro depth c hc
    obtain rfl | hspace := List.mem_cons.mp hc
    · rfl
    · rw [List.eq_of_mem_replicate hspace]
      rfl
  colon := by
    refine ⟨[' '], rfl, fun c hc => ?_⟩
    rw [List.mem_singleton.mp hc]
    rfl

mutual
/-- The words of a document. -/
def words : WireValue → List Token
  | .text s => [.string (some s)]
  | .flag b => [.bool b]
  | .index n => [.number (.ofIndex n)]
  | .list [] => [.openList, .closeList]
  | .list (v :: vs) => .openList :: (words v ++ (itemWords vs ++ [.closeList]))
  | .record [] => [.openRecord, .closeRecord]
  | .record ((k, v) :: fs) =>
      .openRecord :: .string (some k) :: .colon ::
        (words v ++ (fieldWords fs ++ [.closeRecord]))

/-- The words of the items of a list after the first. -/
def itemWords : List WireValue → List Token
  | [] => []
  | v :: vs => .comma :: (words v ++ itemWords vs)

/-- The words of the fields of a record after the first. -/
def fieldWords : List (String × WireValue) → List Token
  | [] => []
  | (k, v) :: fs => .comma :: .string (some k) :: .colon :: (words v ++ fieldWords fs)
end

theorem standsApart_writeItems (layout : Layout) (depth : Nat) (vs : List WireValue)
    {text : List Char} (h : StandsApart text) :
    StandsApart (writeItems layout depth vs ++ text) := by
  cases vs with
  | nil => exact h
  | cons v vs => exact standsApart_cons (by decide)

theorem standsApart_writeFields (layout : Layout) (depth : Nat) (fs : List (String × WireValue))
    {text : List Char} (h : StandsApart text) :
    StandsApart (writeFields layout depth fs ++ text) := by
  cases fs with
  | nil => exact h
  | cons f fs => exact standsApart_cons (by decide)

section Written
variable {layout : Layout} (hlayout : layout.IsBlank)
include hlayout

theorem Spells.colon_append {text : List Char} {tokens : List Token} (h : Spells text tokens) :
    Spells (layout.colon ++ text) (.colon :: tokens) := by
  obtain ⟨blanks, hcolon, hblanks⟩ := hlayout.colon
  rw [hcolon]
  exact .sign rfl (fun _ => rfl) (h.blank_append hblanks)

/-- The end of a list or record on a line of its own. -/
theorem spells_close (depth : Nat) {c : Char} {t : Token} (hblank : isBlank c = false)
    (hscan : ∀ rest, scanToken c rest = some (t, rest)) : Spells (layout.line depth ++ [c]) [t] :=
  .blank_append (hlayout.line depth) (.sign hblank hscan spells_nil)

theorem standsApart_close (depth : Nat) {c : Char} (h : carriesNumber (some c) = false) :
    StandsApart (layout.line depth ++ [c]) :=
  .blank_append (hlayout.line depth) (standsApart_cons h)

mutual
/-- A document is cut into the words it was written from. -/
theorem spells_write (depth : Nat) : ∀ v, Spells (write layout depth v) (words v)
  | .text s => by
      rw [write, ← List.append_nil (quote s)]
      exact spells_nil.quote_append s
  | .flag b => by
      rw [write]
      exact spells_flag b
  | .index n => by
      rw [write]
      exact spells_index n
  | .list [] => by
      rw [write]
      exact .sign rfl (fun _ => rfl) (.sign rfl (fun _ => rfl) spells_nil)
  | .list (v :: vs) => by
      rw [write, words]
      have hclose := standsApart_close hlayout depth (c := ']') (by decide)
      have hrest := (spells_writeItems (depth + 1) vs).append
        (spells_close hlayout depth (c := ']') rfl fun _ => rfl) hclose
      have hvalue := (spells_write (depth + 1) v).append hrest
        (standsApart_writeItems layout _ vs hclose)
      exact .sign rfl (fun _ => rfl) (hvalue.blank_append (hlayout.line _))
  | .record [] => by
      rw [write]
      exact .sign rfl (fun _ => rfl) (.sign rfl (fun _ => rfl) spells_nil)
  | .record ((k, v) :: fs) => by
      rw [write, words]
      have hclose := standsApart_close hlayout depth (c := '\x7d') (by decide)
      have hrest := (spells_writeFields (depth + 1) fs).append
        (spells_close hlayout depth (c := '\x7d') rfl fun _ => rfl) hclose
      have hvalue := (spells_write (depth + 1) v).append hrest
        (standsApart_writeFields layout _ fs hclose)
      exact .sign rfl (fun _ => rfl)
        (.blank_append (hlayout.line _) ((hvalue.colon_append hlayout).quote_append k))

theorem spells_writeItems (depth : Nat) :
    ∀ vs, Spells (writeItems layout depth vs) (itemWords vs)
  | [] => by
      rw [writeItems]
      exact spells_nil
  | v :: vs => by
      rw [writeItems, itemWords]
      have hapart : StandsApart (writeItems layout depth vs) := by
        rw [← List.append_nil (writeItems layout depth vs)]
        exact standsApart_writeItems layout depth vs nofun
      have hvalue := (spells_write depth v).append (spells_writeItems depth vs) hapart
      exact .sign rfl (fun _ => rfl) (hvalue.blank_append (hlayout.line _))

theorem spells_writeFields (depth : Nat) :
    ∀ fs, Spells (writeFields layout depth fs) (fieldWords fs)
  | [] => by
      rw [writeFields]
      exact spells_nil
  | (k, v) :: fs => by
      rw [writeFields, fieldWords]
      have hapart : StandsApart (writeFields layout depth fs) := by
        rw [← List.append_nil (writeFields layout depth fs)]
        exact standsApart_writeFields layout depth fs nofun
      have hvalue := (spells_write depth v).append (spells_writeFields depth fs) hapart
      exact .sign rfl (fun _ => rfl)
        (.blank_append (hlayout.line _) ((hvalue.colon_append hlayout).quote_append k))
end

/-- What is written is cut into the words it was written from. -/
theorem tokens?_render (v : WireValue) :
    tokens? (Text.glyphs (render layout v)) = some (words v) := by
  have hwrite := spells_write hlayout 0 v [] [] nofun
  rw [List.append_nil, List.append_nil] at hwrite
  rw [tokens?, Text.glyphs, render, String.toList_ofList, hwrite, tokensOnto,
    List.reverse_reverse]

end Written
end UmlCatalog.Json
