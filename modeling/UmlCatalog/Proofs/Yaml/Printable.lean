import UmlCatalog.Proofs.Yaml.Entry

/-!
# Written texts are printable

What cannot be printed is escaped. So every character of a written document can be read, and the
ends of its lines are left as they are.
-/

namespace UmlCatalog.Yaml

/-- A text of printable characters. -/
def IsPrintableText (cs : List Char) : Prop := ∀ c ∈ cs, isPrintable c = true

instance (cs : List Char) : Decidable (IsPrintableText cs) :=
  decidable_of_iff (cs.all isPrintable = true) List.all_eq_true

@[simp] theorem isPrintableText_nil : IsPrintableText [] := nofun

@[simp] theorem isPrintableText_cons {c : Char} {cs : List Char} :
    IsPrintableText (c :: cs) ↔ isPrintable c = true ∧ IsPrintableText cs :=
  List.forall_mem_cons

@[simp] theorem isPrintableText_append {cs ds : List Char} :
    IsPrintableText (cs ++ ds) ↔ IsPrintableText cs ∧ IsPrintableText ds :=
  List.forall_mem_append

@[simp] theorem isPrintableText_indentation (column : Nat) :
    IsPrintableText (indentation column) := by
  intro c hc
  rw [List.eq_of_mem_replicate hc]
  decide

/-! ## Scalars -/

theorem isPrintableText_upperHex (count n : Nat) : IsPrintableText (upperHex count n) := by
  have hdigit : ∀ m : Fin 16, isPrintable (upperHexDigit m) = true := by decide
  induction count generalizing n with
  | zero => exact isPrintableText_nil
  | succ count ih =>
      rw [upperHex, isPrintableText_append, isPrintableText_cons]
      exact ⟨ih _, hdigit ⟨n % 16, Nat.mod_lt n (by decide)⟩, isPrintableText_nil⟩

theorem isPrintableText_writeEscaped (c : Char) : IsPrintableText (writeEscaped c) := by
  have hback : isPrintable '\\' = true := by decide
  unfold writeEscaped
  split
  · rename_i letter h
    unfold escapeLetter? at h
    split at h <;> cases h <;> simp [hback] <;> decide
  · split
    · rename_i hprint
      exact isPrintableText_cons.mpr ⟨hprint, isPrintableText_nil⟩
    · have hletters : isPrintable 'x' = true ∧ isPrintable 'u' = true ∧ isPrintable 'U' = true := by
        decide
      split
      · simp [hback, hletters, isPrintableText_upperHex]
      · split <;> simp [hback, hletters, isPrintableText_upperHex]

theorem isPrintableText_writeSingleQuotedFrom {column : Nat} {cs : List Char}
    (h : IsPrintableText cs) (afterBreak : Bool) :
    IsPrintableText (writeSingleQuotedFrom column afterBreak cs) := by
  have hquote : isPrintable '\'' = true := by decide
  induction cs generalizing afterBreak with
  | nil => cases afterBreak <;> simp [writeSingleQuotedFrom, hquote]
  | cons c cs ih =>
      obtain ⟨hc, hcs⟩ := isPrintableText_cons.mp h
      rw [writeSingleQuotedFrom]
      split
      · simp [hc, ih hcs]
      · have hword : IsPrintableText (if c = '\'' then ['\'', '\''] else [c]) := by
          split <;> simp [hc, hquote]
        cases afterBreak <;> simp [hword, ih hcs]

theorem isPrintableText_writeLiteralFrom {column : Nat} {cs : List Char} (h : IsPrintableText cs)
    (afterBreak : Bool) : IsPrintableText (writeLiteralFrom column afterBreak cs) := by
  have hline : isPrintable '\n' = true := by decide
  induction cs generalizing afterBreak with
  | nil => cases afterBreak <;> simp [writeLiteralFrom, hline]
  | cons c cs ih =>
      obtain ⟨hc, hcs⟩ := isPrintableText_cons.mp h
      rw [writeLiteralFrom]
      split
      · simp [hc, ih hcs]
      · cases afterBreak <;> simp [hc, ih hcs]

theorem isPrintableText_literalHeader (cs : List Char) : IsPrintableText (literalHeader cs) := by
  have hsigns : isPrintable '|' = true ∧ isPrintable '+' = true ∧ isPrintable '-' = true := by
    decide
  have hdepth :
      IsPrintableText (if Scalar.hidesColumn cs then upperHex 1 indentStep else []) := by
    split
    · exact isPrintableText_upperHex 1 indentStep
    · exact isPrintableText_nil
  have hchomping : IsPrintableText (Scalar.chompingOf cs).word := by
    cases Scalar.chompingOf cs <;> simp [Scalar.Chomping.word, hsigns]
  rw [Scalar.literalHeader_eq]
  exact isPrintableText_cons.mpr ⟨hsigns.1, isPrintableText_append.mpr ⟨hdepth, hchomping⟩⟩

/-- Every text is written printably. -/
theorem isPrintableText_writeText (column : Nat) (s : String) :
    IsPrintableText (writeText column s) := by
  have hsigns : isPrintable '\'' = true ∧ isPrintable '\x22' = true ∧ isPrintable '\n' = true := by
    decide
  have hspecial : ScalarStyle.isSpecial s.toList = false → IsPrintableText s.toList := by
    simp only [ScalarStyle.isSpecial, List.any_eq_false, Bool.not_eq_true', Bool.not_eq_false]
    exact id
  have hsuits := ScalarStyle.suits_ofText s
  unfold writeText
  dsimp only
  cases hstyle : ScalarStyle.ofText s with rw [hstyle] at hsuits
  | plain =>
      cases hsuits with
      | plain h _ =>
          simp only [ScalarStyle.allowsPlain, Bool.and_eq_true, Bool.not_eq_true'] at h
          simp [hsigns, hspecial h.1.1.1.1.1]
  | singleQuoted =>
      cases hsuits with
      | singleQuoted h _ =>
          simp only [ScalarStyle.allowsSingleQuoted, Bool.and_eq_true, Bool.not_eq_true'] at h
          simp [hsigns, isPrintableText_writeSingleQuotedFrom (hspecial h.1.1)]
  | literal =>
      cases hsuits with
      | literal h _ =>
          simp only [ScalarStyle.allowsLiteral, Bool.and_eq_true, Bool.not_eq_true'] at h
          simp [hsigns, isPrintableText_literalHeader,
            isPrintableText_writeLiteralFrom (hspecial h.1.1)]
  | doubleQuoted =>
      have hescaped : IsPrintableText (s.toList.flatMap writeEscaped) := by
        intro c hc
        obtain ⟨d, _, hcd⟩ := List.mem_flatMap.mp hc
        exact isPrintableText_writeEscaped d c hcd
      simp [hsigns, hescaped]
  | folded => cases hsuits

/-! ## Documents -/

theorem IsPrintableText.dropLast {cs : List Char} (h : IsPrintableText cs) :
    IsPrintableText cs.dropLast := fun c hc => h c (List.dropLast_subset cs hc)

theorem isPrintableText_writeKey (column : Nat) (s : String) :
    IsPrintableText (writeKey column s) := by
  have hsigns : isPrintable '?' = true ∧ isPrintable ' ' = true ∧ isPrintable ':' = true := by
    decide
  have htext := isPrintableText_writeText (column + indentStep) s
  unfold writeKey
  split
  · simp [hsigns, htext.dropLast]
  · simp [hsigns, htext]

theorem isPrintableText_blockStart (sameLine : Bool) (column : Nat) :
    IsPrintableText (blockStart sameLine column) := by
  have hsigns : isPrintable ' ' = true ∧ isPrintable '\n' = true := by decide
  cases sameLine <;> simp [blockStart, hsigns]

mutual
theorem isPrintableText_write (sameLine : Bool) (column : Nat) :
    ∀ v, IsPrintableText (write sameLine column v)
  | .text s => by
      rw [write]
      exact isPrintableText_cons.mpr ⟨by decide, isPrintableText_writeText _ s⟩
  | .flag b => by
      rw [write]
      cases b <;> decide
  | .index n => by
      have hdigits : IsPrintableText (Nat.repr n).toList :=
        fun c hc => isPrintable_of_isAlphanum (isAlphanum_of_mem_repr hc)
      rw [write]
      exact isPrintableText_cons.mpr ⟨by decide, isPrintableText_append.mpr ⟨hdigits, by decide⟩⟩
  | .list [] => by
      rw [write]
      decide
  | .list (v :: vs) => by
      have hsign : isPrintable '-' = true := by decide
      rw [write]
      simp [hsign, isPrintableText_blockStart, isPrintableText_write, isPrintableText_writeItems]
  | .record [] => by
      rw [write]
      decide
  | .record ((k, v) :: fs) => by
      rw [write]
      simp [isPrintableText_blockStart, isPrintableText_writeKey, isPrintableText_write,
        isPrintableText_writeFields]

theorem isPrintableText_writeItems (column : Nat) : ∀ vs, IsPrintableText (writeItems column vs)
  | [] => by
      rw [writeItems]
      exact isPrintableText_nil
  | v :: vs => by
      have hsign : isPrintable '-' = true := by decide
      rw [writeItems]
      simp [hsign, isPrintableText_write, isPrintableText_writeItems]

theorem isPrintableText_writeFields (column : Nat) : ∀ fs, IsPrintableText (writeFields column fs)
  | [] => by
      rw [writeFields]
      exact isPrintableText_nil
  | (k, v) :: fs => by
      rw [writeFields]
      simp [isPrintableText_writeKey, isPrintableText_write, isPrintableText_writeFields]
end

/-- Every document is written printably. -/
theorem isPrintableText_render (v : WireValue) : IsPrintableText (render v).toList := by
  have hword : IsPrintableText ((write true 0 v).drop 1) :=
    fun c hc => isPrintableText_write true 0 v c (List.mem_of_mem_drop hc)
  unfold render
  split
  · rw [String.toList_ofList]
    exact isPrintableText_writeFields 0 _
  · rw [String.toList_ofList]
    exact isPrintableText_writeItems 0 _
  · rwa [String.toList_ofList]

end UmlCatalog.Yaml
