import UmlCatalog.Markup.Construct
import UmlCatalog.Proofs.Text.Utf8
import UmlCatalog.Text.Part

/-!
# Words of ASCII in UTF-8

A byte of ASCII is a character of its own wherever it stands, and no other byte is read as part of
one. So the bytes of a word of ASCII are found in a text exactly where the word is.
-/

namespace UmlCatalog.Text

/-! ## Bytes of ASCII end what stands before them -/

section Ends
variable {b : UInt8} (hb : b.toNat < 0x80)
include hb

theorem continuation_append (n bits : Nat) {low : Nat} (hlow : 0x80 ≤ low) (high : Nat)
    (bytes rest : List UInt8) :
    continuation n bits low high (bytes ++ b :: rest) =
      ((continuation n bits low high bytes).1,
        (continuation n bits low high bytes).2 ++ b :: rest) := by
  induction n generalizing bits low high bytes with
  | zero => rfl
  | succ n ih =>
      cases bytes with
      | nil =>
          have hnot : ¬(low ≤ b.toNat ∧ b.toNat ≤ high) := by omega
          simp [continuation, hnot]
      | cons d bytes =>
          simp only [List.cons_append, continuation]
          split
          · exact ih _ (Nat.le_refl _) _ bytes
          · rfl

theorem nextGlyph_append (first : UInt8) (bytes rest : List UInt8) :
    nextGlyph first (bytes ++ b :: rest) =
      ((nextGlyph first bytes).1, (nextGlyph first bytes).2 ++ b :: rest) := by
  simp only [nextGlyph]
  repeat' split
  all_goals first
    | rfl
    | exact continuation_append hb _ _ (by decide) _ _ _

theorem decodeOnto_append (acc : List Glyph) (bytes rest : List UInt8) :
    decodeOnto acc (bytes ++ b :: rest) = decodeOnto (decodeOnto acc bytes) (b :: rest) := by
  fun_induction decodeOnto acc bytes with
  | case1 acc => rfl
  | case2 acc first bytes ih =>
      rw [List.cons_append, decodeOnto, nextGlyph_append hb]
      exact ih

end Ends

theorem decodeOnto_eq (acc : List Glyph) (bytes : List UInt8) :
    decodeOnto acc bytes = (decode bytes).reverse ++ acc := by
  have happend : ∀ acc' : List Glyph,
      decodeOnto (acc' ++ acc) bytes = decodeOnto acc' bytes ++ acc := by
    intro acc'
    fun_induction decodeOnto acc' bytes with
    | case1 acc' => rw [decodeOnto]
    | case2 acc' first bytes ih => rw [decodeOnto, ← List.cons_append, ih]
  rw [decode, List.reverse_reverse]
  exact happend []

theorem decode_cons (b : UInt8) (rest : List UInt8) :
    decode (b :: rest) = (nextGlyph b rest).1 :: decode (nextGlyph b rest).2 := by
  rw [decode, decodeOnto, decodeOnto_eq, List.reverse_append, List.reverse_reverse]
  rfl

@[simp] theorem decode_nil : decode [] = [] := by
  rw [decode, decodeOnto]
  rfl

theorem decode_append {b : UInt8} (hb : b.toNat < 0x80) (bytes rest : List UInt8) :
    decode (bytes ++ b :: rest) = decode bytes ++ decode (b :: rest) := by
  rw [decode, decodeOnto_append hb, decodeOnto_eq (decodeOnto [] bytes), List.reverse_append,
    List.reverse_reverse]
  rfl

/-! ## Characters of ASCII come from their own bytes -/

theorem exists_of_continuation {n bits low high : Nat} (hlow : 0x80 ≤ low)
    (hbits : 2 ≤ bits * 64 + (low - 0x80)) (hone : n = 0 → 2 ≤ bits)
    {bytes rest : List UInt8} {c : Char}
    (h : continuation (n + 1) bits low high bytes = (some c, rest)) :
    ∃ v, 0x80 ≤ v ∧ c = Char.ofNat v := by
  induction n generalizing bits low high bytes with
  | zero =>
      cases bytes with
      | nil => cases h
      | cons d bytes =>
          simp only [continuation] at h
          split at h
          · obtain ⟨hc, _⟩ := Prod.mk.inj h
            refine ⟨_, ?_, (Option.some.inj hc).symm⟩
            omega
          · cases h
  | succ n ih =>
      cases bytes with
      | nil => cases h
      | cons d bytes =>
          rw [continuation] at h
          split at h
          · exact ih (Nat.le_refl _) (by omega) (by omega) h
          · cases h

/-- A glyph is a character of ASCII if its first byte is, and lies beyond otherwise. -/
theorem of_nextGlyph {b : UInt8} {bytes rest : List UInt8} {c : Char}
    (h : nextGlyph b bytes = (some c, rest)) :
    b.toNat < 0x80 ∧ c = Char.ofNat b.toNat ∧ rest = bytes ∨ ∃ v, 0x80 ≤ v ∧ c = Char.ofNat v := by
  simp only [nextGlyph] at h
  split at h
  · rename_i hb
    cases h
    exact .inl ⟨hb, rfl, rfl⟩
  · refine .inr ?_
    repeat' split at h
    all_goals first
      | exact exists_of_continuation (by omega) (by omega) (by omega) h
      | cases h

/-- A number is the number of the character that it is made to, unless it is no code point. -/
theorem toNat_ofNat (v : Nat) : (Char.ofNat v).toNat = v ∨ (Char.ofNat v).toNat = 0 := by
  by_cases hv : v.isValidChar
  · left
    rw [Char.ofNat, dif_pos hv]
    rfl
  · right
    rw [Char.ofNat, dif_neg hv]
    rfl

/-- A character of ASCII other than the null character. -/
def IsAscii (c : Char) : Prop := 0 < c.toNat ∧ c.toNat < 0x80

instance (c : Char) : Decidable (IsAscii c) := inferInstanceAs (Decidable (_ ∧ _))

theorem IsAscii.of_nextGlyph {c : Char} (hc : IsAscii c) {b : UInt8} {bytes rest : List UInt8}
    (h : nextGlyph b bytes = (some c, rest)) : b = UInt8.ofNat c.toNat ∧ rest = bytes := by
  obtain ⟨hpos, hlt⟩ := hc
  obtain ⟨hb, rfl, hrest⟩ | ⟨v, hv, rfl⟩ := Text.of_nextGlyph h
  · obtain hnat | hnat := toNat_ofNat b.toNat
    · rw [hnat, UInt8.ofNat_toNat]
      exact ⟨rfl, hrest⟩
    · omega
  · obtain hnat | hnat := toNat_ofNat v <;> omega

/-! ## Words -/

/-- The byte of a character of ASCII is read as that character, whatever follows it. -/
theorem IsAscii.decode_cons {c : Char} (hc : IsAscii c) (rest : List UInt8) :
    decode (UInt8.ofNat c.toNat :: rest) = some c :: decode rest := by
  rw [Text.decode_cons, nextGlyph_one rest hc.2 rfl]

variable {cs : List Char} (hcs : ∀ c ∈ cs, IsAscii c)
include hcs

theorem decode_ascii_append (rest : List UInt8) :
    decode (cs.map (fun c => UInt8.ofNat c.toNat) ++ rest) = cs.map some ++ decode rest := by
  induction cs with
  | nil => rfl
  | cons c cs ih =>
      obtain ⟨hc, hcs⟩ := List.forall_mem_cons.mp hcs
      rw [List.map_cons, List.cons_append, hc.decode_cons, ih hcs]
      rfl

/-- Only the bytes of a word are read as the word. -/
theorem eq_ascii_of_decode {bytes : List UInt8} (h : decode bytes = cs.map some) :
    bytes = cs.map fun c => UInt8.ofNat c.toNat := by
  induction cs generalizing bytes with
  | nil =>
      cases bytes with
      | nil => rfl
      | cons b rest => rw [Text.decode_cons] at h; cases h
  | cons c cs ih =>
      obtain ⟨hc, hcs⟩ := List.forall_mem_cons.mp hcs
      cases bytes with
      | nil => rw [decode_nil] at h; cases h
      | cons b rest =>
          rw [Text.decode_cons, List.map_cons, List.cons.injEq] at h
          have hnext : nextGlyph b rest = (some c, (nextGlyph b rest).2) := Prod.ext h.1 rfl
          obtain ⟨hb, hrest⟩ := hc.of_nextGlyph hnext
          rw [hrest] at h
          rw [hb, ih hcs h.2]
          rfl

omit hcs

/-- A character of ASCII that is read was there as a byte. -/
theorem IsAscii.mem_of_mem_decode {c : Char} (hc : IsAscii c) {bytes : List UInt8}
    (h : some c ∈ decode bytes) : UInt8.ofNat c.toNat ∈ bytes := by
  induction hlength : bytes.length using Nat.strongRecOn generalizing bytes with
  | ind n ih =>
      cases bytes with
      | nil => rw [decode_nil] at h; cases h
      | cons b rest =>
          rw [Text.decode_cons, List.mem_cons] at h
          rcases h with h | h
          · have hnext : nextGlyph b rest = (some c, (nextGlyph b rest).2) := Prod.ext h.symm rfl
            rw [(hc.of_nextGlyph hnext).1]
            exact List.mem_cons_self
          · have hlt : (nextGlyph b rest).2.length < n :=
              hlength ▸ Nat.lt_succ_of_le (length_nextGlyph_le b rest)
            exact List.mem_cons_of_mem b ((suffix_nextGlyph b rest).subset (ih _ hlt h rfl))

theorem eq_map_of_characters? {gs : List Glyph} {cs : List Char} (h : characters? gs = some cs) :
    gs = cs.map some := by
  induction gs generalizing cs with
  | nil =>
      cases h
      rfl
  | cons g gs ih =>
      rw [characters?, List.mapM_cons] at h
      obtain ⟨c, hc, h⟩ := Option.bind_eq_some_iff.mp h
      obtain ⟨cs', hcs', h⟩ := Option.bind_eq_some_iff.mp h
      cases h
      rw [ih hcs', List.map_cons]
      exact congrArg (· :: _) hc

theorem decode_eq_glyphs {bytes : List UInt8} {s : String} (h : decode? bytes = some s) :
    decode bytes = glyphs s := by
  obtain ⟨cs, hcs, rfl⟩ := Option.map_eq_some_iff.mp h
  rw [glyphs, String.toList_ofList]
  exact eq_map_of_characters? hcs

/-- A word of ASCII is read from its own bytes only. -/
theorem eq_ascii_of_decode? {w : String} (hw : ∀ c ∈ w.toList, IsAscii c) {bytes : List UInt8}
    (h : decode? bytes = some w) : bytes = Markup.ascii w :=
  eq_ascii_of_decode hw (decode_eq_glyphs h)

/-- A word of ASCII whose bytes stand in the bytes of a text stands in the text. -/
theorem isPart_of_ascii {w s : String} (hw : ∀ c ∈ w.toList, IsAscii c) (hne : w.toList ≠ [])
    {bytes : List UInt8} (hstands : Markup.ascii w <:+: bytes) (hs : decode? bytes = some s) :
    isPart w.toList s.toList = true := by
  obtain ⟨before, after, hbytes⟩ := hstands
  have hdecode : decode bytes = decode before ++ w.toList.map some ++ decode after := by
    obtain ⟨c, cs, hcons⟩ := List.exists_cons_of_ne_nil hne
    have hc : IsAscii c := hw c (hcons ▸ List.mem_cons_self)
    have hfirst : (UInt8.ofNat c.toNat).toNat < 0x80 := by
      rw [toNat_byte (Nat.lt_trans hc.2 (by decide))]
      exact hc.2
    have hword := decode_ascii_append hw after
    rw [← hbytes, List.append_assoc, Markup.ascii]
    rw [hcons, List.map_cons, List.cons_append] at hword ⊢
    rw [decode_append hfirst, hword, List.append_assoc]
  rw [decode_eq_glyphs hs, glyphs] at hdecode
  obtain ⟨front, back, hs', hfront, _⟩ := List.map_eq_append_iff.mp hdecode
  obtain ⟨pre, word, rfl, _, hword⟩ := List.map_eq_append_iff.mp hfront
  rw [isPart_iff, hs', (List.map_inj_right fun _ _ => Option.some.inj).mp hword]
  exact ⟨pre, back, rfl⟩

end UmlCatalog.Text
