import UmlCatalog.Proofs.Text.Ascii

/-!
# A text has one encoding

Bytes that are read without a hole are the bytes of what is read: the bounds on the second byte shut
out every other way to write a character. So different bytes are read as different texts.
-/

namespace UmlCatalog.Text

/-- A continuation byte that is read lies within its bounds. -/
theorem exists_of_continuation_succ {n bits low high : Nat} {bytes rest : List UInt8} {c : Char}
    (h : continuation (n + 1) bits low high bytes = (some c, rest)) :
    ∃ d bytes', bytes = d :: bytes' ∧ low ≤ d.toNat ∧ d.toNat ≤ high ∧
      continuation n (bits * 64 + (d.toNat - 0x80)) 0x80 0xBF bytes' = (some c, rest) := by
  cases bytes with
  | nil => cases h
  | cons d bytes' =>
      rw [continuation] at h
      split at h
      · rename_i hd
        exact ⟨d, bytes', rfl, hd.1, hd.2, h⟩
      · cases h

/-- The bits that were read make the character if they are a code point. -/
theorem of_continuation_zero {bits low high : Nat} {bytes rest : List UInt8} {c : Char}
    (h : continuation 0 bits low high bytes = (some c, rest)) (hvalid : bits.isValidChar) :
    c.toNat = bits ∧ bytes = rest := by
  rw [continuation] at h
  obtain ⟨hc, hrest⟩ := Prod.mk.inj h
  refine ⟨?_, hrest⟩
  rw [← Option.some.inj hc, Char.ofNat, dif_pos hvalid]
  rfl

section Lengths
variable {c : Char} {b second third fourth : UInt8} (rest : List UInt8)

theorem encodeChar_one (hlead : b.toNat < 0x80) (hbits : c.toNat = b.toNat) :
    b :: rest = String.utf8EncodeChar c ++ rest := by
  have hval : c.val.toNat = c.toNat := rfl
  have hrange : b.toNat ≤ 127 := by omega
  simp only [String.utf8EncodeChar, hval, hbits, if_pos hrange, UInt8.ofNat_toNat,
    List.singleton_append]

theorem encodeChar_two (hlead : 0xC2 ≤ b.toNat ∧ b.toNat < 0xE0)
    (hsecond : 0x80 ≤ second.toNat ∧ second.toNat ≤ 0xBF)
    (hbits : c.toNat = (b.toNat - 0xC0) * 64 + (second.toNat - 0x80)) :
    b :: second :: rest = String.utf8EncodeChar c ++ rest := by
  have hval : c.val.toNat = c.toNat := rfl
  have hrange : ¬ c.toNat ≤ 127 ∧ c.toNat ≤ 2047 := by omega
  have hb : c.toNat / 64 % 32 + 192 = b.toNat := by omega
  have hd : c.toNat % 64 + 128 = second.toNat := by omega
  simp only [String.utf8EncodeChar, hval, if_neg hrange.1, if_pos hrange.2, hb, hd,
    UInt8.ofNat_toNat]
  rfl

theorem encodeChar_three (hlead : 0xE0 ≤ b.toNat ∧ b.toNat < 0xF0)
    (hsecond : 0x80 ≤ second.toNat ∧ second.toNat ≤ 0xBF)
    (hthird : 0x80 ≤ third.toNat ∧ third.toNat ≤ 0xBF)
    (hlong : b.toNat = 0xE0 → 0xA0 ≤ second.toNat)
    (hbits : c.toNat =
      ((b.toNat - 0xE0) * 64 + (second.toNat - 0x80)) * 64 + (third.toNat - 0x80)) :
    b :: second :: third :: rest = String.utf8EncodeChar c ++ rest := by
  have hval : c.val.toNat = c.toNat := rfl
  have hrange : ¬ c.toNat ≤ 127 ∧ ¬ c.toNat ≤ 2047 ∧ c.toNat ≤ 65535 := by omega
  have hb : c.toNat / 4096 % 16 + 224 = b.toNat := by omega
  have hd : c.toNat / 64 % 64 + 128 = second.toNat := by omega
  have he : c.toNat % 64 + 128 = third.toNat := by omega
  simp only [String.utf8EncodeChar, hval, if_neg hrange.1, if_neg hrange.2.1, if_pos hrange.2.2,
    hb, hd, he, UInt8.ofNat_toNat]
  rfl

theorem encodeChar_four (hlead : 0xF0 ≤ b.toNat ∧ b.toNat < 0xF5)
    (hsecond : 0x80 ≤ second.toNat ∧ second.toNat ≤ 0xBF)
    (hthird : 0x80 ≤ third.toNat ∧ third.toNat ≤ 0xBF)
    (hfourth : 0x80 ≤ fourth.toNat ∧ fourth.toNat ≤ 0xBF)
    (hlong : b.toNat = 0xF0 → 0x90 ≤ second.toNat)
    (hbits : c.toNat = (((b.toNat - 0xF0) * 64 + (second.toNat - 0x80)) * 64 +
      (third.toNat - 0x80)) * 64 + (fourth.toNat - 0x80)) :
    b :: second :: third :: fourth :: rest = String.utf8EncodeChar c ++ rest := by
  have hval : c.val.toNat = c.toNat := rfl
  have hrange : ¬ c.toNat ≤ 127 ∧ ¬ c.toNat ≤ 2047 ∧ ¬ c.toNat ≤ 65535 := by omega
  have hb : c.toNat / 262144 % 8 + 240 = b.toNat := by omega
  have hd : c.toNat / 4096 % 64 + 128 = second.toNat := by omega
  have he : c.toNat / 64 % 64 + 128 = third.toNat := by omega
  have hf : c.toNat % 64 + 128 = fourth.toNat := by omega
  simp only [String.utf8EncodeChar, hval, if_neg hrange.1, if_neg hrange.2.1, if_neg hrange.2.2,
    hb, hd, he, hf, UInt8.ofNat_toNat]
  rfl

end Lengths

section Leads
variable {b : UInt8} {bits low high : Nat} {bytes rest : List UInt8} {c : Char}

theorem append_of_continuation_one (hlead : 0xC2 ≤ b.toNat ∧ b.toNat < 0xE0)
    (h : continuation 1 (b.toNat - 0xC0) 0x80 0xBF bytes = (some c, rest)) :
    b :: bytes = String.utf8EncodeChar c ++ rest := by
  obtain ⟨second, bytes, rfl, hlow, hhigh, h⟩ := exists_of_continuation_succ h
  obtain ⟨hbits, rfl⟩ := of_continuation_zero h (by unfold Nat.isValidChar; omega)
  exact encodeChar_two bytes hlead ⟨hlow, hhigh⟩ hbits

/-- A character of three bytes, of which the second may be bounded more tightly. -/
theorem append_of_continuation_two (hlead : 0xE0 ≤ b.toNat ∧ b.toNat < 0xF0)
    (hbounds : 0x80 ≤ low ∧ high ≤ 0xBF) (hlong : b.toNat = 0xE0 → 0xA0 ≤ low)
    (hsurrogate : b.toNat = 0xED → high ≤ 0x9F)
    (hfirst : bits = b.toNat - 0xE0) (h : continuation 2 bits low high bytes = (some c, rest)) :
    b :: bytes = String.utf8EncodeChar c ++ rest := by
  rw [hfirst] at h
  obtain ⟨second, bytes, rfl, hlow, hhigh, h⟩ := exists_of_continuation_succ h
  obtain ⟨third, bytes, rfl, hlow', hhigh', h⟩ := exists_of_continuation_succ h
  obtain ⟨hbits, rfl⟩ := of_continuation_zero h (by unfold Nat.isValidChar; omega)
  exact encodeChar_three bytes hlead (by omega) ⟨hlow', hhigh'⟩ (by omega) hbits

/-- A character of four bytes, of which the second may be bounded more tightly. -/
theorem append_of_continuation_three (hlead : 0xF0 ≤ b.toNat ∧ b.toNat < 0xF5)
    (hbounds : 0x80 ≤ low ∧ high ≤ 0xBF) (hlong : b.toNat = 0xF0 → 0x90 ≤ low)
    (hlast : b.toNat = 0xF4 → high ≤ 0x8F)
    (hfirst : bits = b.toNat - 0xF0) (h : continuation 3 bits low high bytes = (some c, rest)) :
    b :: bytes = String.utf8EncodeChar c ++ rest := by
  rw [hfirst] at h
  obtain ⟨second, bytes, rfl, hlow, hhigh, h⟩ := exists_of_continuation_succ h
  obtain ⟨third, bytes, rfl, hlow', hhigh', h⟩ := exists_of_continuation_succ h
  obtain ⟨fourth, bytes, rfl, hlow'', hhigh'', h⟩ := exists_of_continuation_succ h
  obtain ⟨hbits, rfl⟩ := of_continuation_zero h (by unfold Nat.isValidChar; omega)
  exact encodeChar_four bytes hlead (by omega) ⟨hlow', hhigh'⟩ ⟨hlow'', hhigh''⟩ (by omega) hbits

/-- What is read as a character are the bytes of the character. -/
theorem eq_append_of_nextGlyph (h : nextGlyph b bytes = (some c, rest)) :
    b :: bytes = String.utf8EncodeChar c ++ rest := by
  simp only [nextGlyph] at h
  split at h
  · rename_i hlead
    obtain ⟨hc, rfl⟩ := Prod.mk.inj h
    refine encodeChar_one bytes hlead ?_
    rw [← Option.some.inj hc, Char.ofNat, dif_pos (by unfold Nat.isValidChar; omega)]
    rfl
  split at h
  · cases h
  split at h
  · exact append_of_continuation_one (by omega) h
  split at h
  · exact append_of_continuation_two (by omega) (by omega) (by omega) (by omega) (by omega) h
  split at h
  · exact append_of_continuation_two (by omega) (by omega) (by omega) (by omega) (by omega) h
  split at h
  · exact append_of_continuation_two (by omega) (by omega) (by omega) (by omega) (by omega) h
  split at h
  · exact append_of_continuation_three (by omega) (by omega) (by omega) (by omega) (by omega) h
  split at h
  · exact append_of_continuation_three (by omega) (by omega) (by omega) (by omega) (by omega) h
  split at h
  · exact append_of_continuation_three (by omega) (by omega) (by omega) (by omega) (by omega) h
  · cases h

end Leads

theorem eq_flatMap_of_decode {bytes : List UInt8} {cs : List Char}
    (h : decode bytes = cs.map some) : bytes = cs.flatMap String.utf8EncodeChar := by
  induction cs generalizing bytes with
  | nil =>
      cases bytes with
      | nil => rfl
      | cons b rest => rw [decode_cons] at h; cases h
  | cons c cs ih =>
      cases bytes with
      | nil => rw [decode_nil] at h; cases h
      | cons b rest =>
          rw [decode_cons, List.map_cons, List.cons.injEq] at h
          rw [List.flatMap_cons, ← ih h.2]
          exact eq_append_of_nextGlyph (Prod.ext h.1 rfl)

/-- A text is read from its own bytes only. -/
theorem eq_encode_of_decode? {bytes : List UInt8} {s : String} (h : decode? bytes = some s) :
    bytes = encode s := by
  rw [encode_eq_flatMap]
  exact eq_flatMap_of_decode (decode_eq_glyphs h)

end UmlCatalog.Text
