import UmlCatalog.Text.Utf8

/-!
# Texts survive UTF-8

The bytes of a text are read back as its characters, one glyph for each character and no hole.
A character of one to four bytes is taken apart by its leading byte; the bounds on the second
byte never shut out a byte that a character was encoded to.
-/

namespace UmlCatalog.Text

/-! ## The bytes of a text -/

theorem toList_loop (bytes : ByteArray) (i : Nat) (acc : List UInt8) :
    ByteArray.toList.loop bytes i acc = acc.reverse ++ bytes.data.toList.drop i := by
  fun_induction ByteArray.toList.loop bytes i acc with
  | case1 i acc hi ih =>
      have hlength : i < bytes.data.toList.length := by simpa using hi
      have hget : bytes.get! i = bytes.data.toList[i] := by
        show bytes.data[i]! = bytes.data.toList[i]
        rw [getElem!_pos bytes.data i hi, Array.getElem_toList]
      rw [ih, List.drop_eq_getElem_cons hlength, hget, List.reverse_cons, List.append_assoc,
        List.singleton_append]
  | case2 i acc hi =>
      have hlength : bytes.data.toList.length ≤ i := by simpa using hi
      rw [List.drop_eq_nil_of_le hlength, List.append_nil]

/-- A text is encoded character by character. -/
theorem encode_eq_flatMap (s : String) : encode s = s.toList.flatMap String.utf8EncodeChar := by
  calc encode s
    _ = s.toByteArray.data.toList := by
        rw [encode, String.toUTF8_eq_toByteArray, ByteArray.toList, toList_loop]
        rfl
    _ = s.toList.utf8Encode.data.toList := by rw [String.utf8Encode_toList]
    _ = s.toList.flatMap String.utf8EncodeChar := List.toList_data_toByteArray

/-! ## Reading one character -/

theorem toNat_byte {b : Nat} (h : b < 256) : (UInt8.ofNat b).toNat = b := by
  rw [UInt8.toNat_ofNat', Nat.mod_eq_of_lt h]

/-- A continuation byte within its bounds adds its six bits. -/
theorem continuation_byte {n bits low high b : Nat} (rest : List UInt8) (hb : low ≤ b ∧ b ≤ high)
    (hbyte : b < 256) :
    continuation (n + 1) bits low high (UInt8.ofNat b :: rest) =
      continuation n (bits * 64 + (b - 0x80)) 0x80 0xBF rest := by
  simp only [continuation, toNat_byte hbyte, if_pos hb]

section Lengths
variable {c : Char} {bits low high lead second third fourth : Nat} (rest : List UInt8)

/-- When all bytes of a character are read, its bits are together. -/
theorem continuation_zero (hbits : bits = c.toNat) :
    continuation 0 bits low high rest = (some c, rest) := by
  rw [continuation, hbits, Char.ofNat_toNat]

theorem continuation_one (hsecond : low ≤ second ∧ second ≤ high) (hbyte : second < 256)
    (hbits : bits * 64 + (second - 0x80) = c.toNat) :
    continuation 1 bits low high (UInt8.ofNat second :: rest) = (some c, rest) := by
  rw [continuation_byte _ hsecond hbyte]
  exact continuation_zero rest hbits

theorem continuation_two (hsecond : low ≤ second ∧ second ≤ high) (hbyte : second < 256)
    (hthird : 0x80 ≤ third ∧ third ≤ 0xBF)
    (hbits : (bits * 64 + (second - 0x80)) * 64 + (third - 0x80) = c.toNat) :
    continuation 2 bits low high (UInt8.ofNat second :: UInt8.ofNat third :: rest) =
      (some c, rest) := by
  rw [continuation_byte _ hsecond hbyte]
  exact continuation_one rest hthird (by omega) hbits

theorem continuation_three (hsecond : low ≤ second ∧ second ≤ high) (hbyte : second < 256)
    (hthird : 0x80 ≤ third ∧ third ≤ 0xBF) (hfourth : 0x80 ≤ fourth ∧ fourth ≤ 0xBF)
    (hbits : ((bits * 64 + (second - 0x80)) * 64 + (third - 0x80)) * 64 + (fourth - 0x80) =
      c.toNat) :
    continuation 3 bits low high
      (UInt8.ofNat second :: UInt8.ofNat third :: UInt8.ofNat fourth :: rest) =
        (some c, rest) := by
  rw [continuation_byte _ hsecond hbyte]
  exact continuation_two rest hthird (by omega) hfourth hbits

theorem nextGlyph_one (hlead : lead < 0x80) (hbits : lead = c.toNat) :
    nextGlyph (UInt8.ofNat lead) rest = (some c, rest) := by
  simp only [nextGlyph, toNat_byte (Nat.lt_trans hlead (by decide : 0x80 < 256)), if_pos hlead]
  rw [hbits, Char.ofNat_toNat]

theorem nextGlyph_two (hlead : 0xC2 ≤ lead ∧ lead < 0xE0) (hsecond : 0x80 ≤ second ∧ second ≤ 0xBF)
    (hbits : (lead - 0xC0) * 64 + (second - 0x80) = c.toNat) :
    nextGlyph (UInt8.ofNat lead) (UInt8.ofNat second :: rest) = (some c, rest) := by
  have hnot : ¬lead < 0x80 ∧ ¬lead < 0xC2 := by omega
  simp only [nextGlyph, toNat_byte (show lead < 256 by omega), if_neg hnot.1, if_neg hnot.2,
    if_pos hlead.2]
  exact continuation_one rest hsecond (by omega) hbits

/-- The second byte after `0xE0` and `0xED` is bounded more tightly than the others. -/
theorem nextGlyph_three (hlead : 0xE0 ≤ lead ∧ lead < 0xF0)
    (hsecond : 0x80 ≤ second ∧ second ≤ 0xBF) (hthird : 0x80 ≤ third ∧ third ≤ 0xBF)
    (hlong : lead = 0xE0 → 0xA0 ≤ second) (hsurrogate : lead = 0xED → second ≤ 0x9F)
    (hbits : ((lead - 0xE0) * 64 + (second - 0x80)) * 64 + (third - 0x80) = c.toNat) :
    nextGlyph (UInt8.ofNat lead) (UInt8.ofNat second :: UInt8.ofNat third :: rest) =
      (some c, rest) := by
  have hnot : ¬lead < 0x80 ∧ ¬lead < 0xC2 ∧ ¬lead < 0xE0 := by omega
  have hbyte : second < 256 := by omega
  simp only [nextGlyph, toNat_byte (show lead < 256 by omega), if_neg hnot.1, if_neg hnot.2.1,
    if_neg hnot.2.2, if_pos hlead.2]
  split
  · rename_i hfirst
    rw [hfirst] at hbits
    exact continuation_two rest ⟨hlong hfirst, hsecond.2⟩ hbyte hthird hbits
  · split
    · rename_i hfirst
      rw [hfirst] at hbits
      exact continuation_two rest ⟨hsecond.1, hsurrogate hfirst⟩ hbyte hthird hbits
    · exact continuation_two rest hsecond hbyte hthird hbits

/-- The second byte after `0xF0` and `0xF4` is bounded more tightly than the others. -/
theorem nextGlyph_four (hlead : 0xF0 ≤ lead ∧ lead < 0xF5)
    (hsecond : 0x80 ≤ second ∧ second ≤ 0xBF) (hthird : 0x80 ≤ third ∧ third ≤ 0xBF)
    (hfourth : 0x80 ≤ fourth ∧ fourth ≤ 0xBF)
    (hlong : lead = 0xF0 → 0x90 ≤ second) (hlast : lead = 0xF4 → second ≤ 0x8F)
    (hbits : (((lead - 0xF0) * 64 + (second - 0x80)) * 64 + (third - 0x80)) * 64 +
      (fourth - 0x80) = c.toNat) :
    nextGlyph (UInt8.ofNat lead)
      (UInt8.ofNat second :: UInt8.ofNat third :: UInt8.ofNat fourth :: rest) =
        (some c, rest) := by
  have hnot : ¬lead < 0x80 ∧ ¬lead < 0xC2 ∧ ¬lead < 0xE0 ∧ ¬lead = 0xE0 ∧ ¬lead = 0xED ∧
      ¬lead < 0xF0 := by omega
  have hbyte : second < 256 := by omega
  simp only [nextGlyph, toNat_byte (show lead < 256 by omega), if_neg hnot.1, if_neg hnot.2.1,
    if_neg hnot.2.2.1, if_neg hnot.2.2.2.1, if_neg hnot.2.2.2.2.1, if_neg hnot.2.2.2.2.2]
  split
  · rename_i hfirst
    rw [hfirst] at hbits
    exact continuation_three rest ⟨hlong hfirst, hsecond.2⟩ hbyte hthird hfourth hbits
  · split
    · exact continuation_three rest hsecond hbyte hthird hfourth hbits
    · have hfirst : lead = 0xF4 := by omega
      rw [hfirst] at hbits
      rw [if_pos hfirst]
      exact continuation_three rest ⟨hsecond.1, hlast hfirst⟩ hbyte hthird hfourth hbits

end Lengths

/-- The bytes of a character are read as that character, whatever follows them. -/
theorem exists_nextGlyph_eq (c : Char) :
    ∃ b bs, String.utf8EncodeChar c = b :: bs ∧
      ∀ rest, nextGlyph b (bs ++ rest) = (some c, rest) := by
  have hvalid : c.toNat < 0xD800 ∨ 0xDFFF < c.toNat ∧ c.toNat < 0x110000 := c.valid
  have hval : c.val.toNat = c.toNat := rfl
  simp only [String.utf8EncodeChar, hval]
  split
  · exact ⟨_, _, rfl, fun rest => nextGlyph_one rest (by omega) rfl⟩
  · split
    · exact ⟨_, _, rfl, fun rest => nextGlyph_two rest (by omega) (by omega) (by omega)⟩
    · split
      · exact ⟨_, _, rfl, fun rest => nextGlyph_three rest (by omega) (by omega) (by omega)
          (by omega) (by omega) (by omega)⟩
      · exact ⟨_, _, rfl, fun rest => nextGlyph_four rest (by omega) (by omega) (by omega)
          (by omega) (by omega) (by omega) (by omega)⟩

/-! ## Reading a text -/

theorem decodeOnto_flatMap (acc : List Glyph) (cs : List Char) :
    decodeOnto acc (cs.flatMap String.utf8EncodeChar) = (cs.map some).reverse ++ acc := by
  induction cs generalizing acc with
  | nil => rw [List.flatMap_nil, decodeOnto]; rfl
  | cons c cs ih =>
      obtain ⟨b, bs, hencode, hnext⟩ := exists_nextGlyph_eq c
      rw [List.flatMap_cons, hencode, List.cons_append, decodeOnto, hnext, ih, List.map_cons,
        List.reverse_cons, List.append_assoc, List.singleton_append]

/-- The bytes of a text are read back as its characters. -/
@[simp] theorem decode_encode (s : String) : decode (encode s) = glyphs s := by
  rw [decode, encode_eq_flatMap, decodeOnto_flatMap, List.append_nil, List.reverse_reverse, glyphs]

/-- Bytes without a hole are well-formed. -/
theorem decode?_of_decode {bytes : List UInt8} {cs : List Char} (h : decode bytes = cs.map some) :
    decode? bytes = some (String.ofList cs) := by
  have hcharacters : characters? (cs.map some) = some cs := by
    rw [characters?, List.mapM_map]
    exact (List.mapM_pure (m := Option) (f := id)).trans (congrArg some (List.map_id _))
  rw [decode?, h, hcharacters, Option.map_some]

/-- The bytes of a text are well-formed and read back as the text. -/
@[simp] theorem decode?_encode (s : String) : decode? (encode s) = some s := by
  rw [decode?_of_decode (decode_encode s), String.ofList_toList]

end UmlCatalog.Text
