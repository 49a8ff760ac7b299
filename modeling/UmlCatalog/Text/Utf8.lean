/-!
# Reading bytes as UTF-8

Bytes are read as a list of glyphs: a glyph is a character, or a hole where the bytes are not
UTF-8. A hole stands for the longest run of bytes that begins a well-formed sequence and does
not complete it, and for a single byte if none begins there. A text is then well formed if it
has no hole, and can always be read with the replacement character in place of each hole.
-/

namespace UmlCatalog.Text

/-- A character, or a hole in the text. -/
abbrev Glyph := Option Char

/-- Read `n` more continuation bytes onto the bits gathered so far. The first of them must lie
between the two bounds; a byte that does not fit is left unread. -/
def continuation : Nat → Nat → Nat → Nat → List UInt8 → Glyph × List UInt8
  | 0, bits, _, _, rest => (some (Char.ofNat bits), rest)
  | _ + 1, _, _, _, [] => (none, [])
  | n + 1, bits, low, high, b :: rest =>
      if low ≤ b.toNat ∧ b.toNat ≤ high then
        continuation n (bits * 64 + (b.toNat - 0x80)) 0x80 0xBF rest
      else (none, b :: rest)

/-- Read the glyph that starts with a given byte. The bounds on the second byte shut out
overlong forms, surrogates and values past the last code point. -/
def nextGlyph (b : UInt8) (rest : List UInt8) : Glyph × List UInt8 :=
  let b := b.toNat
  if b < 0x80 then (some (Char.ofNat b), rest)
  else if b < 0xC2 then (none, rest)
  else if b < 0xE0 then continuation 1 (b - 0xC0) 0x80 0xBF rest
  else if b = 0xE0 then continuation 2 0 0xA0 0xBF rest
  else if b = 0xED then continuation 2 0xD 0x80 0x9F rest
  else if b < 0xF0 then continuation 2 (b - 0xE0) 0x80 0xBF rest
  else if b = 0xF0 then continuation 3 0 0x90 0xBF rest
  else if b < 0xF4 then continuation 3 (b - 0xF0) 0x80 0xBF rest
  else if b = 0xF4 then continuation 3 4 0x80 0x8F rest
  else (none, rest)

theorem suffix_continuation (n bits low high : Nat) (rest : List UInt8) :
    (continuation n bits low high rest).2 <:+ rest := by
  induction n generalizing bits low high rest with
  | zero => exact List.suffix_refl _
  | succ n ih =>
      cases rest with
      | nil => exact List.suffix_refl _
      | cons b rest =>
          simp only [continuation]
          split
          · exact (ih _ _ _ _).trans (List.suffix_cons b rest)
          · exact List.suffix_refl _

/-- What is left after a glyph are the last of the bytes behind its first one. -/
theorem suffix_nextGlyph (b : UInt8) (rest : List UInt8) : (nextGlyph b rest).2 <:+ rest := by
  simp only [nextGlyph]
  repeat' split
  all_goals first
    | exact List.suffix_refl _
    | exact suffix_continuation _ _ _ _ _

theorem length_nextGlyph_le (b : UInt8) (rest : List UInt8) :
    (nextGlyph b rest).2.length ≤ rest.length :=
  (suffix_nextGlyph b rest).length_le

/-- Read bytes as glyphs, put in front of the glyphs read before, latest first. -/
def decodeOnto (acc : List Glyph) : List UInt8 → List Glyph
  | [] => acc
  | b :: rest => decodeOnto ((nextGlyph b rest).1 :: acc) (nextGlyph b rest).2
termination_by bytes => bytes.length
decreasing_by exact Nat.lt_succ_of_le (length_nextGlyph_le b rest)

/-- Read bytes as glyphs. -/
def decode (bytes : List UInt8) : List Glyph := (decodeOnto [] bytes).reverse

/-- The characters of a run of glyphs, unless it has a hole. -/
def characters? (glyphs : List Glyph) : Option (List Char) := glyphs.mapM id

/-- Read bytes that are well-formed UTF-8. -/
def decode? (bytes : List UInt8) : Option String :=
  (characters? (decode bytes)).map String.ofList

/-- Read any bytes, with the replacement character in place of each hole. -/
def decodeLossy (bytes : List UInt8) : String :=
  String.ofList ((decode bytes).map fun g => g.getD '\uFFFD')

/-- The glyphs of a text that is already characters. -/
def glyphs (s : String) : List Glyph := s.toList.map some

/-- The bytes of a text. -/
def encode (s : String) : List UInt8 := s.toUTF8.toList

end UmlCatalog.Text
