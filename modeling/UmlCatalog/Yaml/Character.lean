/-!
# Characters of YAML

The classes of characters that reading and writing YAML depend on. Before a text is read its
line ends are unified, so that only a line feed or one of the two Unicode separators ends a
line in it.
-/

namespace UmlCatalog.Yaml

/-- The end of a line, or of a paragraph. -/
def isBreak (c : Char) : Bool :=
  c = '\n' || c = '\r' || c = '\u0085' || c = '\u2028' || c = '\u2029'

/-- White space inside a line. -/
def isBlank (c : Char) : Bool := c = ' ' || c = '\t'

/-- Whether a text is at its end, at the end of a line or at white space. -/
def atGap : List Char → Bool
  | [] => true
  | c :: _ => isBlank c || isBreak c

/-- Whether a text may hold a character at all. -/
def isAdmissible (c : Char) : Bool :=
  let n := c.toNat
  n = 0x9 || n = 0xA || n = 0xD || (0x20 ≤ n && n ≤ 0x7E) || n = 0x85 ||
    (0xA0 ≤ n && n ≤ 0xFFFD) || 0x10000 ≤ n

/-- The mark that may stand in front of a line. -/
def byteOrderMark : Char := '\uFEFF'

/-- Whether a character can be written as it is. -/
def isPrintable (c : Char) : Bool :=
  let n := c.toNat
  n = 0xA || (0x20 ≤ n && n ≤ 0x7E) || (0xA0 ≤ n && n ≤ 0xFFFD && c ≠ byteOrderMark) ||
    0x10000 ≤ n

/-- What can be written as it is can be read. -/
theorem isAdmissible_of_isPrintable {c : Char} (h : isPrintable c = true) :
    isAdmissible c = true := by
  simp only [isPrintable, isAdmissible, Bool.or_eq_true, Bool.and_eq_true, decide_eq_true_eq]
    at h ⊢
  omega

/-- A letter or digit of ASCII, a hyphen or an underscore. -/
def isWordCharacter (c : Char) : Bool := c.isAlphanum || c = '-' || c = '_'

/-- A bracket, brace or comma. -/
def isFlowIndicator (c : Char) : Bool :=
  c = ',' || c = '[' || c = ']' || c = '\x7b' || c = '\x7d'

/-- The characters that start something else than a plain scalar, whatever follows them. -/
def indicators : List Char :=
  ['#', ',', '[', ']', '\x7b', '\x7d', '&', '*', '!', '|', '>', '\'', '\x22', '%', '@', '\x60']

/-- The value of a hexadecimal digit. -/
def hexDigit? (c : Char) : Option Nat :=
  if c.isDigit then some (c.toNat - '0'.toNat)
  else if 'a' ≤ c ∧ c ≤ 'f' then some (c.toNat - 'a'.toNat + 10)
  else if 'A' ≤ c ∧ c ≤ 'F' then some (c.toNat - 'A'.toNat + 10)
  else none

/-- Write every end of a line that is not a Unicode separator as a line feed. -/
def unifyBreaks : List Char → List Char
  | [] => []
  | '\r' :: '\n' :: rest => '\n' :: unifyBreaks rest
  | c :: rest => (if c = '\r' ∨ c = '\u0085' then '\n' else c) :: unifyBreaks rest

/-- A text whose lines all end in one of the three ways is left as it is. -/
theorem unifyBreaks_eq_self {cs : List Char} (h : ∀ c ∈ cs, c ≠ '\r' ∧ c ≠ '\u0085') :
    unifyBreaks cs = cs := by
  induction cs using unifyBreaks.induct with
  | case1 => rfl
  | case2 rest ih => exact absurd rfl (h '\r' (by simp)).1
  | case3 c rest hc ih =>
      have hn : ¬(c = '\r' ∨ c = '\u0085') := by
        have := h c (by simp)
        rintro (e | e)
        · exact this.1 e
        · exact this.2 e
      rw [unifyBreaks, if_neg hn, ih fun d hd => h d (by simp [hd])]
      exact hc

end UmlCatalog.Yaml
