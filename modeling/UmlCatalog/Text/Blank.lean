/-!
# White space

The characters with the Unicode property White_Space, and the words of a text between them.
-/

namespace UmlCatalog.Text

/-- Whether a character is white space. -/
def isBlank (c : Char) : Bool :=
  let n := c.toNat
  (0x9 ≤ n && n ≤ 0xD) || n = 0x20 || n = 0x85 || n = 0xA0 || n = 0x1680 ||
    (0x2000 ≤ n && n ≤ 0x200A) || n = 0x2028 || n = 0x2029 || n = 0x202F || n = 0x205F ||
    n = 0x3000

/-- Cut characters into words, after those cut before and the word begun, latest first. -/
def wordsOnto (done : List (List Char)) (word : List Char) : List Char → List (List Char)
  | [] => if word.isEmpty then done else word.reverse :: done
  | c :: rest =>
      if isBlank c then wordsOnto (if word.isEmpty then done else word.reverse :: done) [] rest
      else wordsOnto done (c :: word) rest

/-- The words of a text: its longest parts without white space. -/
def words (s : String) : List String :=
  (wordsOnto [] [] s.toList).reverse.map String.ofList

end UmlCatalog.Text
