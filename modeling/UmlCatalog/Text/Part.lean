/-!
# Parts of a text

Whether a word occurs in a text.
-/

namespace UmlCatalog.Text

/-- Whether a word occurs in a text. -/
def isPart (word : List Char) : List Char → Bool
  | [] => word.isEmpty
  | c :: rest => word.isPrefixOf (c :: rest) || isPart word rest

theorem isPart_iff {word cs : List Char} : isPart word cs = true ↔ word <:+: cs := by
  induction cs with
  | nil => simp [isPart]
  | cons c rest ih => simp [isPart, ih, List.infix_cons_iff]

end UmlCatalog.Text
