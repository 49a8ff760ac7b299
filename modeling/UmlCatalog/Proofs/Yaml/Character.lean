import Mathlib.Data.List.Chain
import UmlCatalog.Yaml.Printer

/-!
# Characters that are written

Every character of a written text is printable, or stands in an escape. So a text holds no other
white space than spaces and no other ends of lines than a line feed and the two separators.
-/

namespace UmlCatalog.Yaml

/-! ## Printable characters -/

section Printable
variable {c : Char} (h : isPrintable c = true)
include h

theorem ne_tab_of_isPrintable : c ≠ '\t' := by
  rintro rfl
  revert h
  decide

theorem ne_byteOrderMark_of_isPrintable : c ≠ byteOrderMark := by
  rintro rfl
  revert h
  decide

/-- A printable character is left as it is when line ends are unified. -/
theorem ne_return_of_isPrintable : c ≠ '\r' ∧ c ≠ '\u0085' := by
  constructor
  · rintro rfl
    revert h
    decide
  · rintro rfl
    revert h
    decide

/-- The only printable white space is a space. -/
theorem isBlank_iff_of_isPrintable : isBlank c = true ↔ c = ' ' := by
  have htab := ne_tab_of_isPrintable h
  simp [isBlank, htab]

end Printable

theorem isBlank_eq_false_of_isBreak {c : Char} (h : isBreak c = true) : isBlank c = false := by
  simp only [isBreak, Bool.or_eq_true, decide_eq_true_eq] at h
  obtain (((rfl | rfl) | rfl) | rfl) | rfl := h <;> rfl

/-- No two neighbours have a property if each pair of them lacks it. -/
theorem ScalarStyle.hasPair_eq_false_iff {p : Char → Char → Bool} {cs : List Char} :
    hasPair p cs = false ↔ cs.IsChain fun c d => p c d = false := by
  induction cs with
  | nil => simp [hasPair]
  | cons c cs ih =>
      cases cs with
      | nil => simp [hasPair]
      | cons d cs =>
          have hstep : hasPair p (c :: d :: cs) = (p c d || hasPair p (d :: cs)) := by
            simp [hasPair]
          rw [hstep, Bool.or_eq_false_iff, ih, List.isChain_cons_cons]

/-! ## Places -/

namespace Place
variable (p : Place)

/-- The number of bytes that characters take. -/
def bytes : List Char → Nat
  | [] => 0
  | c :: cs => c.utf8Size + bytes cs

theorem bytes_cons (c : Char) (cs : List Char) : bytes (c :: cs) = c.utf8Size + bytes cs := rfl

theorem bytes_append (cs ds : List Char) : bytes (cs ++ ds) = bytes cs + bytes ds := by
  induction cs with
  | nil => exact (Nat.zero_add _).symm
  | cons c cs ih => rw [List.cons_append, bytes_cons, ih, bytes_cons, Nat.add_assoc]

theorem past_cons (c : Char) (cs : List Char) : p.past (c :: cs) = (p.next c).past cs := rfl

@[simp] theorem past_line (cs : List Char) : (p.past cs).line = p.line := by
  induction cs generalizing p with
  | nil => rfl
  | cons c cs ih => exact ih (p.next c)

@[simp] theorem past_column (cs : List Char) : (p.past cs).column = p.column + cs.length := by
  induction cs generalizing p with
  | nil => rfl
  | cons c cs ih =>
      calc ((p.next c).past cs).column
        _ = p.column + 1 + cs.length := ih (p.next c)
        _ = p.column + (cs.length + 1) := by omega

@[simp] theorem past_offset (cs : List Char) : (p.past cs).offset = p.offset + bytes cs := by
  induction cs generalizing p with
  | nil => rfl
  | cons c cs ih =>
      calc ((p.next c).past cs).offset
        _ = p.offset + c.utf8Size + bytes cs := ih (p.next c)
        _ = p.offset + (c.utf8Size + bytes cs) := Nat.add_assoc ..
        _ = p.offset + bytes (c :: cs) := by rw [bytes_cons]

/-- Characters of ASCII are passed by their number. -/
theorem past_of_isAscii {cs : List Char} (h : ∀ c ∈ cs, c.toNat < 128) :
    p.past cs = p.along cs.length := by
  induction cs generalizing p with
  | nil => rfl
  | cons c cs ih =>
      obtain ⟨hc, hcs⟩ := List.forall_mem_cons.mp h
      rw [past_cons, next_of_isAscii p hc, ih _ hcs, List.length_cons]
      unfold along
      rw [Nat.add_assoc, Nat.add_assoc, Nat.add_comm 1]

theorem bytes_of_isAscii {cs : List Char} (h : ∀ c ∈ cs, c.toNat < 128) : bytes cs = cs.length := by
  have hoffset := congrArg Place.offset (past_of_isAscii .start h)
  rw [past_offset] at hoffset
  exact Nat.add_left_cancel hoffset

theorem bytes_toList (s : String) : bytes s.toList = s.utf8ByteSize := by
  have hchars : ∀ cs : List Char, bytes cs = (String.ofList cs).utf8ByteSize := by
    intro cs
    induction cs with
    | nil => rfl
    | cons c cs ih =>
        rw [String.ofList_cons, String.utf8ByteSize_append, String.utf8ByteSize_singleton, ← ih]
        rfl
  rw [hchars, String.ofList_toList]

end Place

/-! ## What follows a value -/

@[simp] theorem length_indentation (column : Nat) : (indentation column).length = column :=
  List.length_replicate

theorem indentation_succ (column : Nat) : indentation (column + 1) = ' ' :: indentation column :=
  rfl

/-- A character that the first word of a line can start with. -/
structure StartsWord (c : Char) : Prop where
  isBlank : isBlank c = false
  isBreak : isBreak c = false
  ne_hash : c ≠ '#'
  ne_mark : c ≠ byteOrderMark

instance (c : Char) : Decidable (StartsWord c) :=
  decidable_of_iff
    (Yaml.isBlank c = false ∧ Yaml.isBreak c = false ∧ c ≠ '#' ∧ c ≠ byteOrderMark)
    ⟨fun h => ⟨h.1, h.2.1, h.2.2.1, h.2.2.2⟩,
      fun h => ⟨h.isBlank, h.isBreak, h.ne_hash, h.ne_mark⟩⟩

/-- What stands behind a value inside blocks at the given columns, innermost first: nothing, or a
line that is indented no deeper than the innermost block. -/
inductive Follows : List Nat → List Char → Prop
  | nil (columns : List Nat) : Follows columns []
  | line {column around : Nat} {outer : List Nat} {c : Char} (cs : List Char)
      (h : column ≤ around) (start : StartsWord c) :
      Follows (around :: outer) (indentation column ++ c :: cs)

theorem Follows.deeper {around inner : Nat} {outer outer' : List Nat} {cs : List Char}
    (h : Follows (around :: outer) cs) (hle : around ≤ inner) : Follows (inner :: outer') cs := by
  cases h with
  | nil => exact .nil _
  | line cs h start => exact .line cs (h.trans hle) start

end UmlCatalog.Yaml
