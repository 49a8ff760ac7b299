import UmlCatalog.Markup.Construct
import UmlCatalog.Markup.Entity
import UmlCatalog.Markup.Event
import UmlCatalog.Text.Utf8

/-!
# Reading documents

The events of a document given as bytes, and its tree. Positions count bytes from the start,
a byte order mark not included. The first flaw of the document is the one reported.

White space is removed at both ends of every run of text before its entities are resolved;
character data sections are taken as they are, whether they are UTF-8 or not.
-/

namespace UmlCatalog.Markup

/-- Read a text that must be UTF-8 with known entities. -/
def content? (bytes : List UInt8) : Option String := (Text.decode? bytes).bind resolve?

/-- Whether a byte continues an attribute key. -/
def isKeyByte (b : UInt8) : Bool := !(b = 0x3D || isBlank b)

/-- Split an attribute off: its key, its value and what follows. The key ends at white space
or an equals sign, and the value stands in quotes of either kind. -/
def splitAttribute (first : UInt8) (rest : List UInt8) :
    Option (List UInt8 × List UInt8 × List UInt8) :=
  match (rest.dropWhile isKeyByte).dropWhile isBlank with
  | b :: afterEquals =>
      if b = 0x3D then
        match afterEquals.dropWhile isBlank with
        | q :: afterQuote =>
            if q = 0x22 ∨ q = 0x27 then
              (splitAfter [q] [] afterQuote).map fun r =>
                (first :: rest.takeWhile isKeyByte, r.1, r.2)
            else none
        | [] => none
      else none
  | [] => none

theorem length_dropWhile_le {α : Type} (p : α → Bool) (l : List α) :
    (l.dropWhile p).length ≤ l.length :=
  (List.dropWhile_suffix p).length_le

/-- The value and what follows it stand behind the first quote. -/
theorem append_of_splitAttribute {first : UInt8} {rest : List UInt8} {r}
    (h : splitAttribute first rest = some r) :
    ∃ afterQuote found, afterQuote <:+ rest ∧ afterQuote = r.2.1 ++ (found ++ r.2.2) := by
  unfold splitAttribute at h
  split at h
  · rename_i b afterEquals hb
    split at h
    · split at h
      · rename_i q afterQuote hq
        split at h
        · obtain ⟨p, hp, rfl⟩ := Option.map_eq_some_iff.mp h
          obtain ⟨found, hfound⟩ := append_of_splitAfter hp
          have hequals : afterEquals <:+ rest :=
            (List.suffix_cons b _).trans (hb ▸ List.dropWhile_suffix isBlank)
              |>.trans (List.dropWhile_suffix isKeyByte)
          have hquote : afterQuote <:+ afterEquals :=
            (List.suffix_cons q _).trans (hq ▸ List.dropWhile_suffix isBlank)
          exact ⟨afterQuote, found, hquote.trans hequals, hfound⟩
        · cases h
      · cases h
    · cases h
  · cases h

theorem suffix_splitAttribute {first : UInt8} {rest : List UInt8} {r}
    (h : splitAttribute first rest = some r) : r.2.2 <:+ rest := by
  obtain ⟨afterQuote, found, hsuffix, hparts⟩ := append_of_splitAttribute h
  exact .trans ⟨r.2.1 ++ found, by rw [hparts, List.append_assoc]⟩ hsuffix

/-- Whether a key declares a namespace; such attributes are left out of the tree. -/
def isNamespaceKey (key : String) : Bool := key.startsWith "xmlns"

/-- Read the attributes of a tag, each of them whole before the next. -/
def attributes (seen : List (List UInt8)) (acc : List (String × String)) (bytes : List UInt8) :
    Except MarkupError (List (String × String)) :=
  match _h : bytes.dropWhile isBlank with
  | [] => .ok acc.reverse
  | first :: rest =>
      match _hs : splitAttribute first rest with
      | none => .error .badAttribute
      | some (rawKey, rawValue, rest') =>
          if rawKey ∈ seen then .error .badAttribute
          else
            match Text.decode? rawKey with
            | none => .error .badAttributeKey
            | some key =>
                if isNamespaceKey key then attributes (rawKey :: seen) acc rest'
                else
                  match content? rawValue with
                  | none => .error .badAttributeValue
                  | some value => attributes (rawKey :: seen) ((key, value) :: acc) rest'
termination_by bytes.length
decreasing_by
  all_goals
    have h1 := length_dropWhile_le isBlank bytes
    have h2 := (suffix_splitAttribute _hs).length_le
    rw [_h] at h1
    simp only [List.length_cons] at h1 h2 ⊢
    omega

/-- Read the inside of a tag: its name goes up to the first white space. -/
def tagEvent (content : List UInt8) : Except MarkupError (List UInt8 × Event) := do
  let isEmpty := content.getLast? = some 0x2F
  let inside := if isEmpty then content.dropLast else content
  let name := inside.takeWhile fun b => !isBlank b
  match Text.decode? name with
  | none => .error .badTagName
  | some tag =>
      let attrs ← attributes [] [] (inside.dropWhile fun b => !isBlank b)
      return (name, if isEmpty then .emptyTag tag attrs else .startTag tag attrs)

/-- The name in an end tag, which may be followed by white space. -/
def endName (content : List UInt8) : List UInt8 :=
  let name := trimEnd content
  if name.isEmpty then content else name

/-- What has been read of a document: the names of the open elements, innermost first, and
the events, latest first. -/
structure Reading where
  names : List (List UInt8)
  events : List Event

/-- Read a run of text between two constructs. -/
def Reading.addText (r : Reading) (run : List UInt8) : Except MarkupError Reading :=
  match trim run with
  | [] => .ok r
  | bytes =>
      match content? bytes with
      | some s => .ok { r with events := .text s :: r.events }
      | none => .error .badText

/-- Read a construct. An end tag must match the innermost open element. -/
def Reading.addConstruct (r : Reading) : Construct → Except MarkupError Reading
  | .passedOver => .ok r
  | .cdata content => .ok { r with events := .cdata (Text.decodeLossy content) :: r.events }
  | .endTag content =>
      match r.names with
      | name :: names =>
          if endName content = name then .ok ⟨names, .endTag :: r.events⟩
          else .error (.malformed 0)
      | [] => .error (.malformed 0)
  | .tag content => do
      let (name, event) ← tagEvent content
      match event with
      | .startTag _ _ => return ⟨name :: r.names, event :: r.events⟩
      | _ => return { r with events := event :: r.events }

/-- A flaw whose place is counted from a position, with its place in the document. -/
def relocate (position : Nat) : MarkupError → MarkupError
  | .malformed offset => .malformed (position + offset)
  | e => e

/-- Whether a byte belongs to a run of text. -/
def isTextByte (b : UInt8) : Bool := b ≠ 0x3C

/-- Read the rest of a document that has `size` bytes in all. -/
def Reading.run (size : Nat) (r : Reading) (bytes : List UInt8) : Except MarkupError Reading :=
  match r.addText (bytes.takeWhile isTextByte) with
  | .error e => .error e
  | .ok r =>
      match _h : bytes.dropWhile isTextByte with
      | [] => .ok r
      | _ :: afterSign =>
          match _hc : cut afterSign with
          | .malformed offset =>
              .error (relocate (size - (afterSign.length + 1)) (.malformed offset))
          | .construct c rest =>
              match r.addConstruct c with
              | .error e => .error (relocate (size - (afterSign.length + 1)) e)
              | .ok r => Reading.run size r rest
termination_by bytes.length
decreasing_by
  have h1 := length_dropWhile_le isTextByte bytes
  have h2 := length_cut _hc
  rw [_h] at h1
  simp only [List.length_cons] at h1
  omega

/-- Remove a byte order mark. -/
def dropMark : List UInt8 → List UInt8
  | 0xEF :: 0xBB :: 0xBF :: rest => rest
  | bytes => bytes

/-- The events of a document, or its first flaw. -/
def events (bytes : List UInt8) : Except MarkupError (List Event) :=
  let bytes := dropMark bytes
  (Reading.run bytes.length ⟨[], []⟩ bytes).map fun r => r.events.reverse

/-- The tree of a document. -/
def Element.ofBytes (bytes : List UInt8) : Except ModelError Element :=
  match events bytes with
  | .ok events => Element.ofEvents events
  | .error e => .error (.markup e)

end UmlCatalog.Markup
