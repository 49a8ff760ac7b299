import UmlCatalog.Yaml.Token

/-!
# Tags, anchors and directives

A tag is a handle with a suffix; what handles stand for can be directed in front of a
document. Anchors and aliases are names.
-/

namespace UmlCatalog.Yaml

/-- Read the name of an anchor or alias. What follows it must be white space or an
indicator. -/
def scanName (place : Place) (cs : List Char) : Option (Scanned String) :=
  let s := scanWhile isWordCharacter place cs
  let mayFollow (c : Char) : Bool :=
    isBlank c || isBreak c || ['?', ':', ',', ']', '\x7d', '%', '@', '\x60'].contains c
  if s.result.isEmpty ∨ s.rest.head?.any fun c => !mayFollow c then none
  else some (s.map String.ofList)

/-- Whether a tag may hold a character that is not escaped; between angle brackets it may also
hold commas and brackets. -/
def isTagCharacter (bracketed : Bool) (c : Char) : Bool :=
  isWordCharacter c ||
    [';', '/', '?', ':', '@', '&', '=', '+', '$', '.', '!', '~', '*', '\'', '(', ')'].contains c ||
    (bracketed && [',', '[', ']'].contains c)

/-- The number of bytes behind the first one of a character. Whether the character exists is
not looked at. -/
def furtherBytes? (lead : UInt8) : Option Nat :=
  if lead < 0x80 then some 0
  else if lead < 0xC0 then none
  else if lead < 0xE0 then some 1
  else if lead < 0xF0 then some 2
  else if lead < 0xF8 then some 3
  else none

/-- The number of bytes that a character still lacks behind one of its bytes, given how many it
lacked before; none if no character lacked any. -/
def lacking? (lacked : Nat) (b : UInt8) : Option Nat :=
  match lacked with
  | 0 => furtherBytes? b
  | n + 1 => if 0x80 ≤ b ∧ b < 0xC0 then some n else none

/-- Read the characters of a tag as bytes, of which a percent sign escapes single ones. All
bytes of a character are escaped if its first one is. -/
def tagBytes? (bracketed : Bool) (lacked : Nat) : List Char → Option (List UInt8 × List Char)
  | [] => if lacked = 0 then some ([], []) else none
  | '%' :: a :: b :: rest => do
      let byte := UInt8.ofNat ((← hexDigit? a) * 16 + (← hexDigit? b))
      let (bytes, rest) ← tagBytes? bracketed (← lacking? lacked byte) rest
      return (byte :: bytes, rest)
  | c :: rest =>
      if c = '%' ∨ lacked ≠ 0 then none
      else if isTagCharacter bracketed c then do
        let (bytes, rest) ← tagBytes? bracketed 0 rest
        return (UInt8.ofNat c.toNat :: bytes, rest)
      else some ([], c :: rest)

/-- Read the characters of a tag as bytes. -/
def scanTagBytes (bracketed : Bool) (place : Place) (cs : List Char) :
    Option (Scanned (List UInt8)) := do
  let (bytes, rest) ← tagBytes? bracketed 0 cs
  return ⟨bytes, rest, place.along (cs.length - rest.length)⟩

/-- Read the characters of a tag, of which there must be one. -/
def scanTagText (bracketed : Bool) (place : Place) (cs : List Char) : Option (Scanned Tag) := do
  let s ← scanTagBytes bracketed place cs
  if s.result.isEmpty then none else return s.map Tag.ofBytes

/-- The tag of a single exclamation mark. -/
def Tag.mark : Tag := .ofText "!"

/-- The word that a tag spells behind an exclamation mark. -/
def Tag.word? (t : Tag) : Option String :=
  match t.bytes with
  | 0x21 :: bytes => Text.decode? bytes
  | _ => none

/-- Read a tag, behind its exclamation mark. The mark is a handle if something follows it; by
itself it is the whole tag. -/
def scanTag (place : Place) (cs : List Char) : Option (Scanned (Option String × Tag)) :=
  match cs with
  | '<' :: rest => do
      let s ← scanTagText true (place.along 1) rest
      match s.rest with
      | '>' :: rest => return ⟨(none, s.result), rest, s.place.along 1⟩
      | _ => none
  | _ =>
      let word := scanWhile isWordCharacter place cs
      match word.rest with
      | '!' :: rest => do
          let s ← scanTagText false (word.place.along 1) rest
          return s.map fun suffix => (some (String.ofList ('!' :: (word.result ++ ['!']))), suffix)
      | _ => do
          let s ← scanTagBytes false place cs
          let suffix := Tag.ofBytes s.result
          return s.map fun _ => if suffix.isEmpty then (none, Tag.mark) else (some "!", suffix)

/-- Read the handle of a directive: an exclamation mark by itself, or a word between two. -/
def scanHandle (place : Place) : List Char → Option (Scanned String)
  | '!' :: cs =>
      let word := scanWhile isWordCharacter (place.along 1) cs
      match word.rest with
      | '!' :: rest =>
          some ⟨String.ofList ('!' :: (word.result ++ ['!'])), rest, word.place.along 1⟩
      | rest => if word.result.isEmpty then some ⟨"!", rest, word.place⟩ else none
  | _ => none

/-- Read a number of a version, which has at most nine digits. -/
def scanVersionNumber (place : Place) (cs : List Char) : Option (Scanned Nat) :=
  let s := scanWhile Char.isDigit place cs
  if s.result.isEmpty ∨ 9 < s.result.length then none
  else some (s.map fun digits => digits.foldl (fun n c => n * 10 + (c.toNat - '0'.toNat)) 0)

/-- Read the version that a directive asks for. -/
def scanVersion (place : Place) (cs : List Char) : Option (Scanned Token) := do
  let blanks := scanWhile isBlank place cs
  let major ← scanVersionNumber blanks.place blanks.rest
  match major.rest with
  | '.' :: rest =>
      let minor ← scanVersionNumber (major.place.along 1) rest
      return minor.map fun n => .version major.result n
  | _ => none

/-- Read what a directive makes a handle stand for. -/
def scanMeaning (place : Place) (cs : List Char) : Option (Scanned Token) := do
  let blanks := scanWhile isBlank place cs
  let handle ← scanHandle blanks.place blanks.rest
  let between := scanWhile isBlank handle.place handle.rest
  if between.result.isEmpty then none
  else
    let meaning ← scanTagText true between.place between.rest
    if atGap meaning.rest then return meaning.map fun tag => .tagHandle handle.result tag
    else none

/-- Read a directive with the rest of its line, behind the percent sign. -/
def scanDirective (place : Place) (cs : List Char) : Option (Scanned Token) := do
  let name := scanWhile isWordCharacter place cs
  if !atGap name.rest then none
  else
    let s ←
      if name.result = "YAML".toList then scanVersion name.place name.rest
      else if name.result = "TAG".toList then scanMeaning name.place name.rest
      else none
    return (← scanLineRest s.place s.rest).map fun _ => s.result

end UmlCatalog.Yaml
