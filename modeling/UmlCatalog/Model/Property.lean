import UmlCatalog.ElementId

/-!
# Properties of classes

What a property is typed by, how it aggregates, and the record of one property.
-/

namespace UmlCatalog

/-- What a property is typed by. -/
inductive Target where
  /-- A class, enumeration or datatype of the same model. -/
  | idref (id : ElementId)
  /-- An external or primitive type, named by a normalized designator. -/
  | href (designator : String)
  deriving DecidableEq, Inhabited

namespace Target

/-- The text under which a target is looked up, whichever kind it is. -/
def key : Target → String
  | idref id => id.text
  | href designator => designator

/-- The referenced element, for a target inside the model. -/
def idref? : Target → Option ElementId
  | idref id => some id
  | href _ => none

/-- The designator, for a target outside the model. -/
def href? : Target → Option String
  | idref _ => none
  | href designator => some designator

end Target

/-- The aggregation kind of a property; a word outside the three known ones is kept as it
is written. -/
inductive Aggregation where
  | none
  | shared
  | composite
  | other (word : String)
  deriving DecidableEq, Inhabited

namespace Aggregation

/-- The kind written by a word. -/
def ofWord (word : String) : Aggregation :=
  if word = "none" then .none
  else if word = "shared" then .shared
  else if word = "composite" then .composite
  else .other word

/-- The word by which a kind is written. -/
def word : Aggregation → String
  | none => "none"
  | shared => "shared"
  | composite => "composite"
  | other w => w

/-- Whether the kind is one of the three known ones. -/
def isKnown : Aggregation → Bool
  | other _ => false
  | _ => true

/-- Reading a kind back from its own word. -/
@[simp] theorem word_ofWord (w : String) : (ofWord w).word = w := by
  unfold ofWord
  split
  · simp [word, *]
  · split
    · simp [word, *]
    · split
      · simp [word, *]
      · rfl

/-- A kind survives being written exactly if it does not spell a known kind out. -/
theorem ofWord_word_iff (a : Aggregation) :
    ofWord a.word = a ↔ ∀ w, a = other w → w ≠ "none" ∧ w ≠ "shared" ∧ w ≠ "composite" := by
  cases a with
  | none => simp [ofWord, word]
  | shared => simp [ofWord, word]
  | composite => simp [ofWord, word]
  | other w =>
      simp only [word, other.injEq]
      constructor
      · rintro h v rfl
        unfold ofWord at h
        refine ⟨fun e => ?_, fun e => ?_, fun e => ?_⟩ <;> subst e <;> simp at h
      · intro h
        obtain ⟨h1, h2, h3⟩ := h w rfl
        simp [ofWord, h1, h2, h3]

end Aggregation

/-- The upper bound that stands for no limit. -/
def unlimited : String := "*"

/-- The other spelling of no limit that documents use. -/
def writtenUnlimited : String := "-1"

/-- The lower bound of a property that declares none. -/
def defaultLower : String := "0"

/-- Bring an upper bound into its one spelling: both ways to write no limit become
`unlimited`. -/
def canonicalUpper (upper : String) : String :=
  if upper = writtenUnlimited then unlimited else upper

@[simp] theorem canonicalUpper_idem (upper : String) :
    canonicalUpper (canonicalUpper upper) = canonicalUpper upper := by
  unfold canonicalUpper
  split
  · simp [unlimited, writtenUnlimited]
  · simp [*]

theorem canonicalUpper_eq_self_iff {upper : String} :
    canonicalUpper upper = upper ↔ upper ≠ writtenUnlimited := by
  unfold canonicalUpper
  split
  · rename_i h
    subst h
    simp [unlimited, writtenUnlimited]
  · rename_i h
    simp [h]

/-- A property owned by a class. -/
structure Property where
  id : ElementId
  /-- The class that owns the property. -/
  classId : ElementId
  name : Option String
  /-- What the property is typed by, if it declares a type. -/
  target : Option Target
  lower : String
  /-- The upper bound, `unlimited` if there is none. -/
  upper : String
  aggregation : Option Aggregation
  /-- The association that gave the property its name and comments. -/
  association : Option ElementId
  comments : List String
  deriving DecidableEq, Inhabited

namespace Property

/-- A property with a normalized upper bound and no association. -/
def declared (id classId : ElementId) (name : Option String) (target : Option Target)
    (lower upper : String) (aggregation : Option Aggregation) (comments : List String) :
    Property where
  id := id
  classId := classId
  name := name
  target := target
  lower := lower
  upper := canonicalUpper upper
  aggregation := aggregation
  association := none
  comments := comments

/-- Whether the upper bound is no limit. -/
def isUnbounded (p : Property) : Bool := p.upper = unlimited

end Property
end UmlCatalog
