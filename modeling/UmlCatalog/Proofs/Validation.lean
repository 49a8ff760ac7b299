import Mathlib
import UmlCatalog.Format
import UmlCatalog.Proofs.Json.Mended
import UmlCatalog.Proofs.Markup.FirstTag

/-!
# Documents that are read are validated

Validating and reading look at a document in different ways, so a model can be read from documents
that are not validated. Such a document holds something that one of them passes over: bytes that are
not UTF-8 where reading does not mind, a root that is named by entities, which validating does not
resolve, or parts of a record that no model has and that have no reading of their own.
-/

namespace UmlCatalog.Format

/-- What validating may object to although a model is read: the document is not UTF-8 throughout, or
its root is a model by its type only and the type is spelled with entities, or parts of it have no
reading and, as null in their place shows, no bearing on the model. -/
def HoldsUnread (format : Format) (bytes : List UInt8) (m : Model) : Prop :=
  match format with
  | xmi _ _ =>
      Text.decode? bytes = none ∨
        Markup.SpellsByEntities bytes modelTag ∧
          ∃ root, Markup.Element.ofBytes bytes = .ok root ∧ root.tag ≠ wrapperTag ∧
            root.tag ≠ modelTag
  | json _ =>
      ∃ d, Json.Document.ofBytes bytes = .ok d ∧ d.mended ≠ d ∧ d.mended.isStrict = true ∧
        Model.read.run 0 d.mended = .ok m
  | yaml => False

/-- The words that validating looks for are words of ASCII. -/
theorem isAscii_of_mem_rootWords {word : String} (h : word ∈ rootWords) :
    (∀ c ∈ word.toList, Text.IsAscii c) ∧ word.toList ≠ [] := by
  have hwords : rootWords.all (fun word =>
      word.toList.all (fun c => decide (Text.IsAscii c)) && !word.toList.isEmpty) = true := by
    decide
  have hword := List.all_eq_true.mp hwords word h
  simpa only [Bool.and_eq_true, List.all_eq_true, decide_eq_true_eq, Bool.not_eq_true',
    List.isEmpty_eq_false_iff] using hword

/-- One of the words that validating looks for stands in every document that is built, unless the
type of its root is spelled with entities. -/
theorem exists_rootWord {config : BuildConfig} {resource : Option String}
    {bytes : List UInt8} {result : BuildResult}
    (h : buildBytes config resource bytes = .ok result) :
    (∃ word ∈ rootWords, Markup.ascii word <:+: bytes) ∨
      Markup.SpellsByEntities bytes modelTag ∧
        ∃ root, Markup.Element.ofBytes bytes = .ok root ∧ root.tag ≠ wrapperTag ∧
          root.tag ≠ modelTag := by
  obtain ⟨root, hroot, h⟩ := exists_of_bind_eq_ok h
  obtain ⟨model, hmodel, _⟩ := exists_of_bind_eq_ok h
  have hword : "XMI" ∈ rootWords ∧ modelTag ∈ rootWords := by decide
  have hascii := (isAscii_of_mem_rootWords hword.2).1
  by_cases hwrapper : root.tag = wrapperTag
  · have hwrapperAscii : wrapperTag.toList.all (fun c => decide (Text.IsAscii c)) = true := by
      decide
    simp only [List.all_eq_true, decide_eq_true_eq] at hwrapperAscii
    have hpart : Markup.ascii "XMI" <:+: Markup.ascii wrapperTag :=
      ⟨Markup.ascii "xmi:", [], by decide⟩
    exact .inl ⟨_, hword.1, hpart.trans (Markup.infix_of_tag hroot hwrapperAscii hwrapper)⟩
  by_cases htag : root.tag = modelTag
  · exact .inl ⟨_, hword.2, Markup.infix_of_tag hroot hascii htag⟩
  -- What remains is a root that is a model by its type, wherever the type is spelled.
  rw [modelRoot, if_neg hwrapper] at hmodel
  split at hmodel
  · rename_i hmodelRoot
    refine (Markup.infix_of_attr? hroot hascii (hmodelRoot.resolve_left htag)).imp ?_ ?_
    · exact fun hstands => ⟨_, hword.2, hstands⟩
    · exact fun hspells => ⟨hspells, root, hroot, hwrapper, htag⟩
  · cases hmodel

/-! ## Documents that are read and not validated -/

/-- The number under a key that no model has is out of range. -/
def numberDocument : List UInt8 := Text.encode "\x7b\x22x\x22:1e999\x7d"

/-- A comment in the model holds a byte that is not UTF-8. -/
def commentDocument : List UInt8 :=
  Text.encode "<uml:Model><!--" ++ [0xFF] ++ Text.encode "--></uml:Model>"

/-- The type of the root is spelled with the number of its colon. -/
def entityDocument : List UInt8 := Text.encode "<m xmi:type=\x22uml&#58;Model\x22/>"

theorem exists_read_numberDocument : ∃ m, (json .compact).read numberDocument = .ok m := by
  have hdocument : Json.Document.ofBytes numberDocument =
      .ok (.record [(some "x", .number ⟨false, [1], none, some 999⟩)]) := by cbv
  refine ⟨∅, ?_⟩
  rw [read, Json.decodeBytes, hdocument]
  rfl

theorem validate_numberDocument : (json .compact).validate numberDocument ≠ .ok () := by
  have herror : (json .compact).validate numberDocument =
      .error (.json "a part of the document has no reading") := by cbv
  rw [herror]
  intro h
  cases h

theorem exists_read_of_root {bytes : List UInt8} {root : Markup.Element} {result : BuildResult}
    (hroot : Markup.Element.ofBytes bytes = .ok root) (h : build .standard none root = .ok result) :
    ∃ m, (xmi .standard none).read bytes = .ok m := by
  refine ⟨result.model, ?_⟩
  rw [read, buildBytes, hroot]
  exact congrArg (Except.map BuildResult.model) h

theorem exists_read_commentDocument : ∃ m, (xmi .standard none).read commentDocument = .ok m := by
  have hroot : Markup.Element.ofBytes commentDocument =
      .ok ⟨"uml:Model", OrderedMap.ofList [], none, []⟩ := by cbv
  exact exists_read_of_root hroot rfl

theorem validate_commentDocument : (xmi .standard none).validate commentDocument ≠ .ok () := by
  have herror : (xmi .standard none).validate commentDocument = .error (.markup .notUtf8) := by cbv
  rw [herror]
  intro h
  cases h

theorem exists_read_entityDocument : ∃ m, (xmi .standard none).read entityDocument = .ok m := by
  have hroot : Markup.Element.ofBytes entityDocument =
      .ok ⟨"m", OrderedMap.ofList [("xmi:type", "uml:Model")], none, []⟩ := by cbv
  exact exists_read_of_root hroot rfl

theorem validate_entityDocument : (xmi .standard none).validate entityDocument ≠ .ok () := by
  have herror : (xmi .standard none).validate entityDocument = .error (.markup .noRoot) := by
    rw [validate, entityDocument, Text.decode?_encode]
    exact if_neg (by decide)
  rw [herror]
  intro h
  cases h

/-- Not every document that is read is validated. -/
theorem exists_read_not_validated :
    (∃ m, (json .compact).read numberDocument = .ok m ∧
      (json .compact).validate numberDocument ≠ .ok ()) ∧
    (∃ m, (xmi .standard none).read commentDocument = .ok m ∧
      (xmi .standard none).validate commentDocument ≠ .ok ()) ∧
    ∃ m, (xmi .standard none).read entityDocument = .ok m ∧
      (xmi .standard none).validate entityDocument ≠ .ok () := by
  obtain ⟨m, hm⟩ := exists_read_numberDocument
  obtain ⟨m', hm'⟩ := exists_read_commentDocument
  obtain ⟨m'', hm''⟩ := exists_read_entityDocument
  exact ⟨⟨m, hm, validate_numberDocument⟩, ⟨m', hm', validate_commentDocument⟩,
    ⟨m'', hm'', validate_entityDocument⟩⟩

/-! ## What is read is validated -/

/-- A text in which one of the words for a root stands is validated. -/
theorem validate_of_rootWord {config : BuildConfig} {resource : Option String} {bytes : List UInt8}
    {word s : String} (hword : word ∈ rootWords) (hstands : Markup.ascii word <:+: bytes)
    (hdecode : Text.decode? bytes = some s) : (xmi config resource).validate bytes = .ok () := by
  obtain ⟨hascii, hne⟩ := isAscii_of_mem_rootWords hword
  have hany : (rootWords.any fun word => Text.isPart word.toList s.toList) = true :=
    List.any_eq_true.mpr ⟨word, hword, Text.isPart_of_ascii hascii hne hstands hdecode⟩
  rw [validate, hdecode]
  exact if_pos hany

theorem validate_or_holdsUnread_of_buildBytes {config : BuildConfig} {resource : Option String}
    {bytes : List UInt8} {result : BuildResult} (h : buildBytes config resource bytes = .ok result)
    (m : Model) :
    (xmi config resource).validate bytes = .ok () ∨ (xmi config resource).HoldsUnread bytes m := by
  obtain ⟨word, hword, hstands⟩ | hentities := exists_rootWord h
  · cases hdecode : Text.decode? bytes with
    | none => exact .inr (.inl hdecode)
    | some s => exact .inl (validate_of_rootWord hword hstands hdecode)
  · exact .inr (.inr hentities)

/-- What validating JSON objects to has no bearing on the model that is read. -/
theorem validate_or_holdsUnread_of_decodeBytes {layout : Json.Layout} {bytes : List UInt8}
    {m : Model} (h : Json.decodeBytes Model.read bytes = .ok m) :
    (json layout).validate bytes = .ok () ∨ (json layout).HoldsUnread bytes m := by
  obtain ⟨d, hd, hrun⟩ : ∃ d, Json.Document.ofBytes bytes = .ok d ∧ Model.read.run 0 d = .ok m := by
    unfold Json.decodeBytes at h
    split at h
    · rename_i hread
      cases h
      exact exists_of_bind_eq_ok hread
    · cases h
  by_cases hmended : d.mended = d
  · refine .inl ?_
    rw [validate, Json.validate, hd]
    exact if_pos (Json.Document.mended_eq_self_iff.mp hmended)
  · exact .inr ⟨d, hd, hmended, Json.Document.isStrictWithin_mendWithin _ d,
      Model.run_read_mended hrun⟩

/-- Validating accepts every document that is read as a model, unless the document holds something
that one of the two passes over: in XMI bytes that are not UTF-8 or a root that only a type spelled
with entities makes a model, in JSON parts without a reading, with null in place of which the same
model is read. -/
theorem validate_of_read {format : Format} {bytes : List UInt8} {m : Model}
    (h : format.read bytes = .ok m) :
    format.validate bytes = .ok () ∨ format.HoldsUnread bytes m := by
  cases format with
  | xmi config resource =>
      cases hbuild : buildBytes config resource bytes with
      | error e =>
          rw [read, hbuild] at h
          cases h
      | ok result => exact validate_or_holdsUnread_of_buildBytes hbuild m
  | json layout => exact validate_or_holdsUnread_of_decodeBytes h
  | yaml => exact .inl rfl

theorem validate_of_read_numberDocument :
    ∃ m, (json .compact).read numberDocument = .ok m ∧
      (json .compact).HoldsUnread numberDocument m := by
  obtain ⟨m, hm⟩ := exists_read_numberDocument
  exact ⟨m, hm, (validate_of_read hm).resolve_left validate_numberDocument⟩

end UmlCatalog.Format
