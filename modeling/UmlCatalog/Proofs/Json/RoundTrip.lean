import UmlCatalog.Format
import UmlCatalog.Proofs.Canonical
import UmlCatalog.Proofs.Json.Tree
import UmlCatalog.Proofs.View.Classes
import UmlCatalog.Proofs.Wire.RoundTrip

/-!
# JSON keeps every canonical model

The tree of a written document represents it, so a canonical model is read back from its own
text, in either layout. Every model that is built, extracted from a canonical one or read is
canonical.
-/

namespace UmlCatalog.Json

mutual
/-- The tree of a document represents it. -/
theorem represents_ofWire : ∀ v, Represents (Document.ofWire v) v
  | .text _ => ⟨⟨rfl, rfl⟩, rfl, rfl⟩
  | .flag _ => ⟨⟨rfl, rfl⟩, rfl⟩
  | .index _ => ⟨⟨rfl, rfl⟩, index?_ofIndex⟩
  | .list vs => ⟨⟨rfl, rfl⟩, _, rfl, representsItems_ofWire vs⟩
  | .record fs => ⟨⟨rfl, rfl⟩, _, rfl, representsFields_ofWire fs⟩

theorem representsItems_ofWire : ∀ vs, RepresentsItems (Document.listOfWire vs) vs
  | [] => rfl
  | v :: vs => ⟨_, _, rfl, represents_ofWire v, representsItems_ofWire vs⟩

theorem representsFields_ofWire : ∀ fs, RepresentsFields
    ((Document.membersOfWire fs).map fun e => (Document.string e.1, e.2)) fs
  | [] => rfl
  | (_, v) :: fs =>
      ⟨_, _, _, rfl, ⟨⟨rfl, rfl⟩, rfl, rfl⟩, represents_ofWire v, representsFields_ofWire fs⟩
end

/-! ## Reading what was written -/

section Decode
variable {α : Type} {read : Reader Document α} {d : Document} {a : α}

theorem decode_eq_ok {s : String} (hd : Document.ofText s = .ok d) (hread : read.run 0 d = .ok a) :
    decode read s = .ok a := by
  have hbind : (Document.ofText s >>= read.run 0) = .ok a := by
    rw [hd]
    exact hread
  rw [decode, hbind]

theorem decodeBytes_eq_ok {bytes : List UInt8} (hd : Document.ofBytes bytes = .ok d)
    (hread : read.run 0 d = .ok a) : decodeBytes read bytes = .ok a := by
  have hbind : (Document.ofBytes bytes >>= read.run 0) = .ok a := by
    rw [hd]
    exact hread
  rw [decodeBytes, hbind]

theorem exists_of_decode_eq_ok {s : String} (h : decode read s = .ok a) :
    ∃ d, read.run 0 d = .ok a := by
  unfold decode at h
  split at h
  · rename_i found hfound
    obtain ⟨d, _, hd⟩ := exists_of_bind_eq_ok hfound
    obtain rfl := Except.ok.inj h
    exact ⟨d, hd⟩
  · cases h

theorem exists_of_decodeBytes_eq_ok {bytes : List UInt8} (h : decodeBytes read bytes = .ok a) :
    ∃ d, read.run 0 d = .ok a := by
  unfold decodeBytes at h
  split at h
  · rename_i found hfound
    obtain ⟨d, _, hd⟩ := exists_of_bind_eq_ok hfound
    obtain rfl := Except.ok.inj h
    exact ⟨d, hd⟩
  · cases h

end Decode

section Written
variable {layout : Layout} {m : Model}

theorem run_read_ofWire (h : m.IsCanonical) (hpositions : m.HasWordPositions) :
    Model.read.run 0 (Document.ofWire m.toWire) = .ok m := by
  rw [Reader.run, Model.readsBack h hpositions _ (represents_ofWire _)]
  rfl

/-- A canonical model is read back from its text. -/
theorem decode_encodeModel (hlayout : layout.IsBlank) (h : m.IsCanonical)
    (hpositions : m.HasWordPositions) : decode Model.read (encodeModel layout m) = .ok m :=
  decode_eq_ok (Document.ofText_render hlayout m.toWire) (run_read_ofWire h hpositions)

/-- A canonical model is read back from the bytes of its text. -/
theorem decodeBytes_encodeModel (hlayout : layout.IsBlank) (h : m.IsCanonical)
    (hpositions : m.HasWordPositions) :
    decodeBytes Model.read (Text.encode (encodeModel layout m)) = .ok m :=
  decodeBytes_eq_ok (Document.ofBytes_render hlayout m.toWire) (run_read_ofWire h hpositions)

end Written

/-! ## What is read -/

theorem index?_le_maxIndex (d : Document) (k : Nat) (h : Readable.index? d = some k) :
    k ≤ maxIndex := by
  cases d with
  | number n =>
      have hn : n.index? = some k := h
      unfold Number.index? at hn
      split at hn
      · cases hn
      · dsimp only at hn
        split at hn
        · rename_i hle
          exact Option.some.inj hn ▸ hle
        · cases hn
  | _ => cases h

/-- A model that is read from a tree is canonical, and its positions fit into machine words. -/
theorem isCanonical_of_run {d : Document} {m : Model} (h : Model.read.run 0 d = .ok m) :
    m.IsCanonical ∧ m.HasWordPositions := by
  obtain ⟨⟨a, s⟩, hread, he⟩ := exists_of_bind_eq_ok h
  obtain rfl := Except.ok.inj he
  exact Model.yields_read index?_le_maxIndex d 0 a s hread

end UmlCatalog.Json

namespace UmlCatalog.Format

/-- JSON keeps every canonical model. Its text in either layout is read back as the same model, and
so are the bytes of that text, with everything in its order. Every model that is built, that is
extracted from a canonical one or that is read from JSON is canonical. -/
theorem json_keepsCanonical :
    (∀ m : Model, m.IsCanonical → m.HasWordPositions → ∀ layout,
      layout = .compact ∨ layout = .pretty →
        Json.decode Model.read (Json.encodeModel layout m) = .ok m ∧
        ∃ bytes, (json layout).write m = .ok bytes ∧
          ∀ layout', (json layout').read bytes = .ok m) ∧
    (∀ config resource document result, build config resource document = .ok result →
      result.model.IsCanonical) ∧
    (∀ source : Model, source.IsCanonical → ∀ origin names options v,
      source.extractView origin names options = .ok v → v.IsCanonical) ∧
    (∀ layout bytes m, (json layout).read bytes = .ok m → m.IsCanonical ∧ m.HasWordPositions) ∧
    ∀ s m, Json.decode Model.read s = .ok m → m.IsCanonical ∧ m.HasWordPositions := by
  refine ⟨?_, ?_, ?_, ?_, ?_⟩
  · intro m hm hpositions layout hlayout
    have hblank : layout.IsBlank := by
      obtain rfl | rfl := hlayout
      · exact Json.Layout.isBlank_compact
      · exact Json.Layout.isBlank_pretty
    exact ⟨Json.decode_encodeModel hblank hm hpositions, _, rfl, fun _ =>
      Json.decodeBytes_encodeModel hblank hm hpositions⟩
  · exact fun _ _ _ _ h => Model.isCanonical_of_build h
  · exact fun _ hsource _ _ _ _ h => hsource.of_extractView h
  · intro _ _ _ h
    obtain ⟨_, hd⟩ := Json.exists_of_decodeBytes_eq_ok h
    exact Json.isCanonical_of_run hd
  · intro _ _ h
    obtain ⟨_, hd⟩ := Json.exists_of_decode_eq_ok h
    exact Json.isCanonical_of_run hd

/-- A class with a name that needs escapes and characters of every length. One of its attributes has
no upper bound, and the other one is the end of an association with an aggregation of its own. The
only view has the class as its member. -/
def spelledDocument : Markup.Element :=
  ⟨"uml:Model", .ofList [("xmi:id", "m"), ("name", "\"\\/\t\x01 \u007F é € 😀")], none, [
    packaged "uml:Package" "p" [
      packaged "uml:Class" "A\n" [
        ⟨"ownedAttribute", .ofList [("xmi:id", "a"), ("aggregation", "shared")], none, [
          ⟨"upperValue", .ofList [("value", "-1")], none, []⟩]⟩,
        ⟨"ownedAttribute", .ofList [("xmi:id", "b"), ("association", "r"),
          ("aggregation", "loose")], none, []⟩]],
    packaged "uml:Package" "views" [
      packaged "uml:Class" "V" [
        ⟨"elementImport", .ofList [("importedElement", "A\n")], none, []⟩]]]⟩

theorem json_keepsCanonical_spelledDocument :
    ∃ result v bytes, build viewedConfig none spelledDocument = .ok result ∧
      result.model.extractView .unknown ["V"] ⟨true, true⟩ = .ok v ∧
      (json .pretty).write result.model = .ok bytes ∧
      result.model.classes.keys = [⟨"A\n"⟩] ∧
      result.model.IsCanonical ∧ result.model.HasWordPositions ∧ v.IsCanonical ∧
      Json.decode Model.read (Json.encodeModel .compact result.model) = .ok result.model ∧
      (json .compact).read bytes = .ok result.model := by
  have hbuilt : (build viewedConfig none spelledDocument).toOption.map (fun r =>
      (decide r.model.HasWordPositions, r.model.classes.keys)) = some (true, [⟨"A\n"⟩]) := by
    decide +kernel
  cases h : build viewedConfig none spelledDocument with
  | error e =>
      rw [h] at hbuilt
      cases hbuilt
  | ok result =>
      rw [h] at hbuilt
      obtain ⟨hpositions, hkeys⟩ := Prod.ext_iff.mp (Option.some.inj hbuilt)
      have hwords := of_decide_eq_true hpositions
      obtain ⟨hkept, hbuild, hview, hread, _⟩ := json_keepsCanonical
      have hm := hbuild _ _ _ _ h
      obtain ⟨v, hv, _⟩ :=
        (Model.isSound_of_build h).isLeast_extractView .unknown ["V"] ⟨true, true⟩
      obtain ⟨bytes, hwrite, hbytes⟩ := (hkept _ hm hwords .pretty (Or.inr rfl)).2
      exact ⟨result, v, bytes, rfl, hv, hwrite, hkeys, (hread _ _ _ (hbytes .compact)).1,
        hwords, hview _ hm _ _ _ _ hv, (hkept _ hm hwords .compact (Or.inl rfl)).1, hbytes .compact⟩

end UmlCatalog.Format
