import UmlCatalog.Format
import UmlCatalog.Proofs.Build.Visited
import UmlCatalog.Proofs.Canonical
import UmlCatalog.Proofs.Text.Utf8
import UmlCatalog.Proofs.Wire.RoundTrip
import UmlCatalog.Proofs.Yaml.Printable
import UmlCatalog.Proofs.Yaml.Tree

/-!
# YAML keeps every canonical model

The tree of a written document represents it: a text is never taken for nothing, because whatever
could be is written between quotes. So a canonical model is read back from the bytes of its own
text.
-/

namespace UmlCatalog.Yaml

/-! ## Plain scalars -/

/-- Only zero is written with a leading zero. -/
theorem head?_toDigits_ne_zero {n : Nat} (h : n ≠ 0) : (Nat.toDigits 10 n).head? ≠ some '0' := by
  induction n using Nat.strongRecOn with
  | ind n ih =>
      have hdigit : ∀ m : Fin 10, m ≠ 0 → Nat.digitChar m ≠ '0' := by decide
      rw [Nat.toDigits_eq_if (by decide)]
      split
      · rename_i hsmall
        exact fun hhead => hdigit ⟨n, hsmall⟩ (fun hzero => h (Fin.val_eq_of_eq hzero))
          (Option.some.inj hhead)
      · rename_i hlarge
        rw [List.head?_append_of_ne_nil _ Nat.toDigits_ne_nil]
        exact ih (n / 10) (by omega) (by omega)

theorem isPadded_toDigits (n : Nat) : isPadded (Nat.toDigits 10 n) = false := by
  by_cases hzero : n = 0
  · subst hzero
    rfl
  · have hhead := head?_toDigits_ne_zero hzero
    unfold isPadded
    split
    · rename_i heq
      rw [heq] at hhead
      exact absurd rfl hhead
    · rfl

theorem digit?_of_isDigit {c : Char} (h : c.isDigit = true) :
    digit? 10 c = some (c.toNat - '0'.toNat) := by
  have hbounds : '0'.toNat ≤ c.toNat ∧ c.toNat ≤ '9'.toNat := by
    simpa [Char.isDigit, UInt32.le_iff_toNat_le] using h
  have hlt : c.toNat - '0'.toNat < 10 := by
    have hnine : '9'.toNat = '0'.toNat + 9 := rfl
    omega
  rw [digit?, hexDigit?, if_pos h, Option.filter_some, if_pos (decide_eq_true hlt)]

theorem mapM_eq_some_map {α β : Type} {f : α → Option β} {g : α → β} {l : List α}
    (h : ∀ a ∈ l, f a = some (g a)) : l.mapM f = some (l.map g) := by
  induction l with
  | nil => rfl
  | cons a l ih =>
      obtain ⟨ha, hl⟩ := List.forall_mem_cons.mp h
      rw [List.mapM_cons, ha, ih hl]
      rfl

theorem natural?_toDigits (n : Nat) : natural? 10 (Nat.toDigits 10 n) = some n := by
  have hdigits : ∀ c ∈ Nat.toDigits 10 n, digit? 10 c = some (c.toNat - '0'.toNat) :=
    fun c hc => digit?_of_isDigit (Nat.isDigit_of_mem_toDigits (by decide) (by decide) hc)
  have hvalues : (Nat.toDigits 10 n).mapM (digit? 10) =
      some ((Nat.toDigits 10 n).map fun c => c.toNat - '0'.toNat) := by
    exact mapM_eq_some_map hdigits
  have hvalue : ((Nat.toDigits 10 n).map fun c => c.toNat - '0'.toNat).foldl
      (fun n d => n * 10 + d) 0 = n := by
    calc ((Nat.toDigits 10 n).map fun c => c.toNat - '0'.toNat).foldl (fun n d => n * 10 + d) 0
      _ = Nat.ofDigitChars 10 (Nat.toDigits 10 n) 0 := by
          rw [List.foldl_map, Nat.ofDigitChars_eq_foldl]
          simp only [Nat.mul_comm]
      _ = n := Nat.ofDigitChars_toDigits (by decide) (by decide)
  unfold natural?
  split
  · rename_i hnil
    exact absurd hnil Nat.toDigits_ne_nil
  · rw [hvalues, Option.map_some, hvalue]

/-- An index is read back from its digits. -/
theorem index?_repr {n : Nat} (h : n ≤ Json.maxIndex) : index? (Nat.repr n) = some n := by
  have hdigit : ∀ c ∈ Nat.toDigits 10 n, c.isDigit = true :=
    fun c hc => Nat.isDigit_of_mem_toDigits (by decide) (by decide) hc
  have hnone : prefixed? (Nat.toDigits 10 n) = none := by
    have hsecond : ∀ c rest, Nat.toDigits 10 n = '0' :: c :: rest → c.isDigit = true :=
      fun c rest heq => hdigit c (by rw [heq]; simp)
    unfold prefixed?
    split
    · rename_i heq
      exact absurd (hsecond _ _ heq) (by decide)
    · rename_i heq
      exact absurd (hsecond _ _ heq) (by decide)
    · rename_i heq
      exact absurd (hsecond _ _ heq) (by decide)
    · rfl
  unfold index?
  rw [Nat.toList_repr]
  dsimp only
  split
  · rename_i heq
    exact absurd (hdigit '+' (heq ▸ List.mem_cons_self)) (by decide)
  · rw [hnone, isPadded_toDigits, natural?_toDigits]
    simp [h]

/-- What is written plain stands for something. -/
theorem isNull?_plain {s : String} (h : isAmbiguous s = false) (anchors : Anchors) :
    Document.isNull? ⟨.scalar ⟨s, .plain⟩ none, anchors⟩ = some false := by
  simp only [isAmbiguous, Bool.or_eq_false_iff] at h
  obtain ⟨⟨⟨⟨⟨⟨hempty, hnull⟩, _⟩, _⟩, _⟩, _⟩, _⟩ := h
  show some (s.isEmpty || isNullWord s) = some false
  rw [hempty, hnull]
  rfl

theorem isNull?_repr (n : Nat) (anchors : Anchors) :
    Document.isNull? ⟨.scalar ⟨Nat.repr n, .plain⟩ none, anchors⟩ = some false := by
  have hdigit : ∀ c ∈ (Nat.repr n).toList, c.isDigit = true := by
    rw [Nat.toList_repr]
    exact fun c hc => Nat.isDigit_of_mem_toDigits (by decide) (by decide) hc
  have hempty : (Nat.repr n).isEmpty = false := by
    rw [← Bool.not_eq_true, String.isEmpty_iff]
    intro hnil
    have hdigits : Nat.toDigits 10 n ≠ [] := Nat.toDigits_ne_nil
    rw [← Nat.toList_repr, hnil] at hdigits
    exact hdigits rfl
  have hnull : isNullWord (Nat.repr n) = false := by
    have hne : ∀ s : String, s.toList.all Char.isDigit = false → Nat.repr n ≠ s := by
      rintro s hs rfl
      rw [List.all_eq_true.mpr hdigit] at hs
      cases hs
    simp [isNullWord, hne "~" (by decide), hne "null" (by decide), hne "Null" (by decide),
      hne "NULL" (by decide)]
  show some ((Nat.repr n).isEmpty || isNullWord (Nat.repr n)) = some false
  rw [hempty, hnull]
  rfl

theorem isNull?_ofText (s : String) (anchors : Anchors) :
    Document.isNull? ⟨.scalar ⟨s, ScalarStyle.ofText s⟩ none, anchors⟩ = some false := by
  have hsuits := ScalarStyle.suits_ofText s
  cases hstyle : ScalarStyle.ofText s with rw [hstyle] at hsuits
  | plain =>
      cases hsuits with
      | plain _ hmeaning => exact isNull?_plain hmeaning anchors
  | _ => rfl

theorem isTextNode (s : String) (anchors : Anchors) :
    IsTextNode (Document.mk (.scalar ⟨s, ScalarStyle.ofText s⟩ none) anchors) s :=
  ⟨⟨rfl, isNull?_ofText s anchors⟩, rfl, rfl⟩

/-! ## The tree of a document -/

mutual
/-- The node of a document represents it. -/
theorem represents_ofWire (anchors : Anchors) :
    ∀ v, Represents (Document.mk (Node.ofWire v) anchors) v
  | .text s => isTextNode s anchors
  | .flag b => by
      cases b <;> exact ⟨⟨rfl, rfl⟩, rfl⟩
  | .index n => ⟨⟨rfl, isNull?_repr n anchors⟩, index?_repr⟩
  | .list vs => ⟨⟨rfl, rfl⟩, _, rfl, representsItems_ofWire anchors vs⟩
  | .record fs => ⟨⟨rfl, rfl⟩, _, rfl, representsFields_ofWire anchors fs⟩

theorem representsItems_ofWire (anchors : Anchors) :
    ∀ vs, RepresentsItems ((Node.listOfWire vs).map fun n => Document.mk n anchors) vs
  | [] => rfl
  | v :: vs => ⟨_, _, rfl, represents_ofWire anchors v, representsItems_ofWire anchors vs⟩

theorem representsFields_ofWire (anchors : Anchors) :
    ∀ fs, RepresentsFields ((Node.entriesOfWire fs).map fun e =>
      (Document.mk e.1 anchors, Document.mk e.2 anchors)) fs
  | [] => rfl
  | (k, v) :: fs =>
      ⟨_, _, _, rfl, isTextNode k anchors, represents_ofWire anchors v,
        representsFields_ofWire anchors fs⟩
end

/-! ## Reading what was written -/

/-- A written document is read as its node, without anchors. -/
theorem Document.ofBytes_render (v : WireValue) :
    ofBytes (Text.encode (render v)) = .ok ⟨.ofWire v, .none⟩ := by
  have hprintable := isPrintableText_render v
  have hadmissible : (render v).toList.all isAdmissible = true :=
    List.all_eq_true.mpr fun c hc => isAdmissible_of_isPrintable (hprintable c hc)
  have hbreaks : unifyBreaks (render v).toList = (render v).toList :=
    unifyBreaks_eq_self fun c hc => ne_return_of_isPrintable (hprintable c hc)
  have htext : ofText? (render v).toList = some ⟨.ofWire v, .none⟩ := by
    rw [ofText?, if_pos hadmissible, hbreaks, tokens?_render]
    show (Tree.ofTokens? (words true v ++ [.streamEnd])).bind _ = _
    rw [Tree.ofTokens?_words]
    rfl
  rw [ofBytes, Text.decode?_encode, Option.bind_some, htext]

theorem run_ofBytes {α : Type} {read : Reader Document α} {bytes : List UInt8} {d : Document}
    {a : α} (hd : Document.ofBytes bytes = .ok d) (hread : ∀ budget, read.run budget d = .ok a) :
    (Document.ofBytes bytes >>= fun d => read.run d.maxAliases d) = .ok a := by
  rw [hd]
  exact hread d.maxAliases

/-- A canonical model is read back from the bytes of its text. -/
theorem decodeModel_encodeModel {m : Model} (h : m.IsCanonical) (hpositions : m.HasWordPositions) :
    decodeModel (Text.encode (encodeModel m)) = .ok m := by
  have hread : ∀ budget, Reader.run Model.read budget (Document.mk (Node.ofWire m.toWire) .none) =
      .ok m := fun budget => by
    rw [Reader.run, Model.readsBack h hpositions _ (represents_ofWire _ _)]
    rfl
  rw [decodeModel, encodeModel, run_ofBytes (Document.ofBytes_render m.toWire) hread]

end UmlCatalog.Yaml

namespace UmlCatalog.Format

/-- YAML keeps every canonical model: its bytes are read back as the same model, with everything in
its order, whatever its texts consist of. -/
theorem yaml_keepsCanonical (m : Model) (h : m.IsCanonical) (hpositions : m.HasWordPositions) :
    ∃ bytes, yaml.write m = .ok bytes ∧ yaml.read bytes = .ok m :=
  ⟨_, rfl, Yaml.decodeModel_encodeModel h hpositions⟩

/-- Classes with identifiers that are written in every style: one of several lines, one that could
be taken for nothing, one with a space in front and one with a character that is escaped; and one
that is too long to have its colon on the same line. -/
def styledDocument : Markup.Element :=
  ⟨"uml:Model", .ofList [("xmi:id", "m"), ("name", "a: # b\n  - c \n")], none, [
    packaged "uml:Package" "p" [
      packaged "uml:Class" "A\nB\n\n" [],
      packaged "uml:Class" "null" [],
      packaged "uml:Class" " it's" [],
      packaged "uml:Class" "\x01" [],
      packaged "uml:Class" (String.ofList (List.replicate 140 'x')) []]]⟩

theorem yaml_keepsCanonical_styledDocument :
    ∃ result bytes, build .standard none styledDocument = .ok result ∧
      result.model.classes.keys = [⟨"A\nB\n\n"⟩, ⟨"null"⟩, ⟨" it's"⟩, ⟨"\x01"⟩,
        ⟨String.ofList (List.replicate 140 'x')⟩] ∧
      result.model.IsCanonical ∧ result.model.HasWordPositions ∧
      yaml.write result.model = .ok bytes ∧ yaml.read bytes = .ok result.model := by
  have hbuilt : (build .standard none styledDocument).toOption.map (fun r =>
      (decide r.model.HasWordPositions, r.model.classes.keys)) =
        some (true, [⟨"A\nB\n\n"⟩, ⟨"null"⟩, ⟨" it's"⟩, ⟨"\x01"⟩,
          ⟨String.ofList (List.replicate 140 'x')⟩]) := by
    decide +kernel
  cases h : build .standard none styledDocument with
  | error e =>
      rw [h] at hbuilt
      cases hbuilt
  | ok result =>
      rw [h] at hbuilt
      obtain ⟨hpositions, hkeys⟩ := Prod.ext_iff.mp (Option.some.inj hbuilt)
      have hm := Model.isCanonical_of_build h
      have hwords := of_decide_eq_true hpositions
      obtain ⟨bytes, hwrite, hread⟩ := yaml_keepsCanonical result.model hm hwords
      exact ⟨result, bytes, rfl, hkeys, hm, hwords, hwrite, hread⟩

end UmlCatalog.Format
