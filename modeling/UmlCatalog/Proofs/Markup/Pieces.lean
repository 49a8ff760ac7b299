import UmlCatalog.Proofs.Markup.FirstTag

/-!
# The pieces of a document

A document is cut into runs of text and constructs, in turn. What is read of it is what is read of
its pieces, one after the other; where they lie in the document matters only for the place of a
flaw.
-/

namespace UmlCatalog.Markup

/-- A part of a document that is read as a whole. -/
inductive Piece where
  /-- A run of text, as it is written. -/
  | run (bytes : List UInt8)
  | construct (c : Construct)

/-- The bytes of a document are cut into pieces: behind each run of text a construct, if there is
anything behind it. -/
inductive IsCut : List UInt8 → List Piece → Prop
  | last {bytes : List UInt8} (end_ : bytes.dropWhile isTextByte = []) :
      IsCut bytes [.run (bytes.takeWhile isTextByte)]
  | more {bytes afterSign rest : List UInt8} {sign : UInt8} {c : Construct} {ps : List Piece}
      (hdrop : bytes.dropWhile isTextByte = sign :: afterSign)
      (hcut : cut afterSign = .construct c rest) (tail : IsCut rest ps) :
      IsCut bytes (.run (bytes.takeWhile isTextByte) :: .construct c :: ps)

/-- A run of text, a construct, and what they leave. -/
theorem IsCut.cons {bytes run afterSign rest : List UInt8} {sign : UInt8} {c : Construct}
    {ps : List Piece} (hrun : bytes.takeWhile isTextByte = run)
    (hdrop : bytes.dropWhile isTextByte = sign :: afterSign)
    (hcut : cut afterSign = .construct c rest) (tail : IsCut rest ps) :
    IsCut bytes (.run run :: .construct c :: ps) :=
  hrun ▸ .more hdrop hcut tail

namespace Reading
variable {r r' : Reading} {bytes : List UInt8} {ps : List Piece}

/-- Read a piece. -/
def add (r : Reading) : Piece → Except MarkupError Reading
  | .run bytes => r.addText bytes
  | .construct c => r.addConstruct c

/-- Whatever is read of a document is read of its pieces. -/
theorem exists_isCut_of_run {size : Nat} (h : r.run size bytes = .ok r') :
    ∃ ps, IsCut bytes ps ∧ ps.foldlM add r = .ok r' := by
  fun_induction Reading.run size r bytes with
  | case1 | case3 | case4 => cases h
  | case2 r bytes r₁ htext hdrop =>
      obtain rfl := Except.ok.inj h
      refine ⟨_, .last hdrop, ?_⟩
      rw [List.foldlM_cons, add, htext]
      rfl
  | case5 r bytes r₁ htext sign afterSign hdrop c rest hcut r₂ hadd ih =>
      obtain ⟨ps, htail, hps⟩ := ih h
      refine ⟨_, .more hdrop hcut htail, ?_⟩
      rw [List.foldlM_cons, add, htext]
      show (Piece.construct c :: ps).foldlM add r₁ = _
      rw [List.foldlM_cons, add, hadd]
      exact hps

/-- The pieces of a document are all that is read of it. -/
theorem run_of_isCut {size : Nat} (hcut : IsCut bytes ps) (h : ps.foldlM add r = .ok r') :
    r.run size bytes = .ok r' := by
  induction hcut generalizing r with
  | last hdrop =>
      obtain ⟨r₁, htext, h⟩ := exists_of_bind_eq_ok h
      obtain rfl : r₁ = r' := Except.ok.inj h
      have htext : r.addText _ = .ok r₁ := htext
      rw [Reading.run]
      split
      · rename_i herror
        cases htext.symm.trans herror
      · rename_i hok
        obtain rfl := Except.ok.inj (htext.symm.trans hok)
        split
        · rfl
        · rename_i hcons
          cases hdrop.symm.trans hcons
  | more hdrop hcut tail ih =>
      obtain ⟨r₁, htext, h⟩ := exists_of_bind_eq_ok h
      obtain ⟨r₂, hadd, h⟩ := exists_of_bind_eq_ok h
      have htext : r.addText _ = .ok r₁ := htext
      have hadd : r₁.addConstruct _ = .ok r₂ := hadd
      rw [Reading.run]
      split
      · rename_i herror
        cases htext.symm.trans herror
      · rename_i hok
        obtain rfl := Except.ok.inj (htext.symm.trans hok)
        split
        · rename_i hnil
          cases hdrop.symm.trans hnil
        · rename_i hcons
          cases hdrop.symm.trans hcons
          split
          · rename_i hmalformed
            cases hcut.symm.trans hmalformed
          · rename_i hconstruct
            cases hcut.symm.trans hconstruct
            rw [hadd]
            exact ih h

end Reading

/-- The tree of what has been read, or the flaw. -/
def Element.ofReading : Except MarkupError Reading → Except ModelError Element
  | .ok r => ofEvents r.events.reverse
  | .error e => .error (.markup e)

/-- The tree that pieces describe. -/
def Element.ofPieces (ps : List Piece) : Except ModelError Element :=
  ofReading (ps.foldlM Reading.add ⟨[], []⟩)

/-- A document of which the pieces can be read has the tree of its pieces. -/
theorem Element.ofBytes_of_isCut {bytes : List UInt8} {ps : List Piece} {r : Reading}
    (hcut : IsCut (dropMark bytes) ps) (h : ps.foldlM Reading.add ⟨[], []⟩ = .ok r) :
    ofBytes bytes = ofPieces ps := by
  rw [ofBytes, events, Reading.run_of_isCut hcut h, ofPieces, h]
  rfl

/-- A document that has a tree is cut into pieces, and has the tree of its pieces. -/
theorem Element.exists_isCut_of_ofBytes {bytes : List UInt8} {root : Element}
    (h : ofBytes bytes = .ok root) :
    ∃ ps r, IsCut (dropMark bytes) ps ∧ ps.foldlM Reading.add ⟨[], []⟩ = .ok r ∧
      ofEvents r.events.reverse = .ok root := by
  unfold ofBytes at h
  split at h
  · rename_i es hes
    dsimp only [events] at hes
    cases hr : Reading.run (dropMark bytes).length ⟨[], []⟩ (dropMark bytes) with
    | error e =>
        rw [hr] at hes
        cases hes
    | ok r =>
        rw [hr] at hes
        cases hes
        obtain ⟨ps, hcut, hps⟩ := Reading.exists_isCut_of_run hr
        exact ⟨ps, r, hcut, hps, h⟩
  · cases h

end UmlCatalog.Markup
