import UmlCatalog.Proofs.Build.Contents
import UmlCatalog.Proofs.View.Classes
import UmlCatalog.Proofs.View.Sound

/-!
# Views of views

A view can be extracted from a built model, from a view of one, and so on. Extraction never fails
along such a chain: every model of it is sound and keeps its identifiers, and the edges that an
extraction records lie within the superclass and package edges of its source, which close no
cycle.
-/

namespace UmlCatalog
open Relation

namespace Hierarchy
variable {h : Hierarchy} {edge : ElementId → ElementId → Prop} {single : ElementId → Prop}

/-- No way along the recorded ancestors leads back to its start, nor one along the recorded
descendants. -/
structure IsAcyclic (h : Hierarchy) : Prop where
  parents : ∀ x, ¬ TransGen (fun y x => y ∈ h.parentsOf x) x x
  children : ∀ x, ¬ TransGen (fun y x => y ∈ h.childrenOf x) x x

/-- A closure has no cycle that its edges do not have. -/
theorem IsClosure.isAcyclic (hh : h.IsClosure edge single) : h.IsAcyclic where
  parents := by
    intro x hx
    have hpath : TransGen (TransGen edge) x x :=
      TransGen.mono (fun _ _ => hh.mem_parentsOf_iff.mp) _ _ hx
    rw [transGen_eq_self] at hpath
    exact hh.acyclic x hpath
  children := by
    intro x hx
    have hpath : TransGen (TransGen edge) x x :=
      TransGen.mono (fun _ _ => hh.mem_childrenOf_iff.mp) _ _ (transGen_swap.mp hx)
    rw [transGen_eq_self] at hpath
    exact hh.acyclic x hpath

end Hierarchy

namespace Model

/-- The models that building and any number of extractions lead to. -/
inductive IsObtained : Model → Prop
  | built {config : BuildConfig} {resource : Option String} {document : Markup.Element}
      {result : BuildResult} (h : build config resource document = .ok result) :
      IsObtained result.model
  | extracted {source v : Model} {origin : ModelSource} {names : List String}
      {options : ViewOptions} (hsource : IsObtained source)
      (h : source.extractView origin names options = .ok v) : IsObtained v

/-- Building establishes what an extraction needs, and every extraction keeps it. -/
theorem IsObtained.isSound {m : Model} (h : m.IsObtained) : m.IsSound ∧ m.KeepsIds := by
  induction h with
  | built h => exact ⟨isSound_of_build h, keepsIds_of_build h⟩
  | extracted _ h ih =>
      obtain ⟨hsound, hids, _, _⟩ := ih.1.of_extractView ih.2 h
      exact ⟨hsound, hids⟩

theorem IsSound.isAcyclic {m : Model} (h : m.IsSound) :
    m.classHierarchy.IsAcyclic ∧ m.packageHierarchy.IsAcyclic :=
  ⟨h.classHierarchy.isAcyclic, h.packageHierarchy.isAcyclic⟩

end Model

/-- Every view of every obtained model can be extracted, and both hierarchies of the view are
acyclic. -/
theorem extractView_of_isObtained {m : Model} (h : m.IsObtained) (origin : ModelSource)
    (names : List String) (options : ViewOptions) :
    ∃ v, m.extractView origin names options = .ok v ∧
      v.classHierarchy.IsAcyclic ∧ v.packageHierarchy.IsAcyclic := by
  obtain ⟨hsound, hids⟩ := h.isSound
  obtain ⟨v, hv, _⟩ := hsound.isLeast_extractView origin names options
  obtain ⟨hsound', _, _, _⟩ := hsound.of_extractView hids hv
  exact ⟨v, hv, hsound'.isAcyclic⟩

theorem exists_build_viewedDocument :
    ∃ result, build viewedConfig none viewedDocument = .ok result := by
  have hok : (build viewedConfig none viewedDocument).toOption.isSome = true := by
    decide +kernel
  cases h : build viewedConfig none viewedDocument with
  | error e =>
      rw [h] at hok
      cases hok
  | ok result => exact ⟨result, rfl⟩

/-- A view of the view V of a built model. The second extraction follows references and their
superclasses, from a source that has fewer classes. -/
theorem extractView_twice_viewedDocument :
    ∃ result v, build viewedConfig none viewedDocument = .ok result ∧
      result.model.extractView .unknown ["V"] ⟨true, false⟩ = .ok v ∧ v.IsObtained ∧
      ∃ w, v.extractView .unknown ["V", "W"] ⟨true, true⟩ = .ok w ∧
        w.classHierarchy.IsAcyclic ∧ w.packageHierarchy.IsAcyclic := by
  obtain ⟨result, h⟩ := exists_build_viewedDocument
  have hbuilt : result.model.IsObtained := .built h
  obtain ⟨v, hv, _⟩ := hbuilt.isSound.1.isLeast_extractView .unknown ["V"] ⟨true, false⟩
  have hview : v.IsObtained := .extracted hbuilt hv
  exact ⟨result, v, h, hv, hview,
    extractView_of_isObtained hview .unknown ["V", "W"] ⟨true, true⟩⟩

end UmlCatalog
