import Mathlib.Data.List.Forall2
import UmlCatalog.Markup.Element

/-!
# Rearranged elements

An element is rearranged if its packaged elements are put in another order, and each of them is
rearranged in its turn. Everything else stays as it is.
-/

namespace UmlCatalog.Markup

namespace Element

/-- The tag of what models and packages are made of. -/
def packagedTag : String := "packagedElement"

/-- An element without its packaged elements. -/
def withoutPackaged (e : Element) : Element :=
  { e with children := e.children.filter fun c => c.tag ≠ packagedTag }

theorem sizeOf_lt_of_mem_childrenNamed {e c : Element} {tag : String}
    (h : c ∈ e.childrenNamed tag) : sizeOf c < sizeOf e := by
  have hlt := List.sizeOf_lt_of_mem (mem_childrenNamed.mp h).1
  cases e
  simp at hlt ⊢
  omega

section Readers
variable (e : Element) {tag : String}

/-- Children of a tag are found among those that are kept if all of them are kept. -/
theorem filter_tag_filter {keep : Element → Prop} [DecidablePred keep]
    (hkeep : ∀ c : Element, c.tag = tag → keep c) :
    (e.children.filter fun c => keep c).filter (fun c => c.tag = tag) = e.childrenNamed tag := by
  rw [childrenNamed, List.filter_filter]
  refine List.filter_congr fun c _ => ?_
  rw [← Bool.decide_and, decide_eq_decide]
  exact and_iff_left_of_imp (hkeep c)

theorem childrenNamed_withoutPackaged (h : tag ≠ packagedTag) :
    e.withoutPackaged.childrenNamed tag = e.childrenNamed tag :=
  e.filter_tag_filter fun _ hc => hc ▸ h

theorem firstNamed?_withoutPackaged (h : tag ≠ packagedTag) :
    e.withoutPackaged.firstNamed? tag = e.firstNamed? tag := by
  rw [firstNamed?_eq_head?, firstNamed?_eq_head?, childrenNamed_withoutPackaged e h]

end Readers
end Element

open Element (packagedTag)

/-- The packaged elements of an element are rearranged one by one and then put in any order. -/
inductive Rearranged : Element → Element → Prop
  | intro {e e' : Element} {middle : List Element}
      (rest : e'.withoutPackaged = e.withoutPackaged)
      (inside : List.Forall₂ Rearranged (e.childrenNamed packagedTag) middle)
      (order : middle.Perm (e'.childrenNamed packagedTag)) : Rearranged e e'

namespace Rearranged
variable {e e' : Element}

/-- Rearrangement by rearrangement of the packaged elements. -/
@[elab_as_elim]
theorem induction {P : Element → Element → Prop}
    (step : ∀ e e' middle, e'.withoutPackaged = e.withoutPackaged →
      List.Forall₂ (fun c c' => Rearranged c c' ∧ P c c') (e.childrenNamed packagedTag) middle →
      middle.Perm (e'.childrenNamed packagedTag) → P e e')
    (h : Rearranged e e') : P e e' := by
  refine @Rearranged.rec (fun e e' _ => P e e')
    (fun cs cs' _ => List.Forall₂ (fun c c' => Rearranged c c' ∧ P c c') cs cs')
    (fun rest _ order ih => step _ _ _ rest ih order) .nil (fun hc _ hP ih => .cons ⟨hc, hP⟩ ih) _ _ h

theorem withoutPackaged_eq (h : Rearranged e e') : e'.withoutPackaged = e.withoutPackaged := by
  cases h with
  | intro rest _ _ => exact rest

theorem tag_eq (h : Rearranged e e') : e'.tag = e.tag := by
  have ht := congrArg Element.tag h.withoutPackaged_eq
  exact ht

theorem id?_eq (h : Rearranged e e') : e'.id? = e.id? := by
  have hid := congrArg Element.id? h.withoutPackaged_eq
  exact hid

theorem type?_eq (h : Rearranged e e') : e'.type? = e.type? := by
  have ht := congrArg Element.type? h.withoutPackaged_eq
  exact ht

theorem refl (e : Element) : Rearranged e e :=
  .intro rfl (List.forall₂_same.mpr fun c _hc => refl c) (.refl _)
termination_by sizeOf e
decreasing_by exact Element.sizeOf_lt_of_mem_childrenNamed _hc

end Rearranged
end UmlCatalog.Markup
