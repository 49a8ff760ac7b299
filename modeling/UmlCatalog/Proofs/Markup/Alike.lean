import Mathlib.Data.List.Forall2
import UmlCatalog.Proofs.Markup.Rearranged

/-!
# Elements that read alike

Two elements are alike outside some tags if they have the same tag, attributes and text and if their
children of every other tag are alike one by one. Children of different tags may be mixed in any
order, and packaged elements inside the children may differ in any way.

What is read off an element by tags outside the given ones is the same for both.
-/

namespace UmlCatalog.Markup
open Element (packagedTag)

/-- Elements that agree in everything but the children of some tags and, inside the other children,
packaged elements. -/
inductive Alike : List String → Element → Element → Prop
  | intro {skipped : List String} {e e' : Element}
      (tag : e'.tag = e.tag) (attr? : ∀ key, e'.attr? key = e.attr? key) (text : e'.text = e.text)
      (children : ∀ name ∉ skipped,
        List.Forall₂ (Alike [packagedTag]) (e.childrenNamed name) (e'.childrenNamed name)) :
      Alike skipped e e'

/-- What is picked from two lists is the same if it is the same for each pair of members. -/
theorem filterMap_eq_of_forall₂ {α β : Type} {R : α → α → Prop} {f : α → Option β}
    {l l' : List α} (h : List.Forall₂ R l l') (hf : ∀ a a', R a a' → f a' = f a) :
    l'.filterMap f = l.filterMap f := by
  induction h with
  | nil => rfl
  | cons ha _ ih => rw [List.filterMap_cons, List.filterMap_cons, hf _ _ ha, ih]

/-- What is read off two lists by position is the same if it is the same for each pair of members. -/
theorem map_zipIdx_eq_of_forall₂ {α β : Type} {R : α → α → Prop} {f : α × Nat → β}
    {l l' : List α} (h : List.Forall₂ R l l') (hf : ∀ a a' i, R a a' → f (a', i) = f (a, i))
    (i : Nat) : (l'.zipIdx i).map f = (l.zipIdx i).map f := by
  induction h generalizing i with
  | nil => rfl
  | cons ha _ ih => rw [List.zipIdx_cons, List.zipIdx_cons, List.map_cons, List.map_cons,
      hf _ _ i ha, ih]

namespace Alike
variable {skipped : List String} {e e' : Element} {t : String}

theorem tag_eq (h : Alike skipped e e') : e'.tag = e.tag := by
  cases h with
  | intro tag _ _ _ => exact tag

theorem attr?_eq (h : Alike skipped e e') (key : String) : e'.attr? key = e.attr? key := by
  cases h with
  | intro _ attr? _ _ => exact attr? key

theorem text_eq (h : Alike skipped e e') : e'.text = e.text := by
  cases h with
  | intro _ _ text _ => exact text

theorem forall₂_childrenNamed (h : Alike skipped e e') (ht : t ∉ skipped) :
    List.Forall₂ (Alike [packagedTag]) (e.childrenNamed t) (e'.childrenNamed t) := by
  cases h with
  | intro _ _ _ children => exact children t ht

theorem refl (skipped : List String) (e : Element) : Alike skipped e e :=
  .intro rfl (fun _ => rfl) rfl fun _ _ =>
    List.forall₂_same.mpr fun c _hc => refl [packagedTag] c
termination_by sizeOf e
decreasing_by exact Element.sizeOf_lt_of_mem_childrenNamed _hc

/-- Elements with the same children of other tags are alike. -/
theorem of_filter_eq (htag : e'.tag = e.tag) (hattributes : e'.attributes = e.attributes)
    (htext : e'.text = e.text)
    (hchildren : e'.children.filter (fun c => c.tag ∉ skipped) =
      e.children.filter fun c => c.tag ∉ skipped) : Alike skipped e e' := by
  refine .intro htag (fun key => by rw [Element.attr?, Element.attr?, hattributes]) htext ?_
  intro t ht
  have hkeep : ∀ c : Element, c.tag = t → c.tag ∉ skipped := fun _ hc => hc ▸ ht
  rw [← e.filter_tag_filter hkeep, ← e'.filter_tag_filter hkeep, hchildren]
  exact List.forall₂_same.mpr fun c _ => refl [packagedTag] c

theorem withoutPackaged (e : Element) : Alike [packagedTag] e e.withoutPackaged := by
  refine of_filter_eq rfl rfl rfl ?_
  rw [Element.withoutPackaged, List.filter_filter]
  refine List.filter_congr fun c _ => ?_
  simp

/-- Rearranged elements differ in their packaged elements only. -/
theorem of_rearranged (h : Rearranged e e') : Alike [packagedTag] e e' := by
  have hattributes := congrArg Element.attributes h.withoutPackaged_eq
  have htext := congrArg Element.text h.withoutPackaged_eq
  have hchildren := congrArg Element.children h.withoutPackaged_eq
  exact of_filter_eq h.tag_eq hattributes htext (by simpa [Element.withoutPackaged] using hchildren)

theorem id?_eq (h : Alike skipped e e') : e'.id? = e.id? := h.attr?_eq _

theorem idref?_eq (h : Alike skipped e e') : e'.idref? = e.idref? := h.attr?_eq _

theorem type?_eq (h : Alike skipped e e') : e'.type? = e.type? := h.attr?_eq _

theorem rel_firstNamed? (h : Alike skipped e e') (ht : t ∉ skipped) :
    Option.Rel (Alike [packagedTag]) (e.firstNamed? t) (e'.firstNamed? t) := by
  have hchildren := h.forall₂_childrenNamed ht
  rw [Element.firstNamed?_eq_head?, Element.firstNamed?_eq_head?]
  generalize e.childrenNamed t = children at hchildren ⊢
  generalize e'.childrenNamed t = children' at hchildren ⊢
  cases hchildren with
  | nil => exact .none
  | cons hc _ => exact .some hc

/-- What is read off the first child of a tag. -/
theorem bind_firstNamed?_eq {α : Type} {f : Element → Option α} (h : Alike skipped e e')
    (ht : t ∉ skipped) (hf : ∀ c c', Alike [packagedTag] c c' → f c' = f c) :
    (e'.firstNamed? t).bind f = (e.firstNamed? t).bind f := by
  have hfirst := h.rel_firstNamed? ht
  generalize e.firstNamed? t = first at hfirst ⊢
  generalize e'.firstNamed? t = first' at hfirst ⊢
  cases hfirst with
  | some hc => exact hf _ _ hc
  | none => rfl

/-- What is read off all children of a tag. -/
theorem filterMap_childrenNamed_eq {α : Type} {f : Element → Option α} (h : Alike skipped e e')
    (ht : t ∉ skipped) (hf : ∀ c c', Alike [packagedTag] c c' → f c' = f c) :
    (e'.childrenNamed t).filterMap f = (e.childrenNamed t).filterMap f :=
  filterMap_eq_of_forall₂ (h.forall₂_childrenNamed ht) hf

theorem attrElseText?_eq (h : Alike skipped e e') (ht : t ∉ skipped) :
    e'.attrElseText? t = e.attrElseText? t := by
  rw [Element.attrElseText?, Element.attrElseText?, h.attr?_eq,
    h.bind_firstNamed?_eq ht fun _ _ hc => hc.text_eq]

theorem attrElseIdref?_eq (h : Alike skipped e e') (ht : t ∉ skipped) :
    e'.attrElseIdref? t = e.attrElseIdref? t := by
  rw [Element.attrElseIdref?, Element.attrElseIdref?, h.attr?_eq,
    h.bind_firstNamed?_eq ht fun _ _ hc => hc.idref?_eq]

theorem comments_eq (h : Alike skipped e e') (hcomments : "ownedComment" ∉ skipped) :
    e'.comments = e.comments :=
  h.filterMap_childrenNamed_eq hcomments fun _ _ hc => hc.attrElseText?_eq (by decide)

end Alike
end UmlCatalog.Markup
