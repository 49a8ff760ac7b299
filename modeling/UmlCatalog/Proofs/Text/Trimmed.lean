import Mathlib.Data.List.DropRight

/-!
# Trimming part by part

Characters come in parts, and of each part some white space in front is cut off and the rest is
kept. What is kept of all parts together is the whole without the white space at both ends exactly
if no white space is left at the ends and none was cut off in between.
-/

namespace UmlCatalog.Text

/-- The white space of markup: space, tab, carriage return and line feed. -/
def isSpacing (c : Char) : Bool := c = ' ' || c = '\t' || c = '\r' || c = '\n'

/-- Remove white space at both ends. -/
def trimmed (cs : List Char) : List Char := (cs.dropWhile isSpacing).rdropWhile isSpacing

/-- Some characters with no white space at the ends, if there are any. -/
def IsTight (cs : List Char) : Prop :=
  (∀ c ∈ cs.head?, isSpacing c = false) ∧ ∀ c ∈ cs.getLast?, isSpacing c = false

instance (cs : List Char) : Decidable (IsTight cs) := inferInstanceAs (Decidable (_ ∧ _))

section Ends
variable {α : Type} {p : α → Bool} {l m : List α}

/-- What does not start with something to be dropped is found behind what is dropped. -/
theorem sublist_dropWhile (h : l.Sublist m) (hl : ∀ a ∈ l.head?, p a = false) :
    l.Sublist (m.dropWhile p) := by
  induction h with
  | slnil => exact .slnil
  | @cons l m a h ih =>
      rw [List.dropWhile_cons]
      split
      · exact ih hl
      · exact h.cons a
  | @cons_cons l m a h ih =>
      rw [List.dropWhile_cons, hl a rfl, if_neg Bool.false_ne_true]
      exact h.cons_cons a

theorem sublist_rdropWhile (h : l.Sublist m) (hl : ∀ a ∈ l.getLast?, p a = false) :
    l.Sublist (m.rdropWhile p) := by
  rw [List.rdropWhile, ← List.reverse_sublist, List.reverse_reverse]
  refine sublist_dropWhile h.reverse fun a ha => hl a ?_
  rwa [List.head?_reverse] at ha

theorem dropWhile_eq_self (h : ∀ a ∈ l.head?, p a = false) : l.dropWhile p = l := by
  cases l with
  | nil => rfl
  | cons a l => rw [List.dropWhile_cons, h a rfl, if_neg Bool.false_ne_true]

theorem rdropWhile_eq_self (h : ∀ a ∈ l.getLast?, p a = false) : l.rdropWhile p = l := by
  rw [List.rdropWhile, dropWhile_eq_self, List.reverse_reverse]
  intro a ha
  rw [List.head?_reverse] at ha
  exact h a ha

theorem rdropWhile_append_of_all (h : ∀ a ∈ m, p a = true) :
    (l ++ m).rdropWhile p = l.rdropWhile p := by
  rw [List.rdropWhile, List.reverse_append, List.dropWhile_append_of_pos, List.rdropWhile]
  exact fun a ha => h a (List.mem_reverse.mp ha)

/-- Dropping from the right stays in the right part if something of it is left. -/
theorem rdropWhile_append_of_ne_nil (h : m.rdropWhile p ≠ []) :
    (l ++ m).rdropWhile p = l ++ m.rdropWhile p := by
  have hm : (m.reverse.dropWhile p).isEmpty = false := by
    rw [List.isEmpty_eq_false_iff]
    exact fun hnil => h (by rw [List.rdropWhile, hnil, List.reverse_nil])
  rw [List.rdropWhile, List.reverse_append, List.dropWhile_append, hm,
    if_neg Bool.false_ne_true, List.reverse_append, List.reverse_reverse, List.rdropWhile]

end Ends

theorem isTight_trimmed (cs : List Char) : IsTight (trimmed cs) := by
  refine ⟨fun c hc => ?_, fun c hc => ?_⟩
  · obtain ⟨after, hafter⟩ : trimmed cs <+: cs.dropWhile isSpacing := List.rdropWhile_prefix _ _
    have hhead := List.head?_dropWhile_not isSpacing cs
    rw [← hafter, List.head?_append, hc] at hhead
    exact hhead
  · have hhead := List.head?_dropWhile_not isSpacing (cs.dropWhile isSpacing).reverse
    rw [trimmed, List.rdropWhile, List.getLast?_reverse] at hc
    rw [hc] at hhead
    exact hhead

/-- White space around tight characters is what trimming removes. -/
theorem trimmed_append {before cs after : List Char} (hcs : IsTight cs)
    (hbefore : ∀ c ∈ before, isSpacing c = true) (hafter : ∀ c ∈ after, isSpacing c = true) :
    trimmed (before ++ cs ++ after) = cs := by
  rw [trimmed, List.append_assoc, List.dropWhile_append_of_pos hbefore]
  cases cs with
  | nil =>
      rw [List.nil_append, List.dropWhile_eq_nil_iff.mpr hafter]
      rfl
  | cons c cs =>
      have hfront : (c :: cs ++ after).dropWhile isSpacing = c :: cs ++ after :=
        dropWhile_eq_self hcs.1
      rw [hfront, rdropWhile_append_of_all hafter, rdropWhile_eq_self hcs.2]

/-- Trimming stays outside two tight parts, and keeps what stands between them. -/
theorem sublist_trimmed {front k middle l back : List Char} (hk : k.Sublist front)
    (hl : l.Sublist back) (hkfirst : ∀ c ∈ k.head?, isSpacing c = false)
    (hllast : ∀ c ∈ l.getLast?, isSpacing c = false) (hkne : k ≠ []) (hlne : l ≠ []) :
    (k ++ middle ++ l).Sublist (trimmed (front ++ middle ++ back)) := by
  have hfront : k.Sublist (front.dropWhile isSpacing) := sublist_dropWhile hk hkfirst
  have hback : l.Sublist (back.rdropWhile isSpacing) := sublist_rdropWhile hl hllast
  have hfrontne : (front.dropWhile isSpacing).isEmpty = false := by
    rw [List.isEmpty_eq_false_iff]
    exact fun hnil => hkne (List.sublist_nil.mp (hnil ▸ hfront))
  have hbackne : back.rdropWhile isSpacing ≠ [] :=
    fun hnil => hlne (List.sublist_nil.mp (hnil ▸ hback))
  rw [trimmed, List.append_assoc front, List.dropWhile_append, hfrontne,
    if_neg Bool.false_ne_true, ← List.append_assoc, rdropWhile_append_of_ne_nil hbackne]
  exact (hfront.append_right middle).append hback

/-- A part of some characters: white space that is cut off, and what is kept behind it. -/
structure Span where
  cut : List Char
  kept : List Char

namespace Span

/-- The characters that parts make up. -/
def whole (spans : List Span) : List Char := spans.flatMap fun s => s.cut ++ s.kept

/-- The characters that are kept. -/
def keptOf (spans : List Span) : List Char := spans.flatMap kept

/-- What is cut off is cut off outside: nothing is kept before it, or nothing behind it. -/
def CutsOutside (spans : List Span) : Prop :=
  ∀ before s after, spans = before ++ s :: after → s.cut ≠ [] →
    keptOf before = [] ∨ keptOf (s :: after) = []

variable {s : Span} {spans : List Span}

theorem whole_append (l r : List Span) : whole (l ++ r) = whole l ++ whole r := List.flatMap_append

theorem keptOf_append (l r : List Span) : keptOf (l ++ r) = keptOf l ++ keptOf r :=
  List.flatMap_append

theorem whole_cons : whole (s :: spans) = s.cut ++ (s.kept ++ whole spans) := by
  rw [whole, List.flatMap_cons, List.append_assoc]
  rfl

theorem keptOf_cons : keptOf (s :: spans) = s.kept ++ keptOf spans := List.flatMap_cons

theorem keptOf_sublist_whole (spans : List Span) : (keptOf spans).Sublist (whole spans) := by
  induction spans with
  | nil => exact .slnil
  | cons s spans ih =>
      rw [keptOf_cons, whole_cons]
      exact (ih.append_left s.kept).trans (List.sublist_append_right ..)

theorem CutsOutside.tail (h : CutsOutside (s :: spans)) : CutsOutside spans := by
  intro before s' after hsplit hcut
  refine (h (s :: before) s' after (congrArg (s :: ·) hsplit) hcut).imp_left fun hnil => ?_
  rw [keptOf_cons] at hnil
  exact (List.append_eq_nil_iff.mp hnil).2

section Blank
variable (hblank : ∀ s ∈ spans, ∀ c ∈ s.cut, isSpacing c = true)
include hblank

theorem isSpacing_of_keptOf_eq_nil (h : keptOf spans = []) :
    ∀ c ∈ whole spans, isSpacing c = true := by
  intro c hc
  obtain ⟨s, hs, hc⟩ := List.mem_flatMap.mp hc
  rcases List.mem_append.mp hc with hc | hc
  · exact hblank s hs c hc
  · have hkept : c ∈ keptOf spans := List.mem_flatMap.mpr ⟨s, hs, hc⟩
    rw [h] at hkept
    cases hkept

/-- If nothing is kept behind a cut then the whole is what is kept, with white space behind it. -/
theorem exists_whole_of_cutsBehind
    (h : ∀ before s after, spans = before ++ s :: after → s.cut ≠ [] → keptOf (s :: after) = []) :
    ∃ b, whole spans = keptOf spans ++ b ∧ ∀ c ∈ b, isSpacing c = true := by
  induction spans with
  | nil => exact ⟨[], rfl, nofun⟩
  | cons s spans ih =>
      by_cases hcut : s.cut = []
      · obtain ⟨b, hwhole, hb⟩ := ih (fun s' hs' => hblank s' (List.mem_cons_of_mem s hs'))
          fun before s' after hsplit => h (s :: before) s' after (congrArg (s :: ·) hsplit)
        refine ⟨b, ?_, hb⟩
        rw [whole_cons, keptOf_cons, hcut, hwhole, List.nil_append, List.append_assoc]
      · have hnil : keptOf (s :: spans) = [] := h [] s spans rfl hcut
        exact ⟨whole (s :: spans), by rw [hnil, List.nil_append],
          isSpacing_of_keptOf_eq_nil hblank hnil⟩

theorem exists_whole_of_cutsOutside (h : CutsOutside spans) :
    ∃ b b', whole spans = b ++ keptOf spans ++ b' ∧ (∀ c ∈ b, isSpacing c = true) ∧
      ∀ c ∈ b', isSpacing c = true := by
  induction spans with
  | nil => exact ⟨[], [], rfl, nofun, nofun⟩
  | cons s spans ih =>
      have hcut : ∀ c ∈ s.cut, isSpacing c = true := hblank s List.mem_cons_self
      have hrest := fun s' hs' => hblank s' (List.mem_cons_of_mem s hs')
      by_cases hkept : s.kept = []
      · obtain ⟨b, b', hwhole, hb, hb'⟩ := ih hrest h.tail
        refine ⟨s.cut ++ b, b', ?_, fun c hc => (List.mem_append.mp hc).elim (hcut c) (hb c), hb'⟩
        rw [whole_cons, keptOf_cons, hkept, hwhole]
        simp only [List.nil_append, List.append_assoc]
      · have hbehind : ∀ before s' after, spans = before ++ s' :: after → s'.cut ≠ [] →
            keptOf (s' :: after) = [] := by
          intro before s' after hsplit hcut'
          have hside := h (s :: before) s' after (congrArg (s :: ·) hsplit) hcut'
          refine hside.resolve_left fun hnil => hkept ?_
          exact (List.append_eq_nil_iff.mp (keptOf_cons.symm.trans hnil)).1
        obtain ⟨b, hwhole, hb⟩ := exists_whole_of_cutsBehind hrest hbehind
        refine ⟨s.cut, b, ?_, hcut, hb⟩
        rw [whole_cons, keptOf_cons, hwhole]
        simp only [List.append_assoc]

/-- What is kept is the trimmed whole exactly if it is tight and every cut is outside. -/
theorem keptOf_eq_trimmed_iff :
    keptOf spans = trimmed (whole spans) ↔ IsTight (keptOf spans) ∧ CutsOutside spans := by
  refine ⟨fun h => ⟨h ▸ isTight_trimmed _, ?_⟩, fun ⟨htight, houtside⟩ => ?_⟩
  · intro before s after hsplit hcut
    by_contra hnot
    obtain ⟨hfront, hback⟩ := not_or.mp hnot
    have hkept : keptOf spans = keptOf before ++ keptOf (s :: after) := by
      rw [hsplit, keptOf_append]
    have htight : IsTight (keptOf before ++ keptOf (s :: after)) := by
      rw [← hkept, h]
      exact isTight_trimmed _
    have hbehind : (keptOf (s :: after)).Sublist (s.kept ++ whole after) := by
      rw [keptOf_cons]
      exact (keptOf_sublist_whole after).append_left s.kept
    -- The cut would be part of what is left after trimming, but it is not kept.
    have hlonger : (keptOf before ++ s.cut ++ keptOf (s :: after)).Sublist
        (trimmed (whole spans)) := by
      rw [hsplit, whole_append, whole_cons, ← List.append_assoc]
      refine sublist_trimmed (keptOf_sublist_whole before) hbehind (fun c hc => ?_) (fun c hc => ?_)
        hfront hback
      · refine htight.1 c ?_
        rw [List.head?_append, hc, Option.some_or]
        rfl
      · refine htight.2 c ?_
        rw [List.getLast?_append, hc, Option.some_or]
        rfl
    have hlength := hlonger.length_le
    rw [← h, hkept] at hlength
    simp only [List.length_append] at hlength
    exact hcut (List.length_eq_zero_iff.mp (by omega))
  · obtain ⟨b, b', hwhole, hb, hb'⟩ := exists_whole_of_cutsOutside hblank houtside
    rw [hwhole, trimmed_append htight hb hb']

end Blank
end Span
end UmlCatalog.Text
