import UmlCatalog.Json.Model
import UmlCatalog.Proofs.Build.Draft

/-!
# What the reading of a model passes over

A text that is read as a model may hold strings without a text, numbers that are out of range and
lists and records in each other to any depth. Such parts stand where the reader does not look: the
document is read as the same model when null stands in their place.
-/

namespace UmlCatalog

namespace Json.Document

mutual
/-- A document of which no part is beyond the limits of `isStrictWithin`: null takes the place of
such a part, and members without the text of a key are left out. -/
def mendWithin (depth : Nat) : Document → Document
  | null => null
  | bool b => bool b
  | number n => if n.isOutOfRange then null else number n
  | string s => if s.isSome then string s else null
  | list items =>
      match depth with
      | 0 => null
      | depth + 1 => list (mendItems depth items)
  | record members =>
      match depth with
      | 0 => null
      | depth + 1 => record (mendMembers depth members)

/-- The same for the items of a list. -/
def mendItems (depth : Nat) : List Document → List Document
  | [] => []
  | d :: rest => mendWithin depth d :: mendItems depth rest

/-- The same for the members of a record. -/
def mendMembers (depth : Nat) :
    List (Option String × Document) → List (Option String × Document)
  | [] => []
  | (some k, d) :: rest => (some k, mendWithin depth d) :: mendMembers depth rest
  | (none, _) :: rest => mendMembers depth rest
end

/-- A document with null in place of every part without a reading. -/
def mended (d : Document) : Document := d.mendWithin maxDepth

mutual
theorem isStrictWithin_mendWithin (depth : Nat) :
    ∀ d, isStrictWithin depth (mendWithin depth d) = true
  | null | bool _ => by simp [mendWithin, isStrictWithin]
  | number n => by
      unfold mendWithin
      split
      · simp [isStrictWithin]
      · rename_i h
        simpa [isStrictWithin] using h
  | string s => by
      unfold mendWithin
      split
      · rename_i h
        simpa [isStrictWithin] using h
      · simp [isStrictWithin]
  | list items =>
      match depth with
      | 0 => by simp [mendWithin, isStrictWithin]
      | depth + 1 => by
          simpa [mendWithin, isStrictWithin] using areStrictWithin_mendItems depth items
  | record members =>
      match depth with
      | 0 => by simp [mendWithin, isStrictWithin]
      | depth + 1 => by
          simpa [mendWithin, isStrictWithin] using membersAreStrictWithin_mendMembers depth members

theorem areStrictWithin_mendItems (depth : Nat) :
    ∀ items, areStrictWithin depth (mendItems depth items) = true
  | [] => by simp [mendItems, areStrictWithin]
  | d :: rest => by
      simp [mendItems, areStrictWithin, isStrictWithin_mendWithin depth d,
        areStrictWithin_mendItems depth rest]

theorem membersAreStrictWithin_mendMembers (depth : Nat) :
    ∀ members, membersAreStrictWithin depth (mendMembers depth members) = true
  | [] => by simp [mendMembers, membersAreStrictWithin]
  | (some k, d) :: rest => by
      simp [mendMembers, membersAreStrictWithin, isStrictWithin_mendWithin depth d,
        membersAreStrictWithin_mendMembers depth rest]
  | (none, d) :: rest => by
      simpa [mendMembers] using membersAreStrictWithin_mendMembers depth rest
end

mutual
theorem mendWithin_of_isStrictWithin {depth : Nat} :
    ∀ {d}, isStrictWithin depth d = true → mendWithin depth d = d
  | null, _ | bool _, _ => by simp [mendWithin]
  | number n, h => by
      have hrange : n.isOutOfRange = false := by simpa [isStrictWithin] using h
      simp [mendWithin, hrange]
  | string s, h => by
      have htext : s.isSome = true := by simpa [isStrictWithin] using h
      simp [mendWithin, htext]
  | list items, h =>
      match depth, h with
      | 0, h => by simp [isStrictWithin] at h
      | depth + 1, h => by
          have hitems : areStrictWithin depth items = true := by simpa [isStrictWithin] using h
          simp [mendWithin, mendItems_of_areStrictWithin hitems]
  | record members, h =>
      match depth, h with
      | 0, h => by simp [isStrictWithin] at h
      | depth + 1, h => by
          have hmembers : membersAreStrictWithin depth members = true := by
            simpa [isStrictWithin] using h
          simp [mendWithin, mendMembers_of_membersAreStrictWithin hmembers]

theorem mendItems_of_areStrictWithin {depth : Nat} :
    ∀ {items}, areStrictWithin depth items = true → mendItems depth items = items
  | [], _ => by simp [mendItems]
  | d :: rest, h => by
      simp only [areStrictWithin, Bool.and_eq_true] at h
      simp [mendItems, mendWithin_of_isStrictWithin h.1, mendItems_of_areStrictWithin h.2]

theorem mendMembers_of_membersAreStrictWithin {depth : Nat} :
    ∀ {members}, membersAreStrictWithin depth members = true → mendMembers depth members = members
  | [], _ => by simp [mendMembers]
  | (some k, d) :: rest, h => by
      simp only [membersAreStrictWithin, Bool.and_eq_true] at h
      simp [mendMembers, mendWithin_of_isStrictWithin h.1.2,
        mendMembers_of_membersAreStrictWithin h.2]
  | (none, d) :: rest, h => by simp [membersAreStrictWithin] at h
end

/-- A document is left alone exactly if every part of it has a reading. -/
theorem mended_eq_self_iff {d : Document} : d.mended = d ↔ d.isStrict = true := by
  refine ⟨fun h => ?_, mendWithin_of_isStrictWithin⟩
  have hstrict := isStrictWithin_mendWithin maxDepth d
  rwa [← mended, h] at hstrict

end Json.Document

/-! ## Numbers that are indexes -/

namespace Json

theorem le_ofDigits (start : Nat) (digits : List Nat) : start ≤ ofDigits start digits := by
  induction digits generalizing start with
  | nil => exact Nat.le_refl _
  | cons d rest ih =>
      have hrest : start * 10 + d ≤ ofDigits start (d :: rest) := ih (start * 10 + d)
      omega

namespace Number

/-- The digits of an index are taken all. -/
theorem takeDigits_of_le {start : Nat} {digits : List Nat} (taken : Nat)
    (h : ofDigits start digits ≤ maxIndex) :
    takeDigits start taken digits = (ofDigits start digits, taken + digits.length) := by
  induction digits generalizing start taken with
  | nil => rfl
  | cons d rest ih =>
      have hrest : ofDigits (start * 10 + d) rest ≤ maxIndex := h
      have hstart : start * 10 + d ≤ maxIndex := Nat.le_trans (le_ofDigits _ rest) hrest
      rw [takeDigits, if_pos hstart, ih _ hrest, List.length_cons, Nat.add_assoc, Nat.add_comm 1]
      rfl

/-- Rounding adds less than the number itself. -/
theorem roundToDouble_le (n : Nat) : roundToDouble n ≤ 2 * n := by
  rcases Nat.eq_zero_or_pos n with rfl | hn
  · decide
  · have hunit : Nat.pow 2 (n.log2 + 1 - 53) ≤ n :=
      Nat.le_trans (Nat.pow_le_pow_right (by decide) (by omega))
        (Nat.log2_self_le (Nat.ne_of_gt hn))
    have hdiv := Nat.div_mul_le_self n (Nat.pow 2 (n.log2 + 1 - 53))
    unfold roundToDouble
    dsimp only
    split
    · rw [Nat.add_mul, Nat.one_mul]
      omega
    · omega

/-- A number that is an index is in range. -/
theorem isOutOfRange_of_index? {n : Number} {k : Nat} (h : n.index? = some k) :
    n.isOutOfRange = false := by
  unfold index? at h
  split at h
  · cases h
  · rename_i hplain
    dsimp only at h
    split at h
    · rename_i hle
      have hfraction : n.fraction = none := by simpa using fun hf => hplain (.inr (.inl hf))
      have hexponent : n.exponent = none := by simpa using fun he => hplain (.inr (.inr he))
      have hround := roundToDouble_le (ofDigits 0 n.whole)
      have hoverflow : 2 * maxIndex < overflow := by decide +kernel
      have hsmall : ¬overflow ≤ roundToDouble (ofDigits 0 n.whole) *
          roundToDouble (Nat.pow 10 (0 : Int).toNat) := by
        have hone : roundToDouble (Nat.pow 10 (0 : Int).toNat) = 1 := by decide
        rw [hone]
        omega
      have hpower : min (((n.whole.length - (0 + n.whole.length) : Nat) : Int) - ((0 : Nat) : Int) +
          0) maxExponent = 0 := by
        rw [Nat.zero_add, Nat.sub_self]
        decide
      unfold isOutOfRange
      rw [takeDigits_of_le 0 hle, hfraction, hexponent]
      dsimp only [Option.getD, takeDigits]
      rw [hpower]
      split
      · rfl
      · rw [if_neg (by decide), if_neg (by decide), if_neg (by decide)]
        exact decide_eq_false hsmall
    · cases h

end Number
end Json

/-! ## Two readings -/

theorem exists_of_reading_bind_eq_ok {α β : Type} {x : ReadM α} {f : α → ReadM β} {s : Nat}
    {r : β × Nat} (h : (x >>= f) s = .ok r) : ∃ a s', x s = .ok (a, s') ∧ f a s' = .ok r := by
  obtain ⟨⟨a, s'⟩, ha, hr⟩ := exists_of_bind_eq_ok h
  exact ⟨a, s', ha, hr⟩

theorem liftM_eq_ok_iff {α : Type} {x : Except ReadError α} {s s' : Nat} {a : α} :
    (liftM x : ReadM α) s = .ok (a, s') ↔ x = .ok a ∧ s = s' := by
  cases x with
  | error e => exact ⟨nofun, nofun⟩
  | ok b =>
      show Except.ok (b, s) = Except.ok (a, s') ↔ _
      rw [Except.ok.injEq, Except.ok.injEq, Prod.mk.injEq]

/-- What follows a reading goes on from what it yields. -/
theorem bind_of_eq_ok {α β : Type} {x : ReadM α} {s s' : Nat} {a : α} (h : x s = .ok (a, s'))
    (f : α → ReadM β) : (x >>= f) s = f a s' := by
  show (x s).bind _ = _
  rw [h]
  rfl

/-- Whatever the first reading yields, the second yields too. -/
def Keeps {α : Type} (x y : ReadM α) : Prop := ∀ s r, x s = .ok r → y s = .ok r

namespace Keeps
variable {α β γ : Type} {x y : ReadM α}

theorem refl (x : ReadM α) : Keeps x x := fun _ _ h => h

theorem of_throw (e : ReadError) (y : ReadM α) : Keeps (throw e) y := nofun

theorem bind {f g : α → ReadM β} (h : Keeps x y) (hf : ∀ a, Keeps (f a) (g a)) :
    Keeps (x >>= f) (y >>= g) := by
  intro s r hr
  obtain ⟨a, s', ha, hr⟩ := exists_of_reading_bind_eq_ok hr
  rw [bind_of_eq_ok (h s _ ha)]
  exact hf a s' r hr

theorem map (f : α → β) (h : Keeps x y) : Keeps (f <$> x) (f <$> y) := by
  rw [map_eq_pure_bind, map_eq_pure_bind]
  exact h.bind fun a => refl _

theorem mapM {f : γ → ReadM α} {g : γ → γ} (h : ∀ n, Keeps (f n) (f (g n))) (l : List γ) :
    Keeps (l.mapM f) ((l.map g).mapM f) := by
  induction l with
  | nil => exact refl _
  | cons n l ih =>
      rw [List.map_cons, List.mapM_cons, List.mapM_cons]
      exact (h n).bind fun a => ih.bind fun as => refl _

end Keeps

/-! ## Readers -/

open Json (Document)
open Json.Document

/-- What a reader yields for a document it yields for the mended document. -/
def SurvivesMending {α : Type} (depth : Nat) (read : Reader Document α) : Prop :=
  ∀ d, Keeps (read d) (read (d.mendWithin depth))

theorem Json.Document.mendItems_eq_map (depth : Nat) (items : List Document) :
    mendItems depth items = items.map (mendWithin depth) := by
  induction items with
  | nil => simp [mendItems]
  | cons d rest ih => simp [mendItems, ih]

namespace Reader
variable {α : Type} {view : Document → Option α} {d : Document}

/-- In a document there are no aliases to follow. -/
theorem follow_document (d : Document) : follow d = pure d :=
  follow_of_aliased?_eq_none rfl

theorem take_of_eq_some {a : α} (h : view d = some a) (what : String) :
    take what view d = pure a := by
  rw [take, follow_document, pure_bind, h]

theorem take_of_eq_none (h : view d = none) (what : String) :
    take what view d = throw (.expected what) := by
  rw [take, follow_document, pure_bind, h]

end Reader

namespace SurvivesMending
variable {α : Type} {depth : Nat} {read : Reader Document α}

theorem take (what : String) {view : Document → Option α}
    (h : ∀ d a, view d = some a → view (d.mendWithin depth) = some a) :
    SurvivesMending depth (Reader.take what view) := by
  intro d
  cases hview : view d with
  | none =>
      rw [Reader.take_of_eq_none hview]
      exact Keeps.of_throw _ _
  | some a =>
      rw [Reader.take_of_eq_some hview, Reader.take_of_eq_some (h d a hview)]
      exact Keeps.refl _

theorem text : SurvivesMending depth Reader.text := by
  refine take _ fun d s h => ?_
  cases d with
  | string o =>
      have ho : o = some s := h
      rw [ho]
      simp [mendWithin, Readable.text?]
  | _ => cases h

theorem flag : SurvivesMending depth Reader.flag := by
  refine take _ fun d b h => ?_
  cases d with
  | bool b' => simpa [mendWithin] using h
  | _ => cases h

theorem index : SurvivesMending depth Reader.index := by
  refine take _ fun d k h => ?_
  cases d with
  | number n =>
      have hindex : n.index? = some k := h
      simpa [mendWithin, n.isOutOfRange_of_index? hindex] using h
  | _ => cases h

theorem elementKind : SurvivesMending (depth + 1) ElementKind.read := by
  refine take _ fun d k h => ?_
  obtain ⟨w, hw, hk⟩ := Option.bind_eq_some_iff.mp h
  suffices hword : Readable.word? (d.mendWithin (depth + 1)) = some w by
    rw [hword, Option.bind_some, hk]
  cases d with
  | string o =>
      have ho : o = some w := hw
      rw [ho]
      simp [mendWithin, Readable.word?]
  | record members =>
      match members, hw with
      | [(some k, null)], hw => simpa [mendWithin, mendMembers] using hw
  | _ => cases hw

theorem map {β : Type} (f : α → β) (h : SurvivesMending depth read) :
    SurvivesMending depth fun d => f <$> read d :=
  fun d => (h d).map f

theorem listOf (h : SurvivesMending depth read) :
    SurvivesMending (depth + 1) (Reader.listOf read) := by
  have hitems : ∀ items, Reader.listOf read (list items) = items.mapM read := by
    intro items
    have hview : Readable.items? (list items) = some items := rfl
    rw [Reader.listOf, Reader.take_of_eq_some hview, pure_bind]
  intro d
  cases d with
  | list items =>
      rw [mendWithin, mendItems_eq_map, hitems, hitems]
      exact Keeps.mapM h items
  | _ => exact Keeps.of_throw _ _

theorem setOf [DecidableEq α] (h : SurvivesMending depth read) :
    SurvivesMending (depth + 1) (Reader.setOf read) :=
  h.listOf.map OrderedSet.ofList

/-- A value that may be absent, if null is read as no value of its kind. -/
theorem optional (h : SurvivesMending depth read) (hnull : ∀ s r, read .null s ≠ .ok r) :
    SurvivesMending depth (Reader.optional read) := by
  have hpresent : ∀ d : Document, d ≠ .null → Reader.optional read d = some <$> read d := by
    intro d hd
    rw [Reader.optional, Reader.follow_document, pure_bind]
    cases d with
    | null => exact absurd rfl hd
    | _ => rfl
  intro d s r hr
  by_cases hd : d = .null
  · rw [hd] at hr ⊢
    rwa [mendWithin]
  · rw [hpresent d hd] at hr
    have hr' := (h d).map some s r hr
    -- What is read by `read` was not mended to null, which `read` refuses.
    rw [hpresent _ fun hmended => ?_]
    · exact hr'
    · rw [hmended, map_eq_pure_bind] at hr'
      obtain ⟨a, s', ha, _⟩ := exists_of_reading_bind_eq_ok hr'
      exact hnull s _ ha

end SurvivesMending

/-! ## Maps and records -/

/-- The members of a record with their keys as documents. -/
def Json.Document.bindings (members : List (Option String × Document)) :
    List (Document × Document) :=
  members.map fun e => (string e.1, e.2)

/-- Members whose keys are read as texts are read as well when they are mended: none of them is
left out. -/
theorem mapM_bindings_mendMembers {α : Type} {depth : Nat} {f : String → Document → ReadM α}
    (g : α → α)
    (hf : ∀ k d s a s', f k d s = .ok (a, s') → f k (d.mendWithin depth) s = .ok (g a, s'))
    (members : List (Option String × Document)) :
    ∀ s as s', (bindings members).mapM (fun b => Reader.text b.1 >>= fun k => f k b.2) s =
        .ok (as, s') →
      (bindings (mendMembers depth members)).mapM
          (fun b => Reader.text b.1 >>= fun k => f k b.2) s = .ok (as.map g, s') := by
  induction members with
  | nil =>
      intro s as s' h
      cases h
      rfl
  | cons e rest ih =>
      intro s as s' h
      rw [bindings, List.map_cons, List.mapM_cons] at h
      obtain ⟨a, t, ha, h⟩ := exists_of_reading_bind_eq_ok h
      obtain ⟨bs, t', hbs, h⟩ := exists_of_reading_bind_eq_ok h
      cases h
      -- Only a member whose key has no text is left out, and such a key is not read.
      obtain ⟨_ | k, d⟩ := e
      · cases ha
      · have ha' : f k (d.mendWithin depth) s = .ok (g a, t) := hf k d s a t ha
        rw [mendMembers, bindings, List.map_cons, List.mapM_cons]
        refine (bind_of_eq_ok ha' _).trans ?_
        refine (bind_of_eq_ok (ih t bs s' hbs) _).trans ?_
        rfl

theorem SurvivesMending.mapOf {α κ : Type} [DecidableEq κ] {depth : Nat} {read : Reader Document α}
    (key : String → κ) (h : SurvivesMending depth read) :
    SurvivesMending (depth + 1) (Reader.mapOf key read) := by
  have hmembers : ∀ members, Reader.mapOf key read (record members) =
      ((bindings members).mapM fun b => Reader.text b.1 >>= fun k =>
        read b.2 >>= fun a => pure (key k, a)) >>= fun bs => pure (OrderedMap.ofList bs) := by
    intro members
    have hview : Readable.fields? (record members) = some (bindings members) := rfl
    rw [Reader.mapOf, Reader.take_of_eq_some hview, pure_bind]
  have hbinding : ∀ k d, Keeps (read d >>= fun a => pure (key k, a))
      (read (d.mendWithin depth) >>= fun a => pure (key k, a)) :=
    fun k d => (h d).bind fun _ => .refl _
  intro d s r hr
  cases d with
  | record members =>
      rw [hmembers] at hr
      obtain ⟨bs, s', hbs, hr⟩ := exists_of_reading_bind_eq_ok hr
      have hmended := mapM_bindings_mendMembers id (fun k d s a s' => hbinding k d s (a, s'))
        members s bs s' hbs
      rw [List.map_id] at hmended
      rw [mendWithin, hmembers, bind_of_eq_ok hmended]
      exact hr
  | _ => cases hr

namespace FieldTable
variable {α β : Type} {depth : Nat}

/-- A table whose nodes are mended. -/
def mend (depth : Nat) (t : FieldTable Document) : FieldTable Document :=
  ⟨t.fields.map fun e => (e.1, e.2.mendWithin depth)⟩

theorem lookup_mend (t : FieldTable Document) (name : String) :
    (t.mend depth).fields.lookup name = (t.fields.lookup name).map (mendWithin depth) := by
  obtain ⟨fields⟩ := t
  induction fields with
  | nil => rfl
  | cons e rest ih =>
      obtain ⟨key, d⟩ := e
      show List.lookup name ((key, _) :: _) = Option.map _ (List.lookup name ((key, _) :: _))
      rw [List.lookup_cons, List.lookup_cons]
      split
      · rfl
      · exact ih

theorem select_mend (known : List String) (fields : List (String × Document)) :
    ∀ t, select known fields = .ok t →
      select known (fields.map fun e => (e.1, e.2.mendWithin depth)) = .ok (t.mend depth) := by
  induction fields with
  | nil =>
      intro t h
      cases h
      rfl
  | cons e rest ih =>
      intro t h
      obtain ⟨table, htable, h⟩ := exists_of_bind_eq_ok h
      have hany : ((table.mend depth).fields.any fun e' => e'.1 = e.1) =
          table.fields.any fun e' => e'.1 = e.1 := by
        rw [mend, List.any_map]
        rfl
      simp only [List.map_cons, select, ih table htable]
      simp only [bind, Except.bind, hany]
      split at h
      · split at h
        · cases h
        · cases h
          simp_all [mend, pure, Except.pure]
      · cases h
        simp_all [pure, Except.pure]

theorem ofItems_mend (known : List String) (items : List Document) {t : FieldTable Document}
    (h : ofItems known items = .ok t) :
    ofItems known (items.map (mendWithin depth)) = .ok (t.mend depth) := by
  unfold ofItems at h ⊢
  split at h
  · cases h
  · rename_i hlength
    cases h
    rw [List.length_map, if_neg hlength, mend, List.zip_map_right]
    rfl

theorem read_mend (known : List String) {d : Document} {s s' : Nat} {t : FieldTable Document}
    (h : read known d s = .ok (t, s')) :
    read known (d.mendWithin (depth + 1)) s = .ok (t.mend depth, s') := by
  rw [read, Reader.follow_document, pure_bind] at h ⊢
  cases d with
  | record members =>
      obtain ⟨named, s'', hnamed, h⟩ := exists_of_reading_bind_eq_ok h
      obtain ⟨hselect, rfl⟩ := liftM_eq_ok_iff.mp h
      have hfield : ∀ k d s (e : String × Document) s', (pure (k, d) : ReadM _) s = .ok (e, s') →
          (pure (k, d.mendWithin depth) : ReadM _) s = .ok ((e.1, e.2.mendWithin depth), s') := by
        intro k d s e s' he
        cases he
        rfl
      have hmended := mapM_bindings_mendMembers (fun e => (e.1, e.2.mendWithin depth)) hfield
        members s named s'' hnamed
      rw [mendWithin]
      refine (bind_of_eq_ok hmended _).trans ?_
      exact liftM_eq_ok_iff.mpr ⟨select_mend known named t hselect, rfl⟩
  | list items =>
      obtain ⟨hitems, rfl⟩ := liftM_eq_ok_iff.mp h
      rw [mendWithin, mendItems_eq_map]
      exact liftM_eq_ok_iff.mpr ⟨ofItems_mend known items hitems, rfl⟩
  | _ => cases h

/-- What is read from a table is read from the mended table. -/
def SurvivesMending (depth : Nat) (read : FieldTable Document → ReadM α) : Prop :=
  ∀ t, Keeps (read t) (read (t.mend depth))

namespace SurvivesMending

theorem pure (a : α) : SurvivesMending depth fun _ => Pure.pure a := fun _ => Keeps.refl _

theorem bind {x : FieldTable Document → ReadM α} {f : α → FieldTable Document → ReadM β}
    (hx : SurvivesMending depth x) (hf : ∀ a, SurvivesMending depth (f a)) :
    SurvivesMending depth fun t => x t >>= fun a => f a t :=
  fun t => (hx t).bind fun a => hf a t

variable {name : String} {read : Reader Document α}

theorem withDefault {default : α} (h : UmlCatalog.SurvivesMending depth read) :
    SurvivesMending depth (FieldTable.withDefault · name default read) := by
  intro t
  unfold FieldTable.withDefault
  dsimp only
  rw [lookup_mend]
  cases t.fields.lookup name with
  | none => exact Keeps.refl _
  | some d => exact h d

theorem required (h : UmlCatalog.SurvivesMending depth read) :
    SurvivesMending depth (FieldTable.required · name read) := by
  intro t
  unfold FieldTable.required
  dsimp only
  rw [lookup_mend]
  cases t.fields.lookup name with
  | none => exact Keeps.refl _
  | some d => exact h d

end SurvivesMending
end FieldTable

/-- A record is read from the table of its fields. -/
theorem SurvivesMending.record {α : Type} {depth : Nat} {known : List String}
    {f : FieldTable Document → ReadM α} (h : FieldTable.SurvivesMending depth f) :
    SurvivesMending (depth + 1) fun d => FieldTable.read known d >>= f := by
  intro d s r hr
  obtain ⟨t, s', ht, hr⟩ := exists_of_reading_bind_eq_ok hr
  exact (bind_of_eq_ok (FieldTable.read_mend known ht) f).trans (h t s' r hr)

/-! ## Models -/

section Records
variable {depth : Nat}
open SurvivesMending (text index listOf setOf mapOf)
open FieldTable.SurvivesMending (required withDefault)

namespace SurvivesMending

theorem elementId : SurvivesMending depth ElementId.read := text.map ElementId.mk

theorem ids : SurvivesMending (depth + 1) Reader.ids := elementId.listOf

theorem texts : SurvivesMending (depth + 1) Reader.texts := text.listOf

theorem optionalText : SurvivesMending depth (Reader.optional Reader.text) := text.optional nofun

theorem optionalId : SurvivesMending depth (Reader.optional ElementId.read) :=
  elementId.optional nofun

theorem optionalAggregation : SurvivesMending depth (Reader.optional Aggregation.read) :=
  (text.map Aggregation.ofWord).optional nofun

end SurvivesMending

open SurvivesMending

theorem Property.survivesMending : SurvivesMending (depth + 2) Property.read :=
  .record <| .bind (required elementId) fun _ => .bind (required elementId) fun _ =>
    .bind (withDefault optionalText) fun _ => .bind (withDefault optionalId) fun _ =>
    .bind (withDefault optionalText) fun _ => .bind (required text) fun _ =>
    .bind (required text) fun _ => .bind (withDefault optionalAggregation) fun _ =>
    .bind (withDefault optionalId) fun _ => .bind (withDefault texts) fun _ => .pure _

theorem ElementRef.survivesMending : SurvivesMending (depth + 2) ElementRef.read :=
  .record <| .bind (required elementKind) fun _ => .bind (required elementId) fun _ => .pure _

theorem Package.survivesMending : SurvivesMending (depth + 4) Package.read :=
  .record <| .bind (required elementId) fun _ => .bind (withDefault optionalText) fun _ =>
    .bind (withDefault ids) fun _ => .bind (withDefault ElementRef.survivesMending.listOf) fun _ =>
    .bind (withDefault texts) fun _ => .pure _

theorem Referee.survivesMending : SurvivesMending (depth + 1) Referee.read :=
  .record <| .bind (required elementId) fun _ => .bind (required text) fun _ => .pure _

theorem AssociationLink.survivesMending : SurvivesMending (depth + 2) AssociationLink.read :=
  .record <| .bind (required elementId) fun _ => .bind (withDefault optionalText) fun _ =>
    .bind (required elementId) fun _ => .bind (withDefault optionalId) fun _ =>
    .bind (required text) fun _ => .bind (required text) fun _ =>
    .bind (withDefault texts) fun _ => .bind (withDefault optionalAggregation) fun _ =>
    .bind (required index) fun _ => .pure _

theorem Class.survivesMending : SurvivesMending (depth + 4) Class.read :=
  .record <| .bind (required elementId) fun _ => .bind (withDefault optionalText) fun _ =>
    .bind (withDefault flag) fun _ => .bind (withDefault Property.survivesMending.listOf) fun _ =>
    .bind (withDefault (AssociationLink.survivesMending.mapOf _)) fun _ =>
    .bind (withDefault ids) fun _ => .bind (withDefault Referee.survivesMending.listOf) fun _ =>
    .bind (withDefault texts) fun _ => .bind (withDefault ids) fun _ => .pure _

theorem Association.survivesMending : SurvivesMending (depth + 2) Association.read :=
  .record <| .bind (required elementId) fun _ => .bind (withDefault optionalText) fun _ =>
    .bind (withDefault optionalId) fun _ => .bind (withDefault texts) fun _ => .pure _

theorem Enumeration.survivesMending : SurvivesMending (depth + 3) Enumeration.read :=
  .record <| .bind (required elementId) fun _ => .bind (withDefault optionalText) fun _ =>
    .bind (withDefault texts) fun _ => .bind (withDefault ids) fun _ =>
    .bind (withDefault Referee.survivesMending.listOf) fun _ => .bind (withDefault texts) fun _ =>
    .pure _

theorem Datatype.survivesMending : SurvivesMending (depth + 3) Datatype.read :=
  .record <| .bind (required elementId) fun _ => .bind (withDefault optionalText) fun _ =>
    .bind (withDefault ids) fun _ => .bind (withDefault Referee.survivesMending.listOf) fun _ =>
    .bind (withDefault texts) fun _ => .pure _

theorem ElementImport.survivesMending : SurvivesMending (depth + 1) ElementImport.read :=
  .record <| .bind (required elementId) fun _ => .bind (required elementId) fun _ => .pure _

theorem View.survivesMending : SurvivesMending (depth + 2) View.read :=
  .record <| .bind (required elementId) fun _ => .bind (withDefault optionalText) fun _ =>
    .bind (withDefault ids) fun _ => .bind (withDefault texts) fun _ => .pure _

theorem PropertySource.survivesMending : SurvivesMending (depth + 1) PropertySource.read :=
  .record <| .bind (required elementId) fun _ => .bind (required SurvivesMending.index) fun _ =>
    .pure _

theorem PropertyEntry.survivesMending : SurvivesMending (depth + 3) PropertyEntry.read :=
  .record <| .bind (required PropertySource.survivesMending.listOf) fun _ =>
    .bind (withDefault texts) fun _ => .pure _

theorem ModelSource.survivesMending : SurvivesMending (depth + 2) ModelSource.read :=
  .record <| .bind (withDefault optionalText) fun _ => .bind (withDefault texts) fun _ => .pure _

theorem Hierarchy.survivesMending : SurvivesMending (depth + 3) Hierarchy.read :=
  .record <| .bind (required elementId.setOf) fun _ =>
    .bind (required (elementId.setOf.mapOf _)) fun _ =>
    .bind (required (elementId.setOf.mapOf _)) fun _ => .pure _

/-- A model lies in six lists and records at most. -/
theorem Model.survivesMending : SurvivesMending (depth + 6) Model.read :=
  .record <| .bind (withDefault optionalId) fun _ => .bind (withDefault optionalText) fun _ =>
    .bind (withDefault ModelSource.survivesMending) fun _ =>
    .bind (withDefault (Package.survivesMending.mapOf _)) fun _ =>
    .bind (withDefault (Class.survivesMending.mapOf _)) fun _ =>
    .bind (withDefault (PropertyEntry.survivesMending.mapOf _)) fun _ =>
    .bind (withDefault (Enumeration.survivesMending.mapOf _)) fun _ =>
    .bind (withDefault (Datatype.survivesMending.mapOf _)) fun _ =>
    .bind (withDefault (ElementImport.survivesMending.mapOf _)) fun _ =>
    .bind (withDefault (Association.survivesMending.mapOf _)) fun _ =>
    .bind (withDefault Hierarchy.survivesMending) fun _ =>
    .bind (withDefault Hierarchy.survivesMending) fun _ =>
    .bind (withDefault View.survivesMending.listOf) fun _ => .pure _

end Records

/-- What is read as a model is read as the same model when it is mended. -/
theorem Model.run_read_mended {d : Document} {m : Model}
    (h : (Model.read : Reader Document Model).run 0 d = .ok m) :
    (Model.read : Reader Document Model).run 0 d.mended = .ok m := by
  obtain ⟨⟨m', s⟩, hread, hm⟩ := exists_of_bind_eq_ok h
  have hmended : Model.read d.mended 0 = .ok (m', s) := Model.survivesMending d 0 (m', s) hread
  exact (congrArg (Except.map Prod.fst) hmended).trans hm

end UmlCatalog
