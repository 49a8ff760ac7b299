import UmlCatalog.Proofs.View.Chains

/-!
# The packages of a view

A view has the packages around what it takes in and no others. Each of them lists what is there and
lies directly in it, once, and the hierarchy joins each one with the package around it. This is kept
by every element that is taken in.
-/

namespace UmlCatalog
namespace View
namespace Surroundings
variable {source : Model} {s t : Surroundings} {here : ElementRef → Prop} {e : ElementRef}
  {k : ElementId} {chain : List ElementId}

/-- What is wanted and recorded in the source, and the packages around it. -/
inductive Present (source : Model) (wanted : ElementRef → Prop) : ElementRef → Prop
  | wanted {e : ElementRef} {chain : List ElementId} (h : wanted e)
      (found : source.chainOf? e = some chain) : Present source wanted e
  | around {e : ElementRef} {chain : List ElementId} {k : ElementId} (h : wanted e)
      (found : source.chainOf? e = some chain) (mem : k ∈ chain) :
      Present source wanted ⟨.package, k⟩

section Present
variable {wanted : ElementRef → Prop}

/-- The packages around what is there are there. -/
theorem Present.of_mem_chain (hm : source.IsSound) (he : Present source wanted e)
    (hchain : source.chainOf? e = some chain) (hk : k ∈ chain) :
    Present source wanted ⟨.package, k⟩ := by
  cases he with
  | wanted h _ => exact .around h hchain hk
  | around h found mem =>
      obtain ⟨outer, houter, hsuffix⟩ := (hm.isChain_of_chainOf? found).exists_suffix mem
      obtain rfl := Option.some.inj (hchain.symm.trans houter)
      exact .around h found (hsuffix.subset (List.mem_cons_of_mem _ hk))

theorem Present.nearest (hm : source.IsSound) (he : Present source wanted e)
    (hk : source.nearest? e = some k) : Present source wanted ⟨.package, k⟩ := by
  obtain ⟨outer, houter⟩ := Model.exists_of_nearest? hk
  exact he.of_mem_chain hm houter List.mem_cons_self

/-- What is there and is no package is wanted. -/
theorem present_and_iff (hkind : e.kind ≠ .package) :
    Present source wanted e ∧ source.chainOf? e = some chain ↔
      wanted e ∧ source.chainOf? e = some chain := by
  refine and_congr_left fun hchain => ⟨?_, fun he => .wanted he hchain⟩
  rintro (⟨he, _⟩ | _)
  · exact he
  · exact absurd rfl hkind

/-- One more element brings the packages around it. -/
theorem present_insert_iff (hchain : source.chainOf? e = some chain) {x : ElementRef} :
    Present source (fun x => x = e ∨ wanted x) x ↔
      x = e ∨ Joined (Present source wanted) chain x := by
  constructor
  · rintro (⟨rfl | h, found⟩ | ⟨rfl | h, found, mem⟩)
    · exact Or.inl rfl
    · exact Or.inr (Or.inl (.wanted h found))
    · obtain rfl := Option.some.inj (hchain.symm.trans found)
      exact Or.inr (Or.inr ⟨rfl, mem⟩)
    · exact Or.inr (Or.inl (.around h found mem))
  · rintro (rfl | (⟨h, found⟩ | ⟨h, found, mem⟩) | ⟨hkind, mem⟩)
    · exact .wanted (Or.inl rfl) hchain
    · exact .wanted (Or.inr h) found
    · exact .around (Or.inr h) found mem
    · obtain ⟨kind, id⟩ := x
      obtain rfl : kind = .package := hkind
      exact .around (Or.inl rfl) hchain mem

/-- Only what is recorded in the source can come. -/
theorem present_congr {wanted' : ElementRef → Prop}
    (h : ∀ x chain, source.chainOf? x = some chain → (wanted' x ↔ wanted x)) {x : ElementRef} :
    Present source wanted' x ↔ Present source wanted x := by
  constructor
  · rintro (⟨hx, found⟩ | ⟨hx, found, mem⟩)
    · exact .wanted ((h _ _ found).mp hx) found
    · exact .around ((h _ _ found).mp hx) found mem
  · rintro (⟨hx, found⟩ | ⟨hx, found, mem⟩)
    · exact .wanted ((h _ _ found).mpr hx) found
    · exact .around ((h _ _ found).mpr hx) found mem

end Present

/-- The packages that are there are copied from the source, list what is there and are joined as in
the source. -/
structure IsInduced (source : Model) (here : ElementRef → Prop) (s : Surroundings) : Prop where
  mem_keys_iff : ∀ {k}, k ∈ s.packages.keys ↔ here ⟨.package, k⟩
  copied : ∀ k, k ∈ s.packages.keys → (s.packages.get? k).map Package.emptied =
    (source.packages.get? k).map (Package.copiedAs k)
  lists : s.Lists source here
  links : Links source here (fun k => here ⟨.package, k⟩) s.packageHierarchy

theorem isInduced_empty (h : ∀ e, ¬ here e) : IsInduced source here .empty where
  mem_keys_iff := iff_of_false List.not_mem_nil (h _)
  copied := nofun
  lists := nofun
  links := by
    refine (Hierarchy.isClosure_empty.congr fun x y => ?_).of_single fun x => ?_
    · exact iff_of_false (fun he => h _ he.1) fun he => he
    · exact or_congr_left (iff_of_false (fun he => he) (h _))

namespace IsInduced

theorem congr {here' : ElementRef → Prop} (hs : s.IsInduced source here)
    (h : ∀ e, here' e ↔ here e) : s.IsInduced source here' := by
  have hsame : here' = here := funext fun e => propext (h e)
  rw [hsame]
  exact hs

/-- Only the packages and their hierarchy matter. -/
theorem of_eq (hs : s.IsInduced source here) (hp : t.packages = s.packages)
    (hh : t.packageHierarchy = s.packageHierarchy) : t.IsInduced source here where
  mem_keys_iff := by
    rw [hp]
    exact hs.mem_keys_iff
  copied := by
    rw [hp]
    exact hs.copied
  lists := by
    unfold Lists
    rw [hp]
    exact hs.lists
  links := by
    rw [hh]
    exact hs.links

/-- A new element is listed in the nearest package of its chain. -/
theorem listIn (hs : s.IsInduced source here) (hnew : ¬ here e) (hkind : e.kind ≠ .package)
    (hhead : source.nearest? e = chain.head?) :
    (s.listIn chain e).IsInduced source (fun x => x = e ∨ here x) := by
  have hpackage : ∀ k, (⟨.package, k⟩ = e ∨ here ⟨.package, k⟩) ↔ here ⟨.package, k⟩ := by
    refine fun k => or_iff_right ?_
    rintro rfl
    exact hkind rfl
  have hsame := sameButLists_listIn s chain e
  have hhierarchy : (s.listIn chain e).packageHierarchy = s.packageHierarchy := by
    cases chain <;> rfl
  exact {
    mem_keys_iff := by
      intro k
      rw [hpackage, hsame.mem_keys_iff]
      exact hs.mem_keys_iff
    copied := by
      intro k hk
      rw [hsame.packages]
      exact hs.copied k (hsame.mem_keys_iff.mp hk)
    lists := hs.lists.listIn hnew hhead
    links := by
      rw [hhierarchy]
      have hlinks := hs.links.congr fun x y => and_congr_left' (hpackage y)
      exact hlinks.of_single fun x => or_congr_left (hpackage x).symm }

/-- What is copied is there, and lists nothing because nothing that lies in it was there. -/
theorem lists_copyPackages (hs : s.IsInduced source here)
    (hclosed : ∀ e k, here e → source.nearest? e = some k → here ⟨.package, k⟩)
    (hget : ∀ k, t.packages.get? k = if k ∈ chain ∧ k ∉ s.packages.keys then
      (source.packages.get? k).map (Package.copiedAs k) else s.packages.get? k) :
    t.Lists source here := by
  intro k p hp
  rw [hget] at hp
  split at hp
  · rename_i hnew
    obtain ⟨q, _, rfl⟩ := Option.map_eq_some_iff.mp hp
    refine ⟨List.nodup_nil, fun e => iff_of_false List.not_mem_nil ?_⟩
    rintro ⟨he, hnearest⟩
    exact hnew.2 (hs.mem_keys_iff.mpr (hclosed e k he hnearest))
  · exact hs.lists k p hp

/-- What is copied is a copy from the source. -/
theorem copied_copyPackages (hs : s.IsInduced source here)
    (hget : ∀ k, t.packages.get? k = if k ∈ chain ∧ k ∉ s.packages.keys then
      (source.packages.get? k).map (Package.copiedAs k) else s.packages.get? k)
    (hk : k ∈ s.packages.keys ∨ k ∈ chain) :
    (t.packages.get? k).map Package.emptied =
      (source.packages.get? k).map (Package.copiedAs k) := by
  rw [hget]
  split
  · rw [Option.map_map]
    rfl
  · rename_i hold
    refine hs.copied k (hk.elim (fun hk => hk) fun hk => ?_)
    exact by_contra fun hnew => hold ⟨hk, hnew⟩

/-- Taking in a chain of packages copies those that are not there, and lists and joins them all. -/
theorem addChain (hs : s.IsInduced source here)
    (hclosed : ∀ e k, here e → source.nearest? e = some k → here ⟨.package, k⟩)
    (hchain : source.IsChain chain) (h : s.addChain source chain = .ok t) :
    t.IsInduced source (Joined here chain) ∧ t.SameEntities s := by
  have hrecorded : ∀ k ∈ chain, ∃ q, source.packages.get? k = some q := fun k hk =>
    hchain.exists_package hk
  have hget := (copyPackages_eq (s := s) hrecorded hchain.nodup).2
  have hframe := copyPackages_frame source s chain
  have hids := map_fst_copyPackages source s chain
  have hlinks : Links source here (fun k => here ⟨.package, k⟩)
      (copyPackages source s chain).1.packageHierarchy := by
    rw [hframe]
    exact hs.links
  have hcopied : ∀ p ∈ (copyPackages source s chain).2, p.2 = true ↔ ¬ here ⟨.package, p.1⟩ := by
    intro p hp
    rw [copied_iff_of_mem_copyPackages hrecorded hchain.nodup hp, hs.mem_keys_iff]
  obtain ⟨hlists', hlinks', hsame⟩ := linkPackages_spec (by rw [hids]; exact hchain) hcopied
    (hs.lists_copyPackages hclosed hget) hlinks h
  rw [hids] at hlists' hlinks'
  have hkeys : ∀ {k}, k ∈ t.packages.keys ↔ k ∈ s.packages.keys ∨ k ∈ chain :=
    hsame.mem_keys_iff.trans (mem_keys_copyPackages_iff hrecorded hchain.nodup)
  refine ⟨⟨?_, fun k hk => ?_, hlists', hlinks'.of_outermost⟩, ?_⟩
  · intro k
    rw [hkeys, joined_package_iff, hs.mem_keys_iff]
  · rw [hsame.packages]
    exact hs.copied_copyPackages hget (hkeys.mp hk)
  · refine hsame.toSameEntities.trans ?_
    rw [hframe]
    exact ⟨rfl, rfl, rfl⟩

/-- Taking in one more element brings the packages around it and lists them all. -/
theorem addListed {wanted : ElementRef → Prop} (hs : s.IsInduced source (Present source wanted))
    (hm : source.IsSound) (hnew : ¬ Present source wanted e) (hkind : e.kind ≠ .package)
    (hchain : source.chainOf? e = some chain) (h : s.addListed source chain e = .ok t) :
    t.IsInduced source (Present source fun x => x = e ∨ wanted x) ∧ t.SameEntities s := by
  obtain ⟨u, hu, h⟩ := exists_of_bind_eq_ok h
  obtain rfl := Except.ok.inj h
  obtain ⟨hjoined, hsame⟩ := hs.addChain (fun x k hx => hx.nearest hm)
    (hm.isChain_of_chainOf? hchain) hu
  have hnew' : ¬ Joined (Present source wanted) chain e :=
    not_or.mpr ⟨hnew, fun hpackage => hkind hpackage.1⟩
  have hhead : source.nearest? e = chain.head? := by
    rw [Model.nearest?, hchain]
    rfl
  refine ⟨?_, (sameButLists_listIn u chain e).toSameEntities.trans hsame⟩
  exact (hjoined.listIn hnew' hkind hhead).congr fun x => present_insert_iff hchain

end IsInduced
end Surroundings
end View
end UmlCatalog
