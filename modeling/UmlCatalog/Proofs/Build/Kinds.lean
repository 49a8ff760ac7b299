import UmlCatalog.Build.Declaration

/-!
# The kinds of packaged elements

What a packaged element declares is told by its own type, and for packages by the identifier and by
whether the package is nested.
-/

namespace UmlCatalog
open Markup (Element)

namespace Declaration

/-- The type of an element without the namespace. -/
def typeName (e : Element) : String := BuildConfig.lastPart ':' (typeOf e)

/-- The types of packages, without the namespace. -/
def packageTypes : List String := ["Model", "Package"]

/-- Whether an element is a packaged one of the type of packages. -/
def isPackage (e : Element) : Bool := e.tag = "packagedElement" && typeName e ∈ packageTypes

/-- The types that models hold, without the namespace. -/
def heldTypes : List String :=
  ["Class", "Enumeration", "DataType", "PrimitiveType", "Association"] ++ packageTypes

variable {config : BuildConfig} {chain : List ElementId} {id : String} {e : Element}

/-- A package is entered unless it holds views or is nested and left out. -/
theorem packageKind_eq_package_iff : packageKind config chain id = .package ↔
    config.holdsViews id = false ∧ (chain = [] ∨ config.excludes id = false) := by
  unfold packageKind
  split
  · rename_i hviews
    simp [hviews]
  · rename_i hviews
    by_cases hchain : chain = []
    · simp [hviews, hchain]
    · simp [hviews, hchain]

theorem packageKind_ne_other (type : String) : packageKind config chain id ≠ .other type := by
  unfold packageKind
  split
  · nofun
  · split <;> nofun

/-- A package holds views if its identifier says so. -/
theorem packageKind_eq_viewPackage_iff :
    packageKind config chain id = .viewPackage ↔ config.holdsViews id = true := by
  unfold packageKind
  split
  · simp [*]
  · split <;> simp [*]

/-- A nested package is left out unless it holds views. -/
theorem packageKind_eq_excludedPackage_iff : packageKind config chain id = .excludedPackage ↔
    config.holdsViews id = false ∧ chain ≠ [] ∧ config.excludes id = true := by
  unfold packageKind
  split
  · simp [*]
  · split <;> simp_all

/-- The kinds of packages are told by the type and, among packages, by the identifier. -/
theorem kindOf_eq_iff_packageKind {kind : DeclarationKind}
    (hkind : kind = .package ∨ kind = .excludedPackage ∨ kind = .viewPackage) :
    kindOf config chain id e = kind ↔
      typeName e ∈ packageTypes ∧ packageKind config chain id = kind := by
  unfold kindOf typeName
  split
  case h_5 | h_6 => simp [packageTypes, *]
  case h_8 => rcases hkind with rfl | rfl | rfl <;> simp_all [packageTypes]
  all_goals rcases hkind with rfl | rfl | rfl <;> simp [packageTypes, *]

/-- Only packages are entered. -/
theorem kindOf_eq_package_iff : kindOf config chain id e = .package ↔
    typeName e ∈ packageTypes ∧ config.holdsViews id = false ∧
      (chain = [] ∨ config.excludes id = false) := by
  rw [kindOf_eq_iff_packageKind (.inl rfl), packageKind_eq_package_iff]

/-- What models do not hold is told by the type alone. -/
theorem kindOf_eq_other_iff {type : String} : kindOf config chain id e = .other type ↔
    typeName e ∉ heldTypes ∧ type = typeOf e := by
  unfold kindOf typeName
  split
  case h_8 => simp_all [heldTypes, packageTypes, eq_comm]
  all_goals simp [heldTypes, packageTypes, packageKind_ne_other, *]

end Declaration
end UmlCatalog
