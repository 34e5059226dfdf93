import Mathlib.Data.Finset.Basic

/-!
# Compiler versions

Semantic versions with the total order of the `semver` crate: numbers first, a pre-release
before its release, dot-separated identifiers in turn, numeric ones by value and before the
others, and build metadata last.
-/

open Std

namespace FoundryCore

structure Version where
  major : Nat
  minor : Nat
  patch : Nat
  pre : String := ""
  build : String := ""
deriving DecidableEq, Repr

namespace Version

attribute [local instance] lexOrd

/-- The dot-separated identifiers of a pre-release or of build metadata, as they compare. Digits
come first, by their value and then by their number, which differs if there are leading zeros. -/
def identifiers (text : String) : List (Nat × Nat × Nat × String) :=
  (text.toList.splitOn '.').map fun part =>
    if part.all Char.isDigit then
      (0, part.foldl (fun n digit => 10 * n + (digit.toNat - '0'.toNat)) 0, part.length, "")
    else (1, 0, 0, String.ofList part)

/-- What versions are compared by. The texts come after their identifiers only to make the
order antisymmetric. -/
abbrev Rank := Nat × Nat × Nat × Nat × List (Nat × Nat × Nat × String) × String ×
  List (Nat × Nat × Nat × String) × String

def rank (v : Version) : Rank :=
  (v.major, v.minor, v.patch, if v.pre = "" then 1 else 0, identifiers v.pre, v.pre,
    identifiers v.build, v.build)

theorem rank_injective {v w : Version} (h : v.rank = w.rank) : v = w := by
  cases v
  cases w
  simp_all [rank]

instance : Ord Version := ⟨compareOn rank⟩

instance : TransOrd Version where
  eq_swap {a b} := OrientedOrd.eq_swap (a := a.rank) (b := b.rank)
  isLE_trans {a b c} := TransOrd.isLE_trans (a := a.rank) (b := b.rank) (c := c.rank)

instance : LawfulEqOrd Version where
  compare_self {a} := ReflOrd.compare_self (a := a.rank)
  eq_of_compare h := rank_injective (LawfulEqOrd.eq_of_compare h)

end Version

/-- A version requirement, by the texts of its comparators, all of which a version has to meet. -/
structure VersionReq where
  comparators : List String
deriving DecidableEq, Repr

def VersionReq.toString (req : VersionReq) : String :=
  if req.comparators = [] then "*" else ", ".intercalate req.comparators

/-- A compiler version is either installed or can be downloaded. -/
inductive CompilerVersion
  | installed (version : Version)
  | remote (version : Version)
deriving DecidableEq, Repr

namespace CompilerVersion

def isInstalled : CompilerVersion → Bool
  | .installed _ => true
  | .remote _ => false

def version : CompilerVersion → Version
  | .installed v | .remote v => v

/-- Installed versions come first. -/
def rank (v : CompilerVersion) : Nat × Version := (if v.isInstalled then 0 else 1, v.version)

theorem rank_injective {v w : CompilerVersion} (h : v.rank = w.rank) : v = w := by
  cases v <;> cases w <;> simp_all [rank, isInstalled, version]

attribute [local instance] lexOrd

instance : Ord CompilerVersion := ⟨compareOn rank⟩

instance : TransOrd CompilerVersion where
  eq_swap {a b} := OrientedOrd.eq_swap (a := a.rank) (b := b.rank)
  isLE_trans {a b c} := TransOrd.isLE_trans (a := a.rank) (b := b.rank) (c := c.rank)

instance : LawfulEqOrd CompilerVersion where
  compare_self {a} := ReflOrd.compare_self (a := a.rank)
  eq_of_compare h := rank_injective (LawfulEqOrd.eq_of_compare h)

theorem compare_eq (v w : CompilerVersion) : compare v w =
    (compare v.rank.1 w.rank.1).then (compare v.version w.version) := rfl

/-- Installed versions come first, and each kind is in the order of its numbers. -/
theorem compare_isLE {v w : CompilerVersion} : (compare v w).isLE = true ↔
    (v.isInstalled = true ∧ w.isInstalled = false) ∨
      (v.isInstalled = w.isInstalled ∧ (compare v.version w.version).isLE = true) := by
  have less : compare 0 1 = Ordering.lt := rfl
  have greater : compare 1 0 = Ordering.gt := rfl
  rw [compare_eq]
  cases v <;> cases w <;> simp [rank, isInstalled, less, greater]

end CompilerVersion

end FoundryCore
