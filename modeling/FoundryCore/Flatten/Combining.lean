import FoundryCore.Flatten.Versions
import FoundryCore.Library.Except

/-!
# Combining version pragmas

The program turns the spaces of a version to commas and reads what comes out as the comparators of
the `semver` crate. So it understands a single list of comparators with one space between them. What
does not parse is left out, and what is read otherwise is combined as it is read.
-/

open Std

namespace FoundryCore.Flatten

open Library

/-! ## Reading pragmas -/

section Pragma

variable {pragma : String} {version : List Char} {items : List Item}

variable {V : Type} {semver : Semver} {matching : Matching V}

variable {texts : List String}

variable {pragmas : List String}

end Pragma

/-! ## Released versions -/

/-- The numbers of a version up to the first wildcard. -/
def numbers (version : List Char) : List Nat :=
  ((version.splitOn '.').takeWhile fun part => part.all Char.isDigit).map fun part =>
    part.foldl (fun n digit => 10 * n + (digit.toNat - '0'.toNat)) 0

/-- How a released version compares with the numbers that are given. -/
def comparison (given : List Nat) (v : Nat × Nat × Nat) : Ordering :=
  compare ([v.1, v.2.1, v.2.2].take given.length) given

/-- The released version meets a comparator with the operator. -/
def Meets (operator : Operator) (version : List Char) (v : Nat × Nat × Nat) : Prop :=
  let given := numbers version
  match operator with
  | .exact => comparison given v = .eq
  | .greater => comparison given v = .gt
  | .greaterEq => comparison given v ≠ .lt
  | .less => comparison given v = .lt
  | .lessEq => comparison given v ≠ .gt
  | .tilde => comparison given v ≠ .lt ∧ comparison (given.take 2) v = .eq
  | .caret => comparison given v ≠ .lt ∧
      comparison (given.take ((given.takeWhile (· = 0)).length + 1)) v = .eq

theorem isNumber_iff {part : List Char} : IsNumber part ↔
    Nat.ofDigitChars 10 part 0 < 2 ^ 64 ∧ part = Nat.toDigits 10 (Nat.ofDigitChars 10 part 0) := by
  constructor
  · rintro ⟨n, small, rfl⟩
    rw [Nat.ofDigitChars_ten_toDigits]
    exact ⟨small, rfl⟩
  · exact fun ⟨small, digits⟩ => ⟨_, small, digits⟩

instance IsNumber.decidable (part : List Char) : Decidable (IsNumber part) :=
  decidable_of_iff _ isNumber_iff.symm

instance IsWildcard.decidable (part : List Char) : Decidable (IsWildcard part) :=
  inferInstanceAs (Decidable (_ ∨ _ ∨ _))

/-- The parts of a version, between its dots. -/
def AreParts : List (List Char) → Prop
  | [major] => IsNumber major
  | [major, minor] => IsNumber major ∧ (IsNumber minor ∨ IsWildcard minor)
  | [major, minor, patch] => IsNumber major ∧
    (IsNumber minor ∧ (IsNumber patch ∨ IsWildcard patch) ∨ IsWildcard minor ∧ IsWildcard patch)
  | _ => False

instance AreParts.decidable : (parts : List (List Char)) → Decidable (AreParts parts)
  | [] => inferInstanceAs (Decidable False)
  | [major] => inferInstanceAs (Decidable (IsNumber major))
  | [_, _] => inferInstanceAs (Decidable (_ ∧ _))
  | [_, _, _] => inferInstanceAs (Decidable (_ ∧ _))
  | _ :: _ :: _ :: _ :: _ => inferInstanceAs (Decidable False)

theorem IsVersion.areParts {version : List Char} (valid : IsVersion version) :
    AreParts (version.splitOn '.') := by
  have number : ∀ {part : List Char}, IsNumber part → '.' ∉ part := fun number mem => by
    exact absurd (number.digits.1 _ mem) (by decide)
  have wildcard : ∀ {part : List Char}, IsWildcard part → '.' ∉ part := by
    rintro part (rfl | rfl | rfl) <;> simp
  have split : ∀ parts : List (List Char), parts ≠ [] → (∀ part ∈ parts, '.' ∉ part) →
      (['.'].intercalate parts).splitOn '.' = parts :=
    fun parts nonempty fresh => List.splitOn_intercalate '.' fresh nonempty
  cases valid with
  | major major =>
    have parts := split [version] (by simp) (by simpa using number major)
    rw [List.intercalate_singleton] at parts
    simpa [parts, AreParts] using major
  | @minor first second major minor =>
    have parts := split [first, second] (by simp)
      (by simpa using ⟨number major, minor.elim number wildcard⟩)
    have text : ['.'].intercalate [first, second] = first ++ '.' :: second := by
      simp [List.intercalate_cons_cons]
    rw [text] at parts
    simpa [parts, AreParts] using ⟨major, minor⟩
  | @patch first second third major minor patch =>
    have parts := split [first, second, third] (by simp)
      (by simpa using ⟨number major, number minor, patch.elim number wildcard⟩)
    have text : ['.'].intercalate [first, second, third] =
        first ++ '.' :: second ++ '.' :: third := by
      simp [List.intercalate_cons_cons]
    rw [text] at parts
    rw [parts]
    exact ⟨major, .inl ⟨minor, patch⟩⟩
  | @wildcards first second third major minor patch =>
    have parts := split [first, second, third] (by simp)
      (by simpa using ⟨number major, wildcard minor, wildcard patch⟩)
    have text : ['.'].intercalate [first, second, third] =
        first ++ '.' :: second ++ '.' :: third := by
      simp [List.intercalate_cons_cons]
    rw [text] at parts
    rw [parts]
    exact ⟨major, .inr ⟨minor, patch⟩⟩

theorem isVersion_iff {version : List Char} :
    IsVersion version ↔ AreParts (version.splitOn '.') := by
  refine ⟨IsVersion.areParts, fun parts => ?_⟩
  have text : ['.'].intercalate (version.splitOn '.') = version := List.intercalate_splitOn '.'
  unfold AreParts at parts
  split at parts
  · rename_i major eq
    rw [eq, List.intercalate_singleton] at text
    exact text ▸ .major parts
  · rename_i major minor eq
    have written : major ++ '.' :: minor = version := by
      simpa [eq, List.intercalate_cons_cons] using text
    exact written ▸ .minor parts.1 parts.2
  · rename_i major minor patch eq
    have written : major ++ '.' :: minor ++ '.' :: patch = version := by
      simpa [eq, List.intercalate_cons_cons] using text
    obtain ⟨first, ⟨second, third⟩ | ⟨second, third⟩⟩ := parts
    · exact written ▸ .patch first second third
    · exact written ▸ .wildcards first second third
  · cases parts

instance IsVersion.decidable (version : List Char) : Decidable (IsVersion version) :=
  decidable_of_iff _ isVersion_iff.symm

/-- The parts of a pre-release are not empty, and numbers have no leading zeros. -/
def IsPreRelease (preRelease : List Char) : Prop :=
  ∀ part ∈ preRelease.splitOn '.', part ≠ [] ∧
    (part.all Char.isDigit → part.head? = some '0' → part = ['0'])

instance IsPreRelease.decidable (preRelease : List Char) : Decidable (IsPreRelease preRelease) :=
  inferInstanceAs (Decidable (∀ part ∈ _, _))

end FoundryCore.Flatten
