import FoundryCore.Flatten.Versions
import FoundryCore.Library.Unordered

/-!
# Requirements of the `semver` crate

What is documented of the crate: a requirement is a list of comparators with commas between them,
and each comparator accepts released versions by its operator, the numbers it gives and whether it
has a pre-release. Wildcards and build metadata are left out.
-/

namespace FoundryCore.Vyper

open Flatten (Operator readOperator maxComparators)

/-- A released version. -/
structure Release where
  major : UInt64
  minor : UInt64
  patch : UInt64
deriving DecidableEq

/-- A comparator with what it gives of a version. -/
structure Comparison where
  operator : Operator
  major : Nat
  minor : Option Nat
  patch : Option Nat
  pre : Option (List Char)
deriving DecidableEq

namespace Comparison

variable (comparison : Comparison) (v : Release)

/-- The version comes before what is given. -/
def Before : Prop :=
  v.major.toNat < comparison.major ∨ v.major.toNat = comparison.major ∧ ∃ minor ∈ comparison.minor,
    v.minor.toNat < minor ∨ v.minor.toNat = minor ∧
      ∃ patch ∈ comparison.patch, v.patch.toNat < patch

/-- The version comes after what is given. -/
def After : Prop :=
  comparison.major < v.major.toNat ∨ v.major.toNat = comparison.major ∧ ∃ minor ∈ comparison.minor,
    minor < v.minor.toNat ∨ v.minor.toNat = minor ∧
      ∃ patch ∈ comparison.patch, patch < v.patch.toNat

/-- The version agrees with all that is given. -/
def Same : Prop :=
  v.major.toNat = comparison.major ∧ (∀ minor ∈ comparison.minor, v.minor.toNat = minor) ∧
    ∀ patch ∈ comparison.patch, v.patch.toNat = patch

/-- The version agrees up to the first number that is not zero. -/
def Compatible : Prop :=
  v.major.toNat = comparison.major ∧ (comparison.major = 0 → ∀ minor ∈ comparison.minor,
    v.minor.toNat = minor ∧ (minor = 0 → ∀ patch ∈ comparison.patch, v.patch.toNat = patch))

/-- The released version meets the comparator. A pre-release comes before the version itself. -/
def Meets : Prop :=
  match comparison.operator with
  | .exact => comparison.Same v ∧ comparison.pre = none
  | .greater => comparison.After v ∨ comparison.Same v ∧ comparison.pre ≠ none
  | .greaterEq => comparison.After v ∨ comparison.Same v
  | .less => comparison.Before v
  | .lessEq => comparison.Before v ∨ comparison.Same v ∧ comparison.pre = none
  | .tilde => (comparison.After v ∨ comparison.Same v) ∧ v.major.toNat = comparison.major ∧
      ∀ minor ∈ comparison.minor, v.minor.toNat = minor
  | .caret => (comparison.After v ∨ comparison.Same v) ∧ comparison.Compatible v

end Comparison

/-! ## Reading comparators -/

def dropSpaces (text : List Char) : List Char := text.dropWhile (· == ' ')

/-- A number without leading zeros. -/
def readNumber (text : List Char) : Option (Nat × List Char) :=
  let digits := text.takeWhile Char.isDigit
  let n := Nat.ofDigitChars 10 digits 0
  if digits = Nat.toDigits 10 n ∧ n < 2 ^ 64 then some (n, text.dropWhile Char.isDigit) else none

/-- The next number behind a dot, if there is a dot. -/
def readPart : List Char → Option (Option Nat × List Char)
  | '.' :: text => (readNumber text).map fun (n, rest) => (some n, rest)
  | text => some (none, text)

def isIdentifierChar (c : Char) : Bool := c.isAlphanum || c == '-'

/-- An identifier of a pre-release; numbers have no leading zeros. -/
def isIdentifier (text : List Char) : Bool :=
  !text.isEmpty && text.all isIdentifierChar &&
    (!text.all Char.isDigit || text.head? ≠ some '0' || text.length == 1)

/-- The pre-release behind a hyphen, if there is a hyphen. -/
def readPre : List Char → Option (Option (List Char) × List Char)
  | '-' :: text =>
    let pre := text.takeWhile fun c => isIdentifierChar c || c == '.'
    if (pre.splitOn '.').all isIdentifier then
      some (some pre, text.dropWhile fun c => isIdentifierChar c || c == '.')
    else none
  | text => some (none, text)

/-- A comparator with spaces around it and behind its operator. -/
def readComparison (text : List Char) : Option Comparison := do
  let (operator, text) := readOperator (dropSpaces text)
  let (major, text) ← readNumber (dropSpaces text)
  let (minor, text) ← readPart text
  let (patch, text) ← if minor.isSome then readPart text else some (none, text)
  let (pre, text) ← if patch.isSome then readPre text else some (none, text)
  if dropSpaces text = [] then
    some ⟨operator.getD .caret, major, minor, patch, pre⟩
  else none

/-- The comparators of a requirement. -/
def readComparisons (text : List Char) : Option (List Comparison) :=
  let parts := text.splitOn ','
  if maxComparators < parts.length then none else parts.mapM readComparison

/-- No wildcards and no build metadata. -/
def NoWildcards (text : List Char) : Prop := ∀ c ∈ text, c ∉ ['*', 'x', 'X', '+']

/-- What is documented of the crate for requirements without wildcards and build metadata. -/
structure Documented (semver : Flatten.Semver) (accepts : semver.Comparator → Release → Prop) :
    Prop where
  unparsed : ∀ text, NoWildcards text → readComparisons text = none →
    semver.parse (.ofList text) = none
  parsed : ∀ text comparisons, NoWildcards text → readComparisons text = some comparisons →
    ∃ comparators, semver.parse (.ofList text) = some comparators ∧
      ∀ v, (∀ comparator ∈ comparators, accepts comparator v) ↔
        ∀ comparison ∈ comparisons, comparison.Meets v

/-! ## Texts of comparators -/

def spaces (n : Nat) : List Char := List.replicate n ' '

/-- A number that fits into 64 bits, as it is written. -/
def digits (n : UInt64) : List Char := Nat.toDigits 10 n.toNat

theorem dropSpaces_spaces {n : Nat} {rest : List Char} (ends : rest.head? ≠ some ' ') :
    dropSpaces (spaces n ++ rest) = rest := by
  rw [dropSpaces, spaces, List.dropWhile_append_of_pos (by simp)]
  cases rest with
  | nil => rfl
  | cons c rest =>
    have other : c ≠ ' ' := by simpa using ends
    simp [other]

theorem digits_isDigit (n : UInt64) : ∀ c ∈ digits n, c.isDigit = true :=
  fun _ mem => Nat.isDigit_of_mem_toDigits (by decide) (by decide) mem

theorem takeWhile_digits {n : UInt64} {rest : List Char}
    (ends : ∀ c ∈ rest.head?, c.isDigit = false) :
    (digits n ++ rest).takeWhile Char.isDigit = digits n ∧
      (digits n ++ rest).dropWhile Char.isDigit = rest := by
  have all := digits_isDigit n
  rw [List.takeWhile_append_of_pos all, List.dropWhile_append_of_pos all]
  cases rest with
  | nil => simp
  | cons c rest => simp [ends c rfl]

theorem readNumber_digits {n : UInt64} {rest : List Char}
    (ends : ∀ c ∈ rest.head?, c.isDigit = false) :
    readNumber (digits n ++ rest) = some (n.toNat, rest) := by
  obtain ⟨taken, dropped⟩ := takeWhile_digits (n := n) ends
  have value : Nat.ofDigitChars 10 (digits n) 0 = n.toNat := Nat.ofDigitChars_ten_toDigits
  rw [readNumber, taken, dropped, value, if_pos ⟨rfl, n.toNat_lt⟩]

theorem readNumber_eq_none {text : List Char} (other : ∀ c ∈ text.head?, c.isDigit = false) :
    readNumber text = none := by
  have taken : text.takeWhile Char.isDigit = [] := by
    cases text with
    | nil => rfl
    | cons c text => simp [other c rfl]
  rw [readNumber, taken, if_neg]
  exact fun same => Nat.toDigits_ne_nil same.1.symm

theorem readPart_dot {n : UInt64} {rest : List Char} (ends : ∀ c ∈ rest.head?, c.isDigit = false) :
    readPart ('.' :: (digits n ++ rest)) = some (some n.toNat, rest) := by
  rw [readPart, readNumber_digits ends]
  rfl

theorem digit_ne {c d : Char} (digit : c.isDigit = true) (other : d.isDigit = false) : c ≠ d := by
  rintro rfl
  simp [digit] at other

theorem readPart_other {text : List Char} (other : text.head? ≠ some '.') :
    readPart text = some (none, text) := by
  unfold readPart
  split
  · exact absurd rfl other
  · rfl

theorem readOperator_append {operator : Operator} {rest : List Char}
    (ends : rest.head? ≠ some '=') :
    readOperator (operator.text ++ rest) = (some operator, rest) := by
  cases operator <;> cases rest <;> simp_all [Operator.text, readOperator]

/-- The numbers of a version. -/
def coreText (major minor : UInt64) (patch : Option UInt64) : List Char :=
  digits major ++ '.' :: (digits minor ++ patch.elim [] fun n => '.' :: digits n)

theorem digits_begin (n : UInt64) : ∃ c rest, digits n = c :: rest ∧ c.isDigit = true := by
  have nonempty : digits n ≠ [] := Nat.toDigits_ne_nil
  obtain ⟨c, rest, eq⟩ := List.exists_cons_of_ne_nil nonempty
  exact ⟨c, rest, eq, digits_isDigit n c (by simp [eq])⟩

/-- What is read behind the numbers of a comparator. -/
theorem readComparison_core {before inner : Nat} {operator : Operator} {major minor : UInt64}
    {patch : Option UInt64} {rest : List Char}
    (ends : ∀ c ∈ rest.head?, c.isDigit = false ∧ c ≠ '.') :
    readComparison (spaces before ++ (operator.text ++ (spaces inner ++
        (coreText major minor patch ++ rest)))) = (do
      let (pre, text) ← if patch.isSome then readPre rest else some (none, rest)
      if dropSpaces text = [] then
        some ⟨operator, major.toNat, some minor.toNat, patch.map (·.toNat), pre⟩
      else none) := by
  obtain ⟨c, digits', begins, digit⟩ := digits_begin major
  have first : dropSpaces (spaces before ++ (operator.text ++ (spaces inner ++
      (coreText major minor patch ++ rest)))) =
        operator.text ++ (spaces inner ++ (coreText major minor patch ++ rest)) :=
    dropSpaces_spaces (by cases operator <;> simp [Operator.text])
  have second : readOperator (operator.text ++ (spaces inner ++
      (coreText major minor patch ++ rest))) =
        (some operator, spaces inner ++ (coreText major minor patch ++ rest)) := by
    refine readOperator_append ?_
    have other : c ≠ '=' := digit_ne digit (by decide)
    cases inner with
    | zero => simpa [spaces, coreText, begins] using other
    | succ inner => simp [spaces, List.replicate_succ]
  have third : dropSpaces (spaces inner ++ (coreText major minor patch ++ rest)) =
      digits major ++ '.' ::
        (digits minor ++ ((patch.elim [] fun n => '.' :: digits n) ++ rest)) := by
    have other : c ≠ ' ' := digit_ne digit (by decide)
    rw [dropSpaces_spaces (by simpa [coreText, begins] using other)]
    simp [coreText]
  have majorRead : readNumber (digits major ++ '.' :: (digits minor ++
      ((patch.elim [] fun n => '.' :: digits n) ++ rest))) = _ := readNumber_digits (by simp)
  simp only [readComparison, first, second, third, majorRead, Option.bind_eq_bind, Option.bind_some,
    Option.getD_some]
  cases patch with
  | none =>
    have minorRead : readPart ('.' :: (digits minor ++ rest)) = _ :=
      readPart_dot fun c head => (ends c head).1
    have patchRead : readPart rest = _ := readPart_other fun head => (ends _ head).2 rfl
    simp [minorRead, patchRead]
  | some patch =>
    have minorRead : readPart ('.' :: (digits minor ++ '.' :: (digits patch ++ rest))) = _ :=
      readPart_dot (by simp)
    have patchRead : readPart ('.' :: (digits patch ++ rest)) = _ :=
      readPart_dot fun c head => (ends c head).1
    simp [minorRead, patchRead]

end FoundryCore.Vyper
