import Mathlib.Algebra.Group.Nat.Defs
import FoundryCore.Flatten.Pragmas
import FoundryCore.Library.Split

/-!
# The syntax of versions

The version of a pragma is a choice of alternatives: of ranges, and of comparators that have to be
met together. The comparators of the `semver` crate are displayed in this syntax, but a list of them
can be read only if none has a pre-release: the hyphen makes a range of it.
-/

open Std

namespace FoundryCore.Flatten

open Library

/-! ## The syntax of version pragmas -/

inductive Operator
  | exact | greater | greaterEq | less | lessEq | tilde | caret
deriving DecidableEq, Repr

def Operator.text : Operator → List Char
  | exact => ['=']
  | greater => ['>']
  | greaterEq => ['>', '=']
  | less => ['<']
  | lessEq => ['<', '=']
  | tilde => ['~']
  | caret => ['^']

/-- A version, which may be partial or have wildcards, with or without an operator. -/
structure Item where
  operator : Option Operator
  version : List Char
deriving DecidableEq, Repr

def Item.text (item : Item) : List Char := (item.operator.elim [] Operator.text) ++ item.version

inductive Alternative
  | range (low high : List Char)
  | all (items : List Item)
deriving DecidableEq, Repr

def isVersionChar (c : Char) : Bool := c.isDigit || ['.', '*', 'x', 'X'].contains c

/-- The operator at the beginning of the text. -/
def readOperator : List Char → Option Operator × List Char
  | '>' :: '=' :: rest => (some .greaterEq, rest)
  | '<' :: '=' :: rest => (some .lessEq, rest)
  | '=' :: rest => (some .exact, rest)
  | '>' :: rest => (some .greater, rest)
  | '<' :: rest => (some .less, rest)
  | '~' :: rest => (some .tilde, rest)
  | '^' :: rest => (some .caret, rest)
  | text => (none, text)

/-- The comparator at the beginning of the text. There may be spaces behind the operator. -/
def readItem (text : List Char) : Option (Item × List Char) :=
  let (operator, rest) := readOperator text
  let rest := rest.dropWhile isWhitespace
  let version := rest.takeWhile isVersionChar
  if version = [] then none
  else some (⟨operator, version⟩, (rest.dropWhile isVersionChar).dropWhile isWhitespace)

/-- Comparators up to the end of the alternative. -/
def readItems : Nat → List Char → Option (List Item × List Char)
  | 0, _ => none
  | fuel + 1, text =>
    if text = [] ∨ text.head? = some '|' then some ([], text)
    else do
      let (item, rest) ← readItem text
      let (items, rest) ← readItems fuel rest
      return (item :: items, rest)

def readAlternative (fuel : Nat) (text : List Char) : Option (Alternative × List Char) := do
  let (item, rest) ← readItem text
  match rest with
  | '-' :: rest =>
    let (high, rest) ← readItem (rest.dropWhile isWhitespace)
    return (.range item.version high.version, rest)
  | _ =>
    let (items, rest) ← readItems fuel rest
    return (.all (item :: items), rest)

def readAlternatives : Nat → List Char → Option (List Alternative)
  | 0, _ => none
  | fuel + 1, text => do
    let (alternative, rest) ← readAlternative fuel text
    match rest with
    | [] => return [alternative]
    | '|' :: '|' :: rest =>
      let alternatives ← readAlternatives fuel (rest.dropWhile isWhitespace)
      return alternative :: alternatives
    | _ => none

/-- The alternatives of a version pragma, if that is what the text is. -/
def readPragma (pragma : List Char) : Option (List Alternative) := do
  let text ← pragma.dropPrefix? "pragma".toList
  let text ← afterSpaces text
  let text ← text.dropPrefix? "solidity".toList
  let text ← afterSpaces text
  if text.getLast? = some ';' then readAlternatives (text.length + 1) text.dropLast else none

/-! ## What versions are accepted -/

/-- The matching rules for single comparators and versions of compilers: by operator, and for a
comparator that is read without one. -/
structure Matching (V : Type) where
  withOperator : Operator → List Char → V → Prop
  withoutOperator : List Char → V → Prop

section Accepted

variable {V : Type} (matching : Matching V)

/-- A compiler takes a comparator without operator as the very same version. -/
def Item.Accepts (item : Item) (v : V) : Prop :=
  matching.withOperator (item.operator.getD .exact) item.version v

def Alternative.Accepts : Alternative → V → Prop
  | range low high, v =>
    matching.withOperator .greaterEq low v ∧ matching.withOperator .lessEq high v
  | all items, v => ∀ item ∈ items, item.Accepts matching v

/-- The compiler version is accepted by the pragma. -/
def PragmaAccepts (pragma : String) (v : V) : Prop :=
  ∃ alternatives, readPragma pragma.toList = some alternatives ∧
    ∃ alternative ∈ alternatives, alternative.Accepts matching v

end Accepted

/-! ## Comparators of the `semver` crate -/

/-- The part of a version is a number that can be represented. -/
def IsNumber (part : List Char) : Prop := ∃ n : Nat, n < 2 ^ 64 ∧ part = Nat.toDigits 10 n

def IsWildcard (part : List Char) : Prop := part = ['*'] ∨ part = ['x'] ∨ part = ['X']

/-- Up to three numbers with dots, of which all but the first may be missing or wildcards. -/
inductive IsVersion : List Char → Prop
  | major {major} : IsNumber major → IsVersion major
  | minor {major minor} : IsNumber major → IsNumber minor ∨ IsWildcard minor →
    IsVersion (major ++ '.' :: minor)
  | patch {major minor patch} : IsNumber major → IsNumber minor →
    IsNumber patch ∨ IsWildcard patch → IsVersion (major ++ '.' :: minor ++ '.' :: patch)
  | wildcards {major minor patch} : IsNumber major → IsWildcard minor → IsWildcard patch →
    IsVersion (major ++ '.' :: minor ++ '.' :: patch)

/-- How many comparators a version requirement may have. -/
def maxComparators : Nat := 32

def isPreReleaseChar (c : Char) : Bool := c.isAlphanum || ['.', '-'].contains c

/-- How comparators are displayed: with a version, and with a pre-release if they have one. -/
structure Display where
  item : Item
  preRelease : List Char
  version : IsVersion item.version
  chars : ∀ c ∈ preRelease, isPreReleaseChar c = true

def Display.text (display : Display) : List Char :=
  display.item.text ++ if display.preRelease = [] then [] else '-' :: display.preRelease

section Documented

variable {V : Type} (semver : Semver) (matching : Matching V)

/-- The comparator is written as one that accepts these versions. -/
def Displayed (comparator : semver.Comparator) (accepted : V → Prop) : Prop :=
  ∃ item : Item, IsVersion item.version ∧
    semver.toString comparator = String.ofList item.text ∧
    ∀ v, item.Accepts matching v ↔ accepted v

/-- What a comparator is read as. -/
structure ReadAs (item : Item) (comparator : semver.Comparator) : Prop where
  displayed : Displayed semver matching comparator
    (item.operator.elim matching.withoutOperator matching.withOperator item.version)
  exact : Displayed semver matching (semver.exact comparator)
    (matching.withOperator .exact item.version)

/-- What is documented of the crate: comparators are separated by commas, a single wildcard is no
comparator, and each accepts what its operator and version say. -/
structure Documented : Prop where
  parse : ∀ items : List Item, items ≠ [] → items.length ≤ maxComparators →
    (∀ item ∈ items, IsVersion item.version) →
      ∃ comparators, semver.parse (.ofList ([','].intercalate (items.map Item.text))) =
        some comparators ∧ List.Forall₂ (ReadAs semver matching) items comparators
  display : ∀ text comparators, semver.parse text = some comparators → ∀ c ∈ comparators,
    ∀ c' ∈ [c, semver.exact c], ∃ display : Display,
      semver.toString c' = String.ofList display.text
  star : semver.parse "*" = some []
  everything : ∀ v, matching.withOperator .exact ['*'] v

end Documented

/-- The comparators with single spaces between them. -/
def joined (items : List Item) : List Char := [' '].intercalate (items.map Item.text)

/-- The pragma is written with this version, which spaces are put in front of but not behind. -/
def HasVersion (pragma : String) (version : List Char) : Prop :=
  ∃ spaces spaces' : List Char, spaces ≠ [] ∧ (∀ c ∈ spaces, isWhitespace c = true) ∧
    spaces' ≠ [] ∧ (∀ c ∈ spaces', isWhitespace c = true) ∧
    pragma.toList = "pragma".toList ++ (spaces ++ ("solidity".toList ++
      (spaces' ++ (version ++ [';']))))

/-- A pragma with one list of comparators, with single spaces between them and none behind an
operator. All but the first have operators, or versions that are read alike without one. -/
def Plain {V : Type} (matching : Matching V) (pragma : String) : Prop :=
  HasVersion pragma ['*'] ∨ ∃ items, HasVersion pragma (joined items) ∧ items ≠ [] ∧
    items.length ≤ maxComparators ∧ (∀ item ∈ items, IsVersion item.version) ∧
    ∀ item ∈ items.tail, item.operator = none → ∀ v,
      (matching.withoutOperator item.version v ↔ matching.withOperator .exact item.version v)

section Readable

variable {V : Type} (semver : Semver) (matching : Matching V)

/-- The texts of the comparators that are read of the pragma. -/
def displayed (pragma : String) : Option (List String) :=
  (parseVersionPragma semver pragma).map (·.map semver.toString)

/-- The version is accepted by each comparator that is read of the pragma, as it is displayed. -/
def ReadAccepts (pragma : String) (v : V) : Prop :=
  ∀ texts ∈ displayed semver pragma, ∀ text ∈ texts,
    PragmaAccepts matching ("pragma solidity " ++ text ++ ";") v

/-- A comparator with this text is read of one of the pragmas. -/
def Displays (pragmas : List String) (text : String) : Prop :=
  ∃ pragma ∈ pragmas, ∃ texts ∈ displayed semver pragma, text ∈ texts

/-- A comparator with a pre-release is written next to another one. -/
def Mixed (pragmas : List String) : Prop :=
  ∃ text text', Displays semver pragmas text ∧ Displays semver pragmas text' ∧
    '-' ∈ text.toList ∧ text ≠ text'

/-- The pragmas that are not plain accept what their comparators accept, as far as the plain ones
leave it open. -/
structure Readable (pragmas : List String) : Prop where
  /-- There are no comparators of a single `x`, of which the first one would be changed. -/
  first : ∀ pragma ∈ pragmas, displayed semver pragma ≠ none
  /-- For a compiler a pre-release is the end of a range, which is no part of a list. -/
  mixed : Mixed semver pragmas → ∀ v, ∃ pragma ∈ pragmas, ¬PragmaAccepts matching pragma v
  alike : ¬Mixed semver pragmas → ∀ v,
    (∀ pragma ∈ pragmas, Plain matching pragma → PragmaAccepts matching pragma v) →
      ((∀ pragma ∈ pragmas, ¬Plain matching pragma → ReadAccepts semver matching pragma v) ↔
        ∀ pragma ∈ pragmas, ¬Plain matching pragma → PragmaAccepts matching pragma v)

end Readable

/-! ## Reading comparators -/

section Read

variable {version rest : List Char} {item : Item} {items : List Item}

theorem IsNumber.digits {part : List Char} (number : IsNumber part) :
    (∀ c ∈ part, c.isDigit = true) ∧ part ≠ [] := by
  obtain ⟨n, -, rfl⟩ := number
  exact ⟨fun c mem => Nat.isDigit_of_mem_toDigits (by decide) (by decide) mem, Nat.toDigits_ne_nil⟩

theorem IsNumber.chars {part : List Char} (number : IsNumber part) :
    ∀ c ∈ part, isVersionChar c = true := fun c mem => by
  simp [isVersionChar, number.digits.1 c mem]

theorem IsWildcard.chars {part : List Char} (wildcard : IsWildcard part) :
    ∀ c ∈ part, isVersionChar c = true := by
  rcases wildcard with rfl | rfl | rfl <;> simp [isVersionChar]

theorem IsVersion.chars (valid : IsVersion version) : ∀ c ∈ version, isVersionChar c = true := by
  have dot : isVersionChar '.' = true := by decide
  cases valid with
  | major major => exact major.chars
  | minor major minor =>
    have minor := minor.elim IsNumber.chars IsWildcard.chars
    simpa [or_imp, forall_and, dot] using ⟨major.chars, minor⟩
  | patch major minor patch =>
    have patch := patch.elim IsNumber.chars IsWildcard.chars
    simpa [or_imp, forall_and, dot] using ⟨major.chars, minor.chars, patch⟩
  | wildcards major minor patch =>
    simpa [or_imp, forall_and, dot] using ⟨major.chars, minor.chars, patch.chars⟩

/-- A version begins with a digit. -/
theorem IsVersion.begins (valid : IsVersion version) :
    ∃ c rest, version = c :: rest ∧ c.isDigit = true := by
  have number : ∀ {part rest : List Char}, IsNumber part →
      ∃ c rest', part ++ rest = c :: rest' ∧ c.isDigit = true := by
    intro part rest number
    obtain ⟨digits, someEq⟩ := number.digits
    cases part with
    | nil => exact absurd rfl someEq
    | cons c part => exact ⟨c, part ++ rest, rfl, digits c (.head _)⟩
  cases valid with
  | major major =>
    rw [← List.append_nil version]
    exact number major
  | minor major minor => exact number major
  | patch major minor patch =>
    rw [List.append_assoc]
    exact number major
  | wildcards major minor patch =>
    rw [List.append_assoc]
    exact number major

theorem isWhitespace_of_isDigit {c : Char} (digit : c.isDigit = true) : isWhitespace c = false := by
  simp only [Char.isDigit, Bool.and_eq_true, decide_eq_true_eq, UInt32.le_iff_toNat_le] at digit
  have small : c.toNat ≤ 57 := digit.2
  have large : 48 ≤ c.toNat := digit.1
  simp [isWhitespace]
  omega

theorem text_begins (valid : IsVersion item.version) :
    ∃ c rest, item.text = c :: rest ∧ isWhitespace c = false ∧ c ∉ ['|', '-', '*'] := by
  obtain ⟨operator, version⟩ := item
  cases operator with
  | none =>
    obtain ⟨c, version, rfl, digit⟩ := valid.begins
    refine ⟨c, version, rfl, isWhitespace_of_isDigit digit, fun mem => ?_⟩
    have no : ∀ c ∈ ['|', '-', '*'], c.isDigit = false := by simp
    rw [no c mem] at digit
    cases digit
  | some operator => cases operator <;> exact ⟨_, _, rfl, by decide, by decide⟩

variable {displays : List Display} {display : Display} {fuel : Nat}

theorem Display.begins (display : Display) :
    ∃ c rest, display.text = c :: rest ∧ isWhitespace c = false ∧ c ∉ ['|', '-', '*'] := by
  obtain ⟨c, rest, begins, other⟩ := text_begins display.version
  exact ⟨c, _, by rw [Display.text, begins, List.cons_append], other⟩

end Read

end FoundryCore.Flatten
