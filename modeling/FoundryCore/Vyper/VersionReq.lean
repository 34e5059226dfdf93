import Mathlib.Algebra.Group.Nat.Defs
import FoundryCore.Library.Runs
import FoundryCore.Vyper.Comparators

/-!
# Version requirements of Vyper sources

A version pragma is read as a requirement of the `semver` crate, and if that fails, translated to
one from the syntax of Python packages first.
-/

namespace FoundryCore.Vyper

/-- Strip a trailing `#` comment from a captured pragma line. -/
def stripInlineComment (s : List Char) : List Char :=
  match Library.splitOnce '#' s with
  | some (head, _) => head
  | none => s

def trim (text : List Char) : List Char := Library.trim isWhitespace text

/-- The bytes of a character, each taken as a character. -/
def latin (c : Char) : List Char :=
  (String.utf8EncodeChar c).map fun b => Char.ofNat b.toNat

/-- Goes on behind what is written already, which ends with a digit or not. -/
def hyphenateFrom : Bool → List Char → List Char
  | _, [] => []
  | _, [c] => latin c
  | prevIsDigit, c :: next :: rest =>
    if c = '+' then c :: next :: rest
    -- `<digit>rc<digit>` becomes `<digit>-rc<digit>`
    else if prevIsDigit ∧ c = 'r' ∧ next = 'c' ∧ rest.head?.any Char.isDigit then
      '-' :: 'r' :: 'c' :: hyphenateFrom false rest
    else if prevIsDigit ∧ (c = 'a' ∨ c = 'b') ∧ next.isDigit then
      '-' :: c :: hyphenateFrom false (next :: rest)
    else latin c ++ hyphenateFrom c.isDigit (next :: rest)

/-- Insert a hyphen before bare pre-release labels. -/
def hyphenatePrerelease (input : List Char) : List Char := hyphenateFrom false input

/-- `str::parse::<u64>`. -/
def parseU64 (text : List Char) : Option Nat :=
  let digits := match text with
    | '+' :: digits => digits
    | digits => digits
  let n := Nat.ofDigitChars 10 digits 0
  if digits ≠ [] ∧ digits.all Char.isDigit ∧ n < 2 ^ 64 then some n else none

/-- Expand the "compatible release" operator into the equivalent range; none if the upper bound
overflows. -/
def compatibleRelease (version : List Char) : Option (List Char) :=
  let core := version.takeWhile fun c => c ≠ '+' && c ≠ '-'
  let parts := core.splitOn '.'
  let lower := ['>', '='] ++ version
  if parts.length < 2 then some lower
  else
    let bumpIdx := parts.length - 2
    let upper := parts.take (bumpIdx + 1)
    match parseU64 (upper.getD bumpIdx []) with
    | none => some lower
    | some n =>
      if 2 ^ 64 ≤ n + 1 then none
      else
        let upper := upper.set bumpIdx (Nat.toDigits 10 (n + 1))
        let upper := upper ++ List.replicate (3 - upper.length) ['0']
        some (lower ++ [',', ' ', '<'] ++ ['.'].intercalate upper)

/-- Translate the subset of the grammar that shows up in Vyper pragmas. -/
def pep440ToSemverReq (input : List Char) : Option (List Char) :=
  let hyphenated := hyphenatePrerelease (trim input)
  match hyphenated.dropPrefix? ['~', '='] with
  | some rest => compatibleRelease (trim rest)
  | none => match hyphenated.dropPrefix? ['=', '='] with
    | some rest => some ('=' :: trim rest)
    | none => some hyphenated

variable (semver : Flatten.Semver)

/-- The comparators of the requirement, an inner none if it does not parse, and an outer one if the
arithmetic overflows. -/
def parseVyperVersionReq (input : List Char) : Option (Option (List semver.Comparator)) :=
  let trimmed := trim (stripInlineComment input)
  match semver.parse (.ofList trimmed) with
  | some req => some (some req)
  | none => (pep440ToSemverReq trimmed).map fun text => semver.parse (.ofList text)

/-! ## Hyphens -/

/-- Characters that are written as they are, whatever stands around them. -/
def isPlain (c : Char) : Bool := c.val < 128 && c ∉ ['+', 'a', 'b', 'r']

theorem latin_eq {c : Char} (small : c.val < 128) : latin c = [c] := by
  have size : c.utf8Size = 1 := Char.utf8Size_eq_one_iff.mpr (by
    have : c.val.toNat < 128 := small
    exact UInt32.le_iff_toNat_le.mpr (by simpa using Nat.le_of_lt_succ this))
  have value : (c.val.toUInt8).toNat = c.toNat := by
    have : c.val.toNat < 128 := small
    simp only [UInt32.toNat_toUInt8, Char.toNat]
    omega
  rw [latin, String.utf8EncodeChar_eq_singleton size, List.map_singleton, value, Char.ofNat_toNat]

theorem isPlain_iff {c : Char} : isPlain c = true ↔
    c.val < 128 ∧ c ≠ '+' ∧ c ≠ 'a' ∧ c ≠ 'b' ∧ c ≠ 'r' := by
  simp [isPlain]

theorem hyphenateFrom_cons {prev : Bool} {c : Char} {rest : List Char} (plain : isPlain c = true) :
    hyphenateFrom prev (c :: rest) = c :: hyphenateFrom c.isDigit rest := by
  obtain ⟨small, plus, a, b, r⟩ := isPlain_iff.mp plain
  cases rest with
  | nil => simp [hyphenateFrom, latin_eq small]
  | cons next rest => simp [hyphenateFrom, latin_eq small, plus, a, b, r]

/-- Plain characters are left, and the last one decides what follows. -/
theorem hyphenateFrom_append {before rest : List Char} (plain : ∀ c ∈ before, isPlain c = true)
    (prev : Bool) : hyphenateFrom prev (before ++ rest) =
      before ++ hyphenateFrom ((before.getLast?.map Char.isDigit).getD prev) rest := by
  induction before generalizing prev with
  | nil => rfl
  | cons c before ih =>
    rw [List.forall_mem_cons] at plain
    rw [List.cons_append, hyphenateFrom_cons plain.1, ih plain.2]
    cases before with
    | nil => simp
    | cons next before => simp [List.getLast?_cons]

end FoundryCore.Vyper
