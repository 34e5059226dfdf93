import FoundryCore.Library.Split
import FoundryCore.Vyper.Specifiers

/-!
# The upper bound of compatible releases

The bound is computed from the text up to the first hyphen, where the numbers are taken apart at
the dots. If other clauses stand before the hyphen, the last of them is what is taken apart.
-/

namespace FoundryCore.Vyper

/-! ## What is added -/

namespace Clause

variable (clause : Clause)

/-- The clause with the next minor number and nothing behind it. -/
def bumped : Clause :=
  { clause with minor := clause.minor + 1, patch := none, tag := none, after := 0 }

/-- The number that is bumped for a clause of its own: the second last one. -/
def bumpNumber : UInt64 := if clause.patch.isSome then clause.minor else clause.major

/-- The bound that the clause of its own gets. -/
def upper : Clause :=
  if clause.patch.isSome then ⟨.less, clause.major, clause.minor + 1, some 0, none, 1, 0, 0⟩
  else ⟨.less, clause.major + 1, 0, some 0, none, 1, 0, 0⟩

/-- The clause as the lower bound it is taken as. -/
def lower : Clause := { clause with operator := .greaterEq, before := 0, inner := 0 }

/-- The clause as it begins the bound if others follow it. -/
def strict : Clause := { clause with operator := .less, before := 1, inner := 0 }

end Clause

/-- The last clause before the first hyphen: the first one with a tag, or the last one. -/
def farthest : Clause → List Clause → Clause
  | clause, [] => clause
  | clause, next :: rest => if clause.tag.isSome then clause else farthest next rest

/-- The clauses before the first hyphen, with the last of them bumped. -/
def bumpFarthest : Clause → List Clause → List Clause
  | clause, [] => [clause.bumped]
  | clause, next :: rest =>
    if clause.tag.isSome then [clause.bumped] else clause :: bumpFarthest next rest

/-- The number that is bumped and the clauses that are added behind a first clause and others; none
if the second last number is not one. -/
def upperBound : Clause → List Clause → Option (UInt64 × List Clause)
  | first, [] => some (first.bumpNumber, [first.upper])
  | first, next :: rest =>
    if first.tag.isSome then some (first.bumpNumber, [first.upper])
    else if (farthest next rest).patch.isSome then
      some ((farthest next rest).minor, first.strict :: bumpFarthest next rest)
    else none

/-! ## Up to the first hyphen -/

variable {clause first : Clause} {rest : List Clause} {patch : Option UInt64}

def isCoreChar (c : Char) : Bool := c ≠ '+' && c ≠ '-'

theorem isCoreChar_of_isDigit {c : Char} (digit : c.isDigit = true) : isCoreChar c = true := by
  have plus : c ≠ '+' := digit_ne digit (by decide)
  have minus : c ≠ '-' := digit_ne digit (by decide)
  simp [isCoreChar, plus, minus]

theorem isCoreChar_spaces {n : Nat} : ∀ c ∈ spaces n, isCoreChar c = true := by
  intro c mem
  rw [List.eq_of_mem_replicate mem]
  decide

namespace Clause

/-- What stands before the numbers of a clause. -/
def front (clause : Clause) : List Char :=
  spaces clause.before ++ (clause.operator.text ++ spaces clause.inner)

/-- The numbers of a clause. -/
def core (clause : Clause) : List Char := coreText clause.major clause.minor clause.patch

theorem isCoreChar_core : ∀ c ∈ clause.core, isCoreChar c = true := by
  intro c mem
  simp only [core, coreText, List.mem_append, List.mem_cons] at mem
  rcases mem with mem | rfl | mem | mem
  · exact isCoreChar_of_isDigit (digits_isDigit _ c mem)
  · decide
  · exact isCoreChar_of_isDigit (digits_isDigit _ c mem)
  · cases patch : clause.patch with
    | none => simp [patch] at mem
    | some patch' =>
      rw [patch, Option.elim_some, List.mem_cons] at mem
      rcases mem with rfl | mem
      · decide
      · exact isCoreChar_of_isDigit (digits_isDigit _ c mem)

theorem hyphenated_eq : clause.hyphenated =
    clause.front ++ (clause.core ++ (clause.hyphenatedTag ++ spaces clause.after)) := by
  simp [hyphenated, textAs, front, core]

theorem core_of (eq : clause.patch = patch) :
    clause.core = coreText clause.major clause.minor patch := by rw [core, eq]

theorem isCoreChar_front : ∀ c ∈ clause.front, isCoreChar c = true := by
  intro c mem
  simp only [front, List.mem_append] at mem
  rcases mem with mem | mem | mem
  · exact isCoreChar_spaces c mem
  · have all : clause.operator.text.all isCoreChar = true := by cases clause.operator <;> decide
    exact List.all_eq_true.mp all c mem
  · exact isCoreChar_spaces c mem

/-- The front ends with the operator, but for spaces. -/
theorem front_end : ∃ before c, clause.front = before ++ c :: spaces clause.inner ∧
    c ∈ ['=', '<', '>'] := by
  cases op : clause.operator
  · exact ⟨spaces clause.before ++ ['~'], '=', by simp [front, op, ClauseOperator.text], by simp⟩
  · exact ⟨spaces clause.before ++ ['='], '=', by simp [front, op, ClauseOperator.text], by simp⟩
  · exact ⟨spaces clause.before ++ ['>'], '=', by simp [front, op, ClauseOperator.text], by simp⟩
  · exact ⟨spaces clause.before ++ ['<'], '=', by simp [front, op, ClauseOperator.text], by simp⟩
  · exact ⟨spaces clause.before, '<', by simp [front, op, ClauseOperator.text], by simp⟩
  · exact ⟨spaces clause.before, '>', by simp [front, op, ClauseOperator.text], by simp⟩

theorem bumped_hyphenated : clause.bumped.hyphenated =
    clause.front ++ coreText clause.major (clause.minor + 1) none := by
  simp [hyphenated_eq, bumped, front, core, hyphenatedTag, spaces]

end Clause

theorem takeWhile_tagged (tagged : clause.tag.isSome) (behind : List Char) :
    (clause.core ++ (clause.hyphenatedTag ++ behind)).takeWhile isCoreChar = clause.core := by
  obtain ⟨tag, eq⟩ := Option.isSome_iff_exists.mp tagged
  rw [List.takeWhile_append_of_pos Clause.isCoreChar_core]
  simp [Clause.hyphenatedTag, eq, isCoreChar]

theorem hyphenatedTag_untagged (untagged : clause.tag.isSome = false) :
    clause.hyphenatedTag = [] := by
  have noneEq : clause.tag = none := by simpa using untagged
  simp [Clause.hyphenatedTag, noneEq]

/-- The text of clauses up to the first hyphen, and with the last minor number bumped. -/
theorem takeWhile_joinedTexts (clause : Clause) (rest : List Clause)
    (last : ∀ c ∈ (clause :: rest).getLast?, c.after = 0) :
    ∃ front, (joinedTexts ((clause :: rest).map Clause.hyphenated)).takeWhile isCoreChar =
        front ++ (farthest clause rest).core ∧
      joinedTexts ((bumpFarthest clause rest).map Clause.hyphenated) = front ++
        coreText (farthest clause rest).major ((farthest clause rest).minor + 1) none ∧
      ∃ before c n, front = before ++ c :: spaces n ∧ c ∈ ['=', '<', '>'] := by
  obtain ⟨before, c, ends, mem⟩ := @Clause.front_end clause
  induction rest generalizing clause before c with
  | nil =>
    have noneEq : clause.after = 0 := last clause (by simp)
    refine ⟨clause.front, ?_, ?_, before, c, clause.inner, ends, mem⟩
    · simp only [List.map_cons, List.map_nil, joinedTexts, List.intercalate_singleton, farthest]
      rw [Clause.hyphenated_eq, List.takeWhile_append_of_pos Clause.isCoreChar_front, noneEq]
      cases tag : clause.tag.isSome with
      | true => rw [takeWhile_tagged tag]
      | false =>
        rw [hyphenatedTag_untagged tag, List.takeWhile_append_of_pos Clause.isCoreChar_core]
        simp [spaces]
    · simp [bumpFarthest, farthest, joinedTexts, Clause.bumped_hyphenated]
  | cons next rest ih =>
    rw [List.map_cons, joinedTexts_cons (by simp), farthest, bumpFarthest]
    cases tag : clause.tag.isSome with
    | true =>
      refine ⟨clause.front, ?_, ?_, before, c, clause.inner, ends, mem⟩
      · rw [Clause.hyphenated_eq, List.append_assoc,
          List.takeWhile_append_of_pos Clause.isCoreChar_front, List.append_assoc,
          List.append_assoc, takeWhile_tagged tag]
        rfl
      · simp [joinedTexts, Clause.bumped_hyphenated]
    | false =>
      obtain ⟨before', c', ends', mem'⟩ := @Clause.front_end next
      obtain ⟨front, taken, bumped, before'', c'', n, eq, mem''⟩ := ih next
        (by simpa [List.getLast?_cons_cons] using last) before' c' ends' mem'
      have all : ∀ d ∈ clause.hyphenated ++ [','], isCoreChar d = true := by
        intro d
        rw [Clause.hyphenated_eq, hyphenatedTag_untagged tag]
        simp only [List.mem_append, List.nil_append, List.mem_singleton]
        rintro ((mem | mem | mem) | rfl)
        · exact Clause.isCoreChar_front d mem
        · exact Clause.isCoreChar_core d mem
        · exact isCoreChar_spaces d mem
        · decide
      refine ⟨clause.hyphenated ++ [','] ++ front, ?_, ?_,
        clause.hyphenated ++ [','] ++ before'', c'', n, by simp [eq], mem''⟩
      · rw [List.append_cons, List.takeWhile_append_of_pos all, taken]
        simp
      · have nonempty : (bumpFarthest next rest).map Clause.hyphenated ≠ [] := by
          cases rest <;> simp [bumpFarthest]
          split_ifs <;> simp
        simp [joinedTexts_cons nonempty, bumped]

/-! ## Taking the numbers apart -/

variable {n major minor : UInt64} {version front : List Char}

theorem dot_notMem_digits : '.' ∉ digits n := fun mem => by
  cases digits_isDigit n _ mem

theorem splitOn_digits : (digits n).splitOn '.' = [digits n] := by
  rw [List.splitOn_eq_splitOnP]
  refine List.splitOnP_eq_singleton fun c mem => ?_
  have other : c ≠ '.' := fun same => dot_notMem_digits (same ▸ mem)
  simpa using other

theorem splitOn_coreText : (front ++ coreText major minor patch).splitOn '.' =
    (front ++ digits major).splitOn '.' ++ digits minor :: (patch.elim [] fun n => [digits n]) := by
  rw [coreText, ← List.append_assoc, List.splitOn_append_cons_self]
  cases patch with
  | none => simp [splitOn_digits]
  | some patch => simp [List.splitOn_append_cons_self, splitOn_digits]

theorem parseU64_of_ne {c : Char} {rest : List Char} (plus : c ≠ '+') :
    parseU64 (c :: rest) = if (c :: rest).all Char.isDigit ∧
      Nat.ofDigitChars 10 (c :: rest) 0 < 2 ^ 64 then some (Nat.ofDigitChars 10 (c :: rest) 0)
    else none := by
  simp [parseU64, plus]

theorem parseU64_plus {rest : List Char} : parseU64 ('+' :: rest) =
    if rest ≠ [] ∧ rest.all Char.isDigit ∧ Nat.ofDigitChars 10 rest 0 < 2 ^ 64 then
      some (Nat.ofDigitChars 10 rest 0) else none := rfl

theorem parseU64_digits : parseU64 (digits n) = some n.toNat := by
  obtain ⟨c, rest, eq, digit⟩ := digits_begin n
  have all : (digits n).all Char.isDigit = true := List.all_eq_true.mpr (digits_isDigit n)
  have value : Nat.ofDigitChars 10 (digits n) 0 = n.toNat := Nat.ofDigitChars_ten_toDigits
  rw [eq, parseU64_of_ne (digit_ne digit (by decide)), ← eq, value, if_pos ⟨all, n.toNat_lt⟩]

theorem parseU64_eq_none {text : List Char} {c : Char} (mem : c ∈ text)
    (other : c ∈ ['=', '<', '>']) : parseU64 text = none := by
  have plain : c.isDigit = false ∧ c ≠ '+' := by
    simp only [List.mem_cons, List.not_mem_nil, or_false] at other
    rcases other with rfl | rfl | rfl <;> decide
  have unread : ∀ {digits : List Char}, c ∈ digits → digits.all Char.isDigit = false := by
    intro digits mem
    exact List.all_eq_false.mpr ⟨c, mem, by simp [plain.1]⟩
  cases text with
  | nil => cases mem
  | cons first rest =>
    by_cases plus : first = '+'
    · subst plus
      have mem' : c ∈ rest := by simpa [plain.2] using mem
      rw [parseU64_plus, unread mem', if_neg (by simp)]
    · rw [parseU64_of_ne plus, unread mem, if_neg (by simp)]

theorem toNat_succ (fits : n.toNat + 1 < 2 ^ 64) : (n + 1).toNat = n.toNat + 1 := by
  rw [UInt64.toNat_add, UInt64.toNat_one, Nat.mod_eq_of_lt fits]

theorem digits_succ (fits : n.toNat + 1 < 2 ^ 64) :
    Nat.toDigits 10 (n.toNat + 1) = digits (n + 1) := by
  rw [digits, toNat_succ fits]

theorem compatibleRelease_eq {core : List Char} {parts : List (List Char)} {part : List Char}
    (coreEq : version.takeWhile isCoreChar = core) (split : core.splitOn '.' = parts ++ [part])
    (nonempty : parts ≠ []) : compatibleRelease version =
      match parseU64 (parts.getLast nonempty) with
      | none => some (['>', '='] ++ version)
      | some n =>
        if 2 ^ 64 ≤ n + 1 then none
        else
          let upper := parts.dropLast ++ [Nat.toDigits 10 (n + 1)]
          let upper := upper ++ List.replicate (3 - upper.length) ['0']
          some (['>', '='] ++ version ++ [',', ' ', '<'] ++ ['.'].intercalate upper) := by
  have core' : (version.takeWhile fun c => c ≠ '+' && c ≠ '-') = core := coreEq
  obtain ⟨before, last, rfl⟩ : ∃ before last, parts = before ++ [last] :=
    ⟨_, _, (List.dropLast_append_getLast nonempty).symm⟩
  have long : ¬(before ++ [last] ++ [part]).length < 2 := by simp
  have index : (before ++ [last] ++ [part]).length - 2 = before.length := by simp
  have taken : (before ++ [last] ++ [part]).take (before.length + 1) = before ++ [last] := by
    simp [List.take_append]
  have bump : ∀ next, (before ++ [last]).set before.length next = before ++ [next] := by simp
  simp only [compatibleRelease, core', split, if_neg long, index, taken, bump]
  cases read : parseU64 last <;> simp [read]

/-- What is written for a bound that the number fits into. -/
def withBound (n : UInt64) (version upper : List Char) : Option (List Char) :=
  if 2 ^ 64 ≤ n.toNat + 1 then none
  else some (['>', '='] ++ version ++ [',', ' ', '<'] ++ upper)

theorem compatibleRelease_two (core : version.takeWhile isCoreChar = coreText major minor none) :
    compatibleRelease version = withBound major version (coreText (major + 1) 0 (some 0)) := by
  have parts : (coreText major minor none).splitOn '.' = [digits major] ++ [digits minor] := by
    simpa [splitOn_digits] using @splitOn_coreText none major minor []
  rw [compatibleRelease_eq core parts (by simp), List.getLast_singleton, parseU64_digits, withBound]
  dsimp only
  split_ifs with overflow
  · rfl
  · have zero : digits 0 = ['0'] := by decide
    rw [digits_succ (by omega)]
    simp [coreText, zero, List.replicate_succ, List.intercalate_cons_cons]

theorem compatibleRelease_three {patch : UInt64}
    (core : version.takeWhile isCoreChar = coreText major minor (some patch)) :
    compatibleRelease version = withBound minor version (coreText major (minor + 1) (some 0)) := by
  have parts : (coreText major minor (some patch)).splitOn '.' =
      [digits major, digits minor] ++ [digits patch] := by
    simpa [splitOn_digits] using @splitOn_coreText (some patch) major minor []
  rw [compatibleRelease_eq core parts (by simp)]
  simp only [List.getLast_cons_cons, List.getLast_singleton, parseU64_digits, withBound]
  split_ifs with overflow
  · rfl
  · have zero : digits 0 = ['0'] := by decide
    rw [digits_succ (by omega)]
    simp [coreText, zero, List.intercalate_cons_cons]

/-- Behind other clauses, a clause of two numbers has no number before its dot. -/
theorem compatibleRelease_behind_two {before : List Char} {c : Char} {k : Nat}
    (core : version.takeWhile isCoreChar = before ++ c :: spaces k ++ coreText major minor none)
    (other : c ∈ ['=', '<', '>']) : compatibleRelease version = some (['>', '='] ++ version) := by
  have fresh : '.' ∉ c :: (spaces k ++ digits major) := by
    have notDot : c ≠ '.' := by rintro rfl; simp at other
    simp [notDot.symm, dot_notMem_digits, spaces]
  obtain ⟨pieces, piece, eq⟩ : ∃ pieces piece, (before ++ c :: (spaces k ++ digits major)).splitOn
      '.' = pieces ++ [piece ++ c :: (spaces k ++ digits major)] :=
    Library.splitOn_append_of_notMem fresh
  have parts : (before ++ c :: spaces k ++ coreText major minor none).splitOn '.' =
      (pieces ++ [piece ++ c :: (spaces k ++ digits major)]) ++ [digits minor] := by
    rw [splitOn_coreText, ← eq]
    simp
  rw [compatibleRelease_eq core parts (by simp), List.getLast_append_singleton,
    parseU64_eq_none (c := c) (by simp) other]

/-- Behind other clauses, the minor number of a clause of three is bumped. -/
theorem compatibleRelease_behind_three {patch : UInt64}
    (core : version.takeWhile isCoreChar = front ++ coreText major minor (some patch))
    (dotted : '.' ∈ front) :
    compatibleRelease version =
      withBound minor version (front ++ coreText major (minor + 1) none) := by
  have pieces := List.splitOn_ne_nil '.' (front ++ digits major)
  have parts : (front ++ coreText major minor (some patch)).splitOn '.' =
      ((front ++ digits major).splitOn '.' ++ [digits minor]) ++ [digits patch] := by
    simp [splitOn_coreText]
  have long := Library.two_le_length_splitOn (List.mem_append_left (digits major) dotted)
  have enough : 3 - ((front ++ digits major).splitOn '.' ++ [digits (minor + 1)]).length = 0 := by
    rw [List.length_append, List.length_singleton]
    omega
  rw [compatibleRelease_eq core parts (by simp)]
  simp only [List.getLast_append_singleton, parseU64_digits, List.dropLast_concat, withBound]
  split_ifs with overflow
  · rfl
  · rw [digits_succ (by omega), enough, List.replicate_zero, List.append_nil,
      Library.intercalate_append pieces (by simp), List.intercalate_splitOn]
    simp [coreText]

/-! ## The bound of a list of clauses -/

/-- What stands behind the operator of the first clause. -/
def behindOperator (first : Clause) (rest : List Clause) : List Char :=
  joinedTexts ((first.core ++ (first.hyphenatedTag ++ spaces first.after)) ::
    rest.map Clause.hyphenated)

theorem joinedTexts_lower : joinedTexts ((first.lower :: rest).map Clause.hyphenated) =
    ['>', '='] ++ behindOperator first rest := by
  have text : first.lower.hyphenated =
      ['>', '='] ++ (first.core ++ (first.hyphenatedTag ++ spaces first.after)) := by
    simp [Clause.hyphenated_eq, Clause.front, Clause.lower, Clause.core, Clause.hyphenatedTag,
      Clause.tagText, ClauseOperator.text, spaces]
  rw [behindOperator, List.map_cons, text]
  cases rest with
  | nil => rfl
  | cons next rest => simp [joinedTexts_cons]

/-- The bound is a further clause, or further clauses. -/
theorem withBound_eq {added : List Clause} {upper : List Char} (nonempty : added ≠ [])
    (text : joinedTexts (added.map Clause.hyphenated) = [' ', '<'] ++ upper) :
    withBound n (behindOperator first rest) upper = if 2 ^ 64 ≤ n.toNat + 1 then none
      else some (joinedTexts ((first.lower :: rest ++ added).map Clause.hyphenated)) := by
  have joined : joinedTexts ((first.lower :: rest ++ added).map Clause.hyphenated) =
      joinedTexts ((first.lower :: rest).map Clause.hyphenated) ++
        ',' :: joinedTexts (added.map Clause.hyphenated) := by
    rw [List.map_append]
    exact Library.intercalate_append (by simp) (by simpa using nonempty)
  rw [withBound, joined, joinedTexts_lower, text]
  simp

theorem upper_hyphenated : first.upper.hyphenated = [' ', '<'] ++
    if first.patch.isSome then coreText first.major (first.minor + 1) (some 0)
    else coreText (first.major + 1) 0 (some 0) := by
  rw [Clause.upper]
  split_ifs <;> simp [Clause.hyphenated_eq, Clause.front, Clause.core, Clause.hyphenatedTag,
    ClauseOperator.text, spaces]

/-- If nothing stands between the first clause and a hyphen or the end, its bound is right. -/
theorem compatibleRelease_own
    (core : (behindOperator first rest).takeWhile isCoreChar = first.core) :
    compatibleRelease (behindOperator first rest) = if 2 ^ 64 ≤ first.bumpNumber.toNat + 1 then none
      else some (joinedTexts ((first.lower :: rest ++ [first.upper]).map Clause.hyphenated)) := by
  have text := @upper_hyphenated first
  have joined : joinedTexts ([first.upper].map Clause.hyphenated) = first.upper.hyphenated := by
    simp [joinedTexts]
  rw [← @withBound_eq first rest _ [first.upper] _ (by simp) (joined.trans text)]
  cases patch : first.patch with
  | none =>
    rw [Clause.core_of patch] at core
    simpa [Clause.bumpNumber, patch] using compatibleRelease_two core
  | some patch' =>
    rw [Clause.core_of patch] at core
    simpa [Clause.bumpNumber, patch] using compatibleRelease_three core

theorem strict_hyphenated (untagged : first.tag.isSome = false) :
    first.strict.hyphenated = [' ', '<'] ++ (first.core ++ spaces first.after) := by
  have noneEq : first.tag = none := by simpa using untagged
  simp [Clause.hyphenated_eq, Clause.front, Clause.strict, Clause.core, Clause.hyphenatedTag,
    ClauseOperator.text, spaces, noneEq, List.replicate_succ]

/-- What the translation writes for a compatible release and the clauses behind it. -/
theorem compatibleRelease_behindOperator (first : Clause) (rest : List Clause)
    (last : ∀ clause ∈ (first :: rest).getLast?, clause.after = 0) :
    (upperBound first rest = none → compatibleRelease (behindOperator first rest) =
      some (joinedTexts ((first.lower :: rest).map Clause.hyphenated))) ∧
    ∀ n added, upperBound first rest = some (n, added) →
      compatibleRelease (behindOperator first rest) = if 2 ^ 64 ≤ n.toNat + 1 then none
        else some (joinedTexts ((first.lower :: rest ++ added).map Clause.hyphenated)) := by
  cases rest with
  | nil =>
    have noneEq : first.after = 0 := last first (by simp)
    have core : (behindOperator first []).takeWhile isCoreChar = first.core := by
      simp only [behindOperator, List.map_nil, joinedTexts, List.intercalate_singleton, noneEq]
      cases tag : first.tag.isSome with
      | true => exact takeWhile_tagged tag _
      | false =>
        rw [hyphenatedTag_untagged tag, List.takeWhile_append_of_pos Clause.isCoreChar_core]
        simp [spaces]
    refine ⟨by simp [upperBound], ?_⟩
    rintro n added bound
    cases bound
    exact compatibleRelease_own core
  | cons next rest =>
    have version : behindOperator first (next :: rest) = first.core ++ (first.hyphenatedTag ++
        (spaces first.after ++ ',' :: joinedTexts ((next :: rest).map Clause.hyphenated))) := by
      simp [behindOperator, joinedTexts_cons]
    rw [upperBound]
    cases tag : first.tag.isSome with
    | true =>
      refine ⟨by simp, ?_⟩
      rintro n added bound
      cases bound
      exact compatibleRelease_own (version ▸ takeWhile_tagged tag _)
    | false =>
      obtain ⟨front, taken, bumped, before, c, k, ends, mem⟩ := takeWhile_joinedTexts next rest
        (by simpa [List.getLast?_cons_cons] using last)
      have all : ∀ d ∈ first.core ++ spaces first.after ++ [','], isCoreChar d = true := by
        intro d mem
        simp only [List.mem_append, List.mem_singleton] at mem
        rcases mem with (mem | mem) | rfl
        · exact Clause.isCoreChar_core d mem
        · exact isCoreChar_spaces d mem
        · decide
      have core : (behindOperator first (next :: rest)).takeWhile isCoreChar =
          first.core ++ spaces first.after ++ [','] ++ front ++ (farthest next rest).core := by
        rw [version, hyphenatedTag_untagged tag, List.nil_append, ← List.append_assoc,
          List.append_cons, List.takeWhile_append_of_pos all, taken, ← List.append_assoc]
      cases patch : (farthest next rest).patch with
      | none =>
        refine ⟨fun _ => ?_, by simp⟩
        rw [Clause.core_of patch, ends, ← List.append_assoc (first.core ++ _ ++ _)] at core
        rw [compatibleRelease_behind_two core mem, joinedTexts_lower]
      | some patch' =>
        refine ⟨by simp, ?_⟩
        rintro n added bound
        cases bound
        rw [Clause.core_of patch] at core
        have dotted : '.' ∈ first.core ++ spaces first.after ++ [','] ++ front := by
          simp [Clause.core, coreText]
        have nonempty : (bumpFarthest next rest).map Clause.hyphenated ≠ [] := by
          cases rest <;> simp [bumpFarthest]
          split_ifs <;> simp
        have text : joinedTexts ((first.strict :: bumpFarthest next rest).map Clause.hyphenated) =
            [' ', '<'] ++ (first.core ++ spaces first.after ++ [','] ++ front ++
              coreText (farthest next rest).major ((farthest next rest).minor + 1) none) := by
          rw [List.map_cons, joinedTexts_cons nonempty, bumped, strict_hyphenated tag]
          simp
        rw [compatibleRelease_behind_three core dotted, withBound_eq (by simp) text]

end FoundryCore.Vyper
