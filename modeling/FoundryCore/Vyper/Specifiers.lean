import FoundryCore.Vyper.VersionReq

/-!
# Version specifiers of Python packages

A specifier is a list of clauses, and a version is to be admitted by all of them. The translation
to comparators of the `semver` crate looks at the beginning of the whole list only, and takes
versions of two numbers as all that begin with them.
-/

namespace FoundryCore.Vyper

open Flatten (Operator readOperator maxComparators)

/-! ## Clauses -/

inductive ClauseOperator
  | compatible | equal | greaterEq | lessEq | less | greater
deriving DecidableEq, Repr

namespace ClauseOperator

def text : ClauseOperator → List Char
  | compatible => ['~', '=']
  | equal => ['=', '=']
  | greaterEq => ['>', '=']
  | lessEq => ['<', '=']
  | less => ['<']
  | greater => ['>']

/-- The operator of the crate that is written alike. -/
def alike : ClauseOperator → Option Operator
  | compatible | equal => none
  | greaterEq => some .greaterEq
  | lessEq => some .lessEq
  | less => some .less
  | greater => some .greater

end ClauseOperator

inductive Tag
  | a | b | rc
deriving DecidableEq, Repr

def Tag.text : Tag → List Char
  | a => ['a']
  | b => ['b']
  | rc => ['r', 'c']

/-- A clause, with the spaces before it, behind its operator and behind it. -/
structure Clause where
  operator : ClauseOperator
  major : UInt64
  minor : UInt64
  patch : Option UInt64
  tag : Option (Tag × UInt64)
  before : Nat := 0
  inner : Nat := 0
  after : Nat := 0
deriving DecidableEq

/-- The version comes before the other one. -/
def Release.Before (v w : Release) : Prop :=
  v.major < w.major ∨
    v.major = w.major ∧ (v.minor < w.minor ∨ v.minor = w.minor ∧ v.patch < w.patch)

namespace Clause

variable (clause : Clause)

def tagText : List Char := clause.tag.elim [] fun (tag, n) => tag.text ++ digits n

/-- The tag behind the hyphen that is put in front of it. -/
def hyphenatedTag : List Char := clause.tag.elim [] fun _ => '-' :: clause.tagText

/-- The clause with another operator, and with a hyphen before its tag or without one. -/
def textAs (operator : List Char) (hyphen : Bool) : List Char :=
  spaces clause.before ++ (operator ++ (spaces clause.inner ++
    (coreText clause.major clause.minor clause.patch ++
      ((if hyphen then clause.hyphenatedTag else clause.tagText) ++ spaces clause.after))))

def text : List Char := clause.textAs clause.operator.text false

def hyphenated : List Char := clause.textAs clause.operator.text true

/-- The release that is given, with a zero for a number that is not. -/
def release : Release := ⟨clause.major, clause.minor, clause.patch.getD 0⟩

/-- The released version is admitted by the clause. What has a tag comes before its release. -/
def Admits (v : Release) : Prop :=
  match clause.operator with
  | .compatible => ¬v.Before clause.release ∧ v.major = clause.major ∧
      (clause.patch ≠ none → v.minor = clause.minor)
  | .equal => v = clause.release ∧ clause.tag = none
  | .greaterEq => ¬v.Before clause.release
  | .lessEq => v.Before clause.release ∨ v = clause.release ∧ clause.tag = none
  | .less => v.Before clause.release
  | .greater => clause.release.Before v ∨ v = clause.release ∧ clause.tag ≠ none

/-- The comparator of the crate with the operator and what the clause gives. -/
def comparison (operator : Operator) : Comparison :=
  ⟨operator, clause.major.toNat, some clause.minor.toNat, clause.patch.map (·.toNat),
    clause.tag.map fun _ => clause.tagText⟩

end Clause

/-- Clauses with commas between them, and spaces around them all. -/
structure Specifier where
  clauses : List Clause
  leading : Nat := 0
  trailing : Nat := 0
  nonempty : clauses ≠ []
  first : ∀ clause ∈ clauses.head?, clause.before = 0
  last : ∀ clause ∈ clauses.getLast?, clause.after = 0

def joinedTexts (texts : List (List Char)) : List Char := [','].intercalate texts

def Specifier.text (specifier : Specifier) : List Char :=
  spaces specifier.leading ++ joinedTexts (specifier.clauses.map Clause.text) ++
    spaces specifier.trailing

/-! ## Reading clauses -/

variable {clause : Clause} {operator : Operator} {hyphen : Bool}

theorem isIdentifierChar_of_isDigit {c : Char} (digit : c.isDigit = true) :
    isIdentifierChar c = true := by
  simp [isIdentifierChar, Char.isAlphanum, digit]

theorem tag_spec (tag : Tag) : ∃ c rest, tag.text = c :: rest ∧ c.isDigit = false ∧
    ∀ d ∈ tag.text, d.isAlpha = true := by
  cases tag
  · exact ⟨'a', [], rfl, by decide, by simp [Tag.text]⟩
  · exact ⟨'b', [], rfl, by decide, by simp [Tag.text]⟩
  · exact ⟨'r', ['c'], rfl, by decide, by simp [Tag.text]⟩

theorem letter_ne {c d : Char} (letter : c.isAlpha = true) (other : d.isAlpha = false) : c ≠ d := by
  rintro rfl
  simp [letter] at other

theorem isIdentifierChar_tag {tag : Tag} {n : UInt64} :
    ∀ c ∈ tag.text ++ digits n, isIdentifierChar c = true ∧ c ≠ '.' := by
  obtain ⟨-, -, -, -, letters⟩ := tag_spec tag
  intro c mem
  rcases List.mem_append.mp mem with letter | digit
  · have alpha := letters c letter
    refine ⟨by simp [isIdentifierChar, Char.isAlphanum, alpha], ?_⟩
    rintro rfl
    cases alpha
  · exact ⟨isIdentifierChar_of_isDigit (digits_isDigit n c digit),
      digit_ne (digits_isDigit n c digit) (by decide)⟩

theorem readPre_tag {tag : Tag} {n : UInt64} {after : Nat} :
    readPre ('-' :: (tag.text ++ digits n ++ spaces after)) =
      some (some (tag.text ++ digits n), spaces after) := by
  have chars := @isIdentifierChar_tag tag n
  have each : ∀ c ∈ tag.text ++ digits n, (isIdentifierChar c || c == '.') = true := fun c mem => by
    simp [(chars c mem).1]
  have blank : isIdentifierChar ' ' = false := by decide
  have taken : (tag.text ++ digits n ++ spaces after).takeWhile
      (fun c => isIdentifierChar c || c == '.') = tag.text ++ digits n := by
    rw [List.takeWhile_append_of_pos each]
    cases after with
    | zero => simp [spaces]
    | succ after => simp [spaces, List.replicate_succ, blank]
  have dropped : (tag.text ++ digits n ++ spaces after).dropWhile
      (fun c => isIdentifierChar c || c == '.') = spaces after := by
    rw [List.dropWhile_append_of_pos each]
    cases after with
    | zero => rfl
    | succ after => simp [spaces, List.replicate_succ, blank]
  have one : (tag.text ++ digits n).splitOn '.' = [tag.text ++ digits n] := by
    rw [List.splitOn_eq_splitOnP]
    exact List.splitOnP_eq_singleton fun c mem => by simpa using (chars c mem).2
  have valid : isIdentifier (tag.text ++ digits n) = true := by
    obtain ⟨c, rest, begins, other, -⟩ := tag_spec tag
    have all : (tag.text ++ digits n).all isIdentifierChar = true :=
      List.all_eq_true.mpr fun c mem => (chars c mem).1
    simp only [isIdentifier, all]
    simp [begins, other]
  simp only [readPre, taken, dropped, one, List.all_cons, List.all_nil, valid, Bool.and_true,
    if_true]

theorem head?_spaces {n : Nat} : ∀ c ∈ (spaces n).head?, c.isDigit = false ∧ c ≠ '.' := by
  cases n <;> simp [spaces, List.replicate_succ]

theorem dropSpaces_spaces_nil {n : Nat} : dropSpaces (spaces n) = [] := by
  simpa using @dropSpaces_spaces n [] (by simp)

theorem readPre_spaces {n : Nat} : readPre (spaces n) = some (none, spaces n) := by
  cases n <;> rfl

/-- A clause without a tag, or with a hyphen before the tag and three numbers, is read. -/
theorem readComparison_textAs
    (written : clause.tag = none ∨ hyphen = true ∧ clause.patch.isSome) :
    readComparison (clause.textAs operator.text hyphen) = some (clause.comparison operator) := by
  cases tag : clause.tag with
  | none =>
    have behind : (if hyphen then clause.hyphenatedTag else clause.tagText) = [] := by
      simp [Clause.hyphenatedTag, Clause.tagText, tag]
    rw [Clause.textAs, behind, List.nil_append, readComparison_core head?_spaces, Clause.comparison,
      tag]
    cases clause.patch <;> simp [readPre_spaces, dropSpaces_spaces_nil]
  | some tagged =>
    obtain ⟨tag', n⟩ := tagged
    obtain ⟨rfl, three⟩ : hyphen = true ∧ clause.patch.isSome := by simpa [tag] using written
    have behind : clause.hyphenatedTag ++ spaces clause.after =
        '-' :: (tag'.text ++ digits n ++ spaces clause.after) := by
      simp [Clause.hyphenatedTag, Clause.tagText, tag]
    rw [Clause.textAs, if_pos rfl, behind, readComparison_core (by simp), Clause.comparison, tag,
      if_pos three, readPre_tag]
    simp [dropSpaces_spaces_nil, Clause.tagText, tag]

theorem dropSpaces_cons {c : Char} {rest : List Char} (other : c ≠ ' ') :
    dropSpaces (c :: rest) = c :: rest := dropSpaces_spaces (n := 0) (by simpa using other)

/-- A tag without hyphen, or behind two numbers, is not read. -/
theorem readComparison_tagged (tagged : clause.tag.isSome)
    (unwritten : hyphen = false ∨ clause.patch = none) :
    readComparison (clause.textAs operator.text hyphen) = none := by
  obtain ⟨⟨tag', n⟩, tag⟩ := Option.isSome_iff_exists.mp tagged
  obtain ⟨c, rest, begins, other, letters⟩ := tag_spec tag'
  have letter : c.isAlpha = true := letters c (by simp [begins])
  have notSpecial : c ≠ ' ' ∧ c ≠ '.' ∧ c ≠ '-' :=
    ⟨letter_ne letter (by decide), letter_ne letter (by decide), letter_ne letter (by decide)⟩
  cases hyphen with
  | false =>
    have behind : clause.tagText ++ spaces clause.after =
        c :: (rest ++ (digits n ++ spaces clause.after)) := by
      simp [Clause.tagText, tag, begins]
    rw [Clause.textAs, if_neg (by simp), behind,
      readComparison_core (by simpa using ⟨other, notSpecial.2.1⟩)]
    have left : readPre (c :: (rest ++ (digits n ++ spaces clause.after))) =
        some (none, c :: (rest ++ (digits n ++ spaces clause.after))) := by
      unfold readPre
      split
      next eq => exact absurd (List.cons.inj eq).1 notSpecial.2.2
      next => rfl
    split_ifs <;> simp [left, dropSpaces_cons notSpecial.1]
  | true =>
    have two : clause.patch = none := by simpa using unwritten
    have behind : clause.hyphenatedTag ++ spaces clause.after =
        '-' :: (tag'.text ++ digits n ++ spaces clause.after) := by
      simp [Clause.hyphenatedTag, Clause.tagText, tag]
    rw [Clause.textAs, if_pos rfl, behind, readComparison_core (by simp), two]
    simp [@dropSpaces_cons '-' _ (by simp)]

/-- The second character of an operator that only packages have is not read. -/
theorem readComparison_unlike (unlike : clause.operator.alike = none) :
    readComparison (clause.textAs clause.operator.text hyphen) = none := by
  obtain ⟨operator, rest, eq⟩ : ∃ operator : Operator, ∃ rest,
      readOperator (dropSpaces (clause.textAs clause.operator.text hyphen)) =
        (some operator, '=' :: rest) := by
    rw [Clause.textAs, dropSpaces_spaces]
    · cases op : clause.operator <;> simp [op, ClauseOperator.alike] at unlike
      · exact ⟨.tilde, _, rfl⟩
      · exact ⟨.exact, _, rfl⟩
    · cases clause.operator <;> simp [ClauseOperator.text]
  have noneEq : readNumber (dropSpaces ('=' :: rest)) = none :=
    readNumber_eq_none (by simp [dropSpaces])
  rw [readComparison, eq]
  simp [noneEq]

/-! ## Texts of clauses -/

/-- The characters of clauses. -/
def isClauseChar (c : Char) : Bool :=
  c.isDigit || c ∈ [' ', '~', '=', '>', '<', '.', '-', 'a', 'b', 'r', 'c']

theorem isClauseChar_spaces {n : Nat} : ∀ c ∈ spaces n, isClauseChar c = true := by
  intro c mem
  rw [List.eq_of_mem_replicate mem]
  decide

theorem isClauseChar_digits {n : UInt64} : ∀ c ∈ digits n, isClauseChar c = true := fun c mem => by
  simp [isClauseChar, digits_isDigit n c mem]

theorem isClauseChar_coreText {major minor : UInt64} {patch : Option UInt64} :
    ∀ c ∈ coreText major minor patch, isClauseChar c = true := by
  intro c mem
  simp only [coreText, List.mem_append, List.mem_cons] at mem
  rcases mem with mem | rfl | mem | mem
  · exact isClauseChar_digits c mem
  · decide
  · exact isClauseChar_digits c mem
  · cases patch with
    | none => cases mem
    | some patch =>
      rcases List.mem_cons.mp mem with rfl | mem
      · decide
      · exact isClauseChar_digits c mem

theorem isClauseChar_tagText : ∀ c ∈ clause.tagText, isClauseChar c = true := by
  intro c mem
  cases tag : clause.tag with
  | none => simp [Clause.tagText, tag] at mem
  | some tagged =>
    obtain ⟨tag', n⟩ := tagged
    simp only [Clause.tagText, tag, Option.elim_some, List.mem_append] at mem
    rcases mem with mem | mem
    · have all : tag'.text.all isClauseChar = true := by cases tag' <;> decide
      exact List.all_eq_true.mp all c mem
    · exact isClauseChar_digits c mem

theorem isClauseChar_behind : ∀ c ∈ (if hyphen then clause.hyphenatedTag else clause.tagText),
    isClauseChar c = true := by
  intro c mem
  split_ifs at mem
  · cases tag : clause.tag with
    | none => simp [Clause.hyphenatedTag, tag] at mem
    | some tagged =>
      simp only [Clause.hyphenatedTag, tag, Option.elim_some] at mem
      rcases List.mem_cons.mp mem with rfl | mem
      · decide
      · exact isClauseChar_tagText c mem
  · exact isClauseChar_tagText c mem

theorem isClauseChar_textAs {written : List Char} (each : ∀ c ∈ written, isClauseChar c = true) :
    ∀ c ∈ clause.textAs written hyphen, isClauseChar c = true := by
  intro c mem
  simp only [Clause.textAs, List.mem_append] at mem
  rcases mem with mem | mem | mem | mem | mem | mem
  · exact isClauseChar_spaces c mem
  · exact each c mem
  · exact isClauseChar_spaces c mem
  · exact isClauseChar_coreText c mem
  · exact isClauseChar_behind c mem
  · exact isClauseChar_spaces c mem

theorem clauseChar_ne {c d : Char} (char : isClauseChar c = true)
    (other : isClauseChar d = false) : c ≠ d := by
  rintro rfl
  simp [char] at other

/-- Texts of characters of clauses are split where they are joined. -/
theorem splitOn_joinedTexts {texts : List (List Char)} (nonempty : texts ≠ [])
    (each : ∀ text ∈ texts, ∀ c ∈ text, isClauseChar c = true) :
    (joinedTexts texts).splitOn ',' = texts :=
  List.splitOn_intercalate ',' (fun text mem comma =>
    clauseChar_ne (each text mem ',' comma) (by decide) rfl) nonempty

/-! ## Translating a specifier -/

/-- The clause as it is read: by the operator of the crate that is written alike. -/
theorem readComparison_written {operator : Operator}
    (alike : clause.operator.alike = some operator) : clause.operator.text = operator.text := by
  cases op : clause.operator <;> rw [op] at alike <;> cases alike <;> rfl

/-- What the crate reads of a clause in a list. -/
def Clause.read (clause : Clause) (hyphen : Bool) : Option Comparison :=
  match clause.operator.alike with
  | none => none
  | some operator =>
    if clause.tag = none ∨ hyphen = true ∧ clause.patch.isSome then
      some (clause.comparison operator)
    else none

theorem readComparison_eq :
    readComparison (clause.textAs clause.operator.text hyphen) = clause.read hyphen := by
  unfold Clause.read
  cases alike : clause.operator.alike with
  | none => exact readComparison_unlike alike
  | some operator =>
    rw [readComparison_written alike]
    dsimp only
    split_ifs with written
    · exact readComparison_textAs written
    · rw [not_or, not_and_or] at written
      refine readComparison_tagged (Option.isSome_iff_ne_none.mpr written.1) ?_
      simpa using written.2

/-- What the crate reads of texts with commas between them. -/
theorem readComparisons_joinedTexts {texts : List (List Char)} (nonempty : texts ≠ [])
    (each : ∀ text ∈ texts, ∀ c ∈ text, isClauseChar c = true) :
    readComparisons (joinedTexts texts) =
      if maxComparators < texts.length then none else texts.mapM readComparison := by
  simp only [readComparisons, splitOn_joinedTexts nonempty each]

/-- Characters of clauses and the commas between them. -/
theorem mem_joinedTexts {texts : List (List Char)}
    (each : ∀ text ∈ texts, ∀ c ∈ text, isClauseChar c = true) :
    ∀ c ∈ joinedTexts texts, isClauseChar c = true ∨ c = ',' := by
  induction texts with
  | nil => simp [joinedTexts]
  | cons text texts ih =>
    rw [List.forall_mem_cons] at each
    intro c mem
    cases texts with
    | nil =>
      simp only [joinedTexts, List.intercalate_singleton] at mem
      exact .inl (each.1 c mem)
    | cons next texts =>
      rw [joinedTexts, List.intercalate_cons_cons, List.mem_append, List.mem_append,
        List.mem_singleton] at mem
      rcases mem with (mem | comma) | mem
      · exact .inl (each.1 c mem)
      · exact .inr comma
      · exact ih each.2 c mem

theorem noWildcards_joinedTexts {texts : List (List Char)}
    (each : ∀ text ∈ texts, ∀ c ∈ text, isClauseChar c = true) :
    NoWildcards (joinedTexts texts) := by
  intro c mem
  simp only [List.mem_cons, List.not_mem_nil, or_false]
  rintro (rfl | rfl | rfl | rfl) <;> rcases mem_joinedTexts each _ mem with char | comma <;>
    simp_all [isClauseChar]

/-! ### Hyphens -/

theorem isPlain_spaces {n : Nat} : ∀ c ∈ spaces n, isPlain c = true := by
  intro c mem
  rw [List.eq_of_mem_replicate mem]
  decide

theorem isPlain_of_isDigit {c : Char} (digit : c.isDigit = true) : isPlain c = true := by
  refine isPlain_iff.mpr ⟨?_, ?_, ?_, ?_, ?_⟩
  · simp only [Char.isDigit, Bool.and_eq_true, decide_eq_true_eq] at digit
    exact UInt32.lt_of_le_of_lt digit.2 (by decide)
  · exact digit_ne digit (by decide)
  · exact digit_ne digit (by decide)
  · exact digit_ne digit (by decide)
  · exact digit_ne digit (by decide)

theorem isPlain_digits {n : UInt64} : ∀ c ∈ digits n, isPlain c = true :=
  fun c mem => isPlain_of_isDigit (digits_isDigit n c mem)

theorem isPlain_coreText {major minor : UInt64} {patch : Option UInt64} :
    ∀ c ∈ coreText major minor patch, isPlain c = true := by
  intro c mem
  simp only [coreText, List.mem_append, List.mem_cons] at mem
  rcases mem with mem | rfl | mem | mem
  · exact isPlain_digits c mem
  · decide
  · exact isPlain_digits c mem
  · cases patch with
    | none => cases mem
    | some patch =>
      rcases List.mem_cons.mp mem with rfl | mem
      · decide
      · exact isPlain_digits c mem

theorem digits_end (n : UInt64) :
    ∃ rest, ∃ c : Char, digits n = rest ++ [c] ∧ c.isDigit = true := by
  have nonempty : digits n ≠ [] := Nat.toDigits_ne_nil
  exact ⟨_, _, (List.dropLast_append_getLast nonempty).symm,
    digits_isDigit n _ (List.getLast_mem nonempty)⟩

theorem coreText_end (major minor : UInt64) (patch : Option UInt64) :
    ∃ rest, ∃ c : Char, coreText major minor patch = rest ++ [c] ∧ c.isDigit = true := by
  cases patch with
  | none =>
    obtain ⟨rest, c, eq, digit⟩ := digits_end minor
    exact ⟨digits major ++ '.' :: rest, c, by simp [coreText, eq], digit⟩
  | some patch =>
    obtain ⟨rest, c, eq, digit⟩ := digits_end patch
    exact ⟨digits major ++ '.' :: (digits minor ++ '.' :: rest), c, by simp [coreText, eq], digit⟩

/-- A tag behind a digit gets its hyphen. -/
theorem hyphenateFrom_tag {tag : Tag} {n : UInt64} {rest : List Char} :
    hyphenateFrom true (tag.text ++ (digits n ++ rest)) =
      '-' :: (tag.text ++ hyphenateFrom false (digits n ++ rest)) := by
  obtain ⟨d, ds, eq, digit⟩ := digits_begin n
  cases tag <;> simp [Tag.text, eq, hyphenateFrom, digit]

/-- What is put in for a clause, whatever stands before it. -/
theorem hyphenateFrom_text (clause : Clause) (prev : Bool) (rest : List Char) :
    ∃ prev', hyphenateFrom prev (clause.text ++ rest) =
      clause.hyphenated ++ hyphenateFrom prev' rest := by
  obtain ⟨core, c, ends, digit⟩ := coreText_end clause.major clause.minor clause.patch
  have front : ∀ d ∈ spaces clause.before ++ (clause.operator.text ++ (spaces clause.inner ++
      coreText clause.major clause.minor clause.patch)), isPlain d = true := by
    intro d mem
    simp only [List.mem_append] at mem
    rcases mem with mem | mem | mem | mem
    · exact isPlain_spaces d mem
    · have all : clause.operator.text.all isPlain = true := by cases clause.operator <;> decide
      exact List.all_eq_true.mp all d mem
    · exact isPlain_spaces d mem
    · exact isPlain_coreText d mem
  have split : clause.text ++ rest = (spaces clause.before ++ (clause.operator.text ++
      (spaces clause.inner ++ coreText clause.major clause.minor clause.patch))) ++
        (clause.tagText ++ (spaces clause.after ++ rest)) := by
    simp [Clause.text, Clause.textAs]
  have last : ((spaces clause.before ++ (clause.operator.text ++ (spaces clause.inner ++
      coreText clause.major clause.minor clause.patch))).getLast?.map Char.isDigit).getD prev =
        true := by
    simp [ends, digit]
  rw [split, hyphenateFrom_append front, last]
  cases tag : clause.tag with
  | none =>
    refine ⟨((spaces clause.after).getLast?.map Char.isDigit).getD true, ?_⟩
    rw [Clause.tagText, tag, Option.elim_none, List.nil_append, hyphenateFrom_append isPlain_spaces]
    simp [Clause.hyphenated, Clause.textAs, Clause.hyphenatedTag, tag]
  | some tagged =>
    obtain ⟨tag', n⟩ := tagged
    refine ⟨((spaces clause.after).getLast?.map Char.isDigit).getD
      (((digits n).getLast?.map Char.isDigit).getD false), ?_⟩
    have written : clause.tagText = tag'.text ++ digits n := by rw [Clause.tagText, tag]; rfl
    rw [written, List.append_assoc tag'.text, hyphenateFrom_tag,
      hyphenateFrom_append isPlain_digits, hyphenateFrom_append isPlain_spaces]
    simp [Clause.hyphenated, Clause.textAs, Clause.hyphenatedTag, written, tag]

theorem joinedTexts_cons {text : List Char} {texts : List (List Char)} (nonempty : texts ≠ []) :
    joinedTexts (text :: texts) = text ++ ',' :: joinedTexts texts := by
  obtain ⟨next, rest, rfl⟩ := List.exists_cons_of_ne_nil nonempty
  simp [joinedTexts, List.intercalate_cons_cons]

/-- All tags of a list of clauses get their hyphens. -/
theorem hyphenateFrom_joinedTexts (clauses : List Clause) (prev : Bool) :
    hyphenateFrom prev (joinedTexts (clauses.map Clause.text)) =
      joinedTexts (clauses.map Clause.hyphenated) := by
  induction clauses generalizing prev with
  | nil => rfl
  | cons clause clauses ih =>
    by_cases last : clauses = []
    · subst last
      obtain ⟨prev', eq⟩ := hyphenateFrom_text clause prev []
      simpa [joinedTexts, hyphenateFrom] using eq
    · rw [List.map_cons, List.map_cons, joinedTexts_cons (by simpa using last),
        joinedTexts_cons (by simpa using last)]
      obtain ⟨prev', eq⟩ := hyphenateFrom_text clause prev
        (',' :: joinedTexts (clauses.map Clause.text))
      rw [eq, hyphenateFrom_cons (by decide), ih]

/-! ### Trimming -/

theorem isWhitespace_of_isDigit {c : Char} (digit : c.isDigit = true) : isWhitespace c = false :=
  Flatten.isWhitespace_of_isDigit digit

theorem coreText_begin (major minor : UInt64) (patch : Option UInt64) :
    ∃ c rest, coreText major minor patch = c :: rest ∧ c.isDigit = true := by
  obtain ⟨c, rest, eq, digit⟩ := digits_begin major
  exact ⟨c, rest ++ '.' :: (digits minor ++ patch.elim [] fun n => '.' :: digits n),
    by simp [coreText, eq], digit⟩

/-- A clause without spaces behind it ends with a digit. -/
theorem textAs_end {written : List Char} (last : clause.after = 0) :
    ∃ rest, ∃ c : Char, clause.textAs written hyphen = rest ++ [c] ∧ c.isDigit = true := by
  cases tag : clause.tag with
  | none =>
    obtain ⟨rest, c, eq, digit⟩ := coreText_end clause.major clause.minor clause.patch
    refine ⟨spaces clause.before ++ (written ++ (spaces clause.inner ++ rest)), c, ?_, digit⟩
    simp [Clause.textAs, Clause.hyphenatedTag, Clause.tagText, tag, last, spaces, eq]
  | some tagged =>
    obtain ⟨tag', n⟩ := tagged
    obtain ⟨rest, c, eq, digit⟩ := digits_end n
    refine ⟨spaces clause.before ++ (written ++ (spaces clause.inner ++
      (coreText clause.major clause.minor clause.patch ++
        ((if hyphen then ['-'] else []) ++ (tag'.text ++ rest))))), c, ?_, digit⟩
    cases hyphen <;>
      simp [Clause.textAs, Clause.hyphenatedTag, Clause.tagText, tag, last, spaces, eq]

/-- So does a list that ends with such a clause. -/
theorem joinedTexts_end {texts : List (List Char)} (nonempty : texts ≠ [])
    (last : ∀ text ∈ texts.getLast?, ∃ rest, ∃ c : Char, text = rest ++ [c] ∧ c.isDigit = true) :
    ∃ rest, ∃ c : Char, joinedTexts texts = rest ++ [c] ∧ c.isDigit = true := by
  induction texts with
  | nil => exact absurd rfl nonempty
  | cons text texts ih =>
    by_cases rest : texts = []
    · subst rest
      simpa [joinedTexts] using last
    · obtain ⟨rest', c, eq, digit⟩ := ih rest (by
        obtain ⟨next, rest'', rfl⟩ := List.exists_cons_of_ne_nil rest
        simpa [List.getLast?_cons_cons] using last)
      exact ⟨text ++ ',' :: rest', c, by simp [joinedTexts_cons rest, eq], digit⟩

theorem trim_spaces {before after : Nat} {middle : List Char}
    (first : ∃ c rest, middle = c :: rest ∧ isWhitespace c = false)
    (last : ∃ rest, ∃ c : Char, middle = rest ++ [c] ∧ c.isDigit = true) :
    trim (spaces before ++ middle ++ spaces after) = middle := by
  obtain ⟨rest, c, eq, digit⟩ := last
  have blank : isWhitespace ' ' = true := by decide
  rw [trim, Library.trim_append_append first ⟨rest, c, eq, isWhitespace_of_isDigit digit⟩]
  simp [spaces, List.rdropWhile, blank]

end FoundryCore.Vyper
