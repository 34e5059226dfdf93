import FoundryCore.Vyper.Bounds

/-!
# Specifiers in version pragmas

What a specifier is translated to, and when that accepts the versions the specifier admits.
-/

namespace FoundryCore.Vyper

open Flatten (Operator maxComparators)

variable {clause first : Clause} {rest clauses : List Clause} {v : Release}

/-! ## What the crate takes clauses for -/

namespace Clause

variable (clause : Clause) (v : Release)

/-- The release goes on behind the two numbers that the clause gives. -/
def Begins : Prop :=
  clause.patch = none ∧ v.major = clause.major ∧ v.minor = clause.minor ∧ 0 < v.patch

/-- The comparator accepts a release that the clause does not admit. -/
def Widened : Prop := (clause.operator = .lessEq ∨ clause.operator = .equal) ∧ clause.Begins v

/-- The comparator does not accept a release that the clause admits. -/
def Narrowed : Prop := clause.operator = .greater ∧ clause.Begins v

/-- The comparator accepts the release. -/
def Takes : Prop := (clause.Admits v ∨ clause.Widened v) ∧ ¬clause.Narrowed v

/-- The crate reads the clause with its hyphen. -/
def Readable : Prop := clause.operator.alike ≠ none ∧ (clause.tag ≠ none → clause.patch ≠ none)

end Clause

theorem comparison_meets_iff {operator : Operator} (alike : clause.operator.alike = some operator ∨
    clause.operator = .equal ∧ operator = .exact)
    (three : clause.tag ≠ none → clause.patch ≠ none) :
    (clause.comparison operator).Meets v ↔ clause.Takes v := by
  obtain ⟨op, major, minor, patch, tag, before, inner, after⟩ := clause
  obtain ⟨major', minor', patch'⟩ := v
  cases op <;> simp [ClauseOperator.alike] at alike <;> subst alike <;>
    cases patch <;> cases tag <;>
    simp_all [Clause.comparison, Comparison.Meets, Comparison.Before, Comparison.After,
      Comparison.Same, Clause.Takes, Clause.Admits, Clause.Widened, Clause.Narrowed, Clause.Begins,
      Clause.release, Release.Before, UInt64.lt_iff_toNat_lt, ← UInt64.toNat_inj] <;> omega

theorem read_isSome : (clause.read true).isSome ↔ clause.Readable := by
  unfold Clause.read Clause.Readable
  cases clause.operator.alike <;> cases clause.tag <;> cases clause.patch <;> simp

theorem meets_read (readable : clause.Readable) :
    (∀ comparison ∈ clause.read true, comparison.Meets v) ↔ clause.Takes v := by
  obtain ⟨operator, alike⟩ := Option.ne_none_iff_exists'.mp readable.1
  have written : clause.tag = none ∨ true = true ∧ clause.patch.isSome := by
    by_cases tag : clause.tag = none
    · exact .inl tag
    · exact .inr ⟨rfl, Option.isSome_iff_ne_none.mpr (readable.2 tag)⟩
  have read : clause.read true = some (clause.comparison operator) := by
    rw [Clause.read, alike]
    exact if_pos written
  rw [read, ← comparison_meets_iff (.inl alike) readable.2]
  simp

/-! ## Texts the crate parses -/

variable {semver : Flatten.Semver} {accepts : semver.Comparator → Release → Prop}

/-- The crate accepts the release by what it parses of the text. -/
def Parses (semver : Flatten.Semver) (accepts : semver.Comparator → Release → Prop)
    (text : List Char) (admits : Release → Prop) : Prop :=
  ∃ comparators, semver.parse (.ofList text) = some comparators ∧
    ∀ v, (∀ comparator ∈ comparators, accepts comparator v) ↔ admits v

/-- Texts with commas between them are parsed if each of them is read and they are not too many. -/
theorem parses_joinedTexts (documented : Documented semver accepts) {texts : List (List Char)}
    (nonempty : texts ≠ []) (each : ∀ text ∈ texts, ∀ c ∈ text, isClauseChar c = true)
    (few : texts.length ≤ maxComparators) (read : ∀ text ∈ texts, (readComparison text).isSome) :
    Parses semver accepts (joinedTexts texts) fun v =>
      ∀ text ∈ texts, ∀ comparison ∈ readComparison text, comparison.Meets v := by
  have comparisons : readComparisons (joinedTexts texts) =
      some (texts.filterMap readComparison) := by
    rw [readComparisons_joinedTexts nonempty each, if_neg (by omega), Library.mapM_eq_ite,
      if_pos read]
  obtain ⟨comparators, parsed, accepted⟩ :=
    documented.parsed _ _ (noWildcards_joinedTexts each) comparisons
  refine ⟨comparators, parsed, fun v => (accepted v).trans ?_⟩
  simp only [List.mem_filterMap, Option.mem_def]
  exact ⟨fun all text mem comparison eq => all comparison ⟨text, mem, eq⟩,
    fun all comparison ⟨text, mem, eq⟩ => all text mem comparison eq⟩

theorem parse_joinedTexts_eq_none (documented : Documented semver accepts)
    {texts : List (List Char)} (nonempty : texts ≠ [])
    (each : ∀ text ∈ texts, ∀ c ∈ text, isClauseChar c = true)
    (unread : texts.length ≤ maxComparators → ∃ text ∈ texts, readComparison text = none) :
    semver.parse (.ofList (joinedTexts texts)) = none := by
  refine documented.unparsed _ (noWildcards_joinedTexts each) ?_
  rw [readComparisons_joinedTexts nonempty each]
  split_ifs with many
  · rfl
  · obtain ⟨text, mem, eq⟩ := unread (by omega)
    rw [Library.mapM_eq_ite, if_neg fun all => by simpa [eq] using all text mem]

theorem isClauseChar_operator {operator : ClauseOperator} :
    ∀ c ∈ operator.text, isClauseChar c = true := by
  have all : operator.text.all isClauseChar = true := by cases operator <;> decide
  exact List.all_eq_true.mp all

theorem isClauseChar_hyphenated : ∀ text ∈ clauses.map Clause.hyphenated, ∀ c ∈ text,
    isClauseChar c = true := by
  intro text mem
  obtain ⟨clause, -, rfl⟩ := List.mem_map.mp mem
  exact isClauseChar_textAs isClauseChar_operator

theorem isClauseChar_texts : ∀ text ∈ clauses.map Clause.text, ∀ c ∈ text,
    isClauseChar c = true := by
  intro text mem
  obtain ⟨clause, -, rfl⟩ := List.mem_map.mp mem
  exact isClauseChar_textAs isClauseChar_operator

/-- Clauses with their hyphens are parsed if the crate reads each of them. -/
theorem parses_hyphenated (documented : Documented semver accepts) (nonempty : clauses ≠ [])
    (few : clauses.length ≤ maxComparators) (readable : ∀ clause ∈ clauses, clause.Readable) :
    Parses semver accepts (joinedTexts (clauses.map Clause.hyphenated)) fun v =>
      ∀ clause ∈ clauses, clause.Takes v := by
  obtain ⟨comparators, parsed, accepted⟩ := parses_joinedTexts documented (by simpa using nonempty)
    isClauseChar_hyphenated (by simpa using few) (by
      intro text textMem
      obtain ⟨clause, mem, rfl⟩ := List.mem_map.mp textMem
      rw [Clause.hyphenated, readComparison_eq]
      exact read_isSome.mpr (readable clause mem))
  refine ⟨comparators, parsed, fun v => (accepted v).trans ?_⟩
  simp only [List.forall_mem_map]
  refine forall₂_congr fun clause mem => ?_
  rw [Clause.hyphenated, readComparison_eq]
  exact meets_read (readable clause mem)

theorem parse_hyphenated_eq_none (documented : Documented semver accepts) (nonempty : clauses ≠ [])
    (unread : clauses.length ≤ maxComparators → ∃ clause ∈ clauses, ¬clause.Readable) :
    semver.parse (.ofList (joinedTexts (clauses.map Clause.hyphenated))) = none := by
  refine parse_joinedTexts_eq_none documented (by simpa using nonempty) isClauseChar_hyphenated ?_
  intro few
  obtain ⟨clause, mem, unreadable⟩ := unread (by simpa using few)
  refine ⟨_, List.mem_map_of_mem mem, ?_⟩
  rw [Clause.hyphenated, readComparison_eq]
  exact Option.not_isSome_iff_eq_none.mp fun nonempty => unreadable (read_isSome.mp nonempty)

/-! ## What a specifier is translated to -/

theorem joinedTexts_begin {text : List Char} {texts : List (List Char)} {p : Char → Prop}
    (first : ∃ c rest, text = c :: rest ∧ p c) :
    ∃ c rest, joinedTexts (text :: texts) = c :: rest ∧ p c := by
  obtain ⟨c, rest, rfl, holds⟩ := first
  cases texts with
  | nil => exact ⟨c, rest, by simp [joinedTexts], holds⟩
  | cons next texts => exact ⟨c, _, by rw [joinedTexts_cons (by simp), List.cons_append], holds⟩

theorem text_begin (before : clause.before = 0) (hyphen : Bool) :
    ∃ c rest, clause.textAs clause.operator.text hyphen = c :: rest ∧ isWhitespace c = false := by
  cases op : clause.operator <;> rw [Clause.textAs, before]
  · exact ⟨'~', _, rfl, by decide⟩
  · exact ⟨'=', _, rfl, by decide⟩
  · exact ⟨'>', _, rfl, by decide⟩
  · exact ⟨'<', _, rfl, by decide⟩
  · exact ⟨'<', _, rfl, by decide⟩
  · exact ⟨'>', _, rfl, by decide⟩

theorem trim_eq {text : List Char} (first : ∃ c rest, text = c :: rest ∧ isWhitespace c = false)
    (last : ∃ rest, ∃ c : Char, text = rest ++ [c] ∧ c.isDigit = true) : trim text = text := by
  simpa [spaces] using @trim_spaces 0 0 text first last

namespace Specifier

variable (specifier : Specifier)

/-- The clauses, without the spaces around them. -/
def body : List Char := joinedTexts (specifier.clauses.map Clause.text)

theorem body_begin : ∃ c rest, specifier.body = c :: rest ∧ isWhitespace c = false := by
  obtain ⟨first, rest, eq⟩ := List.exists_cons_of_ne_nil specifier.nonempty
  rw [body, eq, List.map_cons]
  exact joinedTexts_begin (text_begin (specifier.first first (by simp [eq])) false)

theorem texts_end (hyphen : Bool) : ∀ text ∈
      (specifier.clauses.map fun clause => clause.textAs clause.operator.text hyphen).getLast?,
    ∃ rest, ∃ c : Char, text = rest ++ [c] ∧ c.isDigit = true := by
  intro text mem
  rw [List.getLast?_map, Option.mem_def, Option.map_eq_some_iff] at mem
  obtain ⟨clause, last, rfl⟩ := mem
  exact textAs_end (specifier.last clause last)

theorem body_end : ∃ rest, ∃ c : Char, specifier.body = rest ++ [c] ∧ c.isDigit = true :=
  joinedTexts_end (by simpa using specifier.nonempty) (specifier.texts_end false)

theorem trimmed : trim (stripInlineComment specifier.text) = specifier.body := by
  have fresh : '#' ∉ specifier.text := by
    have inside : '#' ∉ specifier.body := fun mem => by
      rcases mem_joinedTexts isClauseChar_texts _ mem with char | comma
      · revert char
        decide
      · cases comma
    simpa [text, spaces, body] using inside
  rw [stripInlineComment, Library.splitOnce_eq_none.mpr fresh]
  exact trim_spaces specifier.body_begin specifier.body_end

theorem hyphenatePrerelease_body : hyphenatePrerelease (trim specifier.body) =
    joinedTexts (specifier.clauses.map Clause.hyphenated) := by
  rw [trim_eq specifier.body_begin specifier.body_end]
  exact hyphenateFrom_joinedTexts specifier.clauses false

end Specifier

theorem joinedTexts_first (before : first.before = 0) :
    joinedTexts ((first :: rest).map Clause.hyphenated) =
      first.operator.text ++ (spaces first.inner ++ behindOperator first rest) := by
  have text : first.hyphenated = first.operator.text ++ (spaces first.inner ++
      (first.core ++ (first.hyphenatedTag ++ spaces first.after))) := by
    simp [Clause.hyphenated_eq, Clause.front, before, spaces]
  rw [behindOperator, List.map_cons, text]
  cases rest with
  | nil => simp [joinedTexts]
  | cons next rest => simp [joinedTexts_cons]

/-- What stands behind the operator begins and ends with digits. -/
theorem trim_behindOperator (last : ∀ clause ∈ (first :: rest).getLast?, clause.after = 0) :
    trim (spaces first.inner ++ behindOperator first rest) = behindOperator first rest := by
  have begins : ∃ c rest', behindOperator first rest = c :: rest' ∧ isWhitespace c = false := by
    obtain ⟨c, rest', eq, digit⟩ := coreText_begin first.major first.minor first.patch
    exact joinedTexts_begin ⟨c, rest' ++ (first.hyphenatedTag ++ spaces first.after),
      by rw [Clause.core, eq, List.cons_append], isWhitespace_of_isDigit digit⟩
  have ends : ∃ rest' c, behindOperator first rest = rest' ++ [c] ∧ c.isDigit = true := by
    refine joinedTexts_end (by simp) fun text mem => ?_
    cases rest with
    | nil =>
      have noneEq : first.after = 0 := last first (by simp)
      obtain rfl : _ = text := by simpa using mem
      simpa [Clause.textAs, spaces, Clause.core, Clause.hyphenatedTag, Clause.tagText] using
        @textAs_end { first with before := 0, inner := 0 } true [] noneEq
    | cons next rest =>
      rw [List.map_cons, List.getLast?_cons_cons, ← List.map_cons, List.getLast?_map,
        Option.mem_def, Option.map_eq_some_iff] at mem
      obtain ⟨clause, mem, rfl⟩ := mem
      exact textAs_end (last clause (by simpa [List.getLast?_cons_cons] using mem))
  have trimmed := @trim_spaces first.inner 0 (behindOperator first rest) begins ends
  rwa [show spaces 0 = [] from rfl, List.append_nil] at trimmed

section

variable {specifier : Specifier} (eq : specifier.clauses = first :: rest)
include eq

theorem hyphenated_body : hyphenatePrerelease (trim specifier.body) =
    first.operator.text ++ (spaces first.inner ++ behindOperator first rest) := by
  rw [specifier.hyphenatePrerelease_body, eq,
    joinedTexts_first (specifier.first first (by simp [eq]))]

theorem last_of_eq : ∀ clause ∈ (first :: rest).getLast?, clause.after = 0 :=
  eq ▸ specifier.last

theorem pep440ToSemverReq_compatible (op : first.operator = .compatible) :
    pep440ToSemverReq specifier.body = compatibleRelease (behindOperator first rest) := by
  simp only [pep440ToSemverReq, hyphenated_body eq, op, ClauseOperator.text,
    Library.dropPrefix?_append, trim_behindOperator (last_of_eq eq)]

theorem pep440ToSemverReq_equal (op : first.operator = .equal) :
    pep440ToSemverReq specifier.body = some ('=' :: behindOperator first rest) := by
  have other : ∀ text, (['=', '='] ++ text).dropPrefix? ['~', '='] = none := fun text => by
    simp [List.dropPrefix?]
  simp only [pep440ToSemverReq, hyphenated_body eq, op, ClauseOperator.text, other,
    Library.dropPrefix?_append, trim_behindOperator (last_of_eq eq)]

/-- A list that begins with an operator of the crate gets hyphens only. -/
theorem pep440ToSemverReq_alike (alike : first.operator.alike ≠ none) :
    pep440ToSemverReq specifier.body =
      some (joinedTexts ((first :: rest).map Clause.hyphenated)) := by
  have other : ∀ text, (first.operator.text ++ text).dropPrefix? ['~', '='] = none ∧
      (first.operator.text ++ text).dropPrefix? ['=', '='] = none := fun text => by
    cases op : first.operator <;> simp_all [ClauseOperator.text, ClauseOperator.alike,
      List.dropPrefix?]
  rw [pep440ToSemverReq, hyphenated_body eq, (other _).1, (other _).2,
    joinedTexts_first (specifier.first first (by simp [eq]))]

end

/-! ## When the translation is right -/

/-- What is added behind the clauses, if they begin with a compatible release. -/
def addedBound : List Clause → Option (UInt64 × List Clause)
  | [] => none
  | first :: rest => if first.operator = .compatible then upperBound first rest else none

/-- The clauses are translated to what the crate parses: operators that it has not stand first only,
tags stand behind three numbers, and neither the comparators nor the bumped number get too many. -/
structure Translatable (clauses : List Clause) : Prop where
  later : ∀ clause ∈ clauses.tail, clause.operator.alike ≠ none
  tagged : ∀ clause ∈ clauses, clause.tag ≠ none → clause.patch ≠ none
  few : clauses.length + ((addedBound clauses).elim 0 fun bound => bound.2.length) ≤ maxComparators
  bounded : ∀ bound ∈ addedBound clauses, bound.1.toNat + 1 < 2 ^ 64

namespace Clause

variable (clauses : List Clause) (clause : Clause) (v : Release)

/-- A release is let in that the clause does not admit: it goes on behind the two numbers of the
clause, or no bound is added to a compatible release. -/
def LetsIn : Prop :=
  clause.Widened v ∨ clause.operator = .compatible ∧ addedBound clauses = none ∧
    ¬v.Before clause.release ∧ ¬clause.Admits v

/-- A release is left out that the clause admits: it goes on behind the two numbers of the clause,
or the bound of a compatible release begins with its own release. -/
def LeavesOut : Prop :=
  clause.Narrowed v ∨ clause.operator = .compatible ∧ (∃ bound ∈ addedBound clauses,
    1 < bound.2.length) ∧ clause.Admits v

/-- The release is accepted as far as the clause goes. -/
def Accepts : Prop := (clause.Admits v ∨ clause.LetsIn clauses v) ∧ ¬clause.LeavesOut clauses v

end Clause

/-- The specifier is parsed, and the result accepts just these releases. -/
def AcceptedAs (semver : Flatten.Semver) (accepts : semver.Comparator → Release → Prop)
    (specifier : Specifier) (admits : Release → Prop) : Prop :=
  ∃ comparators, parseVyperVersionReq semver specifier.text = some (some comparators) ∧
    ∀ v, (∀ comparator ∈ comparators, accepts comparator v) ↔ admits v

/-- The result accepts the releases that all clauses admit. -/
def TranslatesExactly (semver : Flatten.Semver) (accepts : semver.Comparator → Release → Prop)
    (specifier : Specifier) : Prop :=
  AcceptedAs semver accepts specifier fun v => ∀ clause ∈ specifier.clauses, clause.Admits v

/-- What is let in is kept out by another clause, and what is left out is not admitted by another
one either. -/
def Masked (clauses : List Clause) (v : Release) : Prop :=
  ((∃ clause ∈ clauses, clause.LetsIn clauses v) → ∃ clause ∈ clauses, clause.LeavesOut clauses v ∨
    ¬clause.Admits v ∧ ¬clause.LetsIn clauses v) ∧
  ((∃ clause ∈ clauses, clause.LeavesOut clauses v) → ∃ clause ∈ clauses, ¬clause.Admits v)

theorem not_admits_of_letsIn (letsIn : clause.LetsIn clauses v) : ¬clause.Admits v := by
  rcases letsIn with ⟨operator, two, major, minor, patch⟩ | ⟨-, -, -, refused⟩
  · have other : v ≠ clause.release ∧ ¬v.Before clause.release := by
      rw [Clause.release, two]
      refine ⟨?_, ?_⟩
      · rintro rfl
        simp at patch
      · simp [Release.Before, major, minor]
    rcases operator with op | op <;> simp [Clause.Admits, op, other]
  · exact refused

theorem masked_iff : Masked clauses v ↔
    ((∀ clause ∈ clauses, clause.Accepts clauses v) ↔ ∀ clause ∈ clauses, clause.Admits v) := by
  constructor
  · rintro ⟨kept, left⟩
    constructor
    · intro accepted clause mem
      by_contra refused
      obtain ⟨other, mem', out⟩ := kept ⟨clause, mem, (accepted clause mem).1.resolve_left refused⟩
      have := accepted other mem'
      unfold Clause.Accepts at this
      tauto
    · intro admitted clause mem
      refine ⟨.inl (admitted clause mem), fun out => ?_⟩
      obtain ⟨other, mem', refused⟩ := left ⟨clause, mem, out⟩
      exact refused (admitted other mem')
  · intro same
    constructor
    · rintro ⟨clause, mem, letsIn⟩
      by_contra noneEq
      push Not at noneEq
      have accepted : ∀ clause ∈ clauses, clause.Accepts clauses v := fun other mem' =>
        ⟨or_iff_not_imp_left.mpr (noneEq other mem').2, (noneEq other mem').1⟩
      exact not_admits_of_letsIn letsIn (same.mp accepted clause mem)
    · rintro ⟨clause, mem, out⟩
      by_contra noneEq
      push Not at noneEq
      exact (same.mpr noneEq clause mem).2 out

theorem accepts_iff_takes (other : clause.operator ≠ .compatible) :
    clause.Accepts clauses v ↔ clause.Takes v := by
  simp [Clause.Accepts, Clause.Takes, Clause.LetsIn, Clause.LeavesOut, other]

theorem ne_compatible_of_alike (alike : clause.operator.alike ≠ none) :
    clause.operator ≠ .compatible := fun op => alike (by rw [op]; rfl)

/-! ### The first clause has an operator of the crate -/

section

variable {specifier : Specifier} {admits : Release → Prop}

theorem acceptedAs_body (parses : Parses semver accepts specifier.body admits) :
    AcceptedAs semver accepts specifier admits := by
  obtain ⟨comparators, parsed, accepted⟩ := parses
  exact ⟨comparators, by simp [parseVyperVersionReq, specifier.trimmed, parsed], accepted⟩

theorem acceptedAs_translated {text : List Char}
    (unparsed : semver.parse (.ofList specifier.body) = none)
    (translated : pep440ToSemverReq specifier.body = some text)
    (parses : Parses semver accepts text admits) : AcceptedAs semver accepts specifier admits := by
  obtain ⟨comparators, parsed, accepted⟩ := parses
  exact ⟨comparators, by
    simp [parseVyperVersionReq, specifier.trimmed, unparsed, translated, parsed], accepted⟩

theorem not_acceptedAs (unparsed : semver.parse (.ofList specifier.body) = none)
    (untranslated : ∀ text, pep440ToSemverReq specifier.body = some text →
      semver.parse (.ofList text) = none) : ¬AcceptedAs semver accepts specifier admits := by
  rintro ⟨comparators, parsed, -⟩
  simp only [parseVyperVersionReq, specifier.trimmed, unparsed, Option.map_eq_some_iff] at parsed
  obtain ⟨text, translated, parsed⟩ := parsed
  rw [untranslated text translated] at parsed
  cases parsed

theorem acceptedAs_iff {admits' : Release → Prop}
    (accepted : AcceptedAs semver accepts specifier admits) :
    AcceptedAs semver accepts specifier admits' ↔ ∀ v, admits v ↔ admits' v := by
  obtain ⟨comparators, parsed, accepted⟩ := accepted
  constructor
  · rintro ⟨comparators', parsed', accepted'⟩ v
    cases parsed.symm.trans parsed'
    exact (accepted v).symm.trans (accepted' v)
  · exact fun same => ⟨comparators, parsed, fun v => (accepted v).trans (same v)⟩

end

theorem translatable_cons : Translatable (first :: rest) ↔ (∀ clause ∈ rest, clause.Readable) ∧
    (first.tag ≠ none → first.patch ≠ none) ∧
    (first :: rest).length + ((addedBound (first :: rest)).elim 0 fun bound => bound.2.length) ≤
      maxComparators ∧ ∀ bound ∈ addedBound (first :: rest), bound.1.toNat + 1 < 2 ^ 64 := by
  constructor
  · rintro ⟨later, tagged, few, bounded⟩
    rw [List.forall_mem_cons] at tagged
    exact ⟨fun clause mem => ⟨later clause mem, tagged.2 clause mem⟩, tagged.1, few, bounded⟩
  · rintro ⟨readable, three, few, bounded⟩
    exact ⟨fun clause mem => (readable clause mem).1,
      List.forall_mem_cons.mpr ⟨three, fun clause mem => (readable clause mem).2⟩, few, bounded⟩

theorem addedBound_eq_none (other : first.operator ≠ .compatible) :
    addedBound (first :: rest) = none := if_neg other

/-- The texts of the clauses, with the operator of the crate before the first one. -/
def equalTexts (first : Clause) (rest : List Clause) : List (List Char) :=
  { first with before := 0, inner := 0 }.textAs Operator.exact.text true ::
    rest.map Clause.hyphenated

section

variable {specifier : Specifier} {admits : Release → Prop}
  (documented : Documented semver accepts) (eq : specifier.clauses = first :: rest)
include documented eq

/-! ### The first clause has an operator of the crate -/

omit documented in
theorem body_eq_hyphenated (untagged : ∀ clause ∈ first :: rest, clause.tag = none) :
    specifier.body = joinedTexts ((first :: rest).map Clause.hyphenated) := by
  rw [Specifier.body, eq, List.map_congr_left]
  intro clause mem
  simp [Clause.text, Clause.hyphenated, Clause.textAs, Clause.tagText, Clause.hyphenatedTag,
    untagged clause mem]

/-- What is tagged, or not read by the crate with its hyphens, is not parsed without them. -/
theorem parse_body_eq_none (unread : (first :: rest).length ≤ maxComparators →
      ∃ clause ∈ first :: rest, clause.tag ≠ none ∨ ¬clause.Readable) :
    semver.parse (.ofList specifier.body) = none := by
  refine parse_joinedTexts_eq_none documented (by simp [eq]) isClauseChar_texts ?_
  rw [List.length_map, eq]
  intro few
  obtain ⟨clause, mem, unreadable⟩ := unread few
  refine ⟨clause.text, List.mem_map_of_mem mem, ?_⟩
  have unread' : ¬(clause.tag = none ∨ false = true ∧ clause.patch.isSome) ∨
      clause.operator.alike = none := by
    by_contra read
    push Not at read
    rcases unreadable with tagged | unreadable
    · simp [tagged] at read
    · exact unreadable ⟨read.2, fun tagged => by simp [tagged] at read⟩
  rw [Clause.text, readComparison_eq, Clause.read]
  cases alike : clause.operator.alike with
  | none => rfl
  | some operator => exact if_neg (unread'.resolve_right (by simp [alike]))

theorem acceptedAs_of_alike (alike : first.operator.alike ≠ none)
    (translatable : Translatable (first :: rest)) :
    AcceptedAs semver accepts specifier fun v => ∀ clause ∈ first :: rest, clause.Takes v := by
  rw [translatable_cons, addedBound_eq_none (ne_compatible_of_alike alike)] at translatable
  obtain ⟨later, three, few, -⟩ := translatable
  have readable : ∀ clause ∈ first :: rest, clause.Readable :=
    List.forall_mem_cons.mpr ⟨⟨alike, three⟩, later⟩
  have parses := parses_hyphenated documented (by simp) few readable
  by_cases untagged : ∀ clause ∈ first :: rest, clause.tag = none
  · rw [← body_eq_hyphenated eq untagged] at parses
    exact acceptedAs_body parses
  · push Not at untagged
    obtain ⟨clause, mem, tagged⟩ := untagged
    exact acceptedAs_translated (parse_body_eq_none documented eq fun _ =>
      ⟨clause, mem, .inl tagged⟩) (pep440ToSemverReq_alike eq alike) parses

theorem not_acceptedAs_of_alike (alike : first.operator.alike ≠ none)
    (untranslatable : ¬Translatable (first :: rest)) :
    ¬AcceptedAs semver accepts specifier admits := by
  rw [translatable_cons, addedBound_eq_none (ne_compatible_of_alike alike)] at untranslatable
  have unread : (first :: rest).length ≤ maxComparators →
      ∃ clause ∈ first :: rest, ¬clause.Readable := by
    intro few
    by_contra readable
    push Not at readable
    rw [List.forall_mem_cons] at readable
    exact untranslatable ⟨readable.2, readable.1.2, few, by simp⟩
  refine not_acceptedAs (parse_body_eq_none documented eq fun few => ?_) fun text translated => ?_
  · obtain ⟨clause, mem, unreadable⟩ := unread few
    exact ⟨clause, mem, .inr unreadable⟩
  · rw [pep440ToSemverReq_alike eq alike, Option.some.injEq] at translated
    rw [← translated]
    exact parse_hyphenated_eq_none documented (by simp) unread

/-! ### The first clause is an equality -/

omit documented eq in
theorem joinedTexts_equal :
    '=' :: behindOperator first rest = joinedTexts (equalTexts first rest) := by
  have text : ({ first with before := 0, inner := 0 } : Clause).textAs Operator.exact.text true =
      '=' :: (first.core ++ (first.hyphenatedTag ++ spaces first.after)) := by
    simp [Clause.textAs, Operator.text, spaces, Clause.core, Clause.hyphenatedTag, Clause.tagText]
  rw [behindOperator, equalTexts, text]
  cases rest with
  | nil => rfl
  | cons next rest => simp [joinedTexts_cons]

omit documented eq in
theorem isClauseChar_equal : ∀ text ∈ equalTexts first rest, ∀ c ∈ text,
    isClauseChar c = true := by
  have all : Operator.exact.text.all isClauseChar = true := by decide
  exact List.forall_mem_cons.mpr
    ⟨isClauseChar_textAs (List.all_eq_true.mp all), isClauseChar_hyphenated⟩

theorem acceptedAs_of_equal (op : first.operator = .equal)
    (translatable : Translatable (first :: rest)) :
    AcceptedAs semver accepts specifier fun v => ∀ clause ∈ first :: rest, clause.Takes v := by
  rw [translatable_cons, addedBound_eq_none (by simp [op])] at translatable
  obtain ⟨later, three, few, -⟩ := translatable
  have unparsed : semver.parse (.ofList specifier.body) = none :=
    parse_body_eq_none documented eq fun _ =>
      ⟨first, .head _, .inr fun readable => readable.1 (by rw [op]; rfl)⟩
  have written : first.tag = none ∨ true = true ∧ first.patch.isSome := by
    by_cases tag : first.tag = none
    · exact .inl tag
    · exact .inr ⟨rfl, Option.isSome_iff_ne_none.mpr (three tag)⟩
  have firstRead :=
    @readComparison_textAs { first with before := 0, inner := 0 } .exact true written
  have firstTakes : ∀ v, (first.comparison .exact).Meets v ↔ first.Takes v :=
    fun v => comparison_meets_iff (.inr ⟨op, rfl⟩) three
  have nonempty : equalTexts first rest ≠ [] := by simp [equalTexts]
  obtain ⟨comparators, parsed, accepted⟩ := parses_joinedTexts documented nonempty
    isClauseChar_equal (by simpa [equalTexts] using few) (by
      refine List.forall_mem_cons.mpr ⟨by rw [firstRead]; rfl, fun text textMem => ?_⟩
      obtain ⟨clause, mem, rfl⟩ := List.mem_map.mp textMem
      rw [Clause.hyphenated, readComparison_eq]
      exact read_isSome.mpr (later clause mem))
  refine acceptedAs_translated unparsed
    ((pep440ToSemverReq_equal eq op).trans (congrArg some joinedTexts_equal))
    ⟨comparators, parsed, fun v => (accepted v).trans ?_⟩
  simp only [equalTexts, List.forall_mem_cons, List.forall_mem_map]
  refine and_congr ?_ (forall₂_congr fun clause mem => ?_)
  · rw [firstRead]
    simp only [Option.mem_def, Option.some.injEq, forall_eq']
    exact firstTakes v
  · rw [Clause.hyphenated, readComparison_eq]
    exact meets_read (later clause mem)

theorem not_acceptedAs_of_equal (op : first.operator = .equal)
    (untranslatable : ¬Translatable (first :: rest)) :
    ¬AcceptedAs semver accepts specifier admits := by
  rw [translatable_cons, addedBound_eq_none (by simp [op])] at untranslatable
  have unparsed : semver.parse (.ofList specifier.body) = none :=
    parse_body_eq_none documented eq fun _ =>
      ⟨first, .head _, .inr fun readable => readable.1 (by rw [op]; rfl)⟩
  refine not_acceptedAs unparsed fun text translated => ?_
  rw [pep440ToSemverReq_equal eq op, joinedTexts_equal, Option.some.injEq] at translated
  rw [← translated]
  refine parse_joinedTexts_eq_none documented (by simp [equalTexts]) isClauseChar_equal ?_
  intro few
  by_cases three : first.tag ≠ none → first.patch ≠ none
  · have unread : ∃ clause ∈ rest, ¬clause.Readable := by
      by_contra readable
      push Not at readable
      exact untranslatable ⟨readable, three, by simpa [equalTexts] using few, by simp⟩
    obtain ⟨clause, mem, unreadable⟩ := unread
    refine ⟨_, .tail _ (List.mem_map_of_mem mem), ?_⟩
    rw [Clause.hyphenated, readComparison_eq]
    exact Option.not_isSome_iff_eq_none.mp fun someEq => unreadable (read_isSome.mp someEq)
  · push Not at three
    exact ⟨_, .head _, readComparison_tagged (Option.isSome_iff_ne_none.mpr three.1) (.inr three.2)⟩

end

/-! ### The first clause is a compatible release -/

theorem upperBound_cases {n : UInt64} {added : List Clause}
    (bound : upperBound first rest = some (n, added)) :
    n = first.bumpNumber ∧ added = [first.upper] ∨
      ∃ next rest', rest = next :: rest' ∧ first.tag = none ∧
        added = first.strict :: bumpFarthest next rest' := by
  cases rest with
  | nil =>
    cases bound
    exact .inl ⟨rfl, rfl⟩
  | cons next rest =>
    rw [upperBound] at bound
    split_ifs at bound with tag patch
    · cases bound
      exact .inl ⟨rfl, rfl⟩
    · cases bound
      exact .inr ⟨next, rest, rfl, by simpa using tag, rfl⟩

theorem readable_bumpFarthest {next : Clause}
    (readable : ∀ clause ∈ next :: rest, clause.Readable) :
    ∀ clause ∈ bumpFarthest next rest, clause.Readable := by
  have bumped : next.bumped.Readable :=
    ⟨(readable next (.head _)).1, fun tagged => absurd rfl tagged⟩
  induction rest generalizing next with
  | nil => simpa [bumpFarthest] using bumped
  | cons after rest ih =>
    rw [bumpFarthest]
    split_ifs
    · simpa using bumped
    · rw [List.forall_mem_cons] at readable ⊢
      exact ⟨readable.1, ih readable.2
        ⟨(readable.2 after (.head _)).1, fun tagged => absurd rfl tagged⟩⟩

theorem readable_lower (three : first.tag ≠ none → first.patch ≠ none) : first.lower.Readable :=
  ⟨by simp [Clause.lower, ClauseOperator.alike], three⟩

theorem readable_added {n : UInt64} {added : List Clause}
    (bound : upperBound first rest = some (n, added))
    (readable : ∀ clause ∈ rest, clause.Readable) : ∀ clause ∈ added, clause.Readable := by
  rcases upperBound_cases bound with ⟨-, rfl⟩ | ⟨next, rest', rfl, untagged, rfl⟩
  · rw [List.forall_mem_singleton, Clause.upper]
    split_ifs <;> exact ⟨by simp [ClauseOperator.alike], by simp⟩
  · rw [List.forall_mem_cons]
    exact ⟨⟨by simp [Clause.strict, ClauseOperator.alike], fun tagged => absurd untagged tagged⟩,
      readable_bumpFarthest readable⟩

theorem takes_lower : first.lower.Takes v ↔ ¬v.Before first.release := by
  simp [Clause.Takes, Clause.Admits, Clause.Widened, Clause.Narrowed, Clause.lower, Clause.release]

theorem takes_strict : first.strict.Takes v ↔ v.Before first.release := by
  simp [Clause.Takes, Clause.Admits, Clause.Widened, Clause.Narrowed, Clause.strict, Clause.release]

/-- The bound of the clause of its own is the one of a compatible release. -/
theorem takes_upper (op : first.operator = .compatible)
    (fits : first.bumpNumber.toNat + 1 < 2 ^ 64) :
    first.lower.Takes v ∧ first.upper.Takes v ↔ first.Admits v := by
  rw [takes_lower, Clause.Admits, op]
  refine and_congr_right fun after => ?_
  cases patch : first.patch with
  | none =>
    have next : (first.major + 1).toNat = first.major.toNat + 1 :=
      toNat_succ (by simpa [Clause.bumpNumber, patch] using fits)
    simp [Clause.upper, patch, Clause.Takes, Clause.Admits, Clause.Widened, Clause.Narrowed,
      Clause.release, Release.Before, UInt64.lt_iff_toNat_lt, ← UInt64.toNat_inj, next] at after ⊢
    omega
  | some patch' =>
    have next : (first.minor + 1).toNat = first.minor.toNat + 1 :=
      toNat_succ (by simpa [Clause.bumpNumber, patch] using fits)
    simp [Clause.upper, patch, Clause.Takes, Clause.Admits, Clause.Widened, Clause.Narrowed,
      Clause.release, Release.Before, UInt64.lt_iff_toNat_lt, ← UInt64.toNat_inj, next] at after ⊢
    omega

/-- What is added to a compatible release makes of it what it accepts. -/
theorem takes_added {n : UInt64} {added : List Clause} (op : first.operator = .compatible)
    (bound : upperBound first rest = some (n, added)) (fits : n.toNat + 1 < 2 ^ 64) :
    (first.lower.Takes v ∧ ∀ clause ∈ added, clause.Takes v) ↔
      first.Accepts (first :: rest) v := by
  have bound' : addedBound (first :: rest) = some (n, added) := (if_pos op).trans bound
  rcases upperBound_cases bound with ⟨rfl, rfl⟩ | ⟨next, rest', rfl, untagged, rfl⟩
  · rw [List.forall_mem_singleton, takes_upper op fits]
    simp [Clause.Accepts, Clause.LetsIn, Clause.LeavesOut, Clause.Widened, Clause.Narrowed, op,
      bound']
  · have long : 0 < (bumpFarthest next rest').length := by
      cases rest' <;> simp [bumpFarthest]
      split_ifs <;> simp
    have refused : ¬first.Accepts (first :: next :: rest') v := by
      simp [Clause.Accepts, Clause.LetsIn, Clause.LeavesOut, Clause.Widened, Clause.Narrowed, op,
        bound', long]
    rw [takes_lower, List.forall_mem_cons, takes_strict]
    exact iff_of_false (fun taken => taken.1 taken.2.1) refused

/-- Without a bound all that comes after the release is accepted. -/
theorem takes_unbounded (op : first.operator = .compatible) (bound : upperBound first rest = none) :
    first.lower.Takes v ↔ first.Accepts (first :: rest) v := by
  have bound' : addedBound (first :: rest) = none := (if_pos op).trans bound
  have after : first.Admits v → ¬v.Before first.release := by
    rw [Clause.Admits, op]
    exact And.left
  rw [takes_lower]
  simp only [Clause.Accepts, Clause.LetsIn, Clause.LeavesOut, Clause.Widened, Clause.Narrowed, op,
    bound']
  grind

section

variable {specifier : Specifier} {admits : Release → Prop}
  (documented : Documented semver accepts) (eq : specifier.clauses = first :: rest)
  (op : first.operator = .compatible)
include documented eq op

theorem parse_compatible_eq_none : semver.parse (.ofList specifier.body) = none :=
  parse_body_eq_none documented eq fun _ =>
    ⟨first, .head _, .inr fun readable => readable.1 (by rw [op]; rfl)⟩

theorem acceptedAs_of_compatible (translatable : Translatable (first :: rest)) :
    AcceptedAs semver accepts specifier fun v =>
      ∀ clause ∈ first :: rest, clause.Accepts (first :: rest) v := by
  rw [translatable_cons] at translatable
  obtain ⟨later, three, few, bounded⟩ := translatable
  obtain ⟨unbounded, added⟩ :=
    compatibleRelease_behindOperator first rest (last_of_eq eq)
  have boundEq : addedBound (first :: rest) = upperBound first rest := if_pos op
  have restTakes : ∀ v, (∀ clause ∈ rest, clause.Takes v) ↔
      ∀ clause ∈ rest, clause.Accepts (first :: rest) v := fun v =>
    forall₂_congr fun clause mem =>
      (accepts_iff_takes (ne_compatible_of_alike (later clause mem).1)).symm
  rw [boundEq] at few bounded
  cases bound : upperBound first rest with
  | none =>
    rw [bound] at few
    have readable : ∀ clause ∈ first.lower :: rest, clause.Readable :=
      List.forall_mem_cons.mpr ⟨readable_lower three, later⟩
    obtain ⟨comparators, parsed, accepted⟩ :=
      parses_hyphenated documented (by simp) (by simpa using few) readable
    refine acceptedAs_translated (parse_compatible_eq_none documented eq op)
      ((pep440ToSemverReq_compatible eq op).trans (unbounded bound))
      ⟨comparators, parsed, fun v => (accepted v).trans ?_⟩
    simp only [List.forall_mem_cons]
    exact and_congr (takes_unbounded op bound) (restTakes v)
  | some bound' =>
    obtain ⟨n, clauses⟩ := bound'
    rw [bound] at few bounded
    have fits : n.toNat + 1 < 2 ^ 64 := bounded (n, clauses) rfl
    have readable : ∀ clause ∈ first.lower :: rest ++ clauses, clause.Readable := by
      rw [List.cons_append, List.forall_mem_cons, List.forall_mem_append]
      exact ⟨readable_lower three, later, readable_added bound later⟩
    have few' : (first.lower :: rest ++ clauses).length ≤ maxComparators := by
      simpa [Nat.add_right_comm] using few
    obtain ⟨comparators, parsed, accepted⟩ :=
      parses_hyphenated documented (by simp) few' readable
    have translated := added n clauses bound
    rw [if_neg (by omega)] at translated
    refine acceptedAs_translated (parse_compatible_eq_none documented eq op)
      ((pep440ToSemverReq_compatible eq op).trans translated)
      ⟨comparators, parsed, fun v => (accepted v).trans ?_⟩
    simp only [List.cons_append, List.forall_mem_cons, List.forall_mem_append]
    rw [← takes_added op bound fits, ← restTakes v]
    tauto

theorem not_acceptedAs_of_compatible (untranslatable : ¬Translatable (first :: rest)) :
    ¬AcceptedAs semver accepts specifier admits := by
  rw [translatable_cons] at untranslatable
  obtain ⟨unbounded, added⟩ :=
    compatibleRelease_behindOperator first rest (last_of_eq eq)
  have boundEq : addedBound (first :: rest) = upperBound first rest := if_pos op
  rw [boundEq] at untranslatable
  refine not_acceptedAs (parse_compatible_eq_none documented eq op) fun text translated => ?_
  rw [pep440ToSemverReq_compatible eq op] at translated
  cases bound : upperBound first rest with
  | none =>
    rw [unbounded bound, Option.some.injEq] at translated
    rw [← translated]
    refine parse_hyphenated_eq_none documented (by simp) fun few => ?_
    by_contra readable
    push Not at readable
    rw [List.forall_mem_cons] at readable
    exact untranslatable ⟨readable.2, readable.1.2, by simpa [bound] using few, by simp [bound]⟩
  | some bound' =>
    obtain ⟨n, clauses⟩ := bound'
    rw [added n clauses bound] at translated
    split_ifs at translated with overflow
    rw [Option.some.injEq] at translated
    rw [← translated]
    refine parse_hyphenated_eq_none documented (by simp) fun few => ?_
    by_contra readable
    push Not at readable
    rw [List.cons_append, List.forall_mem_cons, List.forall_mem_append] at readable
    refine untranslatable ⟨readable.2.1, readable.1.2, ?_, ?_⟩
    · simpa [bound, Nat.add_right_comm] using few
    · rw [bound]
      rintro _ ⟨⟩
      exact Nat.lt_of_not_le overflow

end

/-! ### All specifiers -/

/-- A specifier is translated to what the crate parses and accepts the releases that its clauses
admit just if it is translatable and no release is let in or left out for good. -/
theorem parseVyperVersionReq_exact (documented : Documented semver accepts)
    (specifier : Specifier) : TranslatesExactly semver accepts specifier ↔
      Translatable specifier.clauses ∧ ∀ v, Masked specifier.clauses v := by
  obtain ⟨first, rest, eq⟩ := List.exists_cons_of_ne_nil specifier.nonempty
  have result : (Translatable (first :: rest) → AcceptedAs semver accepts specifier fun v =>
      ∀ clause ∈ first :: rest, clause.Accepts (first :: rest) v) ∧
      (¬Translatable (first :: rest) → ¬TranslatesExactly semver accepts specifier) := by
    by_cases op : first.operator = .compatible
    · exact ⟨acceptedAs_of_compatible documented eq op,
        not_acceptedAs_of_compatible documented eq op⟩
    · have takes : Translatable (first :: rest) → ∀ v, (∀ clause ∈ first :: rest, clause.Takes v) ↔
          ∀ clause ∈ first :: rest, clause.Accepts (first :: rest) v := by
        intro translatable v
        refine forall₂_congr fun clause mem => (accepts_iff_takes ?_).symm
        rcases List.mem_cons.mp mem with rfl | mem
        · exact op
        · exact ne_compatible_of_alike (translatable.later clause mem)
      by_cases alike : first.operator.alike = none
      · have equal : first.operator = .equal := by
          cases op' : first.operator <;> simp_all [ClauseOperator.alike]
        exact ⟨fun translatable => (acceptedAs_iff (acceptedAs_of_equal documented eq equal
          translatable)).mpr (takes translatable), not_acceptedAs_of_equal documented eq equal⟩
      · exact ⟨fun translatable => (acceptedAs_iff (acceptedAs_of_alike documented eq alike
          translatable)).mpr (takes translatable), not_acceptedAs_of_alike documented eq alike⟩
  rw [eq]
  by_cases translatable : Translatable (first :: rest)
  · simp only [masked_iff, translatable, true_and]
    rw [TranslatesExactly, acceptedAs_iff (result.1 translatable), eq]
  · exact iff_of_false (result.2 translatable) fun both => translatable both.1

/-! ### A crate that does what is documented -/

/-- The crate as it is documented. -/
def documentedSemver : Flatten.Semver :=
  ⟨Comparison, fun text => readComparisons text.toList, id, fun _ => ""⟩

theorem documented_documentedSemver : Documented documentedSemver Comparison.Meets where
  unparsed text _ unread := by simpa [documentedSemver] using unread
  parsed text comparisons _ read :=
    ⟨comparisons, by simpa [documentedSemver] using read, fun _ => .rfl⟩

/-- `~=0.4.0rc1,>=0.4.1, <=0.4.9`, which gets the bound `<0.5.0`. -/
def severalSpecifier : Specifier where
  clauses := [
    { operator := .compatible, major := 0, minor := 4, patch := some 0, tag := some (.rc, 1) },
    { operator := .greaterEq, major := 0, minor := 4, patch := some 1, tag := none },
    { operator := .lessEq, major := 0, minor := 4, patch := some 9, tag := none, before := 1 }]
  nonempty := by simp
  first := by simp
  last := by simp

theorem parseVyperVersionReq_exact_several :
    severalSpecifier.text = "~=0.4.0rc1,>=0.4.1, <=0.4.9".toList ∧
      TranslatesExactly documentedSemver Comparison.Meets severalSpecifier := by
  refine ⟨by decide,
    (parseVyperVersionReq_exact documented_documentedSemver severalSpecifier).mpr ⟨?_, ?_⟩⟩
  · refine translatable_cons.mpr ⟨?_, by simp, by decide, ?_⟩
    · simp [Clause.Readable, ClauseOperator.alike]
    · rintro _ ⟨⟩
      decide
  · simp [Masked, severalSpecifier, Clause.LetsIn, Clause.LeavesOut, Clause.Widened,
      Clause.Narrowed, Clause.Begins, addedBound, upperBound]

/-- `~=0.4.0,>=0.4.0`, where the second clause becomes a part of the bound of the first one. -/
def followedSpecifier : Specifier where
  clauses := [{ operator := .compatible, major := 0, minor := 4, patch := some 0, tag := none },
    { operator := .greaterEq, major := 0, minor := 4, patch := some 0, tag := none }]
  nonempty := by simp
  first := by simp
  last := by simp

theorem not_translatesExactly_followed : followedSpecifier.text = "~=0.4.0,>=0.4.0".toList ∧
    ¬TranslatesExactly documentedSemver Comparison.Meets followedSpecifier := by
  have translatable : Translatable followedSpecifier.clauses := by
    refine translatable_cons.mpr ⟨?_, by simp, by decide, ?_⟩
    · simp [Clause.Readable, ClauseOperator.alike]
    · rintro _ ⟨⟩
      decide
  have accepted := acceptedAs_of_compatible documented_documentedSemver
    (show followedSpecifier.clauses = _ :: _ from rfl) rfl translatable
  refine ⟨by decide, fun exactly => ?_⟩
  -- the release 0.4.0 itself is admitted, and not accepted as the bound is `<0.4.0`
  have same := (acceptedAs_iff accepted).mp exactly ⟨0, 4, 0⟩
  have admitted : ∀ clause ∈ followedSpecifier.clauses, clause.Admits ⟨0, 4, 0⟩ := by
    simp [followedSpecifier, Clause.Admits, Clause.release, Release.Before]
  exact (same.mpr admitted _ (.head _)).2 (.inr ⟨rfl, ⟨_, rfl, by decide⟩, admitted _ (.head _)⟩)

end FoundryCore.Vyper
