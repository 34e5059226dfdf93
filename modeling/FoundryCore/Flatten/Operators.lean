import FoundryCore.Flatten.Versions
import FoundryCore.Library.Unordered

/-!
# Operators of version requirements

A comparator without an operator is exact to Solidity and compatible to the `semver` crate. The
program patches the first comparator of a requirement by the first character of the text, so later
ones stay compatible, and where a wildcard is the whole text there is nothing to patch.
-/

namespace FoundryCore.Flatten

/-- The operators of the `semver` crate. -/
inductive Op
  | exact | greater | greaterEq | less | lessEq | tilde | caret | wildcard
deriving DecidableEq, Repr

def Operator.op : Operator → Op
  | exact => .exact
  | greater => .greater
  | greaterEq => .greaterEq
  | less => .less
  | lessEq => .lessEq
  | tilde => .tilde
  | caret => .caret

/-- The text that is handed to the crate. -/
def commaText (version : String) : List Char :=
  version.toList.map fun c => if c = ' ' then ',' else c

/-- The comparators as they are written. -/
def writtenComparators (version : String) : List (List Char) := (commaText version).splitOn ','

variable (semver : Semver) (op : semver.Comparator → Op)

/-- The crate reads an operator as it is written. What has none begins with a number and is
compatible, or has a wildcard behind the number. -/
def ReadsOperator (written : List Char) (comparator : semver.Comparator) : Prop :=
  match (readOperator written).1 with
  | some operator => op comparator = operator.op
  | none => (∃ c rest, written = c :: rest ∧ c.isDigit = true) ∧
      (op comparator = .caret ∨ op comparator = .wildcard)

/-- What is documented of the crate: a requirement without comparators is a single wildcard, and
other ones have a comparator for each text between commas. -/
structure DocumentedOperators : Prop where
  exact : ∀ comparator, op (semver.exact comparator) = .exact
  wildcard : ∀ text : List Char, ' ' ∉ text →
    (semver.parse (.ofList text) = some [] ↔ IsWildcard text)
  comparators : ∀ (text : List Char) (comparators : List semver.Comparator), ' ' ∉ text →
    comparators ≠ [] → semver.parse (.ofList text) = some comparators →
      List.Forall₂ (ReadsOperator semver op) (text.splitOn ',') comparators

/-- A comparator keeps its operator, and is exact if it is written without one. -/
def KeepsOperator (written : List Char) (comparator : semver.Comparator) : Prop :=
  op comparator = ((readOperator written).1.getD .exact).op

/-- The requirement is read without a panic, and all its comparators as they are written. A single
wildcard is no comparator. -/
def ReadsAsWritten (version : String) : Prop :=
  ∃ result, parseVersionReq semver version = some result ∧
    ∀ comparators, result = some comparators → comparators = [] ∨
      List.Forall₂ (KeepsOperator semver op) (writtenComparators version) comparators

/-- The version is no letter that stands for all versions, and if it can be read at all, all
comparators behind the first have an operator. -/
def OnlyFirstBare (version : String) : Prop :=
  version ≠ "x" ∧ version ≠ "X" ∧ ((semver.parse (.ofList (commaText version))).isSome →
    ∀ written ∈ (writtenComparators version).tail, (readOperator written).1.isSome)

variable {semver op} {version : String}

theorem space_notMem_commaText : ' ' ∉ commaText version := by
  simp only [commaText, List.mem_map, not_exists, not_and]
  intro c _ eq
  split_ifs at eq with space
  · cases eq
  · exact space eq

/-- The characters that a version begins with if its first comparator is taken as it is. -/
def operatorChars : List Char := ['*', '^', '=', '>', '<', '~']

theorem parseVersionReq_eq : parseVersionReq semver version =
    match semver.parse (.ofList (commaText version)) with
    | none => some none
    | some comparators =>
      if (commaText version).head?.any (· ∈ operatorChars) then some (some comparators)
      else comparators.head?.map fun first => some (semver.exact first :: comparators.tail) := by
  simp only [parseVersionReq]
  rw [← commaText]
  generalize commaText version = text
  generalize semver.parse (.ofList text) = parsed
  cases parsed with
  | none => rfl
  | some comparators =>
    cases text with
    | nil => cases comparators <;> simp
    | cons c text =>
      by_cases operator : c ∈ operatorChars
      · have same : c ∈ ['*', '^', '=', '>', '<', '~'] := operator
        simp [operator, same]
      · have same : c ∉ ['*', '^', '=', '>', '<', '~'] := operator
        cases comparators <;> simp [operator, same]

/-- An operator is told by its first character. -/
theorem readOperator_isSome_iff (written : List Char) : (readOperator written).1.isSome ↔
    ∃ c ∈ written.head?, c ∈ operatorChars ∧ c ≠ '*' := by
  cases written with
  | nil => simp [readOperator]
  | cons c rest =>
    simp only [List.head?_cons, Option.mem_some_iff, exists_eq_left']
    unfold readOperator
    split <;> simp_all [operatorChars]

theorem head?_of_splitOn {text written : List Char} {rest : List (List Char)}
    (split : text.splitOn ',' = written :: rest) :
    written.head? = text.head?.filter (· ≠ ',') := by
  cases text with
  | nil =>
    obtain ⟨rfl, -⟩ := List.cons.inj split
    rfl
  | cons c text =>
    rw [List.splitOn_cons_eq_if_modifyHead] at split
    split_ifs at split with comma
    · obtain ⟨rfl, -⟩ := List.cons.inj split
      have comma : c = ',' := by simpa using comma
      simp [Option.filter, comma]
    · cases rest' : text.splitOn ',' with
      | nil => simp [rest'] at split
      | cons first rest'' =>
        rw [rest', List.modifyHead_cons] at split
        obtain ⟨rfl, -⟩ := List.cons.inj split
        have other : c ≠ ',' := by simpa using comma
        simp [Option.filter, other]

/-- The first comparator begins like the text. -/
theorem begins_eq {text written : List Char} {rest : List (List Char)}
    (split : text.splitOn ',' = written :: rest) :
    written.head?.any (· ∈ operatorChars) = text.head?.any (· ∈ operatorChars) := by
  rw [head?_of_splitOn split]
  cases text.head? with
  | none => rfl
  | some c =>
    by_cases comma : c = ','
    · subst comma
      rfl
    · simp [Option.filter, comma]

/-- The first comparator is patched unless the text begins with one of the characters. -/
theorem keeps_first (documented : DocumentedOperators semver op) {written : List Char}
    {comparator : semver.Comparator} (reads : ReadsOperator semver op written comparator) :
    KeepsOperator semver op written (if written.head?.any (· ∈ operatorChars) then comparator
      else semver.exact comparator) := by
  cases operator : (readOperator written).1 with
  | some operator' =>
    have begins : written.head?.any (· ∈ operatorChars) = true := by
      obtain ⟨c, head, mem, -⟩ := (readOperator_isSome_iff written).mp (by rw [operator]; rfl)
      simp [Option.mem_def.mp head, mem]
    rw [if_pos begins]
    simpa [KeepsOperator, ReadsOperator, operator] using reads
  | none =>
    simp only [ReadsOperator, operator] at reads
    obtain ⟨⟨c, rest, rfl, digit⟩, -⟩ := reads
    have other : c ∉ operatorChars := by
      intro mem
      simp only [operatorChars, List.mem_cons, List.not_mem_nil, or_false] at mem
      rcases mem with rfl | rfl | rfl | rfl | rfl | rfl <;> cases digit
    simp [KeepsOperator, operator, other, documented.exact, Operator.op]

/-- A comparator that is not patched is kept if and only if it has an operator. -/
theorem keeps_iff {written : List Char} {comparator : semver.Comparator}
    (reads : ReadsOperator semver op written comparator) :
    KeepsOperator semver op written comparator ↔ (readOperator written).1.isSome := by
  cases operator : (readOperator written).1 with
  | some operator' =>
    simpa [KeepsOperator, ReadsOperator, operator] using reads
  | none =>
    simp only [ReadsOperator, operator] at reads
    rcases reads.2 with caret | wildcard
    · simp [KeepsOperator, operator, caret, Operator.op]
    · simp [KeepsOperator, operator, wildcard, Operator.op]

theorem keeps_rest {writtens : List (List Char)} {comparators : List semver.Comparator}
    (reads : List.Forall₂ (ReadsOperator semver op) writtens comparators) :
    List.Forall₂ (KeepsOperator semver op) writtens comparators ↔
      ∀ written ∈ writtens, (readOperator written).1.isSome := by
  induction reads with
  | nil => simp
  | cons first _ ih => rw [List.forall₂_cons, List.forall_mem_cons, keeps_iff first, ih]

/-- What is read for a requirement with comparators. -/
theorem parseVersionReq_cons {first : semver.Comparator} {comparators : List semver.Comparator}
    (parsed : semver.parse (.ofList (commaText version)) = some (first :: comparators)) :
    parseVersionReq semver version = some (some ((if (commaText version).head?.any
      (· ∈ operatorChars) then first else semver.exact first) :: comparators)) := by
  rw [parseVersionReq_eq, parsed]
  split_ifs <;> rfl

theorem commaText_eq_singleton {c : Char} (other : c ≠ ',') (eq : commaText version = [c]) :
    version.toList = [c] := by
  obtain ⟨d, only, same⟩ := List.map_eq_singleton_iff.mp eq
  split_ifs at same with space
  · exact absurd same.symm other
  · rw [only, same]

/-- A letter that stands for all versions leaves nothing to patch. -/
theorem parseVersionReq_letter (documented : DocumentedOperators semver op)
    (letter : version = "x" ∨ version = "X") : parseVersionReq semver version = none := by
  have noneEq : semver.parse (.ofList (commaText version)) = some [] := by
    refine (documented.wildcard _ space_notMem_commaText).mpr ?_
    rcases letter with rfl | rfl
    · exact .inr (.inl rfl)
    · exact .inr (.inr rfl)
  have text : commaText version = ['x'] ∨ commaText version = ['X'] :=
    letter.imp (fun eq => by rw [eq]; rfl) (fun eq => by rw [eq]; rfl)
  rw [parseVersionReq_eq, noneEq]
  rcases text with text | text <;> simp [text, operatorChars]

/-- Of the requirements without comparators, the star is read and the letters are not. -/
theorem readsAsWritten_nil (documented : DocumentedOperators semver op)
    (parsed : semver.parse (.ofList (commaText version)) = some []) :
    ReadsAsWritten semver op version ↔ OnlyFirstBare semver version := by
  have wildcard : IsWildcard (commaText version) :=
    (documented.wildcard _ space_notMem_commaText).mp parsed
  rcases wildcard with star | letter
  · have read : parseVersionReq semver version = some (some []) := by
      rw [parseVersionReq_eq, parsed]
      simp [star, operatorChars]
    refine iff_of_true ⟨_, read, fun comparators eq => .inl (by simpa using eq.symm)⟩ ⟨?_, ?_, ?_⟩
    · rintro rfl
      cases star
    · rintro rfl
      cases star
    · intro _
      rw [writtenComparators, star]
      decide
  · have letter : version = "x" ∨ version = "X" := by
      refine letter.imp (fun eq => ?_) (fun eq => ?_)
      · exact String.toList_inj.mp (commaText_eq_singleton (by decide) eq)
      · exact String.toList_inj.mp (commaText_eq_singleton (by decide) eq)
    refine iff_of_false ?_ ?_
    · rintro ⟨result, read, -⟩
      simp [parseVersionReq_letter documented letter] at read
    · rintro ⟨lower, upper, -⟩
      exact letter.elim lower upper

/-- A requirement is read as it is written if and only if it is no letter and only its first
comparator may lack an operator. -/
theorem readsAsWritten_iff (documented : DocumentedOperators semver op) (version : String) :
    ReadsAsWritten semver op version ↔ OnlyFirstBare semver version := by
  have noLetter (notNil : semver.parse (.ofList (commaText version)) ≠ some []) :
      version ≠ "x" ∧ version ≠ "X" := by
    constructor
    · rintro rfl
      exact notNil ((documented.wildcard _ space_notMem_commaText).mpr (.inr (.inl rfl)))
    · rintro rfl
      exact notNil ((documented.wildcard _ space_notMem_commaText).mpr (.inr (.inr rfl)))
  cases parsed : semver.parse (.ofList (commaText version)) with
  | none =>
    have read : parseVersionReq semver version = some none := by
      rw [parseVersionReq_eq, parsed]
    obtain ⟨lower, upper⟩ := noLetter (by simp [parsed])
    exact iff_of_true ⟨_, read, by simp⟩ ⟨lower, upper, by simp [parsed]⟩
  | some comparators =>
    cases comparators with
    | nil => exact readsAsWritten_nil documented parsed
    | cons first comparators =>
      obtain ⟨lower, upper⟩ := noLetter (by simp [parsed])
      have each := documented.comparators _ _ space_notMem_commaText (by simp) parsed
      obtain ⟨written, rest, firstReads, restReads, split⟩ : ∃ written rest,
          ReadsOperator semver op written first ∧
            List.Forall₂ (ReadsOperator semver op) rest comparators ∧
            writtenComparators version = written :: rest := by
        obtain ⟨written, rest, reads, reads', eq⟩ := List.forall₂_cons_right_iff.mp each
        exact ⟨written, rest, reads, reads', eq⟩
      have firstKept := keeps_first documented firstReads
      have read := parseVersionReq_cons parsed
      rw [begins_eq split] at firstKept
      generalize (if (commaText version).head?.any (· ∈ operatorChars) then first
        else semver.exact first) = patched at firstKept read
      have kept : ReadsAsWritten semver op version ↔
          List.Forall₂ (KeepsOperator semver op) rest comparators := by
        simp [ReadsAsWritten, read, split, firstKept]
      rw [kept, keeps_rest restReads, OnlyFirstBare, parsed, split]
      simp [lower, upper]

/-! ## Two versions -/

/-- A comparator without spaces: an operator, and a version that begins with a number. -/
def readComparator (written : List Char) : Option Item :=
  let (operator, rest) := readOperator written
  if rest.head?.any Char.isDigit ∧ rest.all isVersionChar then some ⟨operator, rest⟩ else none

/-- Requirements as the crate reads them, without pre-releases. -/
def strictlyRead : Semver where
  Comparator := Item
  parse text :=
    if text.toList = ['*'] ∨ text.toList = ['x'] ∨ text.toList = ['X'] then some []
    else (text.toList.splitOn ',').mapM readComparator
  exact comparator := ⟨some .exact, comparator.version⟩
  toString comparator := .ofList comparator.text

instance : DecidableEq strictlyRead.Comparator := inferInstanceAs (DecidableEq Item)

/-- The operator of a comparator, which depends on wildcards if none is written. -/
def operatorOf (comparator : Item) : Op :=
  match comparator.operator with
  | some operator => operator.op
  | none => if comparator.version.all fun c => c.isDigit || c = '.' then .caret else .wildcard

theorem readsOperator_readComparator {written : List Char} {comparator : Item}
    (read : readComparator written = some comparator) :
    ReadsOperator strictlyRead operatorOf written comparator := by
  simp only [readComparator, Option.ite_none_right_eq_some, Option.some.injEq] at read
  obtain ⟨⟨number, -⟩, rfl⟩ := read
  cases operator : (readOperator written).1 with
  | some operator => simp [ReadsOperator, operatorOf, operator]
  | none =>
    have whole : (readOperator written).2 = written := by
      unfold readOperator at operator ⊢
      split at operator <;> simp_all
    rw [whole] at number ⊢
    simp only [ReadsOperator, operator, operatorOf]
    refine ⟨?_, by split_ifs <;> simp⟩
    cases written with
    | nil => simp at number
    | cons c rest => exact ⟨c, rest, rfl, by simpa using number⟩

theorem documentedOperators_strictlyRead : DocumentedOperators strictlyRead operatorOf where
  exact _ := rfl
  wildcard text _ := by
    simp only [strictlyRead, String.toList_ofList, IsWildcard]
    split_ifs with wildcard
    · exact iff_of_true rfl wildcard
    · refine iff_of_false (fun noneEq => ?_) wildcard
      have noneEq := List.forall₂_nil_right_iff.mp (Library.mapM_eq_some_iff.mp noneEq)
      exact List.splitOn_ne_nil ',' text noneEq
  comparators text comparators _ someEq parsed := by
    simp only [strictlyRead, String.toList_ofList] at parsed
    split_ifs at parsed with wildcard
    · exact absurd (Option.some.inj parsed).symm someEq
    · exact (Library.mapM_eq_some_iff.mp parsed).imp fun _ _ => readsOperator_readComparator

/-- The second version has an operator. -/
theorem readsAsWritten_iff_operator : ReadsAsWritten strictlyRead operatorOf "0.8.0 <0.9.0" := by
  refine (readsAsWritten_iff documentedOperators_strictlyRead _).mpr ⟨by decide, by decide, ?_⟩
  intro _
  have split : (writtenComparators "0.8.0 <0.9.0").tail = ["<0.9.0".toList] := by decide +kernel
  rw [split]
  simp [readOperator]

/-- What is read for two versions without operators. -/
def bareVersions : List strictlyRead.Comparator :=
  [Item.mk (some .exact) "0.8.0".toList, Item.mk none "0.8.1".toList]

/-- The second version is read as compatible, and a letter is not read at all. -/
theorem not_readsAsWritten_bare : DocumentedOperators strictlyRead operatorOf ∧
    ¬ReadsAsWritten strictlyRead operatorOf "0.8.0 0.8.1" ∧
    ¬ReadsAsWritten strictlyRead operatorOf "x" := by
  refine ⟨documentedOperators_strictlyRead, ?_, ?_⟩
  · rintro ⟨result, read, kept⟩
    have read' : parseVersionReq strictlyRead "0.8.0 0.8.1" = some (some bareVersions) := by
      decide +kernel
    have split : writtenComparators "0.8.0 0.8.1" = ["0.8.0".toList, "0.8.1".toList] := by
      decide +kernel
    rcases kept _ (Option.some.inj (read.symm.trans read')) with noneEq | each
    · cases noneEq
    · rw [split] at each
      cases each with
      | cons _ each => cases each with
        | cons second _ => exact absurd second (by unfold KeepsOperator; decide)
  · rintro ⟨result, read, -⟩
    simp [parseVersionReq_letter documentedOperators_strictlyRead (.inl rfl)] at read

end FoundryCore.Flatten
