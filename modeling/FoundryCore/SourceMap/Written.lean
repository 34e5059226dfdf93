import FoundryCore.SourceMap.Grammar

/-!
# Source maps as they are written

The grammar of source maps and the values it gives to their elements, and where the parser keeps
to both. It takes more: a jump in any field, and any digits of 0 or 1 after a minus sign. And it
keeps a file index in an `i32` whose `-1` stands for no file, which is the largest file index.
-/

namespace FoundryCore.SourceMap

open SourceElementBuilder

/-! ## The grammar -/

/-- A number up to a bound, or -1. -/
def IsNumberUpTo (bound : Nat) (text : List Char) : Prop :=
  text = ['-', '1'] ∨ Digits text ∧ value text ≤ bound

/-- A field of the grammar. -/
def IsField : State → List Char → Prop
  | .jmp, text => text = [] ∨ ∃ j : Jump, text = j.text
  | .modifier, text => text = [] ∨ IsNumberUpTo (2 ^ 30 - 1) text
  | _, text => text = [] ∨ IsNumberUpTo (2 ^ 32 - 1) text

/-- An element of the grammar: a prefix of `s:l:f:j:m`. -/
def IsElement (part : List Char) : Prop :=
  (part.splitOn ':').length ≤ 5 ∧ ∀ state, IsField state (fieldOf (part.splitOn ':') state)

/-- The grammar of source maps. -/
def Grammar (input : String) : Prop := ∀ part ∈ parts input, IsElement part

/-! ## Values -/

/-- What a part writes for a field. -/
def written (state : State) (part : List Char) : Option (List Char) :=
  if fieldOf (part.splitOn ':') state = [] then none else some (fieldOf (part.splitOn ':') state)

/-- The number of a text; -1 is none. -/
def numberOf (text : List Char) : Option Nat :=
  if text = ['-', '1'] then none else some (value text)

def jumpOf (text : List Char) : Jump :=
  if text = Jump.in.text then .in else if text = Jump.out.text then .out else .regular

/-- Every field is what the parts so far wrote for it last. -/
structure Specified (ps : List (List Char)) (e : SourceElement) : Prop where
  offset : e.offset.toNat = ((last (written .offset) ps).bind numberOf).getD 0
  length : e.length.toNat = ((last (written .length) ps).bind numberOf).getD 0
  index : e.index?.map BitVec.toNat = (last (written .index) ps).bind numberOf
  jump : e.jump = ((last (written .jmp) ps).map jumpOf).getD .in
  modifierDepth : e.modifierDepth.toNat = ((last (written .modifier) ps).bind numberOf).getD 0

/-- The parser succeeds on the grammar only, and its elements are as specified. -/
structure Meets (input : String) : Prop where
  accepts : (∃ es, parse input = .ok es) ↔ Grammar input
  elements : ∀ es, parse input = .ok es → es.length = (parts input).length ∧
    ∀ i e, es[i]? = some e → Specified ((parts input).take (i + 1)) e

/-! ## What the parser takes -/

/-- The shape of a part that the parser takes: numbers and jumps may stand in one field, but at
most one jump in the whole part. -/
def Shape (part : List Char) : Prop :=
  ∃ r : State → Reading, (part.splitOn ':').length ≤ 5 ∧
    (∀ state, FieldText (fieldOf (part.splitOn ':') state) (r state)) ∧
    (r .jmp).number = none ∧ (jumpsOf r).length ≤ 1 ∧
    ∀ n, (r .modifier).number = some n → orZero n < 2 ^ 30

/-- A field that the parser takes and should not, or reads as another. -/
inductive Slip : State → List Char → Prop
  /-- A jump outside the fourth field. -/
  | jump {state : State} {text : List Char} {r : Reading} (field : FieldText text r)
    (has : r.jump.isSome) (other : state ≠ .jmp) : Slip state text
  /-- Digits other than 1 after a minus sign. -/
  | minus {state : State} {ds : List Char} (digits : Digits ds) (other : ds ≠ ['1']) :
    Slip state ('-' :: ds)
  /-- The largest file index. -/
  | file {text : List Char} (digits : Digits text) (largest : value text = 2 ^ 32 - 1) :
    Slip .index text

section Part

variable {part : List Char}

theorem readingOf_of_fieldText {text : List Char} (isText : IsText text) {r : Reading}
    (field : FieldText text r) : readingOf text = r :=
  have reading : FieldReading .offset text r := (fieldReading_iff isText).mpr ⟨field, nofun⟩
  (readingOf_eq reading).symm

theorem loose_iff (noSemicolon : ';' ∉ part) : Loose part ↔ Shape part := by
  have isText := isText_fieldOf noSemicolon
  constructor
  · rintro ⟨⟨few, reading, jumps⟩, depth⟩
    refine ⟨readingsOf part, few, fun state => ((fieldReading_iff (isText state)).mp
      (reading state)).1, ((fieldReading_iff (isText _)).mp (reading .jmp)).2 rfl, jumps, ?_⟩
    intro n eq
    exact depth _ (congrArg (Option.map orZero) eq)
  · rintro ⟨r, few, field, noNumber, jumps, depth⟩
    obtain rfl : readingsOf part = r :=
      funext fun state => readingOf_of_fieldText (isText state) (field state)
    refine ⟨⟨few, fun state => (fieldReading_iff (isText state)).mpr ⟨field state, ?_⟩, jumps⟩, ?_⟩
    · rintro rfl
      exact noNumber
    · intro m eq
      obtain ⟨n, number, rfl⟩ := Option.map_eq_some_iff.mp eq
      exact depth n number

/-! ## Elements of the grammar -/

theorem IsNumberUpTo.le {bound : Nat} {text : List Char} (isNumber : IsNumberUpTo bound text)
    {n : Nat} (eq : numberOf text = some n) : n ≤ bound := by
  rw [numberOf] at eq
  split_ifs at eq with minus
  obtain rfl := Option.some.inj eq
  exact (isNumber.resolve_left minus).2

theorem IsNumberUpTo.numeral {bound : Nat} {text : List Char} (isNumber : IsNumberUpTo bound text)
    (fits : bound < 2 ^ 32) : Numeral text ((numberOf text).map (BitVec.ofNat 32)) := by
  rcases isNumber with rfl | ⟨digits, le⟩
  · exact .one ⟨by simp, by simp⟩ rfl
  · have plain : text ≠ ['-', '1'] := by
      rintro rfl
      cases digits.2 _ (.head _)
    rw [numberOf, if_neg plain]
    exact .digits digits (by omega)

@[simp] theorem jumpOf_text (j : Jump) : jumpOf j.text = j := by
  cases j <;> rfl

/-- The bound on a number in the field of a state. -/
def State.bound : State → Nat
  | .modifier => 2 ^ 30 - 1
  | _ => 2 ^ 32 - 1

theorem State.bound_lt (state : State) : state.bound < 2 ^ 32 := by
  cases state <;> decide

theorem isField_iff {state : State} (other : state ≠ .jmp) {text : List Char} :
    IsField state text ↔ text = [] ∨ IsNumberUpTo state.bound text := by
  cases state with
  | jmp => exact absurd rfl other
  | _ => rfl

/-- What a field of the grammar reads as. -/
def plainReading (state : State) (text : List Char) : Reading :=
  if text = [] then ⟨none, none⟩
  else if state = .jmp then ⟨none, some (jumpOf text)⟩
  else ⟨some ((numberOf text).map (BitVec.ofNat 32)), none⟩

theorem IsField.fieldText {state : State} {text : List Char} (isField : IsField state text) :
    FieldText text (plainReading state text) := by
  rw [plainReading]
  split_ifs with empty jmp
  · rw [empty]
    exact .empty
  · subst jmp
    obtain ⟨j, rfl⟩ := isField.resolve_left empty
    rw [jumpOf_text]
    exact .jump j
  · have isNumber := ((isField_iff jmp).mp isField).resolve_left empty
    exact .number (isNumber.numeral state.bound_lt)

variable {part : List Char}

theorem plainReading_jump {state : State} (other : state ≠ .jmp) (text : List Char) :
    (plainReading state text).jump = none := by
  rw [plainReading]
  split_ifs <;> rfl

theorem jumpsOf_plain (text : State → List Char) :
    jumpsOf (fun state => plainReading state (text state)) =
      (plainReading .jmp (text .jmp)).jump.toList := by
  simp [jumpsOf, State.all, plainReading_jump]

theorem IsElement.shape (element : IsElement part) : Shape part := by
  refine ⟨fun state => plainReading state (fieldOf (part.splitOn ':') state), element.1,
    fun state => (element.2 state).fieldText, ?_, ?_, ?_⟩
  · simp only [plainReading]
    split_ifs <;> rfl
  · rw [jumpsOf_plain]
    cases (plainReading .jmp (fieldOf (part.splitOn ':') .jmp)).jump <;> simp
  · intro n eq
    simp only [plainReading] at eq
    split_ifs at eq with empty
    obtain rfl := Option.some.inj eq
    have isNumber := ((isField_iff (by decide)).mp (element.2 .modifier)).resolve_left empty
    cases number : numberOf (fieldOf (part.splitOn ':') .modifier) with
    | none => simp [orZero]
    | some n =>
      have le : n ≤ 2 ^ 30 - 1 := isNumber.le number
      simp only [orZero, Option.map_some, Option.getD_some, BitVec.toNat_ofNat]
      omega

/-- A part that the parser takes is in the grammar where no field slips. -/
theorem Shape.element (shape : Shape part)
    (plain : ∀ state, ¬ Slip state (fieldOf (part.splitOn ':') state)) : IsElement part := by
  obtain ⟨r, few, fields, noNumber, -, depth⟩ := shape
  refine ⟨few, fun state => ?_⟩
  have field := fields state
  have noSlip := plain state
  by_cases jmp : state = .jmp
  · subst jmp
    generalize r .jmp = r at field noNumber
    generalize fieldOf (part.splitOn ':') .jmp = text at field
    cases field with
    | empty => exact .inl rfl
    | jump j => exact .inr ⟨j, rfl⟩
    | number => cases noNumber
    | numberJump => cases noNumber
    | jumpNumber => cases noNumber
  · have noJump : (r state).jump = none := by
      by_contra has
      exact noSlip (.jump field (Option.isSome_iff_ne_none.mpr has) jmp)
    replace depth : ∀ n, state = .modifier → (r state).number = some n → orZero n < 2 ^ 30 := by
      rintro n rfl
      exact depth n
    generalize r state = r at field noJump depth
    generalize fieldOf (part.splitOn ':') state = text at field noSlip ⊢
    rw [isField_iff jmp]
    cases field with
    | empty => exact .inl rfl
    | number numeral =>
      right
      cases numeral with
      | digits digits fits =>
        refine .inr ⟨digits, ?_⟩
        by_cases modifier : state = .modifier
        · have small := depth _ modifier rfl
          simp only [orZero, Option.getD_some, BitVec.toNat_ofNat, Nat.mod_eq_of_lt fits] at small
          rw [modifier, State.bound]
          omega
        · have bound : state.bound = 2 ^ 32 - 1 := by
            cases state <;> first | rfl | exact absurd rfl modifier
          omega
      | zero digits zero =>
        refine absurd (.minus digits ?_) noSlip
        rintro rfl
        cases zero
      | @one ds digits =>
        by_cases plain : ds = ['1']
        · exact .inl (congrArg _ plain)
        · exact absurd (.minus digits plain) noSlip
    | jump => cases noJump
    | numberJump => cases noJump
    | jumpNumber => cases noJump

/-- A field of the grammar slips only with the largest file index. -/
theorem IsField.slip {state : State} {text : List Char} (isText : IsText text)
    (isField : IsField state text) (slip : Slip state text) :
    state = .index ∧ Digits text ∧ value text = 2 ^ 32 - 1 := by
  cases slip with
  | @jump _ _ r field has other =>
    have same := (readingOf_of_fieldText isText field).symm.trans
      (readingOf_of_fieldText isText isField.fieldText)
    rw [same, plainReading_jump other] at has
    cases has
  | @minus _ ds digits other =>
    by_cases jmp : state = .jmp
    · subst jmp
      obtain ⟨j, eq⟩ := isField.resolve_left (by simp)
      cases j <;> simp [Jump.text, Jump.token, Token.text] at eq
      exact absurd eq digits.1
    · rcases ((isField_iff jmp).mp isField).resolve_left (by simp) with one | ⟨minus, -⟩
      · exact absurd (List.cons.inj one).2 other
      · cases minus.2 _ (.head _)
  | file digits largest => exact ⟨rfl, digits, largest⟩

theorem readingsOf_eq (noSemicolon : ';' ∉ part) (element : IsElement part) (state : State) :
    readingsOf part state = plainReading state (fieldOf (part.splitOn ':') state) :=
  readingOf_of_fieldText (isText_fieldOf noSemicolon state) (element.2 state).fieldText

theorem number_of_element (noSemicolon : ';' ∉ part) (element : IsElement part) {state : State}
    (other : state ≠ .jmp) : (readingsOf part state).number =
      (written state part).map fun text => (numberOf text).map (BitVec.ofNat 32) := by
  rw [readingsOf_eq noSemicolon element, plainReading, written, if_neg other]
  split_ifs <;> rfl

theorem jump_of_element (noSemicolon : ';' ∉ part) (element : IsElement part) :
    (jumpsOf (readingsOf part)).head? = (written .jmp part).map jumpOf := by
  rw [funext (readingsOf_eq noSemicolon element), jumpsOf_plain, Option.head?_toList, plainReading,
    written, if_pos rfl]
  split_ifs <;> rfl

end Part

/-! ## The elements of a source map -/

section Elements

variable {ps : List (List Char)} {e : SourceElement}

theorem isNumberUpTo_of_last {state : State} (other : state ≠ .jmp)
    (elements : ∀ part ∈ ps, IsElement part) {text : List Char}
    (eq : last (written state) ps = some text) : IsNumberUpTo state.bound text := by
  obtain ⟨part, mem, writes⟩ := List.mem_filterMap.mp (List.mem_of_getLast? eq)
  rw [written] at writes
  split_ifs at writes with empty
  obtain rfl := Option.some.inj writes
  exact ((isField_iff other).mp ((elements part mem).2 state)).resolve_left empty

/-- A file index that no part slips on. -/
theorem lt_of_last (elements : ∀ part ∈ ps, IsElement part)
    (small : ∀ part ∈ ps, ¬ Slip .index (fieldOf (part.splitOn ':') .index)) {text : List Char}
    (eq : last (written .index) ps = some text) {n : Nat} (number : numberOf text = some n) :
    n < 2 ^ 32 - 1 := by
  have isNumber := isNumberUpTo_of_last (by decide) elements eq
  have le : n ≤ 2 ^ 32 - 1 := isNumber.le number
  obtain ⟨part, mem, writes⟩ := List.mem_filterMap.mp (List.mem_of_getLast? eq)
  have noSlip := small part mem
  rw [written] at writes
  split_ifs at writes
  rw [Option.some.inj writes] at noSlip
  rw [numberOf] at number
  split_ifs at number with minus
  obtain rfl := Option.some.inj number
  have ne : value text ≠ 2 ^ 32 - 1 := fun largest =>
    noSlip (.file (isNumber.resolve_left minus).1 largest)
  omega

theorem last_number (noSemicolon : ∀ part ∈ ps, ';' ∉ part) (elements : ∀ part ∈ ps, IsElement part)
    {state : State} (other : state ≠ .jmp) :
    last (fun part => (readingsOf part state).number) ps =
      (last (written state) ps).map fun text => (numberOf text).map (BitVec.ofNat 32) :=
  last_eq_map fun part mem => number_of_element (noSemicolon part mem) (elements part mem) other

/-- The last number of a field, as the parser keeps it. -/
theorem toNat_last_number (noSemicolon : ∀ part ∈ ps, ';' ∉ part)
    (elements : ∀ part ∈ ps, IsElement part) {state : State} (other : state ≠ .jmp) {b : BitVec 32}
    (eq : b = ((last (fun part => (readingsOf part state).number.map orZero) ps).map
      (BitVec.ofNat 32)).getD 0) :
    b.toNat = ((last (written state) ps).bind numberOf).getD 0 := by
  rw [last_eq_map (h := fun part => (readingsOf part state).number) fun _ _ => rfl,
    last_number noSemicolon elements other] at eq
  rw [eq]
  cases held : last (written state) ps with
  | none => rfl
  | some text =>
    cases number : numberOf text with
    | none => simp [number, orZero]
    | some n =>
      have le := (isNumberUpTo_of_last other elements held).le number
      have lt := state.bound_lt
      have fits : n < 2 ^ 32 := by omega
      simp [number, orZero]
      omega

/-- On the grammar every element is as specified, where no file index is the largest. -/
theorem specified_of_finishes (noSemicolon : ∀ part ∈ ps, ';' ∉ part)
    (elements : ∀ part ∈ ps, IsElement part)
    (small : ∀ part ∈ ps, ¬ Slip .index (fieldOf (part.splitOn ':') .index))
    (finishes : (merged (ps.map built)).Finishes .new e) : Specified ps e := by
  rw [merged_built] at finishes
  exact {
    offset := toNat_last_number noSemicolon elements (by decide) finishes.offset
    length := toNat_last_number noSemicolon elements (by decide) finishes.length
    index := by
      have eq := finishes.index
      simp only [last_number noSemicolon elements (show State.index ≠ .jmp by decide)] at eq
      cases wrote : last (written .index) ps with
      | none =>
        rw [wrote] at eq
        simp [SourceElement.index?, show e.index = -1 from eq]
      | some text =>
        rw [wrote] at eq
        cases number : numberOf text with
        | none =>
          have none : e.index = -1 := by simpa [number] using eq
          simp [SourceElement.index?, none, number]
        | some n =>
          have lt := lt_of_last elements small wrote number
          have held : e.index = BitVec.ofNat 32 n := by simpa [number] using eq
          have toNat : e.index.toNat = n := by
            rw [held, BitVec.toNat_ofNat, Nat.mod_eq_of_lt (by omega)]
          have ne : e.index ≠ -1 := by
            intro none
            rw [none] at toNat
            have : (-1 : BitVec 32).toNat = 2 ^ 32 - 1 := rfl
            omega
          rw [SourceElement.index?, if_neg ne, Option.map_some, toNat, Option.bind_some, number]
    jump := by
      rw [finishes.jump, last_eq_map fun part mem =>
        jump_of_element (noSemicolon part mem) (elements part mem)]
      rfl
    modifierDepth := toNat_last_number noSemicolon elements (by decide) finishes.modifierDepth }

end Elements

/-! ## Where the parser keeps to the grammar -/

/-- The parser meets the grammar exactly where it refuses the input or no field slips. -/
theorem meets_iff (input : String) :
    Meets input ↔ ¬ ((∀ part ∈ parts input, Shape part) ∧
      ∃ part ∈ parts input, ∃ state, Slip state (fieldOf (part.splitOn ':') state)) := by
  have noSemicolon : ∀ part ∈ parts input, ';' ∉ part := semicolon_notMem_parts
  have ok_iff : (∃ es, parse input = .ok es) ↔ ∀ part ∈ parts input, Shape part := by
    rw [parse_ok_iff]
    exact forall₂_congr fun part mem => loose_iff (noSemicolon part mem)
  constructor
  · rintro meets ⟨shapes, part, mem, state, slip⟩
    have grammar := meets.accepts.mp (ok_iff.mpr shapes)
    obtain ⟨rfl, digits, largest⟩ :=
      ((grammar part mem).2 state).slip (isText_fieldOf (noSemicolon part mem) state) slip
    obtain ⟨es, parsed⟩ := ok_iff.mpr shapes
    obtain ⟨length, specified⟩ := meets.elements es parsed
    obtain ⟨i, getEq⟩ := List.mem_iff_getElem?.mp mem
    obtain ⟨e, at_e⟩ : ∃ e, es[i]? = some e := by
      have := (List.getElem?_eq_some_iff.mp getEq).1
      exact ⟨_, List.getElem?_eq_getElem (by omega)⟩
    have wrote : written .index part = some (fieldOf (part.splitOn ':') .index) :=
      if_neg digits.1
    have number : numberOf (fieldOf (part.splitOn ':') .index) = some (2 ^ 32 - 1) := by
      rw [numberOf, if_neg, largest]
      intro minus
      rw [minus] at digits
      cases digits.2 _ (.head _)
    -- the element has no file, and the part wrote one
    have none : e.index = -1 := by
      rw [((finishes_of_parse parsed).2 i e at_e).index, merged_built]
      have reads := number_of_element (noSemicolon part mem) (grammar part mem)
        (show State.index ≠ .jmp by decide)
      rw [wrote, Option.map_some, number] at reads
      have latest : last (fun part => (readingsOf part .index).number)
          ((parts input).take (i + 1)) = _ := last_take_succ getEq reads
      rw [latest]
      rfl
    have index := (specified i e at_e).index
    rw [last_take_succ getEq wrote, Option.bind_some, number] at index
    rw [SourceElement.index?, if_pos none] at index
    cases index
  · intro plain
    have accepts : (∃ es, parse input = .ok es) ↔ Grammar input := by
      rw [ok_iff]
      constructor
      · intro shapes part mem
        exact (shapes part mem).element fun state slip => plain ⟨shapes, part, mem, state, slip⟩
      · intro grammar part mem
        exact (grammar part mem).shape
    refine ⟨accepts, fun es parsed => ?_⟩
    obtain ⟨length, finishes⟩ := finishes_of_parse parsed
    have grammar := accepts.mp ⟨es, parsed⟩
    have shapes := ok_iff.mp ⟨es, parsed⟩
    have earlier : ∀ {i part}, part ∈ (parts input).take i → part ∈ parts input :=
      fun mem => List.mem_of_mem_take mem
    refine ⟨length, fun i e getEq => specified_of_finishes
      (fun part mem => noSemicolon part (earlier mem))
      (fun part mem => grammar part (earlier mem)) (fun part mem slip => ?_) (finishes i e getEq)⟩
    exact plain ⟨shapes, part, earlier mem, _, slip⟩

/-- The parser takes a jump for an offset, and reads a file index as no file. -/
theorem not_meets : ¬ Meets "i" ∧ ¬ Meets "::4294967295" := by
  constructor
  · intro meets
    have taken : (parse "i").toOption = some [.new] := by decide
    have grammar := meets.accepts.mp ⟨_, toOption_eq_some.mp taken⟩
    have field : IsField .offset ['i'] := (grammar ['i'] (by decide)).2 .offset
    rcases field with empty | minus | ⟨digits, -⟩
    · cases empty
    · cases minus
    · cases digits.2 _ (.head _)
  · intro meets
    have taken : (parse "::4294967295").toOption = some [.new] := by decide +kernel
    have index := ((meets.elements _ (toOption_eq_some.mp taken)).2 0 .new rfl).index
    revert index
    decide +kernel

end FoundryCore.SourceMap
