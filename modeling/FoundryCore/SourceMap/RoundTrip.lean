import FoundryCore.SourceMap.Written
import Mathlib.Data.List.Lattice

/-!
# Writing source maps

An element is written with its index as an `i32`, so a file index of more than 31 bits is written
as a negative number, which the parser refuses. Every other element is written in the grammar and
read back.
-/

namespace FoundryCore.SourceMap

open SourceElementBuilder

/-! ## Numbers -/

theorem digits_toDigits (n : Nat) : Digits (Nat.toDigits 10 n) :=
  ⟨Nat.toDigits_ne_nil, fun _ mem => Nat.isDigit_of_mem_toDigits (by decide) (by decide) mem⟩

@[simp] theorem value_toDigits (n : Nat) : value (Nat.toDigits 10 n) = n :=
  Nat.ofDigitChars_ten_toDigits

@[simp] theorem numberOf_toDigits (n : Nat) : numberOf (Nat.toDigits 10 n) = some n := by
  rw [numberOf, if_neg, value_toDigits]
  intro minus
  have digits := digits_toDigits n
  rw [minus] at digits
  cases digits.2 _ (.head _)

theorem toList_toString_int (i : Int) : (toString i).toList =
    if 0 ≤ i then Nat.toDigits 10 i.toNat else '-' :: Nat.toDigits 10 (-i).toNat := by
  rw [Int.toString_eq_repr]
  cases i with
  | ofNat n => simp [Int.repr]
  | negSucc n => simp [Int.repr]

/-- A negative number is not read, except for -1. -/
theorem not_fieldReading_negative {n : Nat} (two_le : 2 ≤ n) {state : State} {r : Reading} :
    ¬ FieldReading state ('-' :: Nat.toDigits 10 n) r := by
  rintro ⟨ts, lexed, reading⟩
  have digits := digits_toDigits n
  rw [tokens_negative digits.1 digits.2] at lexed
  obtain rfl := Option.some.inj lexed
  obtain ⟨number, -, numeral⟩ := numeral_of_map_eq (.inr ⟨_, rfl, digits⟩) reading.number
  cases numeral with
  | digits minus => cases minus.2 _ (.head _)
  | zero _ zero =>
    rw [value_toDigits] at zero
    omega
  | one _ one =>
    rw [value_toDigits] at one
    omega

namespace SourceElement

/-- The texts of the five fields of an element. -/
def text (e : SourceElement) : State → List Char
  | .offset => Nat.toDigits 10 e.offset.toNat
  | .length => Nat.toDigits 10 e.length.toNat
  | .index => (toString e.index.toInt).toList
  | .jmp => e.jump.text
  | .modifier => Nat.toDigits 10 e.modifierDepth.toNat

theorem toList_display (e : SourceElement) :
    e.display.toList = [':'].intercalate (State.all.map e.text) := by
  have jump : e.jump.toStr.toList = e.jump.text := by
    cases e.jump <;> rfl
  simp [display, State.all, text, List.intercalate, jump]

/-- An element whose index is none or of 31 bits. -/
def Small (e : SourceElement) : Prop := e.index = -1 ∨ e.index.toNat < 2 ^ 31

variable {e e' : SourceElement}

theorem text_index : e.text .index =
    if e.index.toNat < 2 ^ 31 then Nat.toDigits 10 e.index.toNat
    else '-' :: Nat.toDigits 10 (2 ^ 32 - e.index.toNat) := by
  have lt := e.index.isLt
  rw [text, toList_toString_int, BitVec.toInt_eq_toNat_cond]
  by_cases small : e.index.toNat < 2 ^ 31
  · rw [if_pos (by omega), if_pos (by omega), if_pos small, Int.toNat_natCast]
  · rw [if_neg (show ¬ 2 * e.index.toNat < 2 ^ 32 by omega), if_neg (by omega), if_neg small]
    congr 2
    omega

theorem text_index_of_none (none : e.index = -1) : e.text .index = ['-', '1'] := by
  rw [text, none]
  decide

theorem separator_notMem_text {c : Char} (colon : c = ':' ∨ c = ';') (state : State) :
    c ∉ e.text state := by
  have noDigits : ∀ n, c ∉ Nat.toDigits 10 n := by
    intro n mem
    have digit := (digits_toDigits n).2 c mem
    rcases colon with rfl | rfl <;> cases digit
  have minus : c ≠ '-' := by
    rcases colon with rfl | rfl <;> decide
  cases state with
  | offset => exact noDigits _
  | length => exact noDigits _
  | modifier => exact noDigits _
  | jmp =>
    show c ∉ e.jump.text
    rcases colon with rfl | rfl <;> cases e.jump <;> decide
  | index =>
    rw [text_index]
    split_ifs
    · exact noDigits _
    · exact fun mem => (List.mem_cons.mp mem).elim minus (noDigits _)

theorem splitOn_display (e : SourceElement) :
    e.display.toList.splitOn ':' = State.all.map e.text := by
  rw [toList_display, List.splitOn_intercalate]
  · simpa using fun state _ => separator_notMem_text (.inl rfl) state
  · simp [State.all]

theorem semicolon_notMem_display (e : SourceElement) : ';' ∉ e.display.toList := by
  rw [toList_display]
  simp [State.all, List.intercalate, separator_notMem_text]

@[simp] theorem fieldOf_display (e : SourceElement) (state : State) :
    fieldOf (e.display.toList.splitOn ':') state = e.text state := by
  rw [splitOn_display]
  cases state <;> rfl

theorem written_display (e : SourceElement) (state : State) :
    written state e.display.toList = some (e.text state) := by
  rw [written, fieldOf_display, if_neg]
  cases state with
  | offset => exact (digits_toDigits _).1
  | length => exact (digits_toDigits _).1
  | modifier => exact (digits_toDigits _).1
  | jmp =>
    show e.jump.text ≠ []
    cases e.jump <;> simp [Jump.text, Jump.token, Token.text]
  | index =>
    rw [text_index]
    split_ifs
    · exact (digits_toDigits _).1
    · simp

/-- A small element is written in the grammar. -/
theorem Small.isElement (small : e.Small) : IsElement e.display.toList := by
  refine ⟨by simp [splitOn_display, State.all], fun state => ?_⟩
  rw [fieldOf_display]
  have upTo : ∀ {bound : Nat} (n : Nat), n ≤ bound → IsNumberUpTo bound (Nat.toDigits 10 n) :=
    fun n le => .inr ⟨digits_toDigits n, by simpa using le⟩
  have fits : ∀ b : BitVec 32, b.toNat ≤ 2 ^ 32 - 1 := fun b => by
    have := b.isLt
    omega
  cases state with
  | offset => exact .inr (upTo _ (fits _))
  | length => exact .inr (upTo _ (fits _))
  | modifier =>
    have lt := e.modifierDepth_lt
    refine .inr (upTo _ ?_)
    simp [BitVec.lt_def] at lt
    omega
  | jmp => exact .inr ⟨_, rfl⟩
  | index =>
    rcases small with none | lt
    · exact .inr (.inl (text_index_of_none none))
    · rw [text_index, if_pos lt]
      exact .inr (upTo _ (by omega))

theorem Small.noSlip (small : e.Small) :
    ¬ Slip .index (fieldOf (e.display.toList.splitOn ':') .index) := by
  rw [fieldOf_display]
  intro slip
  have isField := small.isElement.2 .index
  rw [fieldOf_display] at isField
  have isText : IsText (e.text .index) :=
    ⟨separator_notMem_text (.inl rfl) _, separator_notMem_text (.inr rfl) _⟩
  obtain ⟨-, digits, largest⟩ := isField.slip isText slip
  rcases small with none | lt
  · rw [text_index_of_none none] at digits
    cases digits.2 _ (.head _)
  · rw [text_index, if_pos lt, value_toDigits] at largest
    omega

theorem index?_eq_none : e.index? = none ↔ e.index = -1 := by
  rw [index?]
  split_ifs with none
  · exact iff_of_true rfl none
  · exact iff_of_false not_false none

theorem index?_eq_some {b : BitVec 32} : e.index? = some b ↔ e.index = b ∧ b ≠ -1 := by
  rw [index?]
  split_ifs with none
  · simp only [false_iff, not_and, not_not]
    exact fun eq => eq.symm.trans none
  · constructor
    · rintro ⟨⟩
      exact ⟨rfl, none⟩
    · rintro ⟨rfl, -⟩
      rfl

/-- What is written for an element specifies it. -/
theorem eq_of_specified {ps : List (List Char)} {i : Nat} (getEq : ps[i]? = some e.display.toList)
    (small : e.Small) (specified : Specified (ps.take (i + 1)) e') : e' = e := by
  have wrote : ∀ state, last (written state) (ps.take (i + 1)) = some (e.text state) :=
    fun state => last_take_succ getEq (written_display e state)
  refine ext_fields ?_ ?_ ?_ ?_ ?_
  · apply BitVec.eq_of_toNat_eq
    rw [specified.offset, wrote, Option.bind_some, text, numberOf_toDigits, Option.getD_some]
  · apply BitVec.eq_of_toNat_eq
    rw [specified.length, wrote, Option.bind_some, text, numberOf_toDigits, Option.getD_some]
  · have index := specified.index
    rw [wrote, Option.bind_some] at index
    rcases small with none | lt
    · rw [text_index_of_none none] at index
      rw [none]
      exact index?_eq_none.mp (Option.map_eq_none_iff.mp index)
    · rw [text_index, if_pos lt, numberOf_toDigits] at index
      obtain ⟨b, eq, toNat⟩ := Option.map_eq_some_iff.mp index
      exact (index?_eq_some.mp eq).1.trans (BitVec.eq_of_toNat_eq toNat)
  · rw [specified.jump, wrote, Option.map_some, text, jumpOf_text, Option.getD_some]
  · apply BitVec.eq_of_toNat_eq
    rw [specified.modifierDepth, wrote, Option.bind_some, text, numberOf_toDigits, Option.getD_some]

end SourceElement

/-! ## Writing and reading again -/

/-- The source map of some elements. -/
def joined (es : List SourceElement) : String := ";".intercalate (es.map SourceElement.display)

theorem parts_joined (es : List SourceElement) :
    parts (joined es) = es.map fun e => e.display.toList := by
  have text : (joined es).toList = [';'].intercalate (es.map fun e => e.display.toList) := by
    rw [joined, String.toList_intercalate, List.map_map]
    rfl
  rw [parts]
  cases es with
  | nil => rfl
  | cons e es =>
    have nonempty : ¬ (joined (e :: es)).isEmpty := by
      intro empty
      have fields := e.splitOn_display
      rw [String.isEmpty_iff.mp empty] at text
      cases es <;> simp_all [State.all, List.intercalate]
    rw [if_neg nonempty, text, List.splitOn_intercalate]
    · simpa using ⟨e.semicolon_notMem_display, fun e _ => e.semicolon_notMem_display⟩
    · simp

/-- Small elements are read back. -/
theorem parse_joined {es : List SourceElement} (small : ∀ e ∈ es, e.Small) :
    parse (joined es) = .ok es := by
  have noSemicolon : ∀ part ∈ parts (joined es), ';' ∉ part := semicolon_notMem_parts
  rw [parts_joined] at noSemicolon
  have elements : ∀ part ∈ es.map fun e => e.display.toList, IsElement part := by
    simpa using fun e mem => (small e mem).isElement
  obtain ⟨es', parsed⟩ := parse_ok_iff.mpr (by
    rw [parts_joined]
    exact fun part mem => (loose_iff (noSemicolon part mem)).mpr (elements part mem).shape)
  obtain ⟨length, finishes⟩ := finishes_of_parse parsed
  rw [parts_joined] at length finishes
  rw [List.length_map] at length
  obtain rfl : es' = es := by
    refine List.ext_getElem? fun i => ?_
    cases getEq' : es'[i]? with
    | none =>
      rw [List.getElem?_eq_none_iff] at getEq'
      rw [eq_comm, List.getElem?_eq_none_iff]
      omega
    | some e' =>
      obtain ⟨e, getEq⟩ : ∃ e, es[i]? = some e := by
        have := (List.getElem?_eq_some_iff.mp getEq').1
        exact ⟨_, List.getElem?_eq_getElem (by omega)⟩
      have small_e := small e (List.mem_of_getElem? getEq)
      have earlier : ∀ {part}, part ∈ (es.map fun e => e.display.toList).take (i + 1) →
          part ∈ es.map fun e => e.display.toList := List.mem_of_mem_take
      have specified := specified_of_finishes (fun part mem => noSemicolon part (earlier mem))
        (fun part mem => elements part (earlier mem)) (fun part mem => ?_) (finishes i e' getEq')
      · rw [getEq, SourceElement.eq_of_specified (by simp [getEq]) small_e specified]
      · obtain ⟨e, mem', rfl⟩ := List.mem_map.mp (earlier mem)
        exact (small e mem').noSlip
  exact parsed

/-! ## File indices -/

/-- The file index that a part writes; -1 is none. -/
def fileWritten (part : List Char) : Option (Option Nat) :=
  (readingsOf part .index).number.map (·.map BitVec.toNat)

/-- The file index after some parts: what was written last, and none by default. -/
def fileOf (ps : List (List Char)) : Option Nat := (last fileWritten ps).join

theorem fileOf_eq (ps : List (List Char)) :
    fileOf ps = ((last (fun part => (readingsOf part .index).number) ps).map
      (·.map BitVec.toNat)).join :=
  congrArg Option.join (last_eq_map fun _ _ => rfl)

/-- Where file indices have 31 bits, an element is small and has the file that was written. -/
theorem index_of_parse {input : String} {es : List SourceElement} (parsed : parse input = .ok es)
    (small : ∀ part ∈ parts input, ∀ n, fileWritten part = some (some n) → n < 2 ^ 31) {i : Nat}
    {e : SourceElement} (getEq : es[i]? = some e) :
    e.Small ∧ e.index?.map BitVec.toNat = fileOf ((parts input).take (i + 1)) := by
  have finishes := (finishes_of_parse parsed).2 i e getEq
  rw [merged_built] at finishes
  have index : e.index = ((last (fun part => (readingsOf part .index).number)
    ((parts input).take (i + 1))).map (·.getD (-1))).getD (-1) := finishes.index
  rw [fileOf_eq]
  cases held : last (fun part => (readingsOf part .index).number) ((parts input).take (i + 1)) with
  | none =>
    rw [held] at index
    have none : e.index = -1 := index
    exact ⟨.inl none, by rw [SourceElement.index?_eq_none.mpr none]; rfl⟩
  | some number =>
    cases number with
    | none =>
      rw [held] at index
      have none : e.index = -1 := index
      exact ⟨.inl none, by rw [SourceElement.index?_eq_none.mpr none]; rfl⟩
    | some b =>
      obtain ⟨part, mem, reads⟩ := List.mem_filterMap.mp (List.mem_of_getLast? held)
      have lt := small part (List.mem_of_mem_take mem) b.toNat (by rw [fileWritten, reads]; rfl)
      rw [held] at index
      have eq : e.index = b := index
      have some : b ≠ -1 := by
        rintro rfl
        revert lt
        decide
      exact ⟨.inr (by rwa [eq]), by rw [SourceElement.index?_eq_some.mpr ⟨eq, some⟩]; rfl⟩

/-- The elements are written and read back, and they have the files that the input wrote. -/
structure RoundTrips (input : String) (es : List SourceElement) : Prop where
  parse : parse (joined es) = .ok es
  file : ∀ i e, es[i]? = some e → e.index?.map BitVec.toNat = fileOf ((parts input).take (i + 1))

/-- A source map makes the round trip exactly if its file indices have 31 bits. -/
theorem roundTrips_iff {input : String} {es : List SourceElement} (parsed : parse input = .ok es) :
    RoundTrips input es ↔
      ∀ part ∈ parts input, ∀ n, fileWritten part = some (some n) → n < 2 ^ 31 := by
  constructor
  · intro roundTrips part mem n wrote
    by_contra large
    obtain ⟨i, getEq⟩ := List.mem_iff_getElem?.mp mem
    obtain ⟨length, finishes⟩ := finishes_of_parse parsed
    obtain ⟨e, at_e⟩ : ∃ e, es[i]? = some e := by
      have := (List.getElem?_eq_some_iff.mp getEq).1
      exact ⟨_, List.getElem?_eq_getElem (by omega)⟩
    obtain ⟨number, reads, some⟩ := Option.map_eq_some_iff.mp wrote
    obtain ⟨b, rfl, rfl⟩ := Option.map_eq_some_iff.mp some
    have latest : last (fun part => (readingsOf part .index).number)
        ((parts input).take (i + 1)) = _ := last_take_succ getEq reads
    have eq : e.index = b := by
      rw [(finishes i e at_e).index, merged_built]
      simp only [latest]
      rfl
    by_cases none : b = -1
    · -- the largest index reads as no file
      have file := roundTrips.file i e at_e
      rw [SourceElement.index?_eq_none.mpr (eq.trans none), fileOf_eq, latest] at file
      cases file
    · -- any other is written as a negative number
      have negative : ¬ b.toNat < 2 ^ 31 := by simpa using large
      have two_le : 2 ≤ 2 ^ 32 - b.toNat := by
        have lt := b.isLt
        have : b.toNat ≠ 2 ^ 32 - 1 := fun eq => none (BitVec.eq_of_toNat_eq eq)
        omega
      have loose := parse_ok_iff.mp ⟨_, roundTrips.parse⟩ e.display.toList (by
        rw [parts_joined]
        exact List.mem_map_of_mem (List.mem_of_getElem? at_e))
      have reading := loose.reading.reading .index
      rw [SourceElement.fieldOf_display, SourceElement.text_index, eq, if_neg negative] at reading
      exact not_fieldReading_negative two_le reading
  · intro small
    refine ⟨parse_joined fun e mem => ?_, fun i e getEq => (index_of_parse parsed small getEq).2⟩
    obtain ⟨i, getEq⟩ := List.mem_iff_getElem?.mp mem
    exact (index_of_parse parsed small getEq).1

theorem roundTrips_small :
    RoundTrips "1:2:3:i;;::-1:-:4" [⟨1, 2, 3, 0, by decide⟩, ⟨1, 2, 3, 0, by decide⟩,
      ⟨1, 2, -1, 0x80000004, by decide⟩] := by
  refine (roundTrips_iff (toOption_eq_some.mp (by decide +kernel))).mpr ?_
  have small : ∀ part ∈ parts "1:2:3:i;;::-1:-:4", ∀ file ∈ fileWritten part, ∀ n ∈ file,
      n < 2 ^ 31 := by decide +kernel
  exact fun part mem n wrote => small part mem _ wrote n rfl

/-- A file index of 32 bits is written as a negative number, which is refused. -/
theorem not_roundTrips :
    parse "1:2:2147483648" = .ok [⟨1, 2, 0x80000000, 0, by decide⟩] ∧
      ¬ RoundTrips "1:2:2147483648" [⟨1, 2, 0x80000000, 0, by decide⟩] := by
  refine ⟨toOption_eq_some.mp (by decide +kernel), fun roundTrips => ?_⟩
  have refused : (parse (joined [⟨1, 2, 0x80000000, 0, by decide⟩])).toOption = none := by
    decide +kernel
  rw [roundTrips.parse] at refused
  cases refused

end FoundryCore.SourceMap
