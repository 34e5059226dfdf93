import FoundryCore.SourceMap.Fields

/-!
# The text of a field

The lexer loses nothing, so the tokens of a field determine its text: a number, a jump, or one
after the other.
-/

namespace FoundryCore.SourceMap

/-! ## Numbers -/

/-- The digits of a number. -/
def Digits (ds : List Char) : Prop := ds ≠ [] ∧ ∀ c ∈ ds, c.isDigit

/-- The value of some digits. -/
def value (ds : List Char) : Nat := Nat.ofDigitChars 10 ds 0

/-- The characters that the lexer takes as a number. -/
def IsNumber (num : List Char) : Prop := Digits num ∨ ∃ ds, num = '-' :: ds ∧ Digits ds

/-- A number that the parser takes, with its value: digits of at most `u32::MAX`, or digits of 0
or 1 after a minus sign, and -1 is none. -/
inductive Numeral : List Char → Option (BitVec 32) → Prop
  | digits {ds : List Char} (digits : Digits ds) (fits : value ds < 2 ^ 32) :
    Numeral ds (some (BitVec.ofNat 32 (value ds)))
  | zero {ds : List Char} (digits : Digits ds) (zero : value ds = 0) : Numeral ('-' :: ds) (some 0)
  | one {ds : List Char} (digits : Digits ds) (one : value ds = 1) : Numeral ('-' :: ds) none

namespace Numeral

variable {num : List Char} {n : Option (BitVec 32)}

theorem isNumber (numeral : Numeral num n) : IsNumber num := by
  cases numeral with
  | digits digits => exact .inl digits
  | zero digits => exact .inr ⟨_, rfl, digits⟩
  | one digits => exact .inr ⟨_, rfl, digits⟩

end Numeral

theorem Digits.head {ds : List Char} (digits : Digits ds) :
    ∃ c rest, ds = c :: rest ∧ c.isDigit := by
  obtain ⟨c, rest, rfl⟩ := List.exists_cons_of_ne_nil digits.1
  exact ⟨c, rest, rfl, digits.2 c (.head _)⟩

theorem parseI64_digits {ds : List Char} (digits : Digits ds) :
    parseI64 ds =
      if 2 ^ 63 ≤ value ds then .error "number too large to fit in target type"
      else .ok (value ds) := by
  obtain ⟨c, rest, rfl, digit⟩ := digits.head
  have all : (c :: rest).all Char.isDigit = true := by simpa using digits.2
  have minus : c ≠ '-' := by
    rintro rfl
    cases digit
  have plus : c ≠ '+' := by
    rintro rfl
    cases digit
  unfold parseI64
  split
  next negative ds sign =>
    obtain ⟨rfl, rfl⟩ : negative = false ∧ ds = c :: rest := by
      split at sign <;> simp_all
    simp only [List.isEmpty_cons, Bool.false_eq_true, if_false, all, Bool.not_true, Bool.or_self,
      value]
    exact if_congr (by omega) rfl rfl

theorem parseI64_negative {ds : List Char} (digits : Digits ds) :
    parseI64 ('-' :: ds) =
      if 2 ^ 63 < value ds then .error "number too small to fit in target type"
      else .ok (-value ds) := by
  obtain ⟨c, rest, rfl, digit⟩ := digits.head
  have all : (c :: rest).all Char.isDigit = true := by simpa using digits.2
  unfold parseI64
  simp only [List.isEmpty_cons, Bool.false_eq_true, if_false, all, Bool.not_true, Bool.or_self,
    value, if_true]
  exact if_congr (by omega) rfl rfl

theorem toOption_eq_some {ε α : Type*} {x : Except ε α} {a : α} :
    x.toOption = some a ↔ x = .ok a := by
  cases x <;> simp [Except.toOption]

/-- The parser takes the numerals of the numbers that the lexer takes. -/
theorem parseNumber_eq_ok {num : List Char} (isNumber : IsNumber num) {pos : Nat}
    {n : Option (BitVec 32)} : parseNumber num pos = .ok n ↔ Numeral num n := by
  rw [parseNumber]
  rcases isNumber with digits | ⟨ds, rfl, digits⟩
  · rw [parseI64_digits digits]
    have notMinus : ∀ ds, num ≠ '-' :: ds := by
      rintro ds rfl
      cases digits.2 _ (.head _)
    have nonneg : ¬ (value num : Int) < -1 := by omega
    have ne_one : (value num : Int) ≠ -1 := by omega
    by_cases fits : value num < 2 ^ 32
    · have small : (value num : Int) < 2 ^ 32 := by omega
      rw [if_neg (by omega)]
      simp only [nonneg, ne_one, if_false, small, if_true, BitVec.ofInt_natCast]
      constructor
      · rintro ⟨⟩
        exact .digits digits fits
      · intro numeral
        cases numeral with
        | digits => rfl
        | zero => exact absurd rfl (notMinus _)
        | one => exact absurd rfl (notMinus _)
    · have large : ¬ (value num : Int) < 2 ^ 32 := by omega
      constructor
      · intro eq
        by_cases huge : 2 ^ 63 ≤ value num
        · rw [if_pos huge] at eq
          cases eq
        · rw [if_neg huge] at eq
          simp only [nonneg, ne_one, if_false, large] at eq
          cases eq
      · intro numeral
        cases numeral with
        | digits _ fits' => exact absurd fits' fits
        | zero => exact absurd rfl (notMinus _)
        | one => exact absurd rfl (notMinus _)
  · rw [parseI64_negative digits]
    by_cases zero : value ds = 0
    · simp only [zero]
      constructor
      · rintro ⟨⟩
        exact .zero digits zero
      · intro numeral
        cases numeral with
        | digits minus => cases minus.2 _ (.head _)
        | zero => rfl
        | one _ one => omega
    by_cases one : value ds = 1
    · simp only [one]
      constructor
      · rintro ⟨⟩
        exact .one digits one
      · intro numeral
        cases numeral with
        | digits minus => cases minus.2 _ (.head _)
        | zero _ zero' => exact absurd zero' zero
        | one => rfl
    · have negative : -(value ds : Int) < -1 := by omega
      constructor
      · intro eq
        by_cases huge : 2 ^ 63 < value ds
        · rw [if_pos huge] at eq
          cases eq
        · rw [if_neg huge] at eq
          simp only [negative, if_true] at eq
          cases eq
      · intro numeral
        cases numeral with
        | digits minus => cases minus.2 _ (.head _)
        | zero _ zero' => exact absurd zero' zero
        | one _ one' => exact absurd one' one

/-! ## Tokens and their text -/

/-- The token of a jump. -/
def Jump.token : Jump → Token
  | .in => .in
  | .out => .out
  | .regular => .regular

/-- The text of a token. -/
def Token.text : Token → List Char
  | .number num => num
  | .semicolon => [';']
  | .colon => [':']
  | .in => ['i']
  | .out => ['o']
  | .regular => ['-']

theorem Lexer.number_spec (num : List Char) (chars : List (Nat × Char)) :
    ∃ ds, (number num chars).1 = .number (num ++ ds) ∧
      chars.map Prod.snd = ds ++ (number num chars).2.map Prod.snd ∧ ∀ c ∈ ds, c.isDigit := by
  induction chars generalizing num with
  | nil => exact ⟨[], by simp [number]⟩
  | cons c chars ih =>
    obtain ⟨pos, ch⟩ := c
    rw [number]
    split_ifs with digit
    · obtain ⟨ds, token, text, digits⟩ := ih (num ++ [ch])
      exact ⟨ch :: ds, by simp [token], by simp [text], List.forall_mem_cons.mpr ⟨digit, digits⟩⟩
    · exact ⟨[], by simp⟩

/-- The lexer takes the text of the token that it yields. -/
theorem Lexer.next_spec {chars rest : List (Nat × Char)} {token : Token} {pos : Nat}
    (eq : next chars = some (.ok (token, pos), rest)) :
    chars.map Prod.snd = token.text ++ rest.map Prod.snd ∧
      ∀ num, token = .number num → IsNumber num := by
  cases chars with
  | nil => cases eq
  | cons c chars =>
    obtain ⟨start, ch⟩ := c
    simp only [next] at eq
    split_ifs at eq with semicolon colon jumpIn out minus digit
    · obtain ⟨⟨rfl, rfl⟩, rfl⟩ := by simpa using eq
      simp [Token.text, semicolon]
    · obtain ⟨⟨rfl, rfl⟩, rfl⟩ := by simpa using eq
      simp [Token.text, colon]
    · obtain ⟨⟨rfl, rfl⟩, rfl⟩ := by simpa using eq
      simp [Token.text, jumpIn]
    · obtain ⟨⟨rfl, rfl⟩, rfl⟩ := by simpa using eq
      simp [Token.text, out]
    · cases chars with
      | nil =>
        obtain ⟨⟨rfl, rfl⟩, rfl⟩ := by simpa using eq
        simp [Token.text, minus]
      | cons d chars =>
        simp only at eq
        split_ifs at eq with digit
        · obtain ⟨ds, taken, text, digits⟩ := number_spec [ch, d.2] chars
          obtain ⟨⟨rfl, rfl⟩, rfl⟩ := by simpa using eq
          rw [taken]
          refine ⟨by simp [Token.text, text], ?_⟩
          rintro _ ⟨⟩
          exact .inr ⟨d.2 :: ds, by simp [minus], by simp, List.forall_mem_cons.mpr ⟨digit, digits⟩⟩
        · obtain ⟨⟨rfl, rfl⟩, rfl⟩ := by simpa using eq
          simp [Token.text, minus]
    · obtain ⟨ds, taken, text, digits⟩ := number_spec [ch] chars
      obtain ⟨⟨rfl, rfl⟩, rfl⟩ := by simpa using eq
      rw [taken]
      refine ⟨by simp [Token.text, text], ?_⟩
      rintro _ ⟨⟩
      exact .inl ⟨by simp, List.forall_mem_cons.mpr ⟨digit, digits⟩⟩
    · simp at eq

/-- The lexer loses nothing. -/
theorem text_of_tokens {text : List Char} {ts : List Token} (eq : tokens text = some ts) :
    text = ts.flatMap Token.text ∧ ∀ num, .number num ∈ ts → IsNumber num := by
  have loop : ∀ n (chars : List (Nat × Char)) (ts : List Token), chars.length ≤ n →
      Lexer.kinds (Lexer.all chars) = some ts →
      chars.map Prod.snd = ts.flatMap Token.text ∧ ∀ num, .number num ∈ ts → IsNumber num := by
    intro n
    induction n with
    | zero =>
      intro chars ts none eq
      obtain rfl := List.eq_nil_of_length_eq_zero (Nat.le_zero.mp none)
      obtain rfl := Option.some.inj eq
      simp
    | succ n ih =>
      intro chars ts enough eq
      rw [Lexer.all_eq] at eq
      cases step : Lexer.next chars with
      | none =>
        cases chars with
        | nil =>
          rw [step] at eq
          obtain rfl := Option.some.inj eq
          simp
        | cons c chars => exact absurd step (Lexer.next_cons c chars)
      | some taken =>
        obtain ⟨item, rest⟩ := taken
        rw [step] at eq
        cases item with
        | error => cases eq
        | ok taken =>
          obtain ⟨ts', eq', rfl⟩ := Option.map_eq_some_iff.mp eq
          have shorter := Lexer.next_length step
          obtain ⟨text, number⟩ := Lexer.next_spec step
          obtain ⟨text', numbers⟩ := ih rest ts' (by omega) eq'
          refine ⟨by rw [text, text', List.flatMap_cons], fun num mem => ?_⟩
          rcases List.mem_cons.mp mem with same | later
          · exact number num same.symm
          · exact numbers num later
  obtain ⟨text_eq, numbers⟩ := loop _ _ ts (Nat.le_refl _) eq
  exact ⟨by simpa [Function.comp_def] using text_eq, numbers⟩

/-! ## Fields -/

/-- The text of a jump. -/
def Jump.text (j : Jump) : List Char := j.token.text

/-- The text of a field and its reading: a number and a jump, in either order. A `-` right before
digits is their minus sign. -/
inductive FieldText : List Char → Reading → Prop
  | empty : FieldText [] ⟨none, none⟩
  | number {num : List Char} {n : Option (BitVec 32)} (numeral : Numeral num n) :
    FieldText num ⟨some n, none⟩
  | jump (j : Jump) : FieldText j.text ⟨none, some j⟩
  | numberJump {num : List Char} {n : Option (BitVec 32)} (numeral : Numeral num n) (j : Jump) :
    FieldText (num ++ j.text) ⟨some n, some j⟩
  | jumpNumber (j : Jump) {num : List Char} {n : Option (BitVec 32)} (numeral : Numeral num n)
    (minus : j = .regular → ¬ Digits num) : FieldText (j.text ++ num) ⟨some n, some j⟩

theorem tokens_number {num : List Char} (isNumber : IsNumber num) :
    tokens num = some [.number num] := by
  rcases isNumber with digits | ⟨ds, rfl, digits⟩
  · exact tokens_digits digits.1 digits.2
  · exact tokens_negative digits.1 digits.2

theorem tokens_jump (j : Jump) : tokens j.text = some [j.token] := by
  cases j <;> rfl

theorem tokens_append_jump {text : List Char} (j : Jump) :
    tokens (text ++ j.text) = (tokens text).map (· ++ [j.token]) := by
  obtain ⟨c, one, noDigit⟩ : ∃ c, j.text = [c] ∧ c.isDigit = false := by
    cases j <;> exact ⟨_, rfl, rfl⟩
  rw [one, tokens_append noDigit, ← one, tokens_jump]
  cases tokens text <;> rfl

theorem tokens_jump_append {num : List Char} (j : Jump) (isNumber : IsNumber num)
    (minus : j = .regular → ¬ Digits num) :
    tokens (j.text ++ num) = some [j.token, .number num] := by
  cases j with
  | «in» => exact (tokens_in num).trans (by simp [tokens_number isNumber, Jump.token])
  | out => exact (tokens_out num).trans (by simp [tokens_number isNumber, Jump.token])
  | regular =>
    obtain ⟨ds, rfl, digits⟩ := isNumber.resolve_left (minus rfl)
    have split := tokens_append (a := ['-']) (b := ds) (show Char.isDigit '-' = false from rfl)
    rw [tokens_regular, tokens_negative digits.1 digits.2] at split
    exact split

@[simp] theorem numberTokens_nil : numberTokens [] = [] := rfl

@[simp] theorem jumpTokens_nil : jumpTokens [] = [] := rfl

@[simp] theorem numberTokens_jump (j : Jump) (ts : List Token) :
    numberTokens (j.token :: ts) = numberTokens ts := by
  cases j <;> rfl

@[simp] theorem jumpTokens_jump (j : Jump) (ts : List Token) :
    jumpTokens (j.token :: ts) = j :: jumpTokens ts := by
  cases j <;> rfl

@[simp] theorem numberTokens_number (num : List Char) (ts : List Token) :
    numberTokens (.number num :: ts) = num :: numberTokens ts := rfl

@[simp] theorem jumpTokens_number (num : List Char) (ts : List Token) :
    jumpTokens (.number num :: ts) = jumpTokens ts := rfl

/-- The tokens that a field may hold. -/
theorem Token.cases_of_ne {token : Token} (semicolon : token ≠ .semicolon)
    (colon : token ≠ .colon) : (∃ num, token = .number num) ∨ ∃ j : Jump, token = j.token := by
  cases token with
  | number num => exact .inl ⟨num, rfl⟩
  | semicolon => exact absurd rfl semicolon
  | colon => exact absurd rfl colon
  | «in» => exact .inr ⟨.in, rfl⟩
  | out => exact .inr ⟨.out, rfl⟩
  | regular => exact .inr ⟨.regular, rfl⟩

theorem length_eq_of_notMem {ts : List Token} (semicolon : .semicolon ∉ ts) (colon : .colon ∉ ts) :
    ts.length = (numberTokens ts).length + (jumpTokens ts).length := by
  induction ts with
  | nil => rfl
  | cons token ts ih =>
    simp only [List.mem_cons, not_or] at semicolon colon
    have rest := ih semicolon.2 colon.2
    rcases Token.cases_of_ne (Ne.symm semicolon.1) (Ne.symm colon.1) with ⟨num, rfl⟩ | ⟨j, rfl⟩
    · simp only [List.length_cons, numberTokens_number, jumpTokens_number]
      omega
    · simp only [List.length_cons, numberTokens_jump, jumpTokens_jump]
      omega

/-- One number is read as a numeral. -/
theorem numeral_of_map_eq {num : List Char} (isNumber : IsNumber num)
    {number : Option (Option (BitVec 32))}
    (read : [num].map (fun num => (parseNumber num 0).toOption) = number.toList.map some) :
    ∃ n, number = some n ∧ Numeral num n := by
  cases number with
  | none => simp at read
  | some n =>
    have eq : (parseNumber num 0).toOption = some n := (List.cons.inj read).1
    exact ⟨n, rfl, (parseNumber_eq_ok isNumber).mp (toOption_eq_some.mp eq)⟩

/-- A field reads as what its text is. -/
theorem fieldReading_iff {state : State} {text : List Char} (isText : IsText text) {r : Reading} :
    FieldReading state text r ↔ FieldText text r ∧ (state = .jmp → r.number = none) := by
  constructor
  · rintro ⟨ts, lexed, reading⟩
    refine ⟨?_, reading.noNumber⟩
    obtain ⟨semicolon, colon⟩ := separator_notMem_tokens lexed
    replace semicolon := semicolon isText.2
    replace colon := colon isText.1
    obtain ⟨rfl, numbers⟩ := text_of_tokens lexed
    obtain ⟨number, jump⟩ := r
    obtain ⟨read, -, jumps⟩ := reading
    have length := length_eq_of_notMem semicolon colon
    have oneNumber : (numberTokens ts).length ≤ 1 := by
      have := congrArg List.length read
      cases number <;> simp_all
    have oneJump : (jumpTokens ts).length ≤ 1 := by
      rw [jumps]
      cases jump <;> simp
    match ts with
    | [] =>
      cases number <;> cases jump <;> simp at read jumps
      exact .empty
    | [token] =>
      simp only [List.mem_cons, List.not_mem_nil, or_false] at semicolon colon
      rcases Token.cases_of_ne (Ne.symm semicolon) (Ne.symm colon) with ⟨num, rfl⟩ | ⟨j, rfl⟩
      · obtain ⟨n, rfl, numeral⟩ := numeral_of_map_eq (numbers num (.head _)) read
        obtain rfl : jump = none := by
          cases jump <;> simp at jumps ⊢
        simpa [Token.text] using FieldText.number numeral
      · obtain rfl : jump = some j := by
          cases jump <;> simp_all
        obtain rfl : number = none := by
          cases number <;> simp at read ⊢
        simpa [Jump.text] using FieldText.jump j
    | [token, token'] =>
      simp only [List.mem_cons, List.not_mem_nil, or_false, not_or] at semicolon colon
      rcases Token.cases_of_ne (Ne.symm semicolon.1) (Ne.symm colon.1) with
          ⟨num, rfl⟩ | ⟨j, rfl⟩ <;>
        rcases Token.cases_of_ne (Ne.symm semicolon.2) (Ne.symm colon.2) with
          ⟨num', rfl⟩ | ⟨j', rfl⟩
      · simp at oneNumber
      · obtain ⟨n, rfl, numeral⟩ := numeral_of_map_eq (numbers num (.head _)) (by simpa using read)
        obtain rfl : jump = some j' := by
          cases jump <;> simp_all
        simpa [Jump.text, Token.text] using FieldText.numberJump numeral j'
      · obtain ⟨n, rfl, numeral⟩ :=
          numeral_of_map_eq (numbers num' (.tail _ (.head _))) (by simpa using read)
        obtain rfl : jump = some j := by
          cases jump <;> simp_all
        -- a `-` before digits would have been lexed with them
        have minus : j = .regular → ¬ Digits num' := by
          rintro rfl digits
          have one := tokens_negative digits.1 digits.2
          simp [Jump.token, Token.text, one] at lexed
        simpa [Jump.text, Token.text] using FieldText.jumpNumber j numeral minus
      · simp at oneJump
    | _ :: _ :: _ :: _ =>
      simp only [List.length_cons] at length
      omega
  · rintro ⟨field, noNumber⟩
    have read : ∀ {num n}, Numeral num n → (parseNumber num 0).toOption = some n := fun numeral =>
      toOption_eq_some.mpr ((parseNumber_eq_ok numeral.isNumber).mpr numeral)
    cases field with
    | empty => exact ⟨[], rfl, ⟨rfl, fun _ => rfl, rfl⟩⟩
    | number numeral =>
      exact ⟨_, tokens_number numeral.isNumber, ⟨by simp [read numeral], noNumber, rfl⟩⟩
    | jump j => exact ⟨_, tokens_jump j, ⟨by simp, noNumber, by simp⟩⟩
    | numberJump numeral j =>
      refine ⟨_, (tokens_append_jump j).trans (by rw [tokens_number numeral.isNumber]; rfl), ?_⟩
      exact ⟨by simp [read numeral], noNumber, by simp⟩
    | jumpNumber j numeral minus =>
      refine ⟨_, tokens_jump_append j numeral.isNumber minus, ?_⟩
      exact ⟨by simp [read numeral], noNumber, by simp⟩

end FoundryCore.SourceMap
