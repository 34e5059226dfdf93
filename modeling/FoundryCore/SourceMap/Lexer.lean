import FoundryCore.SourceMap.Basic

/-!
# Tokens of a text

The lexer looks ahead for digits only, so the tokens before and after a character that is no
digit are independent of each other: the elements of a source map and their fields are read one
by one. Positions matter to errors only, and `tokens` forgets them.
-/

namespace FoundryCore.SourceMap

namespace Lexer

variable {a b chars chars' : List (Nat × Char)} {sep : Nat × Char} {fuel : Nat}

/-! ## Steps of the lexer -/

theorem number_length (num : List Char) : (number num chars).2.length ≤ chars.length := by
  induction chars generalizing num with
  | nil => simp [number]
  | cons c chars ih =>
    simp only [number]
    split_ifs
    · exact Nat.le_succ_of_le (ih _)
    · exact Nat.le_refl _

theorem next_length {item : Item} (eq : next chars = some (item, b)) :
    b.length < chars.length := by
  cases chars with
  | nil => simp [next] at eq
  | cons c chars =>
    obtain ⟨start, ch⟩ := c
    simp only [next] at eq
    repeat' split at eq
    all_goals
      obtain ⟨-, rfl⟩ := by simpa using eq
      simp only [List.length_cons]
    all_goals try omega
    · next digit rest' _ =>
      have : (number [ch, digit] rest').2.length ≤ rest'.length := number_length _
      omega
    · have : (number [ch] chars).2.length ≤ chars.length := number_length _
      omega

theorem next_cons (c : Nat × Char) (chars : List (Nat × Char)) : next (c :: chars) ≠ none := by
  simp only [next]
  repeat' split
  all_goals simp

/-- The lexer yields everything once the fuel covers the characters. -/
theorem items_of_le (enough : chars.length ≤ fuel) :
    items fuel chars = items chars.length chars := by
  have loop : ∀ fuel fuel' (chars : List (Nat × Char)), chars.length ≤ fuel →
      chars.length ≤ fuel' → items fuel chars = items fuel' chars := by
    intro fuel
    induction fuel with
    | zero =>
      intro fuel' chars none _
      obtain rfl := List.eq_nil_of_length_eq_zero (Nat.le_zero.mp none)
      cases fuel' <;> rfl
    | succ fuel ih =>
      intro fuel' chars enough enough'
      cases fuel' with
      | zero =>
        obtain rfl := List.eq_nil_of_length_eq_zero (Nat.le_zero.mp enough')
        rfl
      | succ fuel' =>
        simp only [items]
        cases step : next chars with
        | none => rfl
        | some taken =>
          obtain ⟨item, rest⟩ := taken
          have shorter := next_length step
          exact congrArg (item :: ·) (ih fuel' rest (by omega) (by omega))
  exact loop fuel _ chars enough (Nat.le_refl _)

/-- Everything the lexer yields for some characters. -/
def all (chars : List (Nat × Char)) : List Item := items chars.length chars

theorem all_eq (chars : List (Nat × Char)) :
    all chars = match next chars with
      | none => []
      | some (item, rest) => item :: all rest := by
  cases chars with
  | nil => rfl
  | cons c chars =>
    rw [all, List.length_cons, items]
    cases step : next (c :: chars) with
    | none => rfl
    | some taken =>
      have shorter := next_length step
      rw [List.length_cons] at shorter
      exact congrArg (taken.1 :: ·) (items_of_le (by omega))

/-! ## Separators -/

theorem number_append (num : List Char) (noDigit : sep.2.isDigit = false) :
    number num (a ++ sep :: b) = ((number num a).1, (number num a).2 ++ sep :: b) := by
  induction a generalizing num with
  | nil => simp [number, noDigit]
  | cons c a ih =>
    simp only [number, List.cons_append]
    split_ifs
    · exact ih _
    · rfl

theorem next_append (noDigit : sep.2.isDigit = false) (c : Nat × Char) :
    next (c :: a ++ sep :: b) =
      (next (c :: a)).map fun (item, rest) => (item, rest ++ sep :: b) := by
  obtain ⟨start, ch⟩ := c
  simp only [next, List.cons_append]
  split_ifs
  · rfl
  · rfl
  · rfl
  · rfl
  · cases a with
    | nil => simp [noDigit]
    | cons d a =>
      simp only [List.cons_append]
      split_ifs
      · rw [number_append _ noDigit]
        rfl
      · rfl
  · rw [number_append _ noDigit]
    rfl
  · rfl

/-- What the lexer yields splits at a character that is no digit. -/
theorem all_append (noDigit : sep.2.isDigit = false) :
    all (a ++ sep :: b) = all a ++ all (sep :: b) := by
  have loop : ∀ n (a : List (Nat × Char)), a.length ≤ n →
      all (a ++ sep :: b) = all a ++ all (sep :: b) := by
    intro n
    induction n with
    | zero =>
      intro a none
      obtain rfl := List.eq_nil_of_length_eq_zero (Nat.le_zero.mp none)
      rfl
    | succ n ih =>
      intro a enough
      cases a with
      | nil => rfl
      | cons c a =>
        rw [all_eq (c :: a ++ sep :: b), all_eq (c :: a), next_append noDigit]
        cases step : next (c :: a) with
        | none => exact absurd step (next_cons c a)
        | some taken =>
          obtain ⟨item, rest⟩ := taken
          have shorter := next_length step
          simp only [Option.map_some, List.cons_append]
          rw [ih rest (by simp at enough shorter; omega)]
  exact loop _ a (Nat.le_refl _)

/-! ## Tokens of a text -/

/-- The tokens of the items, unless one of them is an error. -/
def kinds : List Item → Option (List Token)
  | [] => some []
  | .error _ :: _ => none
  | .ok (token, _) :: items => (kinds items).map (token :: ·)

theorem kinds_append (items items' : List Item) :
    kinds (items ++ items') = (kinds items).bind fun ts => (kinds items').map (ts ++ ·) := by
  induction items with
  | nil => simp [kinds]
  | cons item items ih =>
    cases item with
    | error => rfl
    | ok taken =>
      simp only [List.cons_append, kinds, ih]
      cases kinds items <;> cases kinds items' <;> rfl

theorem number_map_snd (num : List Char) (same : chars.map Prod.snd = chars'.map Prod.snd) :
    (number num chars).1 = (number num chars').1 ∧
      (number num chars).2.map Prod.snd = (number num chars').2.map Prod.snd := by
  induction chars generalizing num chars' with
  | nil =>
    obtain rfl := by simpa using same.symm
    exact ⟨rfl, rfl⟩
  | cons c chars ih =>
    obtain ⟨c', chars', rfl, eq, rest⟩ := List.map_eq_cons_iff.mp same.symm
    simp only [number, eq]
    split_ifs
    · exact ih _ rest.symm
    · simp [rest]

/-- The kind of the next item does not depend on the positions. -/
theorem next_map_snd (same : chars.map Prod.snd = chars'.map Prod.snd) :
    (next chars).map (fun (item, rest) => (item.toOption.map Prod.fst, rest.map Prod.snd)) =
      (next chars').map fun (item, rest) =>
        (item.toOption.map Prod.fst, rest.map Prod.snd) := by
  cases chars with
  | nil =>
    obtain rfl := by simpa using same.symm
    rfl
  | cons c chars =>
    obtain ⟨⟨start', ch'⟩, chars', rfl, eq, rest⟩ := List.map_eq_cons_iff.mp same.symm
    obtain ⟨start, ch⟩ := c
    obtain rfl : ch' = ch := eq
    simp only [next]
    split_ifs
    · simp [Except.toOption, rest]
    · simp [Except.toOption, rest]
    · simp [Except.toOption, rest]
    · simp [Except.toOption, rest]
    · cases chars with
      | nil =>
        obtain rfl := by simpa using rest
        rfl
      | cons d chars =>
        obtain ⟨⟨pos', digit'⟩, chars', rfl, eq, tail⟩ := List.map_eq_cons_iff.mp rest
        obtain ⟨pos, digit⟩ := d
        obtain rfl : digit' = digit := eq
        dsimp only
        split_ifs
        · have same := number_map_snd [ch', digit'] tail.symm
          simp [Except.toOption, same]
        · simp [Except.toOption, tail]
    · have same := number_map_snd [ch'] rest.symm
      simp [Except.toOption, same]
    · simp [Except.toOption, rest]

theorem kinds_all_map_snd (same : chars.map Prod.snd = chars'.map Prod.snd) :
    kinds (all chars) = kinds (all chars') := by
  have loop : ∀ n (chars chars' : List (Nat × Char)), chars.length ≤ n →
      chars.map Prod.snd = chars'.map Prod.snd → kinds (all chars) = kinds (all chars') := by
    intro n
    induction n with
    | zero =>
      intro chars chars' none same
      obtain rfl := List.eq_nil_of_length_eq_zero (Nat.le_zero.mp none)
      obtain rfl := by simpa using same.symm
      rfl
    | succ n ih =>
      intro chars chars' enough same
      have step := next_map_snd same
      rw [all_eq chars, all_eq chars']
      cases first : next chars with
      | none =>
        have first' : next chars' = none := by simpa [first] using step.symm
        rw [first']
      | some taken =>
        obtain ⟨item, rest⟩ := taken
        rw [first, Option.map_some] at step
        obtain ⟨⟨item', rest'⟩, first', eq⟩ := Option.map_eq_some_iff.mp step.symm
        obtain ⟨kind, left⟩ := Prod.mk.inj eq
        have shorter := next_length first
        have tail := ih rest rest' (by omega) left.symm
        rw [first']
        cases item <;> cases item' <;> simp_all [Except.toOption, kinds]
  exact loop _ chars chars' (Nat.le_refl _) same

theorem number_subset (num : List Char) : (number num chars).2 ⊆ chars := by
  induction chars generalizing num with
  | nil => simp [number]
  | cons c chars ih =>
    simp only [number]
    split_ifs
    · exact List.Subset.trans (ih _) (List.subset_cons_self c chars)
    · exact List.Subset.refl _

theorem number_kind (num : List Char) : ∃ digits, (number num chars).1 = .number digits := by
  induction chars generalizing num with
  | nil => exact ⟨num, rfl⟩
  | cons c chars ih =>
    simp only [number]
    split_ifs
    · exact ih _
    · exact ⟨num, rfl⟩

/-- A separator is yielded for its character only. -/
theorem next_separator {item : Item} (eq : next chars = some (item, b)) :
    b ⊆ chars ∧ (∀ pos, item = .ok (.semicolon, pos) → (pos, ';') ∈ chars) ∧
      (∀ pos, item = .ok (.colon, pos) → (pos, ':') ∈ chars) := by
  cases chars with
  | nil => simp [next] at eq
  | cons c chars =>
    obtain ⟨start, ch⟩ := c
    simp only [next] at eq
    repeat' split at eq
    all_goals
      obtain ⟨rfl, rfl⟩ := by simpa using eq
    · subst_vars
      simp
    · subst_vars
      simp
    · simp
    · simp
    · next digit rest' _ =>
      obtain ⟨digits, kind⟩ : ∃ digits, (number [ch, digit] rest').1 = .number digits :=
        number_kind _
      refine ⟨List.Subset.trans (number_subset _) ?_, by simp [kind], by simp [kind]⟩
      exact List.Subset.trans (List.subset_cons_self _ _) (List.subset_cons_self _ _)
    · simp
    · simp
    · obtain ⟨digits, kind⟩ : ∃ digits, (number [ch] chars).1 = .number digits := number_kind _
      exact ⟨List.Subset.trans (number_subset _) (List.subset_cons_self _ _), by simp [kind],
        by simp [kind]⟩
    · simp

theorem separator_of_mem_all {pos : Nat} {token : Token} (mem : .ok (token, pos) ∈ all chars) :
    (token = .semicolon → ';' ∈ chars.map Prod.snd) ∧
      (token = .colon → ':' ∈ chars.map Prod.snd) := by
  have loop : ∀ n (chars : List (Nat × Char)), chars.length ≤ n → .ok (token, pos) ∈ all chars →
      (token = .semicolon → ';' ∈ chars.map Prod.snd) ∧
        (token = .colon → ':' ∈ chars.map Prod.snd) := by
    intro n
    induction n with
    | zero =>
      intro chars none mem
      obtain rfl := List.eq_nil_of_length_eq_zero (Nat.le_zero.mp none)
      simp [all, items] at mem
    | succ n ih =>
      intro chars enough mem
      rw [all_eq] at mem
      cases step : next chars with
      | none => simp [step] at mem
      | some taken =>
        obtain ⟨item, rest⟩ := taken
        obtain ⟨subset, semicolon, colon⟩ := next_separator step
        have shorter := next_length step
        rw [step] at mem
        rcases List.mem_cons.mp mem with rfl | later
        · refine ⟨?_, ?_⟩
          · rintro rfl
            exact List.mem_map_of_mem (semicolon pos rfl)
          · rintro rfl
            exact List.mem_map_of_mem (colon pos rfl)
        · obtain ⟨semicolon, colon⟩ := ih rest (by omega) later
          exact ⟨fun eq => List.map_subset _ subset (semicolon eq),
            fun eq => List.map_subset _ subset (colon eq)⟩
  exact loop _ chars (Nat.le_refl _) mem

end Lexer

/-- The tokens of a text, if it has no unexpected character. -/
def tokens (text : List Char) : Option (List Token) :=
  Lexer.kinds (Lexer.all (text.map (0, ·)))

theorem kinds_all (chars : List (Nat × Char)) :
    Lexer.kinds (Lexer.all chars) = tokens (chars.map Prod.snd) :=
  Lexer.kinds_all_map_snd (by simp [Function.comp_def])

@[simp] theorem tokens_nil : tokens [] = some [] := rfl

/-- The tokens of a text split at a character that is no digit. -/
theorem tokens_append {a b : List Char} {sep : Char} (noDigit : sep.isDigit = false) :
    tokens (a ++ sep :: b) = (tokens a).bind fun ts => (tokens (sep :: b)).map (ts ++ ·) := by
  simp only [tokens, List.map_append, List.map_cons]
  rw [Lexer.all_append noDigit, Lexer.kinds_append]

theorem tokens_cons_of_next {c : Char} {text : List Char} {token : Token}
    (eq : Lexer.next ((c :: text).map (0, ·)) = some (.ok (token, 0), text.map (0, ·))) :
    tokens (c :: text) = (tokens text).map (token :: ·) := by
  rw [tokens, Lexer.all_eq, eq]
  rfl

@[simp] theorem tokens_semicolon (text : List Char) :
    tokens (';' :: text) = (tokens text).map (.semicolon :: ·) :=
  tokens_cons_of_next rfl

@[simp] theorem tokens_colon (text : List Char) :
    tokens (':' :: text) = (tokens text).map (.colon :: ·) :=
  tokens_cons_of_next rfl

@[simp] theorem tokens_in (text : List Char) :
    tokens ('i' :: text) = (tokens text).map (.in :: ·) :=
  tokens_cons_of_next rfl

@[simp] theorem tokens_out (text : List Char) :
    tokens ('o' :: text) = (tokens text).map (.out :: ·) :=
  tokens_cons_of_next rfl

@[simp] theorem tokens_regular : tokens ['-'] = some [.regular] := rfl

theorem Lexer.mem_of_kinds {items : List Item} {ts : List Token} (eq : kinds items = some ts)
    {token : Token} (mem : token ∈ ts) : ∃ pos, .ok (token, pos) ∈ items := by
  induction items generalizing ts with
  | nil =>
    obtain rfl := by simpa [kinds] using eq
    cases mem
  | cons item items ih =>
    cases item with
    | error => cases eq
    | ok taken =>
      obtain ⟨rest, kinds_rest, rfl⟩ := Option.map_eq_some_iff.mp eq
      rcases List.mem_cons.mp mem with rfl | later
      · exact ⟨taken.2, .head _⟩
      · obtain ⟨pos, there⟩ := ih kinds_rest later
        exact ⟨pos, .tail _ there⟩

/-- A text without `:` has no colon among its tokens, and one without `;` no semicolon. -/
theorem separator_notMem_tokens {text : List Char} {ts : List Token} (eq : tokens text = some ts) :
    (';' ∉ text → .semicolon ∉ ts) ∧ (':' ∉ text → .colon ∉ ts) := by
  refine ⟨fun absent mem => absent ?_, fun absent mem => absent ?_⟩
  all_goals
    obtain ⟨pos, there⟩ := Lexer.mem_of_kinds eq mem
    have separators := Lexer.separator_of_mem_all there
    simpa [Function.comp_def] using separators

theorem Lexer.number_digits (num : List Char) {chars : List (Nat × Char)}
    (digits : ∀ c ∈ chars.map Prod.snd, c.isDigit) :
    number num chars = (.number (num ++ chars.map Prod.snd), []) := by
  induction chars generalizing num with
  | nil => simp [number]
  | cons c chars ih =>
    obtain ⟨digit, digits⟩ := List.forall_mem_cons.mp digits
    rw [number, if_pos digit, ih _ digits]
    simp

/-- A number is one token. -/
theorem tokens_digits {digits : List Char} (nonempty : digits ≠ [])
    (all : ∀ c ∈ digits, c.isDigit) : tokens digits = some [.number digits] := by
  obtain ⟨c, rest, rfl⟩ := List.exists_cons_of_ne_nil nonempty
  obtain ⟨digit, rest_digits⟩ := List.forall_mem_cons.mp all
  have taken : Lexer.number [c] (rest.map (0, ·)) = _ := Lexer.number_digits [c]
    (by simpa [Function.comp_def] using rest_digits)
  have step : Lexer.next ((c :: rest).map (0, ·)) = some (.ok (.number (c :: rest), 0), []) := by
    simp only [Lexer.next, List.map_cons]
    rw [if_neg, if_neg, if_neg, if_neg, if_neg, if_pos digit, taken]
    · simp [Function.comp_def]
    all_goals
      rintro rfl
      cases digit
  rw [tokens, Lexer.all_eq, step]
  rfl

theorem tokens_negative {digits : List Char} (nonempty : digits ≠ [])
    (all : ∀ c ∈ digits, c.isDigit) : tokens ('-' :: digits) = some [.number ('-' :: digits)] := by
  obtain ⟨c, rest, rfl⟩ := List.exists_cons_of_ne_nil nonempty
  obtain ⟨digit, rest_digits⟩ := List.forall_mem_cons.mp all
  have taken : Lexer.number ['-', c] (rest.map (0, ·)) = _ := Lexer.number_digits ['-', c]
    (by simpa [Function.comp_def] using rest_digits)
  have step : Lexer.next (('-' :: c :: rest).map (0, ·)) =
      some (.ok (.number ('-' :: c :: rest), 0), []) := by
    simp only [Lexer.next, List.map_cons]
    rw [if_neg (by decide), if_neg (by decide), if_neg (by decide), if_neg (by decide),
      if_pos trivial, if_pos digit, taken]
    simp [Function.comp_def]
  rw [tokens, Lexer.all_eq, step]
  rfl

end FoundryCore.SourceMap
