import FoundryCore.SourceMap.Lexer

/-!
# Reading element by element

Where it succeeds, the parser reads the parts between the semicolons one by one: the tokens of a
part fill a builder, and the builder is finished over the element before.
-/

namespace FoundryCore.SourceMap

/-- The parts of an input between its semicolons; the empty input has none. -/
def parts (input : String) : List (List Char) :=
  if input.isEmpty then [] else input.toList.splitOn ';'

/-- The state and the builder after some tokens, if none of them is refused. -/
def acceptAll (state : State) (builder : SourceElementBuilder) :
    List Token → Option (State × SourceElementBuilder)
  | [] => some (state, builder)
  | token :: rest =>
    match accept state builder token 0 with
    | .ok (state, builder) => acceptAll state builder rest
    | .error _ => none

/-- The builder that a part fills. -/
def readPart (part : List Char) : Option SourceElementBuilder :=
  (tokens part).bind fun ts => (acceptAll .offset {} ts).map Prod.snd

/-- The elements of some parts after an element. -/
def elements (prev : Option SourceElement) : List (List Char) → Option (List SourceElement)
  | [] => some []
  | part :: rest =>
    (readPart part).bind fun builder => (builder.finish prev).toOption.bind fun element =>
      (elements (some element) rest).map (element :: ·)

/-! ## Filling a builder -/

/-- The parser over items without a semicolon. -/
def runItems (state : State) (builder : SourceElementBuilder) :
    List Item → Except SyntaxError (State × SourceElementBuilder)
  | [] => .ok (state, builder)
  | .error err :: _ => .error err
  | .ok (token, pos) :: rest => do
    let (state, builder) ← accept state builder token pos
    runItems state builder rest

theorem fill_append {items rest : List Item} (noSemicolon : ∀ pos, .ok (.semicolon, pos) ∉ items)
    (state : State) (builder : SourceElementBuilder) :
    fill state builder (items ++ rest) =
      (runItems state builder items).bind fun (state, builder) => fill state builder rest := by
  induction items generalizing state builder with
  | nil => rfl
  | cons item items ih =>
    have later : ∀ pos, .ok (.semicolon, pos) ∉ items :=
      fun pos mem => noSemicolon pos (.tail _ mem)
    cases item with
    | error => rfl
    | ok taken =>
      obtain ⟨token, pos⟩ := taken
      have isOther : token ≠ .semicolon := by
        rintro rfl
        exact noSemicolon pos (.head _)
      have step : fill state builder (.ok (token, pos) :: (items ++ rest)) =
          (accept state builder token pos).bind fun (state, builder) =>
            fill state builder (items ++ rest) := by
        cases token <;> first | rfl | exact absurd rfl isOther
      rw [List.cons_append, step, runItems]
      cases accept state builder token pos with
      | error => rfl
      | ok next => exact ih later next.1 next.2

theorem parseNumber_toOption (num : List Char) (pos pos' : Nat) :
    (parseNumber num pos).toOption = (parseNumber num pos').toOption := by
  simp only [parseNumber]
  cases parseI64 num with
  | error => rfl
  | ok n =>
    dsimp only
    split_ifs <;> rfl

/-- Positions matter to errors only. -/
theorem accept_toOption (state : State) (builder : SourceElementBuilder) (token : Token)
    (pos pos' : Nat) :
    (accept state builder token pos).toOption = (accept state builder token pos').toOption := by
  have bind : ∀ {α β : Type} {x x' : Except SyntaxError α} {f f' : α → Except SyntaxError β},
      x.toOption = x'.toOption → (∀ a, (f a).toOption = (f' a).toOption) →
      (x >>= f).toOption = (x' >>= f').toOption := by
    intro α β x x' f f' first second
    cases x <;> cases x' <;> simp_all [Except.toOption, Bind.bind, Except.bind]
  cases token with
  | number num =>
    cases state <;> first
      | rfl
      | refine bind (parseNumber_toOption num pos pos') fun n => bind ?_ fun _ => rfl
        simp only [SourceElementBuilder.setOffset, SourceElementBuilder.setLength,
          SourceElementBuilder.setIndex, SourceElementBuilder.setModifier]
        split_ifs <;> rfl
  | colon => cases state <;> rfl
  | semicolon => rfl
  | «in» | out | regular =>
    refine bind ?_ fun _ => rfl
    simp only [SourceElementBuilder.setJmp]
    split_ifs <;> rfl

theorem runItems_toOption (state : State) (builder : SourceElementBuilder) (items : List Item) :
    (runItems state builder items).toOption =
      (Lexer.kinds items).bind (acceptAll state builder) := by
  induction items generalizing state builder with
  | nil => rfl
  | cons item items ih =>
    cases item with
    | error => rfl
    | ok taken =>
      obtain ⟨token, pos⟩ := taken
      have same := accept_toOption state builder token pos 0
      simp only [runItems, Lexer.kinds]
      cases here : accept state builder token pos with
      | error err =>
        cases there : accept state builder token 0 with
        | error =>
          cases Lexer.kinds items with
          | none => rfl
          | some rest =>
            simp only [Option.map_some, Option.bind_some, acceptAll, there]
            rfl
        | ok => simp [here, there, Except.toOption] at same
      | ok next =>
        cases there : accept state builder token 0 with
        | error => simp [here, there, Except.toOption] at same
        | ok next' =>
          obtain rfl : next = next' := by simpa [here, there, Except.toOption] using same
          refine (ih next.1 next.2).trans ?_
          cases Lexer.kinds items with
          | none => rfl
          | some ts => simp [acceptAll, there]

/-! ## The parser and its parts -/

section Parts

variable {chars rest a : List (Nat × Char)} {pos : Nat} {prev : Option SourceElement} {fuel : Nat}

theorem noSemicolon_of_notMem (absent : ';' ∉ chars.map Prod.snd) (pos : Nat) :
    .ok (.semicolon, pos) ∉ Lexer.all chars :=
  fun mem => absent ((Lexer.separator_of_mem_all mem).1 rfl)

theorem readPart_eq (chars : List (Nat × Char)) :
    (runItems .offset {} (Lexer.all chars)).toOption.map Prod.snd =
      readPart (chars.map Prod.snd) := by
  rw [runItems_toOption, kinds_all, readPart]
  cases tokens (chars.map Prod.snd) <;> rfl

theorem toOption_bind {α β : Type} (x : Except SyntaxError α) (f : α → Except SyntaxError β) :
    (x >>= f).toOption = x.toOption.bind fun a => (f a).toOption := by
  cases x <;> rfl

/-- The parser at some characters, with the element before them. -/
def Parser.at (chars : List (Nat × Char)) (prev : Option SourceElement) : Parser where
  lexer := Lexer.all chars
  lastElement := prev
  done := false

/-- The parser after the input ended. -/
def Parser.ended (prev : Option SourceElement) : Parser where
  lexer := []
  lastElement := prev
  done := true

theorem collect_step (fuel : Nat) (p : Parser) :
    (Parser.collect (fuel + 1) p).toOption = p.advance.toOption.bind fun
      | none => some []
      | some (element, p) => (Parser.collect fuel p).toOption.map (element :: ·) := by
  rw [Parser.collect, toOption_bind]
  congr 1
  funext next
  cases next with
  | none => rfl
  | some taken =>
    obtain ⟨element, p⟩ := taken
    dsimp only
    cases Parser.collect fuel p <;> rfl

/-- The last part ends the input. -/
theorem advance_last (last : ';' ∉ chars.map Prod.snd) :
    (Parser.at chars prev).advance.toOption =
      (readPart (chars.map Prod.snd)).bind fun builder => (builder.finish prev).toOption.map
        fun element => some (element, .ended (some element)) := by
  have whole := @fill_append _ [] (noSemicolon_of_notMem last) .offset {}
  rw [List.append_nil] at whole
  rw [← readPart_eq]
  simp only [Parser.advance, Parser.at, whole]
  cases runItems .offset {} (Lexer.all chars) with
  | error => rfl
  | ok filled =>
    simp only [Except.toOption, Option.map_some, Option.bind_some]
    change ((filled.2.finish prev) >>= _ : Except _ _).toOption = _
    rw [toOption_bind]
    cases (filled.2.finish prev) <;> rfl

/-- A part before a semicolon is read on its own. -/
theorem advance_part (first : ';' ∉ a.map Prod.snd) :
    (Parser.at (a ++ (pos, ';') :: rest) prev).advance.toOption =
      (readPart (a.map Prod.snd)).bind fun builder => (builder.finish prev).toOption.map
        fun element => some (element, .at rest (some element)) := by
  have tail : Lexer.all ((pos, ';') :: rest) = .ok (.semicolon, pos) :: Lexer.all rest := by
    rw [Lexer.all_eq]
    rfl
  have whole : fill .offset {} (Lexer.all (a ++ (pos, ';') :: rest)) =
      (runItems .offset {} (Lexer.all a)).bind fun (_, builder) =>
        .ok (builder, Lexer.all rest, false) := by
    rw [Lexer.all_append rfl, tail, fill_append (noSemicolon_of_notMem first)]
    rfl
  rw [← readPart_eq]
  simp only [Parser.advance, Parser.at, whole]
  cases runItems .offset {} (Lexer.all a) with
  | error => rfl
  | ok filled =>
    simp only [Except.toOption, Option.map_some, Option.bind_some]
    change ((filled.2.finish prev) >>= _ : Except _ _).toOption = _
    rw [toOption_bind]
    cases (filled.2.finish prev) <;> rfl

/-- What the parser collects from the characters that are left is what their parts give. -/
theorem collect_toOption (enough : (Lexer.all chars).length + 2 ≤ fuel) :
    (Parser.collect fuel (.at chars prev)).toOption =
      elements prev ((chars.map Prod.snd).splitOn ';') := by
  induction fuel generalizing chars prev with
  | zero => omega
  | succ fuel ih =>
    rw [collect_step]
    by_cases found : ';' ∈ chars.map Prod.snd
    · obtain ⟨text, text', split, first⟩ := List.eq_append_cons_of_mem found
      obtain ⟨a, b, rfl, rfl, tail⟩ := List.map_eq_append_iff.mp split
      obtain ⟨⟨pos, _⟩, rest, rfl, rfl, rfl⟩ := List.map_eq_cons_iff.mp tail
      have shorter : (Lexer.all rest).length + 2 ≤ fuel := by
        rw [Lexer.all_append rfl, Lexer.all_eq ((pos, ';') :: rest)] at enough
        simp [Lexer.next] at enough
        omega
      rw [advance_part first, List.map_append, List.map_cons,
        List.splitOn_append_cons_self_of_not_mem first, elements]
      cases readPart (a.map Prod.snd) with
      | none => rfl
      | some builder =>
        simp only [Option.bind_some]
        cases (builder.finish prev).toOption with
        | none => rfl
        | some element => exact congrArg (Option.map (element :: ·)) (ih shorter)
    · obtain ⟨fuel, rfl⟩ : ∃ n, fuel = n + 1 := ⟨fuel - 1, by omega⟩
      have done : ∀ element,
          (Parser.collect (fuel + 1) (.ended (some element))).toOption = some [] := fun _ => rfl
      rw [advance_last found, List.splitOn_eq_singleton found, elements]
      cases readPart (chars.map Prod.snd) with
      | none => rfl
      | some builder =>
        simp only [Option.bind_some]
        cases (builder.finish prev).toOption with
        | none => rfl
        | some element => exact congrArg (Option.map (element :: ·)) (done element)

/-- Parsing succeeds with the elements of the parts. -/
theorem parse_toOption (input : String) : (parse input).toOption = elements none (parts input) := by
  have positions : ∀ pos (text : List Char), (Lexer.charIndices pos text).map Prod.snd = text := by
    intro pos text
    induction text generalizing pos with
    | nil => rfl
    | cons c text ih => rw [Lexer.charIndices, List.map_cons, ih]
  have lexed : (Parser.new input).lexer = Lexer.all (Lexer.charIndices 0 input.toList) := by
    have size := congrArg List.length (positions 0 input.toList)
    rw [List.length_map] at size
    rw [Lexer.all, size]
    rfl
  unfold parts
  split_ifs with empty
  · obtain rfl := String.isEmpty_iff.mp empty
    decide
  · have start : Parser.new input = .at (Lexer.charIndices 0 input.toList) none := by
      rw [Parser.at, ← lexed]
      simp [Parser.new, empty]
    rw [parse, start]
    exact (collect_toOption (Nat.le_refl _)).trans (by rw [positions])

end Parts

end FoundryCore.SourceMap
