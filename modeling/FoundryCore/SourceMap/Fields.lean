import FoundryCore.Library.Split
import FoundryCore.SourceMap.Elements

/-!
# Reading field by field

A field holds at most one number and at most one jump, in either order; nothing ties a jump to
the fourth field. The builder of a part follows from the readings of its fields.
-/

namespace FoundryCore.SourceMap

/-! ## What a field holds -/

def numberTokens (ts : List Token) : List (List Char) :=
  ts.filterMap fun
    | .number num => some num
    | _ => none

def jumpTokens (ts : List Token) : List Jump :=
  ts.filterMap fun
    | .in => some .in
    | .out => some .out
    | .regular => some .regular
    | _ => none

/-- The number and the jump of a field. -/
structure Reading where
  number : Option (Option (BitVec 32)) := none
  jump : Option Jump := none
deriving DecidableEq

/-- The tokens of a field in the given state hold at most one number, and none where a jump
belongs, and at most one jump. -/
structure IsReading (state : State) (ts : List Token) (r : Reading) : Prop where
  number : (numberTokens ts).map (fun num => (parseNumber num 0).toOption) =
    r.number.toList.map some
  noNumber : state = .jmp → r.number = none
  jump : jumpTokens ts = r.jump.toList

namespace SourceElementBuilder

/-- The field of the state was not set yet. -/
def Free (b : SourceElementBuilder) : State → Prop
  | .offset => b.offset = none
  | .length => b.length = none
  | .index => b.index = none
  | .jmp => True
  | .modifier => b.modifierDepth = none

/-- Sets the field of the state to a number. -/
def put (b : SourceElementBuilder) (n : Option (BitVec 32)) : State → SourceElementBuilder
  | .offset => { b with offset := some (orZero n) }
  | .length => { b with length := some (orZero n) }
  | .index => { b with index := some n }
  | .jmp => b
  | .modifier => { b with modifierDepth := some (orZero n) }

/-- The builder with a reading of the field of the state. -/
def add (b : SourceElementBuilder) (state : State) (r : Reading) : SourceElementBuilder :=
  let b := match r.number with
    | some n => b.put n state
    | none => b
  { b with jump := r.jump.or b.jump }

/-- A reading that does not set a field twice. -/
structure Admits (b : SourceElementBuilder) (state : State) (r : Reading) : Prop where
  free : r.number.isSome → b.Free state
  jump : r.jump.isSome → b.jump = none

end SourceElementBuilder

/-! ## Tokens of a field -/

section Accept

open SourceElementBuilder

variable {state state' : State} {b b' : SourceElementBuilder} {next : State × SourceElementBuilder}

theorem accept_number {num : List Char} :
    accept state b (.number num) 0 = .ok next ↔
      state ≠ .jmp ∧ b.Free state ∧
        ∃ n, parseNumber num 0 = .ok n ∧ next = (state, b.put n state) := by
  cases read : parseNumber num 0 with
  | error => cases state <;> simp [accept, read, Bind.bind, Except.bind]
  | ok n =>
    cases state
    · cases free : b.offset <;>
        simp [accept, read, Bind.bind, Except.bind, setOffset, free, Free, put, eq_comm]
    · cases free : b.length <;>
        simp [accept, read, Bind.bind, Except.bind, setLength, free, Free, put, eq_comm]
    · cases free : b.index <;>
        simp [accept, read, Bind.bind, Except.bind, setIndex, free, Free, put, eq_comm]
    · simp [accept]
    · cases free : b.modifierDepth <;>
        simp [accept, read, Bind.bind, Except.bind, setModifier, free, Free, put, eq_comm]

theorem accept_jump {token : Token} {jump : Jump} (is : jumpTokens [token] = [jump]) :
    accept state b token 0 = .ok next ↔
      b.jump = none ∧ next = (state, { b with jump := some jump }) := by
  have set : accept state b token 0 =
      (b.setJmp jump 0).bind fun builder => .ok (state, builder) := by
    cases token <;> simp [jumpTokens] at is <;> subst is <;> rfl
  rw [set]
  cases free : b.jump <;> simp [setJmp, free, Except.bind, eq_comm]

@[simp] theorem put_jump (n : Option (BitVec 32)) (state : State) :
    (b.put n state).jump = b.jump := by
  cases state <;> rfl

theorem not_free_put {n : Option (BitVec 32)} (number : state ≠ .jmp) :
    ¬ (b.put n state).Free state := by
  cases state <;> simp_all [Free, put]

@[simp] theorem free_jump (jump : Option Jump) :
    ({ b with jump } : SourceElementBuilder).Free state ↔ b.Free state := by
  cases state <;> rfl

theorem put_jump_comm (n : Option (BitVec 32)) (jump : Option Jump) :
    ({ b with jump } : SourceElementBuilder).put n state = { b.put n state with jump } := by
  cases state <;> rfl

theorem acceptAll_cons {token : Token} {ts : List Token} :
    acceptAll state b (token :: ts) = some (state', b') ↔
      ∃ next, accept state b token 0 = .ok next ∧
        acceptAll next.1 next.2 ts = some (state', b') := by
  rw [acceptAll]
  cases accept state b token 0 <;> simp

/-- The tokens of a field fill the builder with their reading. -/
theorem acceptAll_field {ts : List Token} (noColon : .colon ∉ ts) (noSemicolon : .semicolon ∉ ts) :
    acceptAll state b ts = some (state', b') ↔
      state' = state ∧ ∃ r, IsReading state ts r ∧ b.Admits state r ∧ b' = b.add state r := by
  induction ts generalizing b with
  | nil =>
    rw [acceptAll, Option.some.injEq, Prod.mk.injEq, eq_comm (a := state), eq_comm (a := b)]
    refine and_congr_right fun _ => ⟨?_, ?_⟩
    · rintro rfl
      exact ⟨{}, ⟨rfl, fun _ => rfl, rfl⟩, ⟨by simp, by simp⟩, rfl⟩
    · rintro ⟨⟨number, jump⟩, ⟨noNumber, -, noJump⟩, -, rfl⟩
      obtain rfl : number = none := by cases number <;> simp_all [numberTokens]
      obtain rfl : jump = none := by cases jump <;> simp_all [jumpTokens]
      rfl
  | cons token ts ih =>
    have ih := fun b =>
      @ih b (fun mem => noColon (.tail _ mem)) fun mem => noSemicolon (.tail _ mem)
    rw [acceptAll_cons]
    have isJump : ∀ jump, jumpTokens [token] = [jump] → numberTokens [token] = [] →
        ((∃ next, accept state b token 0 = .ok next ∧
          acceptAll next.1 next.2 ts = some (state', b')) ↔
        state' = state ∧
          ∃ r, IsReading state (token :: ts) r ∧ b.Admits state r ∧ b' = b.add state r) := by
      intro jump is noNumber
      have numbers : numberTokens (token :: ts) = numberTokens ts :=
        (List.filterMap_append (l := [token])).trans (by rw [← numberTokens, noNumber]; rfl)
      have jumps : jumpTokens (token :: ts) = jump :: jumpTokens ts :=
        (List.filterMap_append (l := [token])).trans (by rw [← jumpTokens, is]; rfl)
      constructor
      · rintro ⟨next, accepted, rest⟩
        obtain ⟨free, rfl⟩ := (accept_jump is).mp accepted
        obtain ⟨rfl, r, reading, admits, rfl⟩ := (ih _).mp rest
        have unset : r.jump = none := by
          cases set : r.jump with
          | none => rfl
          | some => simpa using admits.jump (by simp [set])
        refine ⟨rfl, { r with jump := some jump }, ⟨numbers ▸ reading.number, reading.noNumber, ?_⟩,
          ⟨by simpa using admits.free, fun _ => free⟩, ?_⟩
        · rw [jumps, reading.jump, unset]
          rfl
        · cases set : r.number <;> simp [add, set, unset, put_jump_comm]
      · rintro ⟨rfl, r, reading, admits, rfl⟩
        have set := reading.jump
        rw [jumps] at set
        obtain ⟨jump_eq, others⟩ : r.jump = some jump ∧ jumpTokens ts = [] := by
          cases set' : r.jump <;> simp_all
        refine ⟨_, (accept_jump is).mpr ⟨admits.jump (by simp [jump_eq]), rfl⟩, (ih _).mpr ⟨rfl,
          { r with jump := none }, ⟨numbers ▸ reading.number, reading.noNumber, ?_⟩,
          ⟨by simpa using admits.free, by simp⟩, ?_⟩⟩
        · rw [others]
          rfl
        · cases set' : r.number <;> simp [add, set', jump_eq, put_jump_comm]
    cases token with
    | semicolon => exact absurd (.head _) noSemicolon
    | colon => exact absurd (.head _) noColon
    | «in» => exact isJump .in rfl rfl
    | out => exact isJump .out rfl rfl
    | regular => exact isJump .regular rfl rfl
    | number num =>
      constructor
      · rintro ⟨next, accepted, rest⟩
        obtain ⟨hasNumber, free, n, read, rfl⟩ := accept_number.mp accepted
        obtain ⟨rfl, r, reading, admits, rfl⟩ := (ih _).mp rest
        have unset : r.number = none := by
          cases set : r.number with
          | none => rfl
          | some => exact absurd (admits.free (by simp [set])) (not_free_put hasNumber)
        have others : numberTokens ts = [] := by simpa [unset] using reading.number
        refine ⟨rfl, { r with number := some n }, ⟨?_, fun jmp => absurd jmp hasNumber, ?_⟩,
          ⟨fun _ => free, by simpa using admits.jump⟩, ?_⟩
        · have : numberTokens (.number num :: ts) = num :: numberTokens ts := rfl
          simp [this, others, read, Except.toOption]
        · exact reading.jump
        · simp [add, unset]
      · rintro ⟨rfl, r, reading, admits, rfl⟩
        have split : numberTokens (.number num :: ts) = num :: numberTokens ts := rfl
        have number := reading.number
        rw [split, List.map_cons] at number
        obtain ⟨n, set⟩ : ∃ n, r.number = some n := by
          cases set : r.number <;> simp_all
        rw [set] at number
        obtain ⟨read, others⟩ : (parseNumber num 0).toOption = some n ∧ numberTokens ts = [] := by
          simpa using number
        have hasNumber : state' ≠ .jmp := by
          rintro rfl
          simp [reading.noNumber rfl] at set
        refine ⟨(state', b.put n state'),
          accept_number.mpr ⟨hasNumber, admits.free (by simp [set]), n, ?_, rfl⟩,
          (ih _).mpr ⟨rfl, { r with number := none }, ⟨?_, fun _ => rfl, reading.jump⟩,
            ⟨by simp, by simpa using admits.jump⟩, ?_⟩⟩
        · cases parsed : parseNumber num 0 <;> simp_all [Except.toOption]
        · simp [others]
        · simp [add, set]

end Accept

/-! ## The fields of a part -/

/-- What a field reads as. -/
def FieldReading (state : State) (text : List Char) (r : Reading) : Prop :=
  ∃ ts, tokens text = some ts ∧ IsReading state ts r

/-- The builder after a field. -/
def readField (state : State) (b : SourceElementBuilder) (text : List Char) :
    Option SourceElementBuilder :=
  (tokens text).bind fun ts => (acceptAll state b ts).map Prod.snd

/-- The builder after some fields. -/
def readFields (state : State) (b : SourceElementBuilder) :
    List (List Char) → Option SourceElementBuilder
  | [] => some b
  | [text] => readField state b text
  | text :: rest => (readField state b text).bind fun b =>
    (state.advance 0).toOption.bind fun state => readFields state b rest

/-- A text between separators. -/
def IsText (text : List Char) : Prop := ':' ∉ text ∧ ';' ∉ text

section Fields

variable {state : State} {b b' : SourceElementBuilder} {text : List Char} {r : Reading}

theorem acceptAll_append {ts ts' : List Token} :
    acceptAll state b (ts ++ ts') =
      (acceptAll state b ts).bind fun (state, b) => acceptAll state b ts' := by
  induction ts generalizing state b with
  | nil => rfl
  | cons token ts ih =>
    rw [List.cons_append, acceptAll, acceptAll]
    cases accept state b token 0 with
    | error => rfl
    | ok next => exact ih

theorem readField_eq_some (isText : IsText text) :
    readField state b text = some b' ↔
      ∃ r, FieldReading state text r ∧ b.Admits state r ∧ b' = b.add state r := by
  constructor
  · intro eq
    obtain ⟨ts, lexed, eq⟩ := Option.bind_eq_some_iff.mp eq
    obtain ⟨⟨state', _⟩, accepted, rfl⟩ := Option.map_eq_some_iff.mp eq
    have separators := separator_notMem_tokens lexed
    obtain ⟨-, r, reading, admits, rfl⟩ :=
      (acceptAll_field (separators.2 isText.1) (separators.1 isText.2)).mp accepted
    exact ⟨r, ⟨ts, lexed, reading⟩, admits, rfl⟩
  · rintro ⟨r, ⟨ts, lexed, reading⟩, admits, rfl⟩
    have separators := separator_notMem_tokens lexed
    have accepted : acceptAll state b ts = some (state, b.add state r) :=
      (acceptAll_field (separators.2 isText.1) (separators.1 isText.2)).mpr
        ⟨rfl, r, reading, admits, rfl⟩
    simp [readField, lexed, accepted]

/-- The fields of a part are read one after the other. -/
theorem readFields_intercalate {fs : List (List Char)} (nonempty : fs ≠ [])
    (areTexts : ∀ text ∈ fs, IsText text) (state : State) (b : SourceElementBuilder) :
    ((tokens ([':'].intercalate fs)).bind fun ts => (acceptAll state b ts).map Prod.snd) =
      readFields state b fs := by
  induction fs generalizing state b with
  | nil => exact absurd rfl nonempty
  | cons text fs ih =>
    cases fs with
    | nil => simp [readFields, readField]
    | cons text' fs =>
      have isText := areTexts text (.head _)
      have rest := ih (by simp) fun text mem => areTexts text (.tail _ mem)
      rw [List.intercalate_cons_cons, List.append_assoc, List.singleton_append,
        tokens_append (show Char.isDigit ':' = false from rfl), tokens_colon]
      rw [readFields, readField]
      swap
      · simp
      cases lexed : tokens text with
      | none => rfl
      | some ts =>
        have separators := separator_notMem_tokens lexed
        simp only [Option.bind_some, Option.map_map, Option.bind_map, Function.comp_def]
        simp only [acceptAll_append]
        cases accepted : acceptAll state b ts with
        | none => cases tokens ([':'].intercalate (text' :: fs)) <;> rfl
        | some next =>
          obtain ⟨state', b'⟩ := next
          obtain ⟨rfl, -⟩ := (acceptAll_field (separators.2 isText.1) (separators.1 isText.2)).mp
            accepted
          simp only [Option.bind_some, ← rest]
          cases advanced : state'.advance 0 with
          | error err =>
            have colon : accept state' b' .colon 0 = .error err := by
              simp only [accept, advanced, Bind.bind, Except.bind]
            cases tokens ([':'].intercalate (text' :: fs)) <;>
              simp [acceptAll, colon, Except.toOption]
          | ok state'' =>
            have colon : accept state' b' .colon 0 = .ok (state'', b') := by
              simp only [accept, advanced, Bind.bind, Except.bind]
            simp [acceptAll, colon, Except.toOption]

end Fields

/-- The position of the field that a state reads. -/
def State.position : State → Nat
  | .offset => 0
  | .length => 1
  | .index => 2
  | .jmp => 3
  | .modifier => 4

/-- The field of a state; fields that are left out are empty. -/
def fieldOf (fs : List (List Char)) (state : State) : List Char := fs.getD state.position []

/-- The states in the order of the fields. -/
def State.all : List State := [.offset, .length, .index, .jmp, .modifier]

theorem State.mem_all (state : State) : state ∈ State.all := by
  cases state <;> decide

/-- The jumps of five readings in order. -/
def jumpsOf (r : State → Reading) : List Jump :=
  State.all.flatMap fun state => (r state).jump.toList

/-- The builder that five readings fill. -/
def builderOf (r : State → Reading) : SourceElementBuilder where
  offset := (r .offset).number.map orZero
  length := (r .length).number.map orZero
  index := (r .index).number
  jump := (jumpsOf r).head?
  modifierDepth := (r .modifier).number.map orZero

/-- At most five fields, each with a reading, and at most one jump among them. -/
structure PartReading (fs : List (List Char)) (r : State → Reading) : Prop where
  fields : fs.length ≤ 5
  reading : ∀ state, FieldReading state (fieldOf fs state) (r state)
  jumps : (jumpsOf r).length ≤ 1

theorem readField_nil (state : State) (b : SourceElementBuilder) :
    readField state b [] = some b := by
  simp [readField, acceptAll]

/-- The fields that are left out change nothing. -/
theorem readFields_five {fs : List (List Char)} (nonempty : fs ≠ []) (few : fs.length ≤ 5) :
    readFields .offset {} fs =
      State.all.foldlM (fun b state => readField state b (fieldOf fs state)) {} := by
  match fs, nonempty, few with
  | [f₀], _, _ => simp [readFields, State.all, fieldOf, State.position, readField_nil]
  | [f₀, f₁], _, _ =>
    simp [readFields, State.all, fieldOf, State.position, readField_nil, State.advance,
      Except.toOption]
  | [f₀, f₁, f₂], _, _ =>
    simp [readFields, State.all, fieldOf, State.position, readField_nil, State.advance,
      Except.toOption]
  | [f₀, f₁, f₂, f₃], _, _ =>
    simp [readFields, State.all, fieldOf, State.position, readField_nil, State.advance,
      Except.toOption]
  | [f₀, f₁, f₂, f₃, f₄], _, _ =>
    simp [readFields, State.all, fieldOf, State.position, State.advance, Except.toOption]

/-- There is a state for each of five fields. -/
theorem readFields_of_many {fs : List (List Char)} {state : State} {b : SourceElementBuilder}
    (many : 5 < state.position + fs.length) : readFields state b fs = none := by
  induction fs generalizing state b with
  | nil => cases state <;> simp [State.position] at many
  | cons text rest ih =>
    cases rest with
    | nil => cases state <;> simp [State.position] at many
    | cons next rest =>
      rw [readFields]
      · cases readField state b text with
        | none => rfl
        | some b =>
          cases advanced : state.advance 0 with
          | error => rfl
          | ok state' =>
            refine ih ?_
            have moved : state'.position = state.position + 1 := by
              cases state <;> cases advanced <;> rfl
            simp only [List.length_cons] at many ⊢
            omega
      · simp

/-- A sixth field is refused. -/
theorem readFields_six {fs : List (List Char)} (many : 5 < fs.length) :
    readFields .offset {} fs = none :=
  readFields_of_many (by simpa [State.position] using many)

section Builder

open SourceElementBuilder

variable {b : SourceElementBuilder} {state : State} {r : Reading}

theorem add_offset : (b.add state r).offset =
    if state = .offset then (r.number.map orZero).or b.offset else b.offset := by
  cases state <;> cases h : r.number <;> simp [add, put, h]

theorem add_length : (b.add state r).length =
    if state = .length then (r.number.map orZero).or b.length else b.length := by
  cases state <;> cases h : r.number <;> simp [add, put, h]

theorem add_index : (b.add state r).index =
    if state = .index then r.number.or b.index else b.index := by
  cases state <;> cases h : r.number <;> simp [add, put, h]

theorem add_modifierDepth : (b.add state r).modifierDepth =
    if state = .modifier then (r.number.map orZero).or b.modifierDepth else b.modifierDepth := by
  cases state <;> cases h : r.number <;> simp [add, put, h]

theorem free_add {state' : State} (other : state ≠ state') :
    (b.add state r).Free state' ↔ b.Free state' := by
  cases state' <;> simp [Free, add_offset, add_length, add_index, add_modifierDepth, other]

theorem add_jump : (b.add state r).jump = r.jump.or b.jump := by
  cases h : r.number <;> simp [add, h]

/-- The jumps so far, one at most, and the jump that is added. -/
theorem admits_iff (free : b.Free state) :
    b.Admits state r ↔ (b.jump.toList ++ r.jump.toList).length ≤ 1 := by
  constructor
  · intro admits
    have := admits.jump
    cases h : r.jump <;> cases h' : b.jump <;> simp_all
  · intro few
    refine ⟨fun _ => free, fun some => ?_⟩
    cases h : r.jump <;> cases h' : b.jump <;> simp_all

theorem add_jump_toList (few : (b.jump.toList ++ r.jump.toList).length ≤ 1) :
    (b.add state r).jump.toList = b.jump.toList ++ r.jump.toList := by
  rw [add_jump]
  cases h : r.jump <;> cases h' : b.jump <;> simp_all

end Builder

/-- Fields of different states, read in order. -/
theorem readStates_eq_some {text : State → List Char} (areTexts : ∀ state, IsText (text state))
    {states : List State} (distinct : states.Nodup) {b b' : SourceElementBuilder}
    (free : ∀ state ∈ states, b.Free state) :
    states.foldlM (fun b state => readField state b (text state)) b = some b' ↔
      ∃ r : State → Reading, (∀ state ∈ states, FieldReading state (text state) (r state)) ∧
        (b.jump.toList ++ states.flatMap fun state => (r state).jump.toList).length ≤ 1 ∧
        b' = states.foldl (fun b state => b.add state (r state)) b := by
  induction states generalizing b with
  | nil =>
    constructor
    · intro eq
      exact ⟨fun _ => {}, by simp, by simp, (Option.some.inj eq).symm⟩
    · rintro ⟨r, -, -, rfl⟩
      rfl
  | cons state states ih =>
    obtain ⟨new, distinct⟩ := List.nodup_cons.mp distinct
    have later : ∀ r, ∀ state' ∈ states, (b.add state r).Free state' := fun r state' mem =>
      (free_add (by rintro rfl; exact new mem)).mpr (free state' (.tail _ mem))
    rw [List.foldlM_cons, Option.bind_eq_bind, Option.bind_eq_some_iff]
    constructor
    · rintro ⟨b₁, first, rest⟩
      obtain ⟨r₀, reading, admits, rfl⟩ := (readField_eq_some (areTexts state)).mp first
      obtain ⟨r, readings, few, rfl⟩ := (ih distinct (later r₀)).mp rest
      have few₀ := (admits_iff (free state (.head _))).mp admits
      rw [add_jump_toList few₀] at few
      have same : ∀ state' ∈ states, Function.update r state r₀ state' = r state' :=
        fun state' mem => Function.update_of_ne (by rintro rfl; exact new mem) _ _
      have jumps : states.flatMap (fun state' => (Function.update r state r₀ state').jump.toList) =
          states.flatMap fun state' => (r state').jump.toList :=
        List.flatMap_congr fun state' mem => by rw [same state' mem]
      refine ⟨Function.update r state r₀, fun state' mem => ?_, ?_, ?_⟩
      · rcases List.mem_cons.mp mem with rfl | mem
        · simpa using reading
        · rw [same state' mem]
          exact readings state' mem
      · simpa [jumps] using few
      · rw [List.foldl_cons, Function.update_self]
        exact List.foldl_ext _ _ _ fun b state' mem => by rw [same state' mem]
    · rintro ⟨r, readings, few, rfl⟩
      rw [List.flatMap_cons, ← List.append_assoc] at few
      have few₀ : (b.jump.toList ++ (r state).jump.toList).length ≤ 1 := by
        rw [List.length_append] at few
        omega
      refine ⟨b.add state (r state), (readField_eq_some (areTexts state)).mpr ⟨r state,
        readings state (.head _), (admits_iff (free state (.head _))).mpr few₀, rfl⟩, ?_⟩
      refine (ih distinct (later _)).mpr
        ⟨r, fun state' mem => readings state' (.tail _ mem), ?_, rfl⟩
      rwa [add_jump_toList few₀]

/-- Five readings fill their builder. -/
theorem foldl_add {r : State → Reading} (one : (jumpsOf r).length ≤ 1) :
    State.all.foldl (fun b state => b.add state (r state)) {} = builderOf r := by
  have jumps : ∀ (states : List State) (b : SourceElementBuilder),
      (b.jump.toList ++ states.flatMap fun state => (r state).jump.toList).length ≤ 1 →
      (states.foldl (fun b state => b.add state (r state)) b).jump.toList =
        b.jump.toList ++ states.flatMap fun state => (r state).jump.toList := by
    intro states
    induction states with
    | nil => simp
    | cons state states ih =>
      intro b few
      rw [List.flatMap_cons, ← List.append_assoc] at few
      have few₀ : (b.jump.toList ++ (r state).jump.toList).length ≤ 1 := by
        rw [List.length_append] at few
        omega
      rw [List.foldl_cons, ih _ (by rwa [add_jump_toList few₀]), add_jump_toList few₀,
        List.flatMap_cons, List.append_assoc]
  have jump := jumps State.all {} (by simpa [jumpsOf] using one)
  ext1
  · simp [State.all, builderOf, add_offset]
  · simp [State.all, builderOf, add_length]
  · simp [State.all, builderOf, add_index]
  · have head := congrArg List.head? jump
    rw [Option.head?_toList] at head
    exact head
  · simp [State.all, builderOf, add_modifierDepth]

theorem isText_of_mem {part : List Char} (noSemicolon : ';' ∉ part) {text : List Char}
    (mem : text ∈ part.splitOn ':') : IsText text :=
  ⟨Library.notMem_of_mem_splitOn mem,
    fun semicolon => noSemicolon (Library.subset_of_mem_splitOn mem semicolon)⟩

theorem isText_fieldOf {part : List Char} (noSemicolon : ';' ∉ part) (state : State) :
    IsText (fieldOf (part.splitOn ':') state) := by
  rw [fieldOf, List.getD_eq_getElem?_getD]
  cases getEq : (part.splitOn ':')[state.position]? with
  | none => simp [IsText]
  | some text => exact isText_of_mem noSemicolon (List.mem_of_getElem? getEq)

/-- A part is read exactly when its fields have readings with at most one jump. -/
theorem readPart_eq_some {part : List Char} (noSemicolon : ';' ∉ part)
    {b : SourceElementBuilder} :
    readPart part = some b ↔ ∃ r, PartReading (part.splitOn ':') r ∧ b = builderOf r := by
  have areTexts : ∀ text ∈ part.splitOn ':', IsText text := fun _ => isText_of_mem noSemicolon
  have nonempty := List.splitOn_ne_nil ':' part
  have read := readFields_intercalate nonempty areTexts .offset {}
  rw [List.intercalate_splitOn] at read
  change readPart part = _ at read
  rw [read]
  by_cases few : (part.splitOn ':').length ≤ 5
  · rw [readFields_five nonempty few, readStates_eq_some (isText_fieldOf noSemicolon) (by decide)
      fun state _ => by cases state <;> simp [SourceElementBuilder.Free]]
    refine exists_congr fun r => ⟨?_, ?_⟩
    · rintro ⟨readings, jumps, rfl⟩
      have one : (jumpsOf r).length ≤ 1 := by simpa [jumpsOf] using jumps
      exact ⟨⟨few, fun state => readings state state.mem_all, one⟩, foldl_add one⟩
    · rintro ⟨reading, rfl⟩
      exact ⟨fun state _ => reading.reading state, by simpa [jumpsOf] using reading.jumps,
        (foldl_add reading.jumps).symm⟩
  · rw [readFields_six (by omega)]
    refine ⟨by simp, ?_⟩
    rintro ⟨r, reading, -⟩
    exact absurd reading.fields few

end FoundryCore.SourceMap
