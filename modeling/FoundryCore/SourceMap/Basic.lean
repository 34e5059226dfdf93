import Mathlib.Algebra.Group.Nat.Defs
import Mathlib.Algebra.Group.Int.Defs
import Mathlib.Data.List.Basic
import Mathlib.Tactic.Common

/-!
# Source maps

A source map is a string of elements `s:l:f:j:m` separated by `;`, in which fields may be left
out. The lexer turns the string into tokens, and the parser runs a state machine over the fields
of each element and fills in what was left out from the element before.
-/

namespace FoundryCore.SourceMap

/-! ## Elements -/

inductive Jump
  /-- A jump instruction that goes into a function. -/
  | «in»
  /-- A jump represents an instruction that returns from a function. -/
  | out
  /-- A regular jump instruction. -/
  | regular
deriving DecidableEq, Repr

namespace Jump

/-- The string representation of the jump instruction. -/
def toStr : Jump → String
  | «in» => "i"
  | out => "o"
  | regular => "-"

def toInt : Jump → BitVec 32
  | «in» => 0
  | out => 1
  | regular => 2

/-- The jump of a two-bit value; the code never gets here with 3. -/
def fromInt (i : BitVec 32) (_ : i < 3) : Jump :=
  if i = 0 then «in» else if i = 1 then out else regular

end Jump

/-- An error that can happen during source map parsing. -/
structure SyntaxError where
  pos : Option Nat
  msg : String
deriving DecidableEq, Repr

/-- A single element of a source map: `index` holds an `i32`, and the last field two bits for
the jump and 30 bits for the modifier depth. -/
@[ext]
structure SourceElement where
  offset : BitVec 32
  length : BitVec 32
  index : BitVec 32
  jumpAndModifierDepth : BitVec 32
  jump_lt : jumpAndModifierDepth >>> 30 < 3
deriving DecidableEq

namespace SourceElement

/-- A source element with default values. -/
def new : SourceElement := ⟨0, 0, -1, 0, by decide⟩

/-- The source index; `-1` stands for no particular source file. -/
def index? (e : SourceElement) : Option (BitVec 32) :=
  if e.index = -1 then none else some e.index

/-- Jump instruction. -/
def jump (e : SourceElement) : Jump := Jump.fromInt (e.jumpAndModifierDepth >>> 30) e.jump_lt

/-- Modifier depth. -/
def modifierDepth (e : SourceElement) : BitVec 32 := (e.jumpAndModifierDepth <<< 2) >>> 2

theorem modifierDepth_lt (e : SourceElement) : e.modifierDepth < 1 <<< 30 := by
  rw [modifierDepth]
  simp only [BitVec.lt_def, BitVec.toNat_ushiftRight, BitVec.toNat_shiftLeft]
  have := e.jumpAndModifierDepth.isLt
  simp [Nat.shiftLeft_eq, Nat.shiftRight_eq_div_pow]
  omega

theorem shiftRight_jumpAndModifierDepth (jump : Jump) {modifierDepth : BitVec 32}
    (lt : modifierDepth < 1 <<< 30) :
    (jump.toInt <<< 30 ||| modifierDepth) >>> 30 = jump.toInt := by
  have low : modifierDepth >>> 30 = 0 := by
    apply BitVec.eq_of_toNat_eq
    simp [BitVec.lt_def, Nat.shiftRight_eq_div_pow] at lt ⊢
    omega
  rw [BitVec.ushiftRight_or_distrib, low]
  cases jump <;> decide

theorem jump_lt_of_modifierDepth_lt (jump : Jump) {modifierDepth : BitVec 32}
    (lt : modifierDepth < 1 <<< 30) : (jump.toInt <<< 30 ||| modifierDepth) >>> 30 < 3 := by
  rw [shiftRight_jumpAndModifierDepth jump lt]
  cases jump <;> decide

def setJumpAndModifierDepth (e : SourceElement) (jump : Jump) (modifierDepth : BitVec 32)
    (lt : modifierDepth < 1 <<< 30) : SourceElement :=
  { e with
    jumpAndModifierDepth := jump.toInt <<< 30 ||| modifierDepth
    jump_lt := jump_lt_of_modifierDepth_lt jump lt }

def setJump (e : SourceElement) (jump : Jump) : SourceElement :=
  e.setJumpAndModifierDepth jump e.modifierDepth e.modifierDepth_lt

theorem ofNat_lt_of_le {modifierDepth : Nat} (le : ¬ modifierDepth > (1 <<< 30) - 1) :
    BitVec.ofNat 32 modifierDepth < 1 <<< 30 := by
  simp [BitVec.lt_def] at le ⊢
  omega

def setModifierDepth (e : SourceElement) (modifierDepth : Nat) :
    Except SyntaxError SourceElement :=
  if le : modifierDepth > (1 <<< 30) - 1 then .error ⟨none, "modifier depth overflow"⟩
  else .ok (e.setJumpAndModifierDepth e.jump (BitVec.ofNat 32 modifierDepth) (ofNat_lt_of_le le))

/-- The source element as it is written in a source map. -/
def display (e : SourceElement) : String :=
  toString e.offset.toNat ++ ":" ++ toString e.length.toNat ++ ":" ++ toString e.index.toInt ++
    ":" ++ e.jump.toStr ++ ":" ++ toString e.modifierDepth.toNat

end SourceElement

/-! ## The lexer -/

inductive Token
  /-- Decimal number. -/
  | number (num : List Char)
  | semicolon | colon
  /-- `i` which represents an instruction that goes into a function. -/
  | «in»
  /-- `o` which represents an instruction that returns from a function. -/
  | out
  /-- `-` regular jump. -/
  | regular
deriving DecidableEq, Repr

/-- What the lexer yields: a token with its position, or an error. -/
abbrev Item := Except SyntaxError (Token × Nat)

namespace Lexer

/-- The characters of a string with their byte positions. -/
def charIndices : Nat → List Char → List (Nat × Char)
  | _, [] => []
  | pos, ch :: rest => (pos, ch) :: charIndices (pos + ch.utf8Size) rest

/-- Takes the digits that follow the start of a number. -/
def number (num : List Char) : List (Nat × Char) → Token × List (Nat × Char)
  | [] => (.number num, [])
  | (pos, ch) :: rest =>
    if ch.isDigit then number (num ++ [ch]) rest else (.number num, (pos, ch) :: rest)

/-- The next item, and the characters that are left. -/
def next : List (Nat × Char) → Option (Item × List (Nat × Char))
  | [] => none
  | (start, ch) :: rest =>
    if ch = ';' then some (.ok (.semicolon, start), rest)
    else if ch = ':' then some (.ok (.colon, start), rest)
    else if ch = 'i' then some (.ok (.in, start), rest)
    else if ch = 'o' then some (.ok (.out, start), rest)
    else if ch = '-' then
      match rest with
      | (pos, digit) :: rest' =>
        if digit.isDigit then
          let (token, rest') := number [ch, digit] rest'
          some (.ok (token, start), rest')
        else some (.ok (.regular, start), (pos, digit) :: rest')
      | [] => some (.ok (.regular, start), [])
    else if ch.isDigit then
      let (token, rest) := number [ch] rest
      some (.ok (token, start), rest)
    else some (.error ⟨some start, "unexpected character: " ++ ch.toString⟩, rest)

/-- Everything the lexer yields; every item takes at least one character. -/
def items : Nat → List (Nat × Char) → List Item
  | 0, _ => []
  | fuel + 1, chars =>
    match next chars with
    | none => []
    | some (item, rest) => item :: items fuel rest

end Lexer

/-! ## The parser -/

@[ext]
structure SourceElementBuilder where
  offset : Option Nat := none
  length : Option Nat := none
  index : Option (Option (BitVec 32)) := none
  jump : Option Jump := none
  modifierDepth : Option Nat := none
deriving DecidableEq

namespace SourceElementBuilder

/-- `u32::try_from` on a `usize`. -/
def tryFrom (n : Nat) : Except SyntaxError (BitVec 32) :=
  if n < 2 ^ 32 then .ok (BitVec.ofNat 32 n) else .error ⟨none, "offset overflow"⟩

def finish (b : SourceElementBuilder) (prev : Option SourceElement) :
    Except SyntaxError SourceElement := do
  let element := prev.getD .new
  let element ← match b.offset with
    | some offset => do
      let offset ← tryFrom offset
      .ok { element with offset }
    | none => .ok element
  let element ← match b.length with
    | some length => do
      let length ← tryFrom length
      .ok { element with length }
    | none => .ok element
  let element := match b.index with
    | some index => { element with index := index.getD (-1) }
    | none => element
  let element := match b.jump with
    | some jump => element.setJump jump
    | none => element
  -- Modifier depth is optional.
  match b.modifierDepth with
  | some modifierDepth => element.setModifierDepth modifierDepth
  | none => .ok element

def setJmp (b : SourceElementBuilder) (jmp : Jump) (pos : Nat) :
    Except SyntaxError SourceElementBuilder :=
  if b.jump.isSome then .error ⟨some pos, "jump already set"⟩ else .ok { b with jump := some jmp }

def setOffset (b : SourceElementBuilder) (offset : Nat) (pos : Nat) :
    Except SyntaxError SourceElementBuilder :=
  if b.offset.isSome then .error ⟨some pos, "offset already set"⟩
  else .ok { b with offset := some offset }

def setLength (b : SourceElementBuilder) (length : Nat) (pos : Nat) :
    Except SyntaxError SourceElementBuilder :=
  if b.length.isSome then .error ⟨some pos, "length already set"⟩
  else .ok { b with length := some length }

def setIndex (b : SourceElementBuilder) (index : Option (BitVec 32)) (pos : Nat) :
    Except SyntaxError SourceElementBuilder :=
  if b.index.isSome then .error ⟨some pos, "index already set"⟩
  else .ok { b with index := some index }

def setModifier (b : SourceElementBuilder) (modifierDepth : Nat) (pos : Nat) :
    Except SyntaxError SourceElementBuilder :=
  if b.modifierDepth.isSome then .error ⟨some pos, "modifier depth already set"⟩
  else .ok { b with modifierDepth := some modifierDepth }

end SourceElementBuilder

/-- State machine to keep track of separating `:`. -/
inductive State
  | offset | length | index | jmp | modifier
deriving DecidableEq, Repr

def State.advance (pos : Nat) : State → Except SyntaxError State
  | .offset => .ok .length
  | .length => .ok .index
  | .index => .ok .jmp
  | .jmp => .ok .modifier
  | .modifier => .error ⟨some pos, "unexpected colon"⟩

/-- `str::parse::<i64>`. -/
def parseI64 (num : List Char) : Except String Int :=
  let (negative, digits) : Bool × List Char := match num with
    | '-' :: digits => (true, digits)
    | '+' :: digits => (false, digits)
    | digits => (false, digits)
  if num.isEmpty then .error "cannot parse integer from empty string"
  else if digits.isEmpty || !digits.all Char.isDigit then .error "invalid digit found in string"
  else if negative then
    let n : Int := -(Nat.ofDigitChars 10 digits 0 : Nat)
    if n < -2 ^ 63 then .error "number too small to fit in target type" else .ok n
  else
    let n : Int := (Nat.ofDigitChars 10 digits 0 : Nat)
    if n ≥ 2 ^ 63 then .error "number too large to fit in target type" else .ok n

/-- A number of a source map: `-1` stands for none. -/
def parseNumber (num : List Char) (pos : Nat) : Except SyntaxError (Option (BitVec 32)) :=
  match parseI64 num with
  | .error e => .error ⟨some pos, e⟩
  | .ok n =>
    if n < -1 then .error ⟨some pos, "unexpected negative number"⟩
    else if n = -1 then .ok none
    else if n < 2 ^ 32 then .ok (some (BitVec.ofInt 32 n))
    else .error ⟨some pos, "number too large"⟩

/-- A number in a field other than the index, where `-1` reads as 0. -/
def orZero (n : Option (BitVec 32)) : Nat := (n.getD 0).toNat

/-- What the parser does with a token other than a semicolon. -/
def accept (state : State) (builder : SourceElementBuilder) (token : Token) (pos : Nat) :
    Except SyntaxError (State × SourceElementBuilder) :=
  match token with
  | .semicolon => .ok (state, builder)
  | .number num =>
    match state with
    | .offset => do
      let n ← parseNumber num pos
      let builder ← builder.setOffset (orZero n) pos
      .ok (state, builder)
    | .length => do
      let n ← parseNumber num pos
      let builder ← builder.setLength (orZero n) pos
      .ok (state, builder)
    | .index => do
      let n ← parseNumber num pos
      let builder ← builder.setIndex n pos
      .ok (state, builder)
    | .modifier => do
      let n ← parseNumber num pos
      let builder ← builder.setModifier (orZero n) pos
      .ok (state, builder)
    | .jmp => .error ⟨some pos, "expected jump, found number"⟩
  | .colon => do
    let state ← state.advance pos
    .ok (state, builder)
  | .in => do
    let builder ← builder.setJmp .in pos
    .ok (state, builder)
  | .out => do
    let builder ← builder.setJmp .out pos
    .ok (state, builder)
  | .regular => do
    let builder ← builder.setJmp .regular pos
    .ok (state, builder)

/-- Reads one element: the builder, what the lexer has still to yield, and whether the input
ended. -/
def fill (state : State) (builder : SourceElementBuilder) :
    List Item → Except SyntaxError (SourceElementBuilder × List Item × Bool)
  | [] => .ok (builder, [], true)
  | .error err :: _ => .error err
  | .ok (.semicolon, _) :: rest => .ok (builder, rest, false)
  | .ok (token, pos) :: rest => do
    let (state, builder) ← accept state builder token pos
    fill state builder rest

structure Parser where
  /-- What the lexer has still to yield. -/
  lexer : List Item
  lastElement : Option SourceElement := none
  done : Bool

namespace Parser

def new (input : String) : Parser where
  done := input.isEmpty
  lexer := Lexer.items input.toList.length (Lexer.charIndices 0 input.toList)

def advance (p : Parser) : Except SyntaxError (Option (SourceElement × Parser)) := do
  -- start parsing at the offset state, `s`
  let (builder, lexer, ended) ← fill .offset {} p.lexer
  if ended && p.done then .ok none
  else
    let element ← builder.finish p.lastElement
    .ok (some (element, { lexer, lastElement := some element, done := ended || p.done }))

/-- Collects the elements; the fuel bounds their number. -/
def collect : Nat → Parser → Except SyntaxError (List SourceElement)
  | 0, _ => .ok []
  | fuel + 1, p => do
    match ← p.advance with
    | none => .ok []
    | some (element, p) =>
      let elements ← collect fuel p
      .ok (element :: elements)

end Parser

/-- Parses a source map; every element but the last takes an item of the lexer. -/
def parse (input : String) : Except SyntaxError (List SourceElement) :=
  let parser := Parser.new input
  parser.collect (parser.lexer.length + 2)

example : (parse "").toOption = some [] := by decide

end FoundryCore.SourceMap
