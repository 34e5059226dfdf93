import Mathlib.Data.BitVec
import FoundryCore.Library.Radix

/-!
# Numbers of block explorers

Block explorers send numbers as JSON numbers or as strings, in decimal or hexadecimal. They are
read as numbers of 64 or 256 bits and as block numbers.
-/

namespace FoundryCore

open Library

namespace BlockExplorers

abbrev U64 := BitVec 64
abbrev U256 := BitVec 256

/-! ## Reading integers -/

/-- The digits of a text behind an optional plus sign. -/
def unsigned (text : List Char) : List Char :=
  match text with
  | '+' :: digits => digits
  | text => text

/-- `str::parse` for unsigned integers of some bits. -/
def parseUint (bits : Nat) (text : List Char) : Option Nat :=
  if unsigned text = [] then none
  else (readNumber 10 (unsigned text)).filter fun n => n < 2 ^ bits

/-- What is used of the integers of another crate. -/
structure Uint where
  fromStrRadix : (bits : Nat) → List Char → (radix : Nat) → Option (BitVec bits)
  /-- `FromStr`. -/
  fromStr : (bits : Nat) → List Char → Option (BitVec bits)
  /-- `wrapping_to::<U64>`. -/
  wrappingTo64 : U256 → U64
  /-- `TryInto<u64>`. -/
  tryInto64 : U256 → Option U64

/-- The radix that a prefix tells, and the rest of the text. -/
def radixOf (text : List Char) : Nat × List Char :=
  match text with
  | '0' :: 'x' :: rest | '0' :: 'X' :: rest => (16, rest)
  | '0' :: 'o' :: rest | '0' :: 'O' :: rest => (8, rest)
  | '0' :: 'b' :: rest | '0' :: 'B' :: rest => (2, rest)
  | text => (10, text)

/-- What the crate documents: underscores are ignored, a number that does not fit is an error, and
so is a character that is no digit of the radix. -/
structure Uint.Documented (uint : Uint) : Prop where
  fromStrRadix : ∀ bits text radix, radix ≤ 36 → uint.fromStrRadix bits text radix =
    ((readNumber radix (text.filter (· ≠ '_'))).filter (· < 2 ^ bits)).map (.ofNat bits)
  fromStr : ∀ bits text,
    uint.fromStr bits text = uint.fromStrRadix bits (radixOf text).2 (radixOf text).1
  wrappingTo64 : ∀ n, uint.wrappingTo64 n = n.setWidth 64
  tryInto64 : ∀ n, uint.tryInto64 n = if n.toNat < 2 ^ 64 then some (n.setWidth 64) else none

/-- Integers that read and convert so. -/
def radixUint : Uint where
  fromStrRadix bits text radix :=
    ((readNumber radix (text.filter (· ≠ '_'))).filter (· < 2 ^ bits)).map (.ofNat bits)
  fromStr bits text :=
    ((readNumber (radixOf text).1 ((radixOf text).2.filter (· ≠ '_'))).filter
      (· < 2 ^ bits)).map (.ofNat bits)
  wrappingTo64 n := n.setWidth 64
  tryInto64 n := if n.toNat < 2 ^ 64 then some (n.setWidth 64) else none

theorem radixUint_documented : radixUint.Documented where
  fromStrRadix _ _ _ _ := rfl
  fromStr _ _ := rfl
  wrappingTo64 _ := rfl
  tryInto64 _ := rfl

/-! ## The values -/

/-- A JSON number by its text. -/
structure JsonNumber where
  text : List Char
  nonempty : text ≠ []
  chars : ∀ c ∈ text, c.isDigit = true ∨ c ∈ ['-', '+', '.', 'e', 'E']
  unsigned : text.head? ≠ some '+'

/-- Helper type to parse numeric strings, `u64` and `U256`. -/
inductive StringifiedNumeric
  | string (s : List Char)
  | u256 (n : U256)
  | num (n : JsonNumber)

/-- A block number or tag. -/
inductive BlockNumber
  | latest | finalized | safe | earliest | pending
  | number (n : U64)
deriving DecidableEq, Repr

variable (uint : Uint)

namespace StringifiedNumeric

/-- `TryFrom<StringifiedNumeric> for U256`. -/
def toU256 : StringifiedNumeric → Option U256
  | u256 n => some n
  | num n => uint.fromStr 256 n.text
  | string s =>
    match parseUint 128 s with
    | some val => some (.ofNat 256 val)
    | none =>
      match s with
      | '0' :: 'x' :: digits => uint.fromStrRadix 256 digits 16
      | s => uint.fromStr 256 s

/-- `TryFrom<StringifiedNumeric> for U64`. -/
def toU64 (value : StringifiedNumeric) : Option U64 := (value.toU256 uint).map uint.wrappingTo64

/-- `deserialize_stringified_u64`, of a value that is deserialized. -/
def deserializeStringifiedU64 (value : StringifiedNumeric) : Option U64 :=
  (value.toU256 uint).bind uint.tryInto64

end StringifiedNumeric

/-- `FromStr`. -/
def BlockNumber.fromStr (s : List Char) : Option BlockNumber :=
  if s = "latest".toList then some .latest
  else if s = "finalized".toList then some .finalized
  else if s = "safe".toList then some .safe
  else if s = "earliest".toList then some .earliest
  else if s = "pending".toList then some .pending
  else match s with
    | '0' :: 'x' :: _ => (uint.fromStr 64 s).map .number
    | s => (parseUint 64 s).map fun n => .number (.ofNat 64 n)

inductive StringifiedBlockNumber
  | numeric (value : StringifiedNumeric)
  | blockNumber (b : BlockNumber)

/-- `TryFrom<StringifiedBlockNumber> for BlockNumber`. -/
def StringifiedBlockNumber.toBlockNumber : StringifiedBlockNumber → Option BlockNumber
  | blockNumber b => some b
  | numeric (.string s) => BlockNumber.fromStr uint s
  | numeric other => ((other.toU256 uint).bind uint.tryInto64).map .number

/-! ## What a text denotes -/

/-- The number of a text in decimal or, behind `0x`, in hexadecimal digits. -/
def denotes (text : List Char) : Option Nat :=
  match text with
  | '0' :: 'x' :: digits => if digits = [] then none else readNumber 16 digits
  | text => if unsigned text = [] then none else readNumber 10 (unsigned text)

def StringifiedNumeric.denotes : StringifiedNumeric → Option Nat
  | string s => BlockExplorers.denotes s
  | u256 n => some n.toNat
  | num n => BlockExplorers.denotes n.text

/-- Each conversion gives the number that is denoted, if it gives one. -/
structure Exact (value : StringifiedNumeric) : Prop where
  u256 : ∀ n, value.toU256 uint = some n → value.denotes = some n.toNat
  u64 : ∀ n, value.deserializeStringifiedU64 uint = some n → value.denotes = some n.toNat
  narrowed : ∀ n, value.toU64 uint = some n → value.denotes = some n.toNat
  blockNumber : ∀ n, (StringifiedBlockNumber.numeric value).toBlockNumber uint =
    some (.number n) → value.denotes = some n.toNat

/-! ## When they are exact -/

/-- The text is read as a number of 256 bits once its prefix and its underscores are gone. -/
def Lenient (text : List Char) : Prop :=
  ∃ n < 2 ^ 256, readNumber (radixOf text).1 ((radixOf text).2.filter (· ≠ '_')) = some n

/-- Below it a string is converted. -/
def limit (text : List Char) : Nat := if text.head? = some '+' then 2 ^ 128 else 2 ^ 256

theorem limit_le (text : List Char) : limit text ≤ 2 ^ 256 := by
  unfold limit
  split <;> decide

/-- What is denoted fits into 64 bits or is rejected, and nothing else is read. -/
def StringifiedNumeric.Plain : StringifiedNumeric → Prop
  | string s => (∀ m, BlockExplorers.denotes s = some m → m < 2 ^ 64 ∨ limit s ≤ m) ∧
      (BlockExplorers.denotes s = none → ¬ Lenient s)
  | u256 n => n.toNat < 2 ^ 64
  | num n => ∀ m, BlockExplorers.denotes n.text = some m → m < 2 ^ 64 ∨ 2 ^ 256 ≤ m

variable {uint} {s : List Char} {m : Nat} {bits : Nat}

theorem notMem_underscore {radix : Nat} (digits : isDigits radix s = true) : '_' ∉ s := by
  apply notMem_of_isDigits digits
  intro d digit
  simp [digitValue] at digit

theorem filter_underscore {radix : Nat} (digits : isDigits radix s = true) :
    s.filter (· ≠ '_') = s := by
  apply List.filter_eq_self.mpr
  intro c mem
  have := notMem_underscore digits
  grind

/-- Decimal digits have no prefix. -/
theorem radixOf_decimal (digits : isDigits 10 s = true) : radixOf s = (10, s) := by
  unfold radixOf
  split
  all_goals first
    | rfl
    | simp [isDigits, digitValue] at digits

theorem parseUint_hexadecimal : parseUint bits ('0' :: 'x' :: s) = none := by
  simp [parseUint, unsigned, readNumber, isDigits, digitValue]

theorem denotes_of_unprefixed (other : ¬ ['0', 'x'] <+: s) :
    denotes s = if unsigned s = [] then none else readNumber 10 (unsigned s) := by
  unfold denotes
  split
  · simp at other
  · rfl

theorem parseUint_of_unprefixed (other : ¬ ['0', 'x'] <+: s) :
    parseUint bits s = (denotes s).filter (· < 2 ^ bits) := by
  rw [denotes_of_unprefixed other, parseUint]
  split <;> rfl

/-- `str::parse` reads what a text denotes. -/
theorem denotes_of_parseUint (read : parseUint bits s = some m) :
    denotes s = some m ∧ m < 2 ^ bits := by
  by_cases hexadecimal : ['0', 'x'] <+: s
  · obtain ⟨digits, rfl⟩ := hexadecimal
    simp [parseUint_hexadecimal] at read
  · rw [parseUint_of_unprefixed hexadecimal] at read
    simpa [Option.filter_eq_some_iff] using read

section Documented

variable (documented : uint.Documented)
include documented

theorem fromStr_eq : uint.fromStr bits s =
    ((readNumber (radixOf s).1 ((radixOf s).2.filter (· ≠ '_'))).filter (· < 2 ^ bits)).map
      (.ofNat bits) := by
  rw [documented.fromStr, documented.fromStrRadix]
  unfold radixOf
  split <;> simp

theorem fromStr_eq_some {n : BitVec bits} : uint.fromStr bits s = some n ↔
    readNumber (radixOf s).1 ((radixOf s).2.filter (· ≠ '_')) = some n.toNat := by
  rw [fromStr_eq documented, Option.map_eq_some_iff]
  constructor
  · rintro ⟨m, read, rfl⟩
    obtain ⟨read, less⟩ := Option.filter_eq_some_iff.mp read
    rw [read, BitVec.toNat_ofNat, Nat.mod_eq_of_lt (by simpa using less)]
  · intro read
    refine ⟨n.toNat, Option.filter_eq_some_iff.mpr ⟨read, ?_⟩, by simp⟩
    simpa using n.isLt

theorem fromStr_of_isDigits (digits : isDigits 10 s = true) : uint.fromStr bits s =
    if valueOf 10 s < 2 ^ bits then some (.ofNat bits (valueOf 10 s)) else none := by
  rw [fromStr_eq documented, radixOf_decimal digits, filter_underscore digits, readNumber,
    if_pos digits]
  split <;> simp_all

/-- A text with a number is read as that number, unless there is a plus sign. -/
theorem fromStr_of_denotes (number : denotes s = some m) : uint.fromStr bits s =
    if s.head? = some '+' then none else if m < 2 ^ bits then some (.ofNat bits m) else none := by
  by_cases hexadecimal : ['0', 'x'] <+: s
  · obtain ⟨digits, rfl⟩ := hexadecimal
    rw [fromStr_eq documented]
    have read : readNumber 16 digits = some m := by grind [denotes]
    have isDigits := (readNumber_eq_some.mp read).1
    simp only [List.cons_append, List.nil_append, radixOf, filter_underscore isDigits, read]
    split_ifs <;> simp_all
  · rw [denotes_of_unprefixed hexadecimal] at number
    by_cases plus : s.head? = some '+'
    · obtain ⟨digits, rfl⟩ : ∃ digits, s = '+' :: digits := by
        cases s <;> simp_all
      rw [fromStr_eq documented]
      simp [radixOf, readNumber, isDigits, digitValue]
    · have itself : unsigned s = s := by
        unfold unsigned
        split <;> simp_all
      have read : readNumber 10 s = some m := by grind
      obtain ⟨isDigits, rfl⟩ := readNumber_eq_some.mp read
      rw [fromStr_of_isDigits documented isDigits, if_neg plus]

theorem toNat_of_fromStr {n : BitVec bits} (number : denotes s = some m)
    (read : uint.fromStr bits s = some n) : n.toNat = m := by
  rw [fromStr_of_denotes documented number] at read
  split_ifs at read with plus fits
  obtain rfl := Option.some.inj read
  rw [BitVec.toNat_ofNat, Nat.mod_eq_of_lt fits]

/-- A string with `0x` is no decimal number, so that it is left to the other reader either way. -/
theorem toU256_string : (StringifiedNumeric.string s).toU256 uint =
    ((parseUint 128 s).map (.ofNat 256)).or (uint.fromStr 256 s) := by
  simp only [StringifiedNumeric.toU256]
  cases parseUint 128 s with
  | some val => rfl
  | none =>
    simp only [Option.map_none, Option.none_or]
    split
    · rw [documented.fromStr]
      rfl
    · rfl

theorem toU256_of_denotes (number : denotes s = some m) :
    (StringifiedNumeric.string s).toU256 uint =
      if m < limit s then some (.ofNat 256 m) else none := by
  rw [toU256_string documented, fromStr_of_denotes documented number]
  by_cases hexadecimal : ['0', 'x'] <+: s
  · obtain ⟨digits, rfl⟩ := hexadecimal
    simp [parseUint_hexadecimal, limit]
  · rw [parseUint_of_unprefixed hexadecimal, number, limit]
    by_cases small : m < 2 ^ 128
    · have : m < 2 ^ 256 := small.trans (by decide)
      grind
    · grind

theorem toU256_of_denotes_eq_none (number : denotes s = none) :
    (StringifiedNumeric.string s).toU256 uint = uint.fromStr 256 s := by
  rw [toU256_string documented]
  cases read : parseUint 128 s with
  | none => rfl
  | some m =>
    have := (denotes_of_parseUint read).1
    simp_all

theorem fromStr_isSome_iff : (∃ n : U256, uint.fromStr 256 s = some n) ↔ Lenient s := by
  constructor
  · rintro ⟨n, read⟩
    exact ⟨n.toNat, n.isLt, (fromStr_eq_some documented).mp read⟩
  · rintro ⟨m, less, read⟩
    refine ⟨.ofNat 256 m, (fromStr_eq_some documented).mpr ?_⟩
    rw [read, BitVec.toNat_ofNat, Nat.mod_eq_of_lt less]

/-- Block numbers are read by their 64 bits. -/
theorem denotes_of_fromStr {n : U64} (read : BlockNumber.fromStr uint s = some (.number n)) :
    denotes s = some n.toNat ∨ denotes s = none ∧ Lenient s := by
  unfold BlockNumber.fromStr at read
  split_ifs at read
  all_goals try simp at read
  split at read
  · simp only [Option.map_eq_some_iff, BlockNumber.number.injEq, exists_eq_right] at read
    cases number : denotes _ with
    | some m =>
      left
      rw [toNat_of_fromStr documented number read]
    | none =>
      right
      refine ⟨rfl, n.toNat, n.isLt.trans (by decide), (fromStr_eq_some documented).mp read⟩
  · simp only [Option.map_eq_some_iff, BlockNumber.number.injEq] at read
    obtain ⟨m, read, rfl⟩ := read
    obtain ⟨number, less⟩ := denotes_of_parseUint read
    left
    rw [number, BitVec.toNat_ofNat, Nat.mod_eq_of_lt less]

end Documented

/-! ### JSON numbers -/

namespace JsonNumber

variable (n : JsonNumber)

theorem notMem {c : Char} (digit : c.isDigit = false) (other : c ∉ ['-', '+', '.', 'e', 'E']) :
    c ∉ n.text := by
  intro mem
  have := n.chars c mem
  grind

theorem radixOf_text : radixOf n.text = (10, n.text) := by
  have x := n.notMem (c := 'x') (by decide) (by decide)
  have X := n.notMem (c := 'X') (by decide) (by decide)
  have o := n.notMem (c := 'o') (by decide) (by decide)
  have O := n.notMem (c := 'O') (by decide) (by decide)
  have b := n.notMem (c := 'b') (by decide) (by decide)
  have B := n.notMem (c := 'B') (by decide) (by decide)
  unfold radixOf
  split <;> simp_all

/-- JSON knows decimal numbers only. -/
theorem denotes_text : denotes n.text = readNumber 10 n.text := by
  have x := n.notMem (c := 'x') (by decide) (by decide)
  have itself : BlockExplorers.unsigned n.text = n.text := by
    have := n.unsigned
    unfold BlockExplorers.unsigned
    split <;> simp_all
  rw [denotes_of_unprefixed, itself, if_neg n.nonempty]
  rintro ⟨digits, text⟩
  simp [← text] at x

theorem denotes_eq_some_of_lenient (lenient : Lenient n.text) : denotes n.text ≠ none := by
  obtain ⟨m, -, read⟩ := lenient
  have underscore : '_' ∉ n.text := n.notMem (by decide) (by decide)
  have itself : n.text.filter (· ≠ '_') = n.text := by
    apply List.filter_eq_self.mpr
    grind
  rw [radixOf_text, itself] at read
  simp [denotes_text, read]

end JsonNumber

/-! ### The four conversions -/

/-- A number is converted below some bound, so that it is below 64 bits or not converted. -/
theorem forall_bounded_iff {value : StringifiedNumeric} {bound : Nat} (fits : bound ≤ 2 ^ 256)
    (converted : value.toU256 uint = if m < bound then some (.ofNat 256 m) else none)
    (number : value.denotes = some m) :
    (∀ n, value.toU256 uint = some n → value.denotes = some n.toNat ∧ n.toNat < 2 ^ 64) ↔
      m < 2 ^ 64 ∨ bound ≤ m := by
  by_cases below : m < bound
  · have toNat : (BitVec.ofNat 256 m).toNat = m := by
      rw [BitVec.toNat_ofNat, Nat.mod_eq_of_lt (below.trans_le fits)]
    simp [converted, below, number, toNat]
  · simp [converted, below]
    omega

section Documented

variable (documented : uint.Documented) {value : StringifiedNumeric}
include documented

theorem toU256_num_of_denotes {n : JsonNumber} (number : BlockExplorers.denotes n.text = some m) :
    (StringifiedNumeric.num n).toU256 uint =
      if m < 2 ^ 256 then some (.ofNat 256 m) else none := by
  have : uint.fromStr 256 n.text = _ := fromStr_of_denotes documented number
  rwa [if_neg n.unsigned] at this

theorem narrowed_eq_some {n : U256} (read : value.toU256 uint = some n) :
    value.toU64 uint = some (n.setWidth 64) := by
  simp [StringifiedNumeric.toU64, read, documented.wrappingTo64]

theorem tryInto64_eq_some {n : U256} {n' : U64} :
    uint.tryInto64 n = some n' ↔ n.toNat = n'.toNat := by
  rw [documented.tryInto64]
  constructor
  · intro converted
    split_ifs at converted with small
    obtain rfl := Option.some.inj converted
    rw [BitVec.toNat_setWidth, Nat.mod_eq_of_lt small]
  · intro same
    rw [if_pos (same ▸ n'.isLt), Option.some_inj, ← BitVec.toNat_inj, BitVec.toNat_setWidth, same,
      Nat.mod_eq_of_lt n'.isLt]

/-- A number that is converted to 256 bits and to 64 bits is converted to the same number. -/
theorem Exact.small (exact : Exact uint value) {n : U256} (read : value.toU256 uint = some n) :
    n.toNat < 2 ^ 64 := by
  have wide := exact.u256 n read
  have narrow := exact.narrowed _ (narrowed_eq_some documented read)
  rw [wide, Option.some_inj, BitVec.toNat_setWidth] at narrow
  rw [narrow]
  exact Nat.mod_lt _ (by decide)

theorem denotes_of_blockNumber
    (exact : ∀ n, value.toU256 uint = some n → value.denotes = some n.toNat) {n : U64}
    (read : (StringifiedBlockNumber.numeric value).toBlockNumber uint = some (.number n)) :
    value.denotes = some n.toNat := by
  cases value with
  | string s =>
    obtain number | ⟨nothing, lenient⟩ := denotes_of_fromStr documented read
    · exact number
    · obtain ⟨n, read⟩ := (fromStr_isSome_iff documented).mpr lenient
      rw [← toU256_of_denotes_eq_none documented nothing] at read
      exact absurd (exact n read) (by simp [StringifiedNumeric.denotes, nothing])
  | _ =>
    simp only [StringifiedBlockNumber.toBlockNumber, Option.map_eq_some_iff,
      BlockNumber.number.injEq, exists_eq_right, Option.bind_eq_some_iff] at read
    obtain ⟨wide, read, converted⟩ := read
    rw [exact wide read, (tryInto64_eq_some documented).mp converted]

/-- The conversion to 256 bits decides about the others. -/
theorem exact_iff_forall_toU256 : Exact uint value ↔
    ∀ n, value.toU256 uint = some n → value.denotes = some n.toNat ∧ n.toNat < 2 ^ 64 := by
  constructor
  · intro exact n read
    exact ⟨exact.u256 n read, exact.small documented read⟩
  · intro exact
    refine ⟨fun n read => (exact n read).1, fun n read => ?_, fun n read => ?_, fun n read =>
      denotes_of_blockNumber documented (fun n read => (exact n read).1) read⟩
    · obtain ⟨wide, read, converted⟩ := Option.bind_eq_some_iff.mp read
      rw [(exact wide read).1, (tryInto64_eq_some documented).mp converted]
    · obtain ⟨wide, converted, rfl⟩ := Option.map_eq_some_iff.mp read
      obtain ⟨number, small⟩ := exact wide converted
      rw [number, documented.wrappingTo64, BitVec.toNat_setWidth, Nat.mod_eq_of_lt small]

/-- The conversions are exact on the numbers of 64 bits, and where a text is converted that is no
number they are not. -/
theorem StringifiedNumeric.exact_iff_plain : Exact uint value ↔ value.Plain := by
  rw [exact_iff_forall_toU256 documented]
  cases value with
  | u256 n => simp [StringifiedNumeric.toU256, StringifiedNumeric.denotes, StringifiedNumeric.Plain]
  | num n =>
    simp only [StringifiedNumeric.Plain]
    cases number : BlockExplorers.denotes n.text with
    | some m =>
      rw [forall_bounded_iff le_rfl (toU256_num_of_denotes documented number) number]
      simp
    | none =>
      have rejected (n' : U256) : uint.fromStr 256 n.text ≠ some n' := by
        intro read
        have lenient := (fromStr_isSome_iff documented).mp ⟨n', read⟩
        exact n.denotes_eq_some_of_lenient lenient number
      simp [StringifiedNumeric.toU256, rejected]
  | string s =>
    simp only [StringifiedNumeric.Plain]
    cases number : BlockExplorers.denotes s with
    | some m =>
      rw [forall_bounded_iff (limit_le s) (toU256_of_denotes documented number) number]
      simp
    | none =>
      rw [toU256_of_denotes_eq_none documented number, ← fromStr_isSome_iff documented]
      simp [StringifiedNumeric.denotes, number]

end Documented

theorem StringifiedNumeric.exact_0xff : Exact radixUint (.string "0xff".toList) := by
  have denoted : BlockExplorers.denotes "0xff".toList = some 255 := by decide
  apply (StringifiedNumeric.exact_iff_plain radixUint_documented).mpr
  constructor
  · intro m number
    have : 255 = m := Option.some.inj (denoted.symm.trans number)
    omega
  · intro nothing
    rw [denoted] at nothing
    contradiction

/-- The narrowing wraps at 64 bits, where the other conversion is an error, and the prefix of
binary numbers is read. -/
theorem StringifiedNumeric.not_exact_narrowed :
    (string "18446744073709551616".toList).toU256 radixUint = some (2 ^ 64) ∧
    (string "18446744073709551616".toList).toU64 radixUint = some 0 ∧
    (string "18446744073709551616".toList).deserializeStringifiedU64 radixUint = none ∧
    ¬ Exact radixUint (string "18446744073709551616".toList) ∧
    (string "0b101".toList).toU256 radixUint = some 5 ∧
    ¬ Exact radixUint (string "0b101".toList) := by
  refine ⟨by decide +kernel, by decide +kernel, by decide +kernel, fun exact => ?_,
    by decide +kernel, fun exact => ?_⟩
  · exact absurd (exact.narrowed 0 (by decide +kernel)) (by decide +kernel)
  · exact absurd (exact.u256 5 (by decide +kernel)) (by decide +kernel)

end BlockExplorers

end FoundryCore
