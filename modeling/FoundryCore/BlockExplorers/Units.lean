import FoundryCore.Library.Slice
import FoundryCore.BlockExplorers.Numeric

/-!
# Amounts in units

`parse_units` reads a decimal amount and multiplies it by a power of ten.
-/

namespace FoundryCore

open Library

namespace BlockExplorers

abbrev I256 := BitVec 256

/-! ## Units -/

/-- Common Ethereum unit types. -/
inductive Units
  | wei | kwei | mwei | gwei | twei | pwei | ether
  | other (inner : BitVec 32)
deriving DecidableEq, Repr

inductive ConversionError
  | unrecognizedUnits (s : List Char)
  | fromDecStrError
  | parseOverflow
  | parseI256Error
deriving DecidableEq, Repr

namespace Units

def asNum : Units → BitVec 32
  | wei => 0
  | kwei => 3
  | mwei => 6
  | gwei => 9
  | twei => 12
  | pwei => 15
  | ether => 18
  | other inner => inner

end Units

/-! ## Integers of 256 bits -/

/-- What is used of the integers of another crate, signed ones in addition. -/
structure Integers extends Uint where
  checkedPow : U256 → U256 → Option U256
  /-- `MulAssign`. -/
  mulAssign : U256 → U256 → U256
  fromDecStr : List Char → Option I256
  /-- `FromStr` for signed integers. -/
  signedFromStr : List Char → Option I256
  signedCheckedPow : I256 → U256 → Option I256
  /-- An overflow of signed integers is a panic, and it wraps otherwise. -/
  overflowChecks : Bool
  signedMulAssign : I256 → I256 → Option I256

/-- The integers that 256 bits hold with a sign. -/
def Signed256 (n : Int) : Prop := -2 ^ 255 ≤ n ∧ n < 2 ^ 255

instance (n : Int) : Decidable (Signed256 n) := inferInstanceAs (Decidable (_ ∧ _))

structure Integers.Documented (ints : Integers) : Prop where
  uint : ints.toUint.Documented
  checkedPow : ∀ n k, ints.checkedPow n k =
    if n.toNat ^ k.toNat < 2 ^ 256 then some (.ofNat 256 (n.toNat ^ k.toNat)) else none
  mulAssign : ∀ m n, ints.mulAssign m n = m * n
  fromDecStr : ∀ text, ints.fromDecStr ('-' :: text) =
    ((readNumber 10 (text.filter (· ≠ '_'))).filter (· ≤ 2 ^ 255)).map
      fun n : Nat => .ofInt 256 (-n)
  /-- What is decimal is read as such. -/
  signedFromStr : ∀ digits, digits ≠ [] → isDigits 10 digits = true →
    ints.signedFromStr ('-' :: digits) = ints.fromDecStr ('-' :: digits)
  signedCheckedPow : ∀ n k, ints.signedCheckedPow n k =
    if Signed256 (n.toInt ^ k.toNat) then some (.ofInt 256 (n.toInt ^ k.toNat)) else none
  signedMulAssign : ∀ m n, ints.signedMulAssign m n =
    if Signed256 (m.toInt * n.toInt) ∨ ints.overflowChecks = false then some (m * n) else none

/-- Signed decimal numbers that 256 bits hold. -/
def readSigned (text : List Char) : Option I256 :=
  match text with
  | '-' :: text =>
    ((readNumber 10 (text.filter (· ≠ '_'))).filter (· ≤ 2 ^ 255)).map
      fun n : Nat => .ofInt 256 (-n)
  | text => ((readNumber 10 (text.filter (· ≠ '_'))).filter (· < 2 ^ 255)).map (.ofNat 256)

/-- Integers that behave so. -/
def radixIntegers (overflowChecks : Bool) : Integers where
  toUint := radixUint
  checkedPow n k :=
    if n.toNat ^ k.toNat < 2 ^ 256 then some (.ofNat 256 (n.toNat ^ k.toNat)) else none
  mulAssign m n := m * n
  fromDecStr := readSigned
  signedFromStr := readSigned
  signedCheckedPow n k :=
    if Signed256 (n.toInt ^ k.toNat) then some (.ofInt 256 (n.toInt ^ k.toNat)) else none
  overflowChecks := overflowChecks
  signedMulAssign m n :=
    if Signed256 (m.toInt * n.toInt) ∨ overflowChecks = false then some (m * n) else none

theorem radixIntegers_documented (overflowChecks : Bool) :
    (radixIntegers overflowChecks).Documented where
  uint := radixUint_documented
  checkedPow _ _ := rfl
  mulAssign _ _ := rfl
  fromDecStr _ := rfl
  signedFromStr _ _ _ := rfl
  signedCheckedPow _ _ := rfl
  signedMulAssign _ _ := rfl

/-! ## `parse_units` -/

inductive ParseUnits
  | u256 (n : U256)
  | i256 (n : I256)
deriving DecidableEq, Repr

/-- The amount without its first point and the number of bytes behind it, as 32 bits hold it. -/
def removePoint (amountStr : List Char) : List Char × Nat :=
  match amountStr.dropWhile (· ≠ '.') with
  | '.' :: decimals =>
    (amountStr.takeWhile (· ≠ '.') ++ decimals, weight Char.utf8Size decimals % 2 ^ 32)
  | _ => (amountStr, 0)

variable (ints : Integers)

/-- The branch where decimals have been cut off. -/
def parseTruncated (negative : Bool) (amountStr : List Char) :
    Except ConversionError ParseUnits :=
  if negative then
    if amountStr = ['-'] then .ok (.i256 0)
    else match ints.fromDecStr amountStr with
      | some n => .ok (.i256 n)
      | none => .error .fromDecStrError
  else match ints.fromStr 256 amountStr with
    | some n => .ok (.u256 n)
    | none => .error .fromDecStrError

/-- The branches where the amount is multiplied. A panic is `none`. -/
def parseScaled (negative : Bool) (amountStr : List Char) (places : Nat) :
    Option (Except ConversionError ParseUnits) :=
  if negative then
    if amountStr = ['-'] then some (.ok (.i256 0))
    else match ints.signedFromStr amountStr with
      | none => some (.error .parseI256Error)
      | some n => match ints.signedCheckedPow 10 (.ofNat 256 places) with
        | none => some (.error .parseOverflow)
        | some power => (ints.signedMulAssign n power).map fun n => .ok (.i256 n)
  else match ints.fromStr 256 amountStr with
    | none => some (.error .fromDecStrError)
    | some aUint => match ints.checkedPow 10 (.ofNat 256 places) with
      | none => some (.error .parseOverflow)
      | some power => some (.ok (.u256 (ints.mulAssign aUint power)))

/-- `parse_units`, with the amount as a text and the units as they were converted. -/
def parseUnits (amount : List Char) (units : Except ConversionError Units) :
    Option (Except ConversionError ParseUnits) :=
  match units with
  | .error e => some (.error e)
  | .ok units =>
    let exponent := units.asNum.toNat
    let amountStr := amount.filter (· ≠ '_')
    let negative := amountStr.head? = some '-'
    let (amountStr, decLen) := removePoint amountStr
    if exponent < decLen then
      -- the slice is a panic inside a character
      (cut Char.utf8Size (weight Char.utf8Size amountStr - (decLen - exponent)) amountStr).map
        fun (amountStr, _) => parseTruncated ints negative amountStr
    else parseScaled ints negative amountStr (exponent - decLen)

/-! ## What is read -/

/-- What is left of a text behind which decimals are cut off is read as a number. -/
def ReadsTruncated (negative : Bool) (text : List Char) : Prop :=
  if negative then ∃ n ≤ 2 ^ 255, readNumber 10 (text.tail.filter (· ≠ '_')) = some n
  else Lenient text

/-- The text is no number where it is multiplied, or the power is too large. -/
def RejectedScaled (ints : Integers) (negative : Bool) (text : List Char) (places : Nat) : Prop :=
  if negative then text ≠ ['-'] ∧ (ints.signedFromStr text = none ∨ 2 ^ 255 ≤ 10 ^ places)
  else ¬ Lenient text ∨ 2 ^ 256 ≤ 10 ^ places

variable {ints} {text : List Char} {exponent : Nat}

theorem ascii_of_digitValue {c : Char} {n : Nat} (digit : digitValue c = some n) :
    c.val ≤ 0x7f := by
  unfold digitValue at digit
  split_ifs at digit with decimal lower upper
  · exact UInt32.le_trans decimal.2 (by decide)
  · exact UInt32.le_trans lower.2 (by decide)
  · exact UInt32.le_trans upper.2 (by decide)

theorem removePoint_eq : removePoint text =
    (text.takeWhile (· ≠ '.') ++ (text.dropWhile (· ≠ '.')).tail,
      weight Char.utf8Size (text.dropWhile (· ≠ '.')).tail % 2 ^ 32) := by
  have all := List.takeWhile_append_dropWhile (p := (· ≠ '.')) (l := text)
  have head := List.head?_dropWhile_not (· ≠ '.') text
  unfold removePoint
  cases eq : text.dropWhile (· ≠ '.') with
  | nil =>
    rw [eq, List.append_nil] at all
    rw [all, List.tail_nil, List.append_nil, weight_nil, Nat.zero_mod]
  | cons c decimals =>
    rw [eq] at head
    obtain rfl : c = '.' := by simpa using head
    rfl

/-- All digits have one byte. -/
theorem weight_of_isDigits (digits : isDigits 10 text = true) :
    weight Char.utf8Size text = text.length := by
  induction text with
  | nil => rfl
  | cons c text ih =>
    rw [isDigits_cons, Bool.and_eq_true] at digits
    have one : c.utf8Size = 1 := by
      apply Char.utf8Size_eq_one_iff.mpr
      obtain ⟨d, digit, -⟩ := (Option.any_eq_true _ _).mp digits.1
      exact ascii_of_digitValue digit
    rw [weight_cons, one, ih digits.2, List.length_cons, Nat.add_comm]

theorem removePoint_minus : removePoint ('-' :: text) =
    ('-' :: (removePoint text).1, (removePoint text).2) := by
  rw [removePoint_eq, removePoint_eq, List.takeWhile_cons_of_pos (by decide),
    List.dropWhile_cons_of_pos (by decide), List.cons_append]

/-- The places are behind the sign. -/
theorem head?_kept {kept others : List Char} (minus : text.head? = some '-')
    (parts : (removePoint text).1 = kept ++ others)
    (size : weight Char.utf8Size kept =
      weight Char.utf8Size (removePoint text).1 - ((removePoint text).2 - exponent)) :
    kept.head? = some '-' := by
  obtain ⟨rest, rfl⟩ := List.head?_eq_some_iff.mp minus
  have le : (removePoint rest).2 ≤ weight Char.utf8Size (removePoint rest).1 := by
    rw [removePoint_eq, weight_append]
    exact (Nat.mod_le _ _).trans (Nat.le_add_left _ _)
  rw [removePoint_minus] at parts size
  cases kept with
  | nil =>
    have one := Char.utf8Size_pos '-'
    simp only [weight_nil, weight_cons] at size
    omega
  | cons c kept =>
    rw [List.cons_append] at parts
    rw [List.head?_cons, (List.cons.inj parts).1]

/-- A power of ten is no power of two. -/
theorem ten_pow_lt_iff {k : Nat} : 10 ^ k < 2 ^ 255 ↔ 10 ^ k ≤ 2 ^ 255 := by
  constructor
  · exact Nat.le_of_lt
  · intro le
    have : k < 77 := (Nat.pow_lt_pow_iff_right (a := 10) (by decide)).mp (le.trans_lt (by decide))
    calc 10 ^ k ≤ 10 ^ 76 := Nat.pow_le_pow_right (by decide) (by omega)
      _ < 2 ^ 255 := by decide

theorem signed256_neg_iff {n : Nat} : Signed256 (-(n : Int)) ↔ n ≤ 2 ^ 255 := by
  unfold Signed256
  omega

theorem toInt_ofInt {n : Int} (fits : Signed256 n) : (BitVec.ofInt 256 n).toInt = n :=
  BitVec.toInt_ofInt_eq_self (by decide) fits.1 fits.2

section Documented

variable (documented : ints.Documented)
include documented

theorem fromDecStr_of_isDigits (digits : isDigits 10 text = true) :
    ints.fromDecStr ('-' :: text) = if valueOf 10 text ≤ 2 ^ 255 then
      some (.ofInt 256 (-(valueOf 10 text : Int))) else none := by
  rw [documented.fromDecStr, filter_underscore digits, readNumber, if_pos digits]
  split <;> simp_all

theorem checkedPow_ten {k : Nat} (fits : k < 2 ^ 256) : ints.checkedPow 10 (.ofNat 256 k) =
    if 10 ^ k < 2 ^ 256 then some (.ofNat 256 (10 ^ k)) else none := by
  have ten : (10 : U256).toNat = 10 := rfl
  rw [documented.checkedPow, ten, BitVec.toNat_ofNat, Nat.mod_eq_of_lt fits]

theorem signedCheckedPow_ten {k : Nat} (fits : k < 2 ^ 256) :
    ints.signedCheckedPow 10 (.ofNat 256 k) =
      if 10 ^ k ≤ 2 ^ 255 then some (.ofInt 256 (10 ^ k : Nat)) else none := by
  have ten : (10 : I256).toInt = 10 := rfl
  have nat : (10 : Int) ^ k = ((10 ^ k : Nat) : Int) := by push_cast; rfl
  have iff : Signed256 ((10 ^ k : Nat) : Int) ↔ 10 ^ k ≤ 2 ^ 255 := by
    rw [← ten_pow_lt_iff, Signed256]
    generalize 10 ^ k = power
    omega
  rw [documented.signedCheckedPow, ten, BitVec.toNat_ofNat, Nat.mod_eq_of_lt fits, nat]
  simp only [iff]

theorem signedMulAssign_neg {m n : Nat} (left : m ≤ 2 ^ 255) (right : n < 2 ^ 255) :
    ints.signedMulAssign (.ofInt 256 (-m)) (.ofInt 256 n) =
      if ints.overflowChecks = true ∧ 2 ^ 255 < m * n then none
      else some (.ofInt 256 (-(m * n : Nat))) := by
  have toInt : (BitVec.ofInt 256 (n : Int)).toInt = n :=
    toInt_ofInt ⟨by omega, by omega⟩
  have product : -(m : Int) * n = -((m * n : Nat) : Int) := by push_cast; ring
  rw [documented.signedMulAssign, toInt_ofInt (signed256_neg_iff.mpr left), toInt,
    ← BitVec.ofInt_mul, product]
  simp only [signed256_neg_iff]
  have : m * n ≤ 2 ^ 255 ∨ ints.overflowChecks = false ↔
      ¬ (ints.overflowChecks = true ∧ 2 ^ 255 < m * n) := by
    cases ints.overflowChecks <;> simp
  simp only [this, ite_not]

theorem fromDecStr_isSome_iff : (∃ n, ints.fromDecStr ('-' :: text) = some n) ↔
    ∃ n ≤ 2 ^ 255, readNumber 10 (text.filter (· ≠ '_')) = some n := by
  rw [documented.fromDecStr]
  constructor
  · rintro ⟨n, eq⟩
    obtain ⟨m, read, -⟩ := Option.map_eq_some_iff.mp eq
    obtain ⟨read, le⟩ := Option.filter_eq_some_iff.mp read
    exact ⟨m, of_decide_eq_true le, read⟩
  · rintro ⟨m, le, read⟩
    exact ⟨_, Option.map_eq_some_iff.mpr
      ⟨m, Option.filter_eq_some_iff.mpr ⟨read, decide_eq_true le⟩, rfl⟩⟩

theorem checkedPow_eq_none {k : Nat} (fits : k < 2 ^ 256) :
    ints.checkedPow 10 (.ofNat 256 k) = none ↔ 2 ^ 256 ≤ 10 ^ k := by
  rw [checkedPow_ten documented fits]
  generalize 10 ^ k = power
  split_ifs with low
  · simp only [false_iff]
    omega
  · simp only [true_iff]
    omega

theorem signedCheckedPow_eq_none {k : Nat} (fits : k < 2 ^ 256) :
    ints.signedCheckedPow 10 (.ofNat 256 k) = none ↔ 2 ^ 255 ≤ 10 ^ k := by
  have less : 10 ^ k < 2 ^ 255 ↔ 10 ^ k ≤ 2 ^ 255 := ten_pow_lt_iff
  rw [signedCheckedPow_ten documented fits]
  generalize 10 ^ k = power at *
  split_ifs with low
  · simp only [false_iff]
    omega
  · simp only [true_iff]
    omega

theorem parseTruncated_eq_error {negative : Bool}
    (minus : negative = true → text.head? = some '-') :
    (∃ e, parseTruncated ints negative text = .error e) ↔ ¬ ReadsTruncated negative text := by
  unfold parseTruncated ReadsTruncated
  cases negative with
  | true =>
    obtain ⟨digits, rfl⟩ := List.head?_eq_some_iff.mp (minus rfl)
    rw [if_pos rfl, if_pos rfl, List.tail_cons]
    by_cases alone : '-' :: digits = ['-']
    · obtain rfl : digits = [] := by simpa using alone
      have reads : ∃ n ≤ 2 ^ 255, readNumber 10 ([].filter (· ≠ '_')) = some n :=
        ⟨0, by decide, rfl⟩
      rw [if_pos rfl]
      constructor
      · rintro ⟨e, eq⟩
        cases eq
      · exact fun other => absurd reads other
    · rw [if_neg alone, ← fromDecStr_isSome_iff documented]
      cases ints.fromDecStr ('-' :: digits) <;> simp
  | false =>
    simp only [Bool.false_eq_true, ↓reduceIte, ← fromStr_isSome_iff documented.uint]
    cases ints.fromStr 256 text <;> simp

theorem parseScaled_eq_error {negative : Bool} {places : Nat} (fits : places < 2 ^ 256) :
    (∃ e, parseScaled ints negative text places = some (.error e)) ↔
      RejectedScaled ints negative text places := by
  unfold parseScaled RejectedScaled
  cases negative with
  | true =>
    rw [← signedCheckedPow_eq_none documented fits, if_pos rfl, if_pos rfl]
    by_cases alone : text = ['-']
    · simp [alone]
    · rw [if_neg alone]
      cases ints.signedFromStr text with
      | none => simp [alone]
      | some n =>
        cases ints.signedCheckedPow 10 (.ofNat 256 places) with
        | none => simp [alone]
        | some power => cases ints.signedMulAssign n power <;> simp
  | false =>
    rw [← checkedPow_eq_none documented fits, ← fromStr_isSome_iff documented.uint]
    simp only [Bool.false_eq_true, ↓reduceIte]
    cases ints.fromStr 256 text with
    | none => simp
    | some n => cases ints.checkedPow 10 (.ofNat 256 places) <;> simp

end Documented

end BlockExplorers

end FoundryCore
