import FoundryCore.BlockExplorers.Units

/-!
# Decimal amounts

A decimal amount has an exact value in its unit. `parse_units` gives it, or an error, where the
product of its digits and of a power of ten fits and where nothing else is read as a number.
-/

namespace FoundryCore

open Library

namespace BlockExplorers

variable (ints : Integers)

/-- A decimal number by its sign and its digits on both sides of the point. -/
structure Decimal where
  negative : Bool
  whole : List Char
  fraction : List Char
deriving DecidableEq, Repr

/-- Digits, underscores and at most one point. -/
def Decimal.ofUnsigned (negative : Bool) (amount : List Char) : Option Decimal :=
  let text := amount.filter (· ≠ '_')
  let whole := text.takeWhile (· ≠ '.')
  let fraction := (text.dropWhile (· ≠ '.')).tail
  if isDigits 10 (whole ++ fraction) then some ⟨negative, whole, fraction⟩ else none

/-- An optional minus sign in front of them. -/
def decimal (amount : List Char) : Option Decimal :=
  match amount with
  | '-' :: amount => Decimal.ofUnsigned true amount
  | amount => Decimal.ofUnsigned false amount

namespace Decimal

variable (d : Decimal) (exponent : Nat)

/-- All of its digits as one number. -/
def digits : Nat := valueOf 10 (d.whole ++ d.fraction)

/-- The number times a power of ten, without its sign and truncated. -/
def magnitude : Nat := d.digits * 10 ^ exponent / 10 ^ d.fraction.length

/-- The largest magnitude in 256 bits. -/
def limit : Nat := if d.negative then 2 ^ 255 else 2 ^ 256 - 1

/-- The value is this number, signed if the number is. -/
def IsValue : ParseUnits → Prop
  | .u256 n => d.negative = false ∧ n.toNat = d.magnitude exponent
  | .i256 n => d.negative = true ∧ n.toInt = -(d.magnitude exponent : Int)

end Decimal

structure ExactOrError (amount : List Char) (units : Units) : Prop where
  returns : parseUnits ints amount (.ok units) ≠ none
  exact : ∀ value, parseUnits ints amount (.ok units) = some (.ok value) →
    ∃ d, decimal amount = some d ∧ d.IsValue units.asNum.toNat value
  overflow : ∀ d, decimal amount = some d → d.limit < d.magnitude units.asNum.toNat →
    ∃ e, parseUnits ints amount (.ok units) = some (.error e)

/-! ## When it is exact -/

namespace Decimal

variable (d : Decimal) (exponent : Nat)

/-- The number of places, as 32 bits hold it. -/
def places : Nat := d.fraction.length % 2 ^ 32

/-- The number that is read once places behind the exponent are cut off. -/
def read : Nat := d.digits / 10 ^ (d.places - exponent)

def power : Nat := 10 ^ (exponent - d.places)

/-- Neither the number nor the power is too large by itself. A minus sign alone is read at once. -/
def Accepted : Prop :=
  (d.negative = true ∧ d.whole ++ d.fraction = []) ∨
    d.read exponent ≤ d.limit ∧ d.power exponent ≤ d.limit

/-- The product fits, if it is formed. Behind more places than 32 bits count the amount is zero, and
so has to be the product. -/
def Kept : Prop :=
  d.Accepted exponent →
    if d.fraction.length < 2 ^ 32 then d.read exponent * d.power exponent ≤ d.limit
    else d.read exponent * d.power exponent = 0 ∨
      (d.negative = false ∨ ints.overflowChecks = false) ∧
        2 ^ 256 ∣ d.read exponent * d.power exponent

variable {d exponent}

theorem read_mul_power (counted : d.fraction.length < 2 ^ 32) :
    d.read exponent * d.power exponent = d.magnitude exponent := by
  have places : d.places = d.fraction.length := Nat.mod_eq_of_lt counted
  rw [read, power, magnitude, places]
  obtain le | le := Nat.le_total exponent d.fraction.length
  · obtain ⟨k, eq⟩ := Nat.exists_eq_add_of_le le
    rw [eq, Nat.add_sub_cancel_left, Nat.sub_eq_zero_of_le (Nat.le_add_right _ _), pow_zero,
      mul_one, pow_add, Nat.mul_comm (10 ^ exponent),
      Nat.mul_div_mul_right _ _ (Nat.pow_pos (by decide))]
  · obtain ⟨k, rfl⟩ := Nat.exists_eq_add_of_le le
    rw [Nat.add_sub_cancel_left, Nat.sub_eq_zero_of_le (Nat.le_add_right _ _), pow_zero,
      Nat.div_one, pow_add, Nat.mul_left_comm, Nat.mul_div_cancel_left _ (Nat.pow_pos (by decide))]

theorem one_le_limit : 1 ≤ d.limit := by
  unfold limit
  split <;> decide

theorem limit_lt : d.limit < 10 ^ 78 := by
  unfold limit
  split <;> decide

theorem read_of_le (scaled : d.places ≤ exponent) :
    d.read exponent = valueOf 10 (d.whole ++ d.fraction) := by
  rw [read, Nat.sub_eq_zero_of_le scaled, pow_zero, Nat.div_one]
  rfl

theorem power_of_le (truncated : exponent ≤ d.places) : d.power exponent = 1 := by
  rw [power, Nat.sub_eq_zero_of_le truncated, pow_zero]

/-- The only number that is accepted in spite of its power has no digits. -/
theorem accepted_iff_of_truncated (truncated : exponent < d.places) :
    d.Accepted exponent ↔ d.read exponent ≤ d.limit := by
  have nonempty : d.whole ++ d.fraction ≠ [] := by
    intro none
    simp [places, List.append_eq_nil_iff.mp none] at truncated
  simp [Accepted, nonempty, power_of_le truncated.le, one_le_limit]

/-- What is accepted has few digits in front of the places that are counted. -/
theorem magnitude_eq_zero (uncounted : 2 ^ 32 ≤ d.fraction.length)
    (accepted : d.Accepted exponent) : d.magnitude exponent = 0 := by
  apply Nat.div_eq_of_lt
  obtain ⟨-, none⟩ | ⟨small, low⟩ := accepted
  · simp [List.append_eq_nil_iff.mp none] at uncounted
  · have far : d.places + 156 ≤ d.fraction.length := by
      unfold places
      omega
    have few : exponent - d.places < 78 :=
      (Nat.pow_lt_pow_iff_right (by decide)).mp (low.trans_lt limit_lt)
    have bounded : d.digits < 10 ^ 78 * 10 ^ (d.places - exponent) :=
      (Nat.div_lt_iff_lt_mul (Nat.pow_pos (by decide))).mp (small.trans_lt limit_lt)
    calc d.digits * 10 ^ exponent
        < 10 ^ 78 * 10 ^ (d.places - exponent) * 10 ^ exponent :=
          Nat.mul_lt_mul_of_pos_right bounded (Nat.pow_pos (by decide))
      _ = 10 ^ (78 + (d.places - exponent) + exponent) := by rw [pow_add, pow_add]
      _ ≤ 10 ^ d.fraction.length := Nat.pow_le_pow_right (by decide) (by omega)

end Decimal

variable {ints} {amount text : List Char} {units : Units} {d : Decimal} {exponent : Nat}

/-! ### Decimal numbers -/

/-- The sign as it is written. -/
def Decimal.sign (d : Decimal) : List Char := if d.negative then ['-'] else []

structure Written (amount : List Char) (d : Decimal) : Prop where
  negative : decide ((amount.filter (· ≠ '_')).head? = some '-') = d.negative
  removePoint : removePoint (amount.filter (· ≠ '_')) =
    (d.sign ++ (d.whole ++ d.fraction), d.places)
  digits : isDigits 10 (d.whole ++ d.fraction) = true

theorem removePoint_of_unsigned {negative : Bool}
    (eq : Decimal.ofUnsigned negative amount = some d) : d.negative = negative ∧
      removePoint (amount.filter (· ≠ '_')) = (d.whole ++ d.fraction, d.places) ∧
      isDigits 10 (d.whole ++ d.fraction) = true := by
  unfold Decimal.ofUnsigned at eq
  simp only at eq
  split_ifs at eq with digits
  obtain rfl := Option.some.inj eq
  refine ⟨rfl, ?_, digits⟩
  rw [isDigits_append, Bool.and_eq_true] at digits
  rw [removePoint_eq, weight_of_isDigits digits.2]
  rfl

/-- What the code makes of a decimal number. -/
theorem written_of_decimal (eq : decimal amount = some d) : Written amount d := by
  unfold decimal at eq
  split at eq
  · obtain ⟨negative, point, digits⟩ := removePoint_of_unsigned eq
    refine ⟨by simp [negative], ?_, digits⟩
    rw [List.filter_cons_of_pos (by decide), removePoint_minus, point]
    simp [Decimal.sign, negative]
  · obtain ⟨negative, point, digits⟩ := removePoint_of_unsigned eq
    refine ⟨?_, by simpa [Decimal.sign, negative] using point, digits⟩
    rw [negative, decide_eq_false_iff_not]
    intro minus
    obtain ⟨rest, text⟩ := List.head?_eq_some_iff.mp minus
    rw [text, removePoint_minus] at point
    simp [← (Prod.mk.inj point).1, isDigits_cons, digitValue] at digits

/-- The value of the code, with its sign, that wraps in 256 bits. -/
def Decimal.value (d : Decimal) (n : Nat) : ParseUnits :=
  if d.negative then .i256 (.ofInt 256 (-n)) else .u256 (.ofNat 256 n)

theorem weight_sign : weight Char.utf8Size d.sign = d.sign.length := by
  unfold Decimal.sign
  split <;> rfl

/-- What is parsed of a decimal number: its digits, without those behind the exponent. -/
theorem parseUnits_of_written (written : Written amount d) :
    parseUnits ints amount (.ok units) =
      if units.asNum.toNat < d.places then
        some (parseTruncated ints d.negative (d.sign ++ (d.whole ++ d.fraction).take
          ((d.whole ++ d.fraction).length - (d.places - units.asNum.toNat))))
      else parseScaled ints d.negative (d.sign ++ (d.whole ++ d.fraction))
        (units.asNum.toNat - d.places) := by
  simp only [parseUnits, written.removePoint, written.negative]
  split_ifs with truncated
  · obtain ⟨text, eq⟩ : ∃ text, text = d.whole ++ d.fraction := ⟨_, rfl⟩
    have places : d.places ≤ text.length := by
      have : d.places ≤ d.fraction.length := Nat.mod_le _ _
      rw [eq, List.length_append]
      omega
    have digits := eq ▸ written.digits
    rw [← eq]
    generalize removed : d.places - units.asNum.toNat = k
    have parts := List.take_append_drop (text.length - k) text
    have first : isDigits 10 (text.take (text.length - k)) = true := isDigits_take digits
    have cutting : cut Char.utf8Size (weight Char.utf8Size (d.sign ++ text) - k) (d.sign ++ text) =
        some (d.sign ++ text.take (text.length - k), text.drop (text.length - k)) := by
      apply (cut_eq_some Char.utf8Size_pos).mpr
      constructor
      · rw [List.append_assoc, parts]
      · rw [weight_append, weight_append, weight_of_isDigits first, weight_of_isDigits digits,
          List.length_take, weight_sign]
        omega
    rw [cutting]
    rfl
  · rfl

theorem Decimal.IsValue.magnitude_le {value : ParseUnits} (isValue : d.IsValue exponent value) :
    d.magnitude exponent ≤ d.limit := by
  cases value with
  | u256 n =>
    obtain ⟨sign, same⟩ := isValue
    have := n.isLt
    simp only [limit, sign, Bool.false_eq_true, ↓reduceIte]
    omega
  | i256 n =>
    obtain ⟨sign, same⟩ := isValue
    have := n.le_toInt
    simp only [limit, sign, ↓reduceIte]
    omega

theorem Decimal.isValue_value_iff {n : Nat} : d.IsValue exponent (d.value n) ↔
    if d.negative then (BitVec.ofInt 256 (-n)).toInt = -(d.magnitude exponent : Int)
    else n % 2 ^ 256 = d.magnitude exponent := by
  unfold value
  split <;> simp_all [IsValue]

theorem Decimal.isValue_iff_of_counted (counted : d.fraction.length < 2 ^ 32) :
    d.IsValue exponent (d.value (d.read exponent * d.power exponent)) ↔
      d.read exponent * d.power exponent ≤ d.limit := by
  rw [isValue_value_iff, ← read_mul_power counted, limit]
  generalize d.read exponent * d.power exponent = n
  split
  · constructor
    · intro same
      have := (BitVec.ofInt 256 (-(n : Int))).le_toInt
      omega
    · intro le
      exact toInt_ofInt (signed256_neg_iff.mpr le)
  · omega

theorem Decimal.isValue_iff_of_uncounted (uncounted : 2 ^ 32 ≤ d.fraction.length)
    (accepted : d.Accepted exponent) :
    d.IsValue exponent (d.value (d.read exponent * d.power exponent)) ↔
      2 ^ 256 ∣ d.read exponent * d.power exponent := by
  rw [isValue_value_iff, magnitude_eq_zero uncounted accepted]
  generalize d.read exponent * d.power exponent = n
  split
  · rw [BitVec.toInt_ofInt, Int.natCast_zero, Int.neg_zero, ← Int.dvd_iff_bmod_eq_zero,
      Int.dvd_neg, Int.natCast_dvd_natCast]
  · exact Nat.dvd_iff_mod_eq_zero.symm

/-- Signed products that are a panic are no values of a number. -/
theorem Decimal.kept_iff (accepted : d.Accepted exponent) : d.Kept ints exponent ↔
    ¬ (d.negative = true ∧ ints.overflowChecks = true ∧
      2 ^ 255 < d.read exponent * d.power exponent) ∧
    d.IsValue exponent (d.value (d.read exponent * d.power exponent)) := by
  rw [Kept, imp_iff_right accepted]
  by_cases counted : d.fraction.length < 2 ^ 32
  · rw [if_pos counted, isValue_iff_of_counted counted]
    refine (and_iff_right_of_imp fun le => ?_).symm
    rintro ⟨negative, -, large⟩
    rw [limit, if_pos negative] at le
    omega
  · rw [if_neg counted, isValue_iff_of_uncounted (Nat.le_of_not_lt counted) accepted]
    generalize d.read exponent * d.power exponent = n
    obtain rfl | positive := Nat.eq_zero_or_pos n
    · simp
    · have large : 2 ^ 256 ∣ n → 2 ^ 255 < n := by
        intro divides
        have := Nat.le_of_dvd positive divides
        omega
      cases d.negative <;> cases ints.overflowChecks <;> grind

section Documented

variable (documented : ints.Documented)
include documented

theorem parseTruncated_of_isDigits (digits : isDigits 10 text = true) :
    parseTruncated ints d.negative (d.sign ++ text) =
      if valueOf 10 text ≤ d.limit then .ok (d.value (valueOf 10 text))
      else .error .fromDecStrError := by
  unfold parseTruncated Decimal.sign Decimal.value Decimal.limit
  cases d.negative with
  | true =>
    simp only [↓reduceIte, List.singleton_append, List.cons.injEq, true_and]
    split
    · next none => simp [none, valueOf]
    · rw [fromDecStr_of_isDigits documented digits]
      split_ifs <;> rfl
  | false =>
    simp only [Bool.false_eq_true, ↓reduceIte, List.nil_append]
    rw [fromStr_of_isDigits documented.uint digits]
    have : valueOf 10 text ≤ 2 ^ 256 - 1 ↔ valueOf 10 text < 2 ^ 256 := by omega
    simp only [this]
    split_ifs <;> rfl

/-- Where the amount is multiplied, a product that is too large is a panic or it wraps. -/
theorem parseScaled_of_isDigits {places : Nat} (fits : places < 2 ^ 256)
    (digits : isDigits 10 text = true) :
    parseScaled ints d.negative (d.sign ++ text) places =
      if d.negative = true ∧ text = [] then some (.ok (.i256 0))
      else if d.limit < valueOf 10 text then
        some (.error (if d.negative then .parseI256Error else .fromDecStrError))
      else if d.limit < 10 ^ places then some (.error .parseOverflow)
      else if d.negative = true ∧ ints.overflowChecks = true ∧
        2 ^ 255 < valueOf 10 text * 10 ^ places then none
      else some (.ok (d.value (valueOf 10 text * 10 ^ places))) := by
  unfold parseScaled Decimal.sign Decimal.value Decimal.limit
  cases d.negative with
  | true =>
    simp only [↓reduceIte, List.singleton_append, List.cons.injEq, true_and]
    by_cases none : text = []
    · simp only [if_pos none]
    · simp only [if_neg none]
      rw [documented.signedFromStr text none digits, fromDecStr_of_isDigits documented digits,
        signedCheckedPow_ten documented fits]
      by_cases small : valueOf 10 text ≤ 2 ^ 255
      · by_cases low : 10 ^ places ≤ 2 ^ 255
        · simp only [if_pos small, if_pos low, if_neg (Nat.not_lt.mpr small),
            if_neg (Nat.not_lt.mpr low),
            signedMulAssign_neg documented small (ten_pow_lt_iff.mpr low)]
          split_ifs <;> rfl
        · simp only [if_pos small, if_neg low, if_neg (Nat.not_lt.mpr small),
            if_pos (Nat.lt_of_not_le low)]
      · simp only [if_neg small, if_pos (Nat.lt_of_not_le small)]
  | false =>
    simp only [Bool.false_eq_true, ↓reduceIte, List.nil_append, false_and]
    rw [fromStr_of_isDigits documented.uint digits, checkedPow_ten documented fits]
    by_cases small : valueOf 10 text < 2 ^ 256
    · by_cases low : 10 ^ places < 2 ^ 256
      · simp only [if_pos small, if_pos low, documented.mulAssign, BitVec.ofNat_mul]
        rw [if_neg (by omega), if_neg (by omega)]
      · simp only [if_pos small, if_neg low]
        rw [if_neg (by omega), if_pos (by omega)]
    · simp only [if_neg small]
      rw [if_pos (by omega)]

theorem parseTruncated_read (written : Written amount d) (truncated : exponent < d.places) :
    parseTruncated ints d.negative (d.sign ++ (d.whole ++ d.fraction).take
      ((d.whole ++ d.fraction).length - (d.places - exponent))) =
      if d.read exponent ≤ d.limit then .ok (d.value (d.read exponent))
      else .error .fromDecStrError := by
  have places : d.places ≤ d.fraction.length := Nat.mod_le _ _
  have le : d.places - exponent ≤ (d.whole ++ d.fraction).length := by
    rw [List.length_append]
    omega
  rw [parseTruncated_of_isDigits documented (isDigits_take written.digits),
    valueOf_take written.digits le]
  rfl

theorem parseUnits_accepted (written : Written amount d)
    (accepted : d.Accepted units.asNum.toNat) : parseUnits ints amount (.ok units) =
      if d.negative = true ∧ ints.overflowChecks = true ∧
        2 ^ 255 < d.read units.asNum.toNat * d.power units.asNum.toNat then none
      else some (.ok (d.value (d.read units.asNum.toNat * d.power units.asNum.toNat))) := by
  rw [parseUnits_of_written written]
  by_cases truncated : units.asNum.toNat < d.places
  · have small := (Decimal.accepted_iff_of_truncated truncated).mp accepted
    rw [if_pos truncated, parseTruncated_read documented written truncated, if_pos small,
      Decimal.power_of_le truncated.le, mul_one, if_neg]
    rintro ⟨negative, -, large⟩
    rw [Decimal.limit, if_pos negative] at small
    omega
  · have fits : units.asNum.toNat - d.places < 2 ^ 256 := by
      have := units.asNum.isLt
      omega
    have power : 10 ^ (units.asNum.toNat - d.places) = d.power units.asNum.toNat := rfl
    rw [if_neg truncated, parseScaled_of_isDigits documented fits written.digits,
      ← Decimal.read_of_le (Nat.le_of_not_lt truncated), power]
    by_cases alone : d.negative = true ∧ d.whole ++ d.fraction = []
    · have zero : d.read units.asNum.toNat = 0 := by
        rw [Decimal.read_of_le (Nat.le_of_not_lt truncated), alone.2]
        rfl
      rw [if_pos alone, zero, Nat.zero_mul, if_neg (by omega), Decimal.value, if_pos alone.1]
      rfl
    · obtain ⟨small, low⟩ := accepted.resolve_left alone
      rw [if_neg alone, if_neg (Nat.not_lt.mpr small), if_neg (Nat.not_lt.mpr low)]

theorem parseUnits_rejected (written : Written amount d)
    (rejected : ¬ d.Accepted units.asNum.toNat) :
    ∃ e, parseUnits ints amount (.ok units) = some (.error e) := by
  rw [parseUnits_of_written written]
  by_cases truncated : units.asNum.toNat < d.places
  · rw [Decimal.accepted_iff_of_truncated truncated] at rejected
    rw [if_pos truncated, parseTruncated_read documented written truncated, if_neg rejected]
    exact ⟨_, rfl⟩
  · have fits : units.asNum.toNat - d.places < 2 ^ 256 := by
      have := units.asNum.isLt
      omega
    have power : 10 ^ (units.asNum.toNat - d.places) = d.power units.asNum.toNat := rfl
    obtain ⟨alone, large⟩ := not_or.mp rejected
    rw [if_neg truncated, parseScaled_of_isDigits documented fits written.digits,
      ← Decimal.read_of_le (Nat.le_of_not_lt truncated), power, if_neg alone]
    by_cases small : d.read units.asNum.toNat ≤ d.limit
    · rw [if_neg (Nat.not_lt.mpr small), if_pos (Nat.lt_of_not_le fun low => large ⟨small, low⟩)]
      exact ⟨_, rfl⟩
    · rw [if_pos (Nat.lt_of_not_le small)]
      exact ⟨_, rfl⟩

theorem exactOrError_iff_of_accepted (eq : decimal amount = some d)
    (accepted : d.Accepted units.asNum.toNat) : ExactOrError ints amount units ↔
      ¬ (d.negative = true ∧ ints.overflowChecks = true ∧
        2 ^ 255 < d.read units.asNum.toNat * d.power units.asNum.toNat) ∧
      d.IsValue units.asNum.toNat
        (d.value (d.read units.asNum.toNat * d.power units.asNum.toNat)) := by
  have result := parseUnits_accepted documented (written_of_decimal eq) accepted
  constructor
  · intro exact
    have fits : ¬ (d.negative = true ∧ ints.overflowChecks = true ∧
        2 ^ 255 < d.read units.asNum.toNat * d.power units.asNum.toNat) := by
      intro overflow
      exact exact.returns (by rw [result, if_pos overflow])
    rw [if_neg fits] at result
    obtain ⟨d', eq', isValue⟩ := exact.exact _ result
    obtain rfl : d = d' := Option.some.inj (eq.symm.trans eq')
    exact ⟨fits, isValue⟩
  · intro ⟨fits, isValue⟩
    rw [if_neg fits] at result
    refine ⟨by simp [result], fun value read => ?_, fun d' eq' large => ?_⟩
    · rw [result] at read
      obtain rfl := Except.ok.inj (Option.some.inj read)
      exact ⟨d, eq, isValue⟩
    · obtain rfl : d = d' := Option.some.inj (eq.symm.trans eq')
      exact absurd isValue.magnitude_le (Nat.not_le.mpr large)

theorem exactOrError_iff_kept (eq : decimal amount = some d) :
    ExactOrError ints amount units ↔ d.Kept ints units.asNum.toNat := by
  by_cases accepted : d.Accepted units.asNum.toNat
  · rw [exactOrError_iff_of_accepted documented eq accepted, Decimal.kept_iff accepted]
  · obtain ⟨e, result⟩ := parseUnits_rejected documented (written_of_decimal eq) accepted
    constructor
    · exact fun _ accepted' => absurd accepted' accepted
    · intro
      refine ⟨by simp [result], fun value read => ?_, fun _ _ _ => ⟨e, result⟩⟩
      rw [result] at read
      cases read

end Documented

/-! ### Other texts -/

/-- Without its underscores and its first point the text can be cut where the exponent ends and is
no number then, or it is too short to be cut and rejected. -/
def Rejected (ints : Integers) (amount : List Char) (exponent : Nat) : Prop :=
  let amountStr := amount.filter (· ≠ '_')
  let negative : Bool := amountStr.head? = some '-'
  let (amountStr, decLen) := removePoint amountStr
  if exponent < decLen then
    ∃ kept others, amountStr = kept ++ others ∧
      weight Char.utf8Size kept = weight Char.utf8Size amountStr - (decLen - exponent) ∧
      ¬ ReadsTruncated negative kept
  else RejectedScaled ints negative amountStr (exponent - decLen)

section Documented

variable (documented : ints.Documented)
include documented

theorem exactOrError_iff_rejected (eq : decimal amount = none) :
    ExactOrError ints amount units ↔ Rejected ints amount units.asNum.toNat := by
  have failed : ExactOrError ints amount units ↔
      ∃ e, parseUnits ints amount (.ok units) = some (.error e) := by
    constructor
    · intro exact
      cases result : parseUnits ints amount (.ok units) with
      | none => exact absurd result exact.returns
      | some result' =>
        cases result' with
        | error e => exact ⟨e, rfl⟩
        | ok value =>
          obtain ⟨d, eq', -⟩ := exact.exact value result
          simp [eq] at eq'
    · rintro ⟨e, result⟩
      refine ⟨by simp [result], fun value read => ?_, fun d eq' => ?_⟩
      · rw [result] at read
        cases read
      · simp [eq] at eq'
  rw [failed]
  simp only [parseUnits, Rejected]
  generalize sign : decide ((amount.filter (· ≠ '_')).head? = some '-') = negative
  split
  · constructor
    · rintro ⟨e, eq⟩
      obtain ⟨⟨kept, others⟩, cutting, eq⟩ := Option.map_eq_some_iff.mp eq
      obtain ⟨parts, size⟩ := (cut_eq_some Char.utf8Size_pos).mp cutting
      have minus (negative' : negative = true) : kept.head? = some '-' :=
        head?_kept (of_decide_eq_true (sign.trans negative')) parts size
      exact ⟨kept, others, parts, size, (parseTruncated_eq_error documented minus).mp ⟨e, eq⟩⟩
    · rintro ⟨kept, others, parts, size, unread⟩
      have minus (negative' : negative = true) : kept.head? = some '-' :=
        head?_kept (of_decide_eq_true (sign.trans negative')) parts size
      obtain ⟨e, eq⟩ := (parseTruncated_eq_error documented minus).mpr unread
      exact ⟨e, Option.map_eq_some_iff.mpr
        ⟨(kept, others), (cut_eq_some Char.utf8Size_pos).mpr ⟨parts, size⟩, eq⟩⟩
  · apply parseScaled_eq_error documented
    have := units.asNum.isLt
    omega

/-- Decimal numbers are parsed exactly where the product fits, and other texts are an error where
nothing of them is read as a number. -/
theorem parseUnits_exactOrError_iff : ExactOrError ints amount units ↔
    match decimal amount with
    | some d => d.Kept ints units.asNum.toNat
    | none => Rejected ints amount units.asNum.toNat := by
  cases eq : decimal amount with
  | some d => exact exactOrError_iff_kept documented eq
  | none => exact exactOrError_iff_rejected documented eq

end Documented

theorem parseUnits_exactOrError_ether :
    ExactOrError (radixIntegers true) "-1.5".toList .ether := by
  apply (parseUnits_exactOrError_iff (radixIntegers_documented true)).mpr
  have eq : decimal "-1.5".toList = some ⟨true, ['1'], ['5']⟩ := by decide
  simp only [eq]
  intro
  decide +kernel

/-- Another radix is read, a product wraps, decimals are cut off unread and a character is cut. -/
theorem parseUnits_not_exactOrError :
    parseUnits (radixIntegers true) "0x10".toList (.ok .wei) = some (.ok (.u256 16)) ∧
    ¬ ExactOrError (radixIntegers true) "0x10".toList .wei ∧
    parseUnits (radixIntegers true) "2".toList (.ok (.other 77)) =
      some (.ok (.u256 (.ofNat 256 (2 * 10 ^ 77 - 2 ^ 256)))) ∧
    ¬ ExactOrError (radixIntegers true) "2".toList (.other 77) ∧
    parseUnits (radixIntegers true) "1.2.3".toList (.ok .wei) = some (.ok (.u256 1)) ∧
    ¬ ExactOrError (radixIntegers true) "1.2.3".toList .wei ∧
    parseUnits (radixIntegers true) "1.é".toList (.ok (.other 1)) = none ∧
    ¬ ExactOrError (radixIntegers true) "1.é".toList (.other 1) := by
  have radix : parseUnits (radixIntegers true) "0x10".toList (.ok .wei) =
      some (.ok (.u256 16)) := by
    decide +kernel
  have product : parseUnits (radixIntegers true) "2".toList (.ok (.other 77)) =
      some (.ok (.u256 (.ofNat 256 (2 * 10 ^ 77 - 2 ^ 256)))) := by
    decide +kernel
  have points : parseUnits (radixIntegers true) "1.2.3".toList (.ok .wei) =
      some (.ok (.u256 1)) := by
    decide +kernel
  have panic : parseUnits (radixIntegers true) "1.é".toList (.ok (.other 1)) = none := by
    decide +kernel
  refine ⟨radix, fun exact => ?_, product, fun exact => ?_, points, fun exact => ?_, panic,
    fun exact => exact.returns panic⟩
  · obtain ⟨d, eq, -⟩ := exact.exact _ radix
    have other : decimal "0x10".toList = none := by decide
    cases other.symm.trans eq
  · have eq : decimal "2".toList = some ⟨false, ['2'], []⟩ := by decide
    obtain ⟨e, error⟩ := exact.overflow _ eq (by decide +kernel)
    cases product.symm.trans error
  · obtain ⟨d, eq, -⟩ := exact.exact _ points
    have other : decimal "1.2.3".toList = none := by decide
    cases other.symm.trans eq

end BlockExplorers

end FoundryCore
