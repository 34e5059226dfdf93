import Mathlib.Algebra.Order.Ring.Nat
import Mathlib.Data.List.Induction
import Mathlib.Tactic.Ring

/-!
# Numbers in a radix

The digits of a radix up to 36 and the number that a list of them is.
-/

namespace FoundryCore.Library

/-- The value of a digit, `0` to `9` or a letter of either case. -/
def digitValue (c : Char) : Option Nat :=
  if '0' ≤ c ∧ c ≤ '9' then some (c.toNat - '0'.toNat)
  else if 'a' ≤ c ∧ c ≤ 'z' then some (c.toNat - 'a'.toNat + 10)
  else if 'A' ≤ c ∧ c ≤ 'Z' then some (c.toNat - 'A'.toNat + 10)
  else none

/-- All characters are digits of the radix. -/
def isDigits (radix : Nat) (text : List Char) : Bool :=
  text.all fun c => (digitValue c).any fun d => d < radix

/-- The number that the digits are, the first one being the highest. -/
def valueOf (radix : Nat) (text : List Char) : Nat :=
  text.foldl (fun n c => n * radix + (digitValue c).getD 0) 0

/-- Reads a number that is made of digits only. No digits are zero. -/
def readNumber (radix : Nat) (text : List Char) : Option Nat :=
  if isDigits radix text then some (valueOf radix text) else none

variable {radix n : Nat} {text text' : List Char} {c : Char}

theorem readNumber_eq_some :
    readNumber radix text = some n ↔ isDigits radix text = true ∧ valueOf radix text = n := by
  simp [readNumber]

theorem readNumber_eq_none : readNumber radix text = none ↔ isDigits radix text = false := by
  simp [readNumber]

@[simp] theorem isDigits_append :
    isDigits radix (text ++ text') = (isDigits radix text && isDigits radix text') :=
  List.all_append

theorem isDigits_cons :
    isDigits radix (c :: text) = ((digitValue c).any (· < radix) && isDigits radix text) := rfl

theorem digit_of_mem (digits : isDigits radix text = true) (mem : c ∈ text) :
    ∃ d < radix, digitValue c = some d := by
  obtain ⟨d, digit, less⟩ := (Option.any_eq_true _ _).mp (List.all_eq_true.mp digits c mem)
  exact ⟨d, by simpa using less, digit⟩

theorem isDigits_take (digits : isDigits radix text = true) :
    isDigits radix (text.take n) = true := by
  rw [← List.take_append_drop n text, isDigits_append, Bool.and_eq_true] at digits
  exact digits.1

/-- What is no digit does not occur. -/
theorem notMem_of_isDigits (digits : isDigits radix text = true)
    (other : ∀ d, digitValue c = some d → radix ≤ d) : c ∉ text := by
  intro mem
  obtain ⟨d, less, digit⟩ := digit_of_mem digits mem
  have := other d digit
  omega

theorem foldl_digits (start : Nat) :
    text.foldl (fun n c => n * radix + (digitValue c).getD 0) start =
      start * radix ^ text.length + valueOf radix text := by
  induction text generalizing start with
  | nil => simp [valueOf]
  | cons c text ih =>
    rw [valueOf, List.foldl_cons, List.foldl_cons, ih, ih (0 * radix + _), List.length_cons,
      pow_succ']
    ring

/-- More digits move the ones before them. -/
theorem valueOf_append : valueOf radix (text ++ text') =
    valueOf radix text * radix ^ text'.length + valueOf radix text' := by
  rw [valueOf, List.foldl_append, foldl_digits]
  rfl

theorem valueOf_lt (digits : isDigits radix text = true) :
    valueOf radix text < radix ^ text.length := by
  induction text using List.reverseRecOn with
  | nil => simp [valueOf]
  | append_singleton text c ih =>
    rw [isDigits_append, Bool.and_eq_true] at digits
    have before := ih digits.1
    obtain ⟨d, less, digit⟩ := digit_of_mem digits.2 (List.mem_singleton_self c)
    have last : valueOf radix [c] = d := by simp [valueOf, digit]
    rw [valueOf_append, last, List.length_singleton, pow_one, List.length_append,
      List.length_singleton, pow_succ]
    calc valueOf radix text * radix + d < valueOf radix text * radix + radix :=
          Nat.add_lt_add_left less _
      _ = (valueOf radix text + 1) * radix := by ring
      _ ≤ radix ^ text.length * radix := Nat.mul_le_mul_right _ before

/-- Without some of the last digits the number is divided by as many powers of the radix. -/
theorem valueOf_take (digits : isDigits radix text = true) (le : n ≤ text.length) :
    valueOf radix (text.take (text.length - n)) = valueOf radix text / radix ^ n := by
  have parts := List.take_append_drop (text.length - n) text
  have last : isDigits radix (text.drop (text.length - n)) = true := by
    rw [← parts, isDigits_append, Bool.and_eq_true] at digits
    exact digits.2
  have length : (text.drop (text.length - n)).length = n := by
    rw [List.length_drop]
    omega
  have less := valueOf_lt last
  have whole := congrArg (valueOf radix) parts
  rw [valueOf_append] at whole
  rw [length] at less whole
  rw [← whole, Nat.mul_comm, Nat.mul_add_div (Nat.zero_lt_of_lt less), Nat.div_eq_of_lt less,
    Nat.add_zero]

theorem digitValue_digitChar : ∀ d < 16, digitValue (Nat.digitChar d) = some d := by decide

theorem readNumber_digitChar (hex : radix ≤ 16) {d : Nat} (less : d < radix) :
    readNumber radix [Nat.digitChar d] = some d := by
  have value := digitValue_digitChar d (by omega)
  simp [readNumber, isDigits, valueOf, value, less]

/-- The digits of a number are read back. -/
theorem readNumber_toDigits (two : 1 < radix) (hex : radix ≤ 16) (n : Nat) :
    readNumber radix (Nat.toDigits radix n) = some n := by
  induction n using Nat.strong_induction_on with
  | _ n ih =>
    rw [Nat.toDigits_eq_if two]
    split_ifs with less
    · exact readNumber_digitChar hex less
    · obtain ⟨high, value⟩ := readNumber_eq_some.mp
        (ih (n / radix) (Nat.div_lt_self (by omega) two))
      obtain ⟨low, last⟩ := readNumber_eq_some.mp
        (readNumber_digitChar hex (Nat.mod_lt n (by omega)))
      refine readNumber_eq_some.mpr ⟨by rw [isDigits_append, high, low]; rfl, ?_⟩
      rw [valueOf_append, value, last, List.length_singleton, pow_one]
      exact Nat.div_add_mod' n radix

theorem readNumber_zeros (positive : 0 < radix) (count : Nat) :
    readNumber radix (List.replicate count '0') = some 0 := by
  have zero : digitValue '0' = some 0 := rfl
  induction count with
  | zero => rfl
  | succ count ih =>
    obtain ⟨digits, value⟩ := readNumber_eq_some.mp ih
    rw [readNumber_eq_some, List.replicate_succ', isDigits_append, valueOf_append, digits, value]
    simp [isDigits, valueOf, zero, positive]

/-- Zeros before a number do not count. -/
theorem readNumber_leftpad {width : Nat} (positive : 0 < radix) :
    readNumber radix (text.leftpad width '0') = readNumber radix text := by
  obtain ⟨zeros, nothing⟩ := readNumber_eq_some.mp
    (readNumber_zeros positive (width - text.length))
  simp [readNumber, List.leftpad, valueOf_append, zeros, nothing]

end FoundryCore.Library
