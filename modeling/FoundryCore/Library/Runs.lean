import Mathlib.Data.List.DropRight

/-!
# Runs and trimming

Runs of separators are made shorter by their lengths, and elements with a property are trimmed
off both ends. Neither reaches over an element that is no separator, or has not the property.
-/

namespace FoundryCore.Library

variable {α : Type*}

section Resize

variable [DecidableEq α] (sep : α) (length : Nat → Nat)

/-- The list with its runs of separators made as long as is said for their lengths, where it
follows so many separators. -/
def resizeFrom : Nat → List α → List α
  | n, [] => List.replicate (length n) sep
  | n, x :: xs =>
    if x = sep then resizeFrom (n + 1) xs
    else List.replicate (length n) sep ++ x :: resizeFrom 0 xs

/-- The list with its runs of separators made as long as is said for their lengths. -/
def resize (xs : List α) : List α := resizeFrom sep length 0 xs

variable {sep length} {n : Nat} {x : α} {xs ys : List α}

theorem resizeFrom_append_cons (other : x ≠ sep) :
    resizeFrom sep length n (xs ++ x :: ys) =
      resizeFrom sep length n xs ++ x :: resize sep length ys := by
  induction xs generalizing n with
  | nil => simp [resizeFrom, resize, other]
  | cons y xs ih =>
    rw [List.cons_append, resizeFrom, resizeFrom]
    split_ifs with same
    · exact ih
    · simp [ih]

theorem resize_append_cons (other : x ≠ sep) :
    resize sep length (xs ++ x :: ys) = resize sep length xs ++ x :: resize sep length ys :=
  resizeFrom_append_cons other

/-- Runs do not reach over a part that begins and ends with other elements. -/
theorem resize_append_append {before middle after : List α} (keep : length 0 = 0)
    (first : ∃ x rest, middle = x :: rest ∧ x ≠ sep)
    (last : ∃ rest x, middle = rest ++ [x] ∧ x ≠ sep) :
    resize sep length (before ++ middle ++ after) =
      resize sep length before ++ resize sep length middle ++ resize sep length after := by
  obtain ⟨x, rest, begins, other⟩ := first
  obtain ⟨rest', y, ends, other'⟩ := last
  have head : ∀ ys, resize sep length (x :: ys) = x :: resize sep length ys := fun ys => by
    simp [resize, resizeFrom, other, keep]
  have tail : resize sep length [] = [] := by simp [resize, resizeFrom, keep]
  have left : ∀ after, resize sep length (before ++ (middle ++ after)) =
      resize sep length before ++ resize sep length (middle ++ after) := by
    intro after
    rw [begins, List.cons_append, resize_append_cons other, head]
  have right : resize sep length (middle ++ after) =
      resize sep length middle ++ resize sep length after := by
    rw [ends, List.append_assoc, List.singleton_append, resize_append_cons other',
      resize_append_cons other', List.append_assoc, tail]
    rfl
  rw [List.append_assoc, left, right, List.append_assoc]

theorem mem_resizeFrom (keep : length 0 = 0) (mem : x ∈ resizeFrom sep length n xs) :
    x ∈ List.replicate n sep ++ xs := by
  have shorter : ∀ n, x ∈ List.replicate (length n) sep → x ∈ List.replicate n sep := by
    intro n mem
    cases n with
    | zero => simp [keep] at mem
    | succ n => simp_all
  induction xs generalizing n with
  | nil => simpa [resizeFrom] using shorter n mem
  | cons y xs ih =>
    rw [resizeFrom] at mem
    split_ifs at mem with same
    · have rest := ih mem
      grind
    · rcases List.mem_append.mp mem with mem | mem
      · exact List.mem_append_left _ (shorter n mem)
      · rcases List.mem_cons.mp mem with rfl | mem
        · simp
        · have rest := ih mem
          grind

theorem mem_resize (keep : length 0 = 0) (mem : x ∈ resize sep length xs) : x ∈ xs := by
  simpa using mem_resizeFrom keep mem

end Resize

section Shorten

variable [DecidableEq α] (sep : α)

/-- What a run of so many separators is replaced by. -/
def shortened (n : Nat) : List α := List.replicate (if 3 ≤ n then 2 else n) sep

/-- The list with its runs shortened, where it follows so many separators. -/
def shortenFrom : Nat → List α → List α
  | n, [] => shortened sep n
  | n, x :: xs =>
    if x = sep then shortenFrom (n + 1) xs else shortened sep n ++ x :: shortenFrom 0 xs

/-- The list with its runs of separators shortened. -/
def shorten (xs : List α) : List α := shortenFrom sep 0 xs

variable {sep} {n : Nat} {x : α} {xs ys : List α}

theorem shortenFrom_eq :
    shortenFrom sep n xs = resizeFrom sep (fun n => if 3 ≤ n then 2 else n) n xs := by
  induction xs generalizing n with
  | nil => rfl
  | cons x xs ih => rw [shortenFrom, resizeFrom, ih, ih, shortened]

theorem shorten_append_cons (other : x ≠ sep) :
    shorten sep (xs ++ x :: ys) = shorten sep xs ++ x :: shorten sep ys := by
  simp only [shorten, shortenFrom_eq]
  exact resizeFrom_append_cons other

theorem shorten_cons (other : x ≠ sep) : shorten sep (x :: xs) = x :: shorten sep xs :=
  show shorten sep ([] ++ x :: xs) = _ from shorten_append_cons other

theorem shorten_append_append {before middle after : List α}
    (first : ∃ x rest, middle = x :: rest ∧ x ≠ sep)
    (last : ∃ rest x, middle = rest ++ [x] ∧ x ≠ sep) :
    shorten sep (before ++ middle ++ after) =
      shorten sep before ++ shorten sep middle ++ shorten sep after := by
  simp only [shorten, shortenFrom_eq]
  exact resize_append_append rfl first last

end Shorten

/-- The list without the elements at both ends that have the property. -/
def trim (p : α → Bool) (xs : List α) : List α := (xs.dropWhile p).rdropWhile p

variable {p : α → Bool}

theorem dropWhile_append_cons {x : α} {xs ys : List α} (other : p x = false) :
    (xs ++ x :: ys).dropWhile p = xs.dropWhile p ++ x :: ys := by
  induction xs with
  | nil => simp [other]
  | cons y xs ih =>
    rw [List.cons_append, List.dropWhile_cons, List.dropWhile_cons]
    split_ifs
    · exact ih
    · rfl

/-- Only what stands around a part is trimmed, if the part begins and ends with other elements. -/
theorem trim_append_append {before middle after : List α}
    (first : ∃ x rest, middle = x :: rest ∧ p x = false)
    (last : ∃ rest x, middle = rest ++ [x] ∧ p x = false) :
    trim p (before ++ middle ++ after) =
      before.dropWhile p ++ middle ++ after.rdropWhile p := by
  obtain ⟨x, rest, begins, other⟩ := first
  obtain ⟨rest', y, ends, other'⟩ := last
  have left : (before ++ middle ++ after).dropWhile p =
      before.dropWhile p ++ middle ++ after := by
    rw [begins, List.append_assoc, List.cons_append, dropWhile_append_cons other]
    simp
  rw [trim, left, List.rdropWhile, List.rdropWhile, List.reverse_append, ends]
  simp only [List.append_assoc, List.reverse_append, List.reverse_singleton, List.cons_append]
  rw [dropWhile_append_cons other']
  simp

end FoundryCore.Library
