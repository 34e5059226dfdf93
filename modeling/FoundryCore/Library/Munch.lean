import Mathlib.Data.List.Infix

/-!
# Maximal munch

A list is taken apart into lexemes from the left, each of them as long as it can be. There is only
one way to do so.
-/

namespace FoundryCore.Library

variable {α : Type*} (IsLexeme : List α → Prop)

/-- The part is a lexeme, and no longer one begins what the part and the rest make up. -/
def Longest (part rest : List α) : Prop :=
  part ≠ [] ∧ IsLexeme part ∧ ∀ more ∈ rest.inits, more ≠ [] → ¬IsLexeme (part ++ more)

instance [DecidableEq α] [DecidablePred IsLexeme] (part rest : List α) :
    Decidable (Longest IsLexeme part rest) :=
  inferInstanceAs (Decidable (_ ∧ _ ∧ _))

/-- Each of the parts is the longest lexeme where it begins, with the rest behind all of them. -/
def Munched : List (List α) → List α → Prop
  | [], _ => True
  | part :: parts, rest => Longest IsLexeme part (parts.flatten ++ rest) ∧ Munched parts rest

instance decidableMunched [DecidableEq α] [DecidablePred IsLexeme] :
    (parts : List (List α)) → (rest : List α) → Decidable (Munched IsLexeme parts rest)
  | [], _ => inferInstanceAs (Decidable True)
  | _ :: parts, rest =>
    have := decidableMunched parts rest
    inferInstanceAs (Decidable (_ ∧ _))

variable {IsLexeme} {part part' rest rest' : List α} {parts parts' : List (List α)}

/-- Parts are read on behind other ones. -/
theorem munched_append (munched : Munched IsLexeme parts (parts'.flatten ++ rest))
    (munched' : Munched IsLexeme parts' rest) : Munched IsLexeme (parts ++ parts') rest := by
  induction parts with
  | nil => exact munched'
  | cons part parts ih =>
    have longest : Longest IsLexeme part ((parts ++ parts').flatten ++ rest) := by
      rw [List.flatten_append, List.append_assoc]
      exact munched.1
    exact ⟨longest, ih munched.2⟩

theorem lexeme_of_munched (munched : Munched IsLexeme parts rest) :
    ∀ part ∈ parts, part ≠ [] ∧ IsLexeme part := by
  induction parts with
  | nil => simp
  | cons part parts ih =>
    exact List.forall_mem_cons.mpr ⟨⟨munched.1.1, munched.1.2.1⟩, ih munched.2⟩

/-- A lexeme that does not go on with the first element of the rest is the longest. -/
theorem longest_of_head (inhabited : part ≠ []) (lexeme : IsLexeme part)
    (stops : ∀ x ∈ rest.head?, ∀ more, ¬IsLexeme (part ++ x :: more)) :
    Longest IsLexeme part rest := by
  refine ⟨inhabited, lexeme, fun more mem nonempty => ?_⟩
  obtain ⟨x, more', rfl⟩ := List.exists_cons_of_ne_nil nonempty
  obtain ⟨rest', rfl⟩ := (List.mem_inits _ _).mp mem
  exact stops x rfl more'

/-- Two longest lexemes of one list do not differ. -/
theorem longest_unique (longest : Longest IsLexeme part rest)
    (longest' : Longest IsLexeme part' rest') (same : part ++ rest = part' ++ rest') :
    part = part' := by
  have shorter : ∀ {p p' r r' : List α}, Longest IsLexeme p r → Longest IsLexeme p' r' →
      p ++ r = p' ++ r' → p.length ≤ p'.length → p = p' := by
    intro p p' r r' longest longest' same le
    obtain ⟨more, rfl⟩ := List.prefix_of_prefix_length_le (List.prefix_append p r)
      (same ▸ List.prefix_append p' r') le
    by_contra differ
    have begins : more <+: r := by
      rw [List.append_assoc, List.append_cancel_left_eq] at same
      exact same ▸ List.prefix_append more r'
    exact longest.2.2 more ((List.mem_inits _ _).mpr begins) (by rintro rfl; simp at differ)
      longest'.2.1
  rcases Nat.le_total part.length part'.length with le | le
  · exact shorter longest longest' same le
  · exact (shorter longest' longest same.symm le).symm

theorem munched_unique (munched : Munched IsLexeme parts []) (munched' : Munched IsLexeme parts' [])
    (same : parts.flatten = parts'.flatten) : parts = parts' := by
  induction parts generalizing parts' with
  | nil =>
    cases parts' with
    | nil => rfl
    | cons part' parts' => simp [munched'.1.1] at same
  | cons part parts ih =>
    cases parts' with
    | nil => simp [munched.1.1] at same
    | cons part' parts' =>
      rw [List.flatten_cons, List.flatten_cons] at same
      obtain rfl := longest_unique munched.1 munched'.1 (by simpa using same)
      rw [ih munched.2 munched'.2 (List.append_cancel_left same)]

end FoundryCore.Library
