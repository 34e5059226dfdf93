import Mathlib.Algebra.Group.Int.Defs
import Mathlib.Data.String.Basic
import FoundryCore.Library.Except
import FoundryCore.Library.Slice

/-!
# Replacing ranges of a source

The contents of a source are changed range by range. Each range is given by its place in the
contents before any change, and is moved by what the changes before it added or took away.
-/

namespace FoundryCore

/-- `isize::MAX`. -/
def isizeMax : Nat := 2 ^ 63 - 1

/-- A text in memory. No allocation is longer than `isize::MAX` bytes. -/
abbrev Str := { text : String // text.utf8ByteSize ≤ isizeMax }

/-- `Range<usize>`. -/
abbrev Range := Nat × Nat

inductive Panic
  /-- A range starts after its end. -/
  | sliceIndexOrder
  /-- A range ends after the text. -/
  | sliceEndIndex
  | notCharBoundary
  | capacityOverflow
  | arithmeticOverflow
deriving DecidableEq, Repr

/-! ## Machine integers -/

/-- `usize as isize`. -/
def asIsize (n : Nat) : Int := Int.bmod n (2 ^ 64)

/-- `isize as usize`. -/
def asUsize (n : Int) : Nat := (n % 2 ^ 64).toNat

/-- `isize::saturating_add`. -/
def saturatingAdd (m n : Int) : Int := max (-isizeMax - 1) (min isizeMax (m + n))

/-- The result of a sum or a difference of `isize`, which may overflow. -/
def checkedIsize (n : Int) : Except Panic Int :=
  if -isizeMax - 1 ≤ n ∧ n ≤ isizeMax then .ok n else .error .arithmeticOverflow

/-- The difference of two `usize`, which may overflow. -/
def checkedSub (m n : Nat) : Except Panic Nat :=
  if n ≤ m then .ok (m - n) else .error .arithmeticOverflow

/-- Move a range by a specified offset. -/
def rangeByOffset (range : Range) (offset : Int) : Range :=
  (asUsize (saturatingAdd offset (asIsize range.1)),
    asUsize (saturatingAdd offset (asIsize range.2)))

/-! ## Texts -/

/-- What stands before and after a range of bytes, if the range is on character boundaries. -/
def splitRange (text : List Char) (range : Range) : Option (List Char × List Char) := do
  let (before, rest) ← Library.cut Char.utf8Size range.1 text
  let (_, after) ← Library.cut Char.utf8Size (range.2 - range.1) rest
  return (before, after)

/-- `String::replace_range`. -/
def replaceRange (content : Str) (range : Range) (new : Str) : Except Panic Str :=
  if range.2 < range.1 then .error .sliceIndexOrder
  else if content.1.utf8ByteSize < range.2 then .error .sliceEndIndex
  else match splitRange content.1.toList range with
    | none => .error .notCharBoundary
    | some (before, after) =>
      let replaced := String.ofList (before ++ new.1.toList ++ after)
      if fits : replaced.utf8ByteSize ≤ isizeMax then .ok ⟨replaced, fits⟩
      else .error .capacityOverflow

/-- The offset after an update, which moves by what the new value is longer than the range. -/
def addToOffset (offset : Int) (updateRange : Range) (newValue : Str) : Except Panic Int := do
  let replaced ← checkedSub updateRange.2 updateRange.1
  let change ← checkedIsize (asIsize newValue.1.utf8ByteSize - asIsize replaced)
  checkedIsize (offset + change)

/-- A step of the loop over the updates, on the content and the offset. -/
def replaceNext (state : Str × Int) (update : Range × Str) : Except Panic (Str × Int) := do
  let updateRange := rangeByOffset update.1 state.2
  let content ← replaceRange state.1 updateRange update.2
  let offset ← addToOffset state.2 updateRange update.2
  return (content, offset)

/-- Utility function to change source content ranges with provided updates. Assumes that the
updates are sorted. -/
def replaceSourceContent (source : Str) (updates : List (Range × Str)) : Except Panic Str := do
  let (content, _) ← updates.foldlM replaceNext (source, 0)
  return content

/-! ## Updates in order -/

/-- A text can be cut at a position: no character goes across it. -/
def IsCharBoundary (text : List Char) (position : Nat) : Prop :=
  (Library.cut Char.utf8Size position text).isSome = true

instance (text : List Char) (position : Nat) : Decidable (IsCharBoundary text position) :=
  inferInstanceAs (Decidable (_ = true))

/-- The ranges are in bounds and on character boundaries, sorted, and do not overlap. -/
structure Ordered (source : Str) (updates : List (Range × Str)) : Prop where
  range : ∀ update ∈ updates, update.1.1 ≤ update.1.2 ∧
    IsCharBoundary source.1.toList update.1.1 ∧ IsCharBoundary source.1.toList update.1.2
  pairwise : updates.Pairwise fun update later => update.1.2 ≤ later.1.1

/-- The updates as the texts they put in the place of ranges. -/
def replacements (updates : List (Range × Str)) : List ((Nat × Nat) × List Char) :=
  updates.map fun (range, new) => (range, new.1.toList)

/-- The source with all ranges replaced at once. -/
def substituted (source : Str) (updates : List (Range × Str)) : String :=
  .ofList (Library.substitute Char.utf8Size source.1.toList (replacements updates))

/-- The contents after each of the updates are small enough to be held in memory. -/
def Fits (source : Str) (updates : List (Range × Str)) : Prop :=
  ∀ n ≤ updates.length, (substituted source (updates.take n)).utf8ByteSize ≤ isizeMax

instance (source : Str) (updates : List (Range × Str)) : Decidable (Fits source updates) :=
  inferInstanceAs (Decidable (∀ n ≤ updates.length, _))

/-! ## Sizes and offsets -/

/-- The length of a text in bytes. -/
def bytes (text : List Char) : Nat := Library.weight Char.utf8Size text

@[simp] theorem bytes_append (before after : List Char) :
    bytes (before ++ after) = bytes before + bytes after := Library.weight_append ..

@[simp] theorem utf8ByteSize_ofList (text : List Char) :
    (String.ofList text).utf8ByteSize = bytes text := by
  rw [String.utf8ByteSize_ofList]
  induction text with
  | nil => rfl
  | cons c text ih => simp [ih, bytes, Nat.add_comm]

theorem utf8ByteSize_eq (text : String) : text.utf8ByteSize = bytes text.toList := by
  rw [← utf8ByteSize_ofList, String.ofList_toList]

theorem asIsize_of_le {n : Nat} (small : n ≤ isizeMax) : asIsize n = n := by
  have limit : n ≤ 9223372036854775807 := small
  apply Int.bmod_eq_of_le <;> omega

/-- A position that is moved to a place in a text is moved without wrapping. -/
theorem asUsize_saturatingAdd {n m : Nat} {offset : Int} (small : n ≤ isizeMax)
    (moved : offset + n = m) (small' : m ≤ isizeMax) :
    asUsize (saturatingAdd offset (asIsize n)) = m := by
  have limit : m ≤ 9223372036854775807 := small'
  have limit' : isizeMax = 9223372036854775807 := rfl
  rw [asIsize_of_le small, saturatingAdd, asUsize, moved]
  omega

section Step

variable {content new : Str} {before middle after : List Char}

theorem splitRange_eq :
    splitRange (before ++ middle ++ after) (bytes before, bytes before + bytes middle) =
      some (before, after) := by
  have first : Library.cut Char.utf8Size (bytes before) (before ++ middle ++ after) =
      some (before, middle ++ after) :=
    (Library.cut_eq_some Char.utf8Size_pos).mpr ⟨by simp, rfl⟩
  have second : Library.cut Char.utf8Size (bytes middle) (middle ++ after) =
      some (middle, after) :=
    (Library.cut_eq_some Char.utf8Size_pos).mpr ⟨rfl, rfl⟩
  simp only [splitRange, first, Option.bind_eq_bind, Option.bind_some, Nat.add_sub_cancel_left,
    second]
  rfl

/-- A range between characters is replaced unless the text grows too long. -/
theorem replaceRange_eq (text : content.1.toList = before ++ middle ++ after) :
    replaceRange content (bytes before, bytes before + bytes middle) new =
      if fits : (String.ofList (before ++ new.1.toList ++ after)).utf8ByteSize ≤ isizeMax then
        .ok ⟨.ofList (before ++ new.1.toList ++ after), fits⟩
      else .error .capacityOverflow := by
  have total : content.1.utf8ByteSize = bytes before + bytes middle + bytes after := by
    simp only [utf8ByteSize_eq, text, bytes_append]
  rw [replaceRange, if_neg (by omega), if_neg (by omega), text, splitRange_eq]

variable {done kept removed : List Char}

omit new in
theorem addToOffset_eq {m n : Nat} {new : Str} {offset : Int} (small : n ≤ isizeMax)
    (moved : -isizeMax ≤ offset + (bytes new.1.toList - n) ∧
      offset + (bytes new.1.toList - n) ≤ isizeMax) :
    addToOffset offset (m, m + n) new = .ok (offset + (bytes new.1.toList - n)) := by
  have held : bytes new.1.toList ≤ isizeMax := by
    rw [← utf8ByteSize_eq]
    exact new.2
  have replaced : checkedSub (m + n) m = .ok n := by
    rw [checkedSub, if_pos (by omega), Nat.add_sub_cancel_left]
  have change : checkedIsize (asIsize new.1.utf8ByteSize - asIsize n) =
      .ok ((bytes new.1.toList : Int) - n) := by
    rw [utf8ByteSize_eq, asIsize_of_le held, asIsize_of_le small, checkedIsize, if_pos (by omega)]
  have sum : checkedIsize (offset + ((bytes new.1.toList : Int) - n)) =
      .ok (offset + (bytes new.1.toList - n)) := by
    rw [checkedIsize, if_pos (by omega)]
  rw [addToOffset]
  dsimp only
  rw [replaced, Library.ok_bind, change, Library.ok_bind, sum]

/-- One update of a source whose characters up to `kept` were read and are `done` in the content.
The offset is what the content has grown by. -/
theorem replaceNext_eq (small : bytes (before ++ kept ++ removed ++ after) ≤ isizeMax)
    (now : content.1.toList = done ++ kept ++ removed ++ after) :
    replaceNext (content, (bytes done : Int) - bytes before)
        ((bytes (before ++ kept), bytes (before ++ kept) + bytes removed), new) =
      if fits : (String.ofList (done ++ kept ++ new.1.toList ++ after)).utf8ByteSize ≤ isizeMax then
        .ok (⟨.ofList (done ++ kept ++ new.1.toList ++ after), fits⟩,
          (bytes (done ++ kept ++ new.1.toList) : Int) - bytes (before ++ kept ++ removed))
      else .error .capacityOverflow := by
  have held : bytes (done ++ kept ++ removed ++ after) ≤ isizeMax := by
    rw [← now, ← utf8ByteSize_eq]
    exact content.2
  simp only [bytes_append] at small held
  have moved : rangeByOffset (bytes (before ++ kept), bytes (before ++ kept) + bytes removed)
      (bytes done - bytes before) =
        (bytes (done ++ kept), bytes (done ++ kept) + bytes removed) := by
    simp only [rangeByOffset, bytes_append]
    apply Prod.ext <;> apply asUsize_saturatingAdd <;> omega
  rw [replaceNext, moved, replaceRange_eq now]
  split_ifs with fits
  · have grown : bytes (done ++ kept ++ new.1.toList ++ after) ≤ isizeMax := by
      rwa [utf8ByteSize_ofList] at fits
    simp only [bytes_append] at grown
    have offset : addToOffset (bytes done - bytes before)
        (bytes (done ++ kept), bytes (done ++ kept) + bytes removed) new =
          .ok ((bytes (done ++ kept ++ new.1.toList) : Int) -
            bytes (before ++ kept ++ removed)) := by
      rw [addToOffset_eq (by omega) (by omega)]
      simp only [bytes_append]
      exact congrArg Except.ok (by omega)
    rw [Library.ok_bind, offset]
    rfl
  · rfl

end Step

/-! ## The loop over the updates -/

variable {source : List Char} {updates : List (Range × Str)}

/-- What is left of the source, with the ranges of the updates replaced at once. -/
abbrev substitutedFrom (source : List Char) (position : Nat) (updates : List (Range × Str)) :
    List Char :=
  Library.substituteFrom Char.utf8Size source position (replacements updates)

/-- The source around the range of an update: what is kept since the last one, what is removed,
and what follows. -/
theorem exists_pieces {before left : List Char} {range : Range}
    (split : source = before ++ left) (behind : bytes before ≤ range.1)
    (bounds : range.1 ≤ range.2 ∧ IsCharBoundary source range.1 ∧ IsCharBoundary source range.2) :
    ∃ kept removed after, left = kept ++ removed ++ after ∧
      range = (bytes (before ++ kept), bytes (before ++ kept) + bytes removed) := by
  obtain ⟨order, start, stop⟩ := bounds
  obtain ⟨⟨upto, since⟩, start⟩ := Option.isSome_iff_exists.mp start
  obtain ⟨⟨upto', after⟩, stop⟩ := Option.isSome_iff_exists.mp stop
  obtain ⟨cut, getEq⟩ := (Library.cut_eq_some Char.utf8Size_pos).mp start
  obtain ⟨cut', getEq'⟩ := (Library.cut_eq_some Char.utf8Size_pos).mp stop
  obtain ⟨kept, rfl, rfl⟩ := Library.exists_append_of_weight_le Char.utf8Size_pos
    (split.symm.trans cut) (by rw [getEq]; exact behind)
  obtain ⟨removed, rfl, rfl⟩ := Library.exists_append_of_weight_le Char.utf8Size_pos
    (cut.symm.trans cut') (by rw [getEq, getEq']; exact order)
  refine ⟨kept, removed, after, by simp, Prod.ext getEq.symm ?_⟩
  rw [Library.weight_append] at getEq'
  exact getEq'.symm

/-- Nothing is left to replace after the last update. -/
theorem substitutedFrom_nil {before left : List Char} (split : source = before ++ left) :
    substitutedFrom source (bytes before) [] = left := by
  have all : Library.slice Char.utf8Size (Library.weight Char.utf8Size before)
      (Library.weight Char.utf8Size before + Library.weight Char.utf8Size left)
      (before ++ left ++ []) = left := Library.slice_append_append Char.utf8Size_pos
  rw [List.append_nil, ← split] at all
  rw [← all, split]
  exact congrArg (Library.slice _ _ · _) (bytes_append ..)

theorem substitutedFrom_cons {before kept removed after : List Char} {new : Str}
    (split : source = before ++ (kept ++ removed ++ after)) :
    substitutedFrom source (bytes before)
        (((bytes (before ++ kept), bytes (before ++ kept) + bytes removed), new) :: updates) =
      kept ++ new.1.toList ++
        substitutedFrom source (bytes (before ++ kept ++ removed)) updates := by
  have between : Library.slice Char.utf8Size (Library.weight Char.utf8Size before)
      (Library.weight Char.utf8Size before + Library.weight Char.utf8Size kept)
      (before ++ kept ++ (removed ++ after)) = kept :=
    Library.slice_append_append Char.utf8Size_pos
  rw [List.append_assoc, ← List.append_assoc kept, ← split] at between
  have position : bytes (before ++ kept) + bytes removed = bytes (before ++ kept ++ removed) := by
    simp only [bytes_append]
  rw [position, bytes_append before kept]
  exact congrArg (· ++ _ ++ _) between

/-- After the updates that were made, the rest of them replaces all ranges behind at once. -/
theorem foldlM_replaceNext {before left done : List Char} {content : Str}
    (small : bytes source ≤ isizeMax) (split : source = before ++ left)
    (now : content.1.toList = done ++ left)
    (bounds : ∀ update ∈ updates, update.1.1 ≤ update.1.2 ∧
      IsCharBoundary source update.1.1 ∧ IsCharBoundary source update.1.2)
    (pairwise : updates.Pairwise fun update later => update.1.2 ≤ later.1.1)
    (behind : ∀ update ∈ updates, bytes before ≤ update.1.1) :
    (updates.foldlM replaceNext (content, (bytes done : Int) - bytes before)).map (·.1.1) =
      if ∀ n ≤ updates.length,
          bytes (done ++ substitutedFrom source (bytes before) (updates.take n)) ≤ isizeMax then
        .ok (.ofList (done ++ substitutedFrom source (bytes before) updates))
      else .error .capacityOverflow := by
  induction updates generalizing before left done content with
  | nil =>
    have all := substitutedFrom_nil split
    have held : bytes (done ++ left) ≤ isizeMax := by
      rw [← now, ← utf8ByteSize_eq]
      exact content.2
    rw [if_pos (by simpa [all] using held), all, ← now, String.ofList_toList]
    rfl
  | cons update updates ih =>
    obtain ⟨range, new⟩ := update
    obtain ⟨order, later⟩ := List.pairwise_cons.mp pairwise
    obtain ⟨kept, removed, after, rfl, rfl⟩ :=
      exists_pieces split (behind _ (.head _)) (bounds _ (.head _))
    have split' : source = before ++ kept ++ removed ++ after := by simp [split]
    have next : ∀ updates, done ++ substitutedFrom source (bytes before)
        (((bytes (before ++ kept), bytes (before ++ kept) + bytes removed), new) :: updates) =
          done ++ kept ++ new.1.toList ++
            substitutedFrom source (bytes (before ++ kept ++ removed)) updates := by
      intro updates
      rw [substitutedFrom_cons split]
      simp
    have small' : bytes (before ++ kept ++ removed ++ after) ≤ isizeMax := by rwa [← split']
    have now' : content.1.toList = done ++ kept ++ removed ++ after := by simpa using now
    rw [List.foldlM_cons, replaceNext_eq small' now']
    by_cases fits : (String.ofList (done ++ kept ++ new.1.toList ++ after)).utf8ByteSize ≤ isizeMax
    · have bounds' : ∀ update ∈ updates, update.1.1 ≤ update.1.2 ∧
          IsCharBoundary source update.1.1 ∧ IsCharBoundary source update.1.2 :=
        fun update mem => bounds update (.tail _ mem)
      have behind' : ∀ update ∈ updates, bytes (before ++ kept ++ removed) ≤ update.1.1 := by
        simpa [Nat.add_assoc] using order
      rw [dif_pos fits, Library.ok_bind, ih split' (by simp) bounds' later behind', next]
      refine if_congr ⟨fun all n le => ?_, fun all n le => ?_⟩ rfl rfl
      · cases n with
        | zero =>
          rw [List.take_zero, substitutedFrom_nil split, ← now, ← utf8ByteSize_eq]
          exact content.2
        | succ n =>
          rw [List.take_succ_cons, next]
          exact all n (by simpa using le)
      · rw [← next, ← List.take_succ_cons]
        exact all (n + 1) (by simpa using le)
    · rw [dif_neg fits, if_neg]
      · rfl
      · intro all
        have one := all 1 (by simp)
        rw [List.take_succ_cons, next, List.take_zero, substitutedFrom_nil split'] at one
        rw [utf8ByteSize_ofList] at fits
        exact fits one

section Whole

variable {source : Str} {updates : List (Range × Str)}

/-- The loop from the start of the source. -/
theorem map_replaceSourceContent (ordered : Ordered source updates) :
    (replaceSourceContent source updates).map (·.1) =
      if ∀ n ≤ updates.length,
          bytes ([] ++ substitutedFrom source.1.toList (bytes []) (updates.take n)) ≤ isizeMax then
        .ok (.ofList ([] ++ substitutedFrom source.1.toList (bytes []) updates))
      else .error .capacityOverflow := by
  have small : bytes source.1.toList ≤ isizeMax := by
    rw [← utf8ByteSize_eq]
    exact source.2
  have start : source.1.toList = [] ++ source.1.toList := rfl
  refine Eq.trans ?_ (foldlM_replaceNext small start start ordered.range ordered.pairwise
    fun _ _ => Nat.zero_le _)
  rw [Int.sub_self, replaceSourceContent]
  cases updates.foldlM replaceNext (source, 0) <;> rfl

theorem fits_iff : Fits source updates ↔ ∀ n ≤ updates.length,
    bytes ([] ++ substitutedFrom source.1.toList (bytes []) (updates.take n)) ≤ isizeMax := by
  simp only [Fits, substituted, utf8ByteSize_ofList]
  rfl

theorem replaceSourceContent_of_not_fits (ordered : Ordered source updates)
    (long : ¬ Fits source updates) :
    replaceSourceContent source updates = .error .capacityOverflow := by
  have run := map_replaceSourceContent ordered
  rw [if_neg (fits_iff.not.mp long)] at run
  cases eq : replaceSourceContent source updates with
  | ok content =>
    rw [eq] at run
    cases run
  | error panic =>
    rw [eq] at run
    exact congrArg _ (Except.error.inj run)

/-- Sorted ranges that do not overlap are all replaced at once. Nothing goes wrong but that the
content after one of the updates may be too long to be held. -/
theorem replaceSourceContent_eq (ordered : Ordered source updates) :
    (replaceSourceContent source updates).map (·.1) =
      if Fits source updates then .ok (substituted source updates)
      else .error .capacityOverflow := by
  split_ifs with fits
  · rw [map_replaceSourceContent ordered, if_pos (fits_iff.mp fits)]
    rfl
  · rw [replaceSourceContent_of_not_fits ordered fits]
    rfl

end Whole

/-- A contract is renamed and made abstract. -/
theorem replaceSourceContent_eq_rename :
    (replaceSourceContent ⟨"contract A {}", by decide⟩
        [((0, 0), ⟨"abstract ", by decide⟩), ((9, 10), ⟨"Alpha", by decide⟩)]).map (·.1) =
      if Fits ⟨"contract A {}", by decide⟩
          [((0, 0), ⟨"abstract ", by decide⟩), ((9, 10), ⟨"Alpha", by decide⟩)] then
        .ok (substituted ⟨"contract A {}", by decide⟩
          [((0, 0), ⟨"abstract ", by decide⟩), ((9, 10), ⟨"Alpha", by decide⟩)])
      else .error .capacityOverflow :=
  replaceSourceContent_eq ⟨by decide +kernel, by decide +kernel⟩

example : (replaceSourceContent ⟨"contract A {}", by decide⟩
    [((0, 0), ⟨"abstract ", by decide⟩), ((9, 10), ⟨"Alpha", by decide⟩)]).map (·.1) =
      .ok "abstract contract Alpha {}" := by decide +kernel

end FoundryCore
