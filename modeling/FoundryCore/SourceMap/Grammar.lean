import FoundryCore.SourceMap.Finish
import FoundryCore.SourceMap.Text

/-!
# The grammar of source maps

What the parser accepts, and what it makes of it, in terms of the text. The parser takes a jump
in any field of an element, and a file index is kept in an `i32` in which `-1` stands for no
file: the first makes it accept more than the grammar, the second confuses `-1` with the largest
file index.
-/

namespace FoundryCore.SourceMap

open SourceElementBuilder

/-! ## The last value of a sequence -/

section Last

variable {α β γ : Type*}

/-- The last value that some of the things have. -/
def last (f : α → Option β) (xs : List α) : Option β := (xs.filterMap f).getLast?

@[simp] theorem last_nil (f : α → Option β) : last f [] = none := rfl

theorem last_cons (f : α → Option β) (x : α) (xs : List α) :
    last f (x :: xs) = (last f xs).or (f x) := by
  rw [last, last, List.filterMap_cons]
  cases f x with
  | none => simp
  | some y =>
    rw [List.getLast?_cons]
    cases (xs.filterMap f).getLast? <;> rfl

/-- A value of the last thing is the last. -/
theorem last_take_succ {f : α → Option β} {xs : List α} {i : Nat} {x : α} (getEq : xs[i]? = some x)
    {y : β} (eq : f x = some y) : last f (xs.take (i + 1)) = some y := by
  rw [last, List.take_add_one, getEq, Option.toList_some, List.filterMap_append,
    List.filterMap_cons, eq]
  simp

theorem last_map (g : γ → α) (f : α → Option β) (xs : List γ) :
    last f (xs.map g) = last (fun x => f (g x)) xs := by
  rw [last, List.filterMap_map]
  rfl

/-- The last value, translated. -/
theorem last_eq_map {f : α → Option β} {h : α → Option γ} {g : γ → β} {xs : List α}
    (eq : ∀ x ∈ xs, f x = (h x).map g) : last f xs = (last h xs).map g := by
  induction xs with
  | nil => rfl
  | cons x xs ih =>
    rw [last_cons, last_cons, ih fun y mem => eq y (.tail _ mem), eq x (.head _)]
    cases last h xs <;> rfl

end Last

/-! ## What the parser reads -/

/-- What a field reads as, if it is read. -/
def readingOf (text : List Char) : Reading where
  number := (numberTokens ((tokens text).getD [])).head?.bind fun num =>
    (parseNumber num 0).toOption
  jump := (jumpTokens ((tokens text).getD [])).head?

/-- The readings of the fields of a part. -/
def readingsOf (part : List Char) (state : State) : Reading :=
  readingOf (fieldOf (part.splitOn ':') state)

/-- The builder of a part. -/
def built (part : List Char) : SourceElementBuilder := builderOf (readingsOf part)

/-- A part that the parser takes: at most five fields, in each at most one number from -1 to
`u32::MAX`, none where the jump belongs and one of at most 30 bits for the modifier depth, and in
the whole part at most one jump, wherever it stands. -/
structure Loose (part : List Char) : Prop where
  reading : PartReading (part.splitOn ':') (readingsOf part)
  depth : ∀ n, (built part).modifierDepth = some n → n < 2 ^ 30

theorem readingOf_eq {state : State} {text : List Char} {r : Reading}
    (reading : FieldReading state text r) : r = readingOf text := by
  obtain ⟨ts, lexed, is⟩ := reading
  obtain ⟨number, jump⟩ := r
  have numbers := is.number
  have jumps := is.jump
  rw [readingOf, lexed, Option.getD_some, jumps, Option.head?_toList]
  congr 1
  cases number with
  | none =>
    have none : numberTokens ts = [] := by simpa using numbers
    simp [none]
  | some n =>
    cases held : numberTokens ts with
    | nil => simp [held] at numbers
    | cons num rest =>
      rw [held] at numbers
      exact (List.cons.inj numbers).1.symm

theorem readPart_eq_some_iff {part : List Char} (noSemicolon : ';' ∉ part)
    {b : SourceElementBuilder} :
    readPart part = some b ↔
      PartReading (part.splitOn ':') (readingsOf part) ∧ b = builderOf (readingsOf part) := by
  rw [readPart_eq_some noSemicolon]
  constructor
  · rintro ⟨r, reading, rfl⟩
    obtain rfl : r = readingsOf part := funext fun state => readingOf_eq (reading.reading state)
    exact ⟨reading, rfl⟩
  · rintro ⟨reading, rfl⟩
    exact ⟨_, reading, rfl⟩

/-! ## Elements and their parts -/

namespace SourceElementBuilder

/-- The fields of a builder where they are set, and else those of the builder before. -/
def merged (bs : List SourceElementBuilder) : SourceElementBuilder where
  offset := last (·.offset) bs
  length := last (·.length) bs
  index := last (·.index) bs
  jump := last (·.jump) bs
  modifierDepth := last (·.modifierDepth) bs

theorem merged_singleton (b : SourceElementBuilder) : merged [b] = b := by
  simp [merged, last_cons]

/-- Finishing one builder after the other is finishing what they merge to. -/
theorem finishes_merged_cons {b : SourceElementBuilder} {bs : List SourceElementBuilder}
    {prev e e' : SourceElement} (first : b.Finishes prev e) :
    (merged (b :: bs)).Finishes prev e' ↔ (merged bs).Finishes e e' := by
  have offset : ((merged (b :: bs)).offset.map (BitVec.ofNat 32)).getD prev.offset =
      ((merged bs).offset.map (BitVec.ofNat 32)).getD e.offset := by
    rw [first.offset]
    simp only [merged, last_cons]
    cases last (·.offset) bs <;> rfl
  have length : ((merged (b :: bs)).length.map (BitVec.ofNat 32)).getD prev.length =
      ((merged bs).length.map (BitVec.ofNat 32)).getD e.length := by
    rw [first.length]
    simp only [merged, last_cons]
    cases last (·.length) bs <;> rfl
  have index : ((merged (b :: bs)).index.map (·.getD (-1))).getD prev.index =
      ((merged bs).index.map (·.getD (-1))).getD e.index := by
    rw [first.index]
    simp only [merged, last_cons]
    cases last (·.index) bs <;> rfl
  have jump : (merged (b :: bs)).jump.getD prev.jump = (merged bs).jump.getD e.jump := by
    rw [first.jump]
    simp only [merged, last_cons]
    cases last (·.jump) bs <;> rfl
  have depth : ((merged (b :: bs)).modifierDepth.map (BitVec.ofNat 32)).getD prev.modifierDepth =
      ((merged bs).modifierDepth.map (BitVec.ofNat 32)).getD e.modifierDepth := by
    rw [first.modifierDepth]
    simp only [merged, last_cons]
    cases last (·.modifierDepth) bs <;> rfl
  constructor
  · intro f
    exact ⟨f.offset.trans offset, f.length.trans length, f.index.trans index, f.jump.trans jump,
      f.modifierDepth.trans depth⟩
  · intro f
    exact ⟨f.offset.trans offset.symm, f.length.trans length.symm, f.index.trans index.symm,
      f.jump.trans jump.symm, f.modifierDepth.trans depth.symm⟩

end SourceElementBuilder

/-- What some parts merge to. -/
theorem merged_built (ps : List (List Char)) : merged (ps.map built) =
    { offset := last (fun part => (readingsOf part .offset).number.map orZero) ps
      length := last (fun part => (readingsOf part .length).number.map orZero) ps
      index := last (fun part => (readingsOf part .index).number) ps
      jump := last (fun part => (jumpsOf (readingsOf part)).head?) ps
      modifierDepth := last (fun part => (readingsOf part .modifier).number.map orZero) ps } := by
  simp only [merged, last_map]
  rfl

theorem orZero_lt (n : Option (BitVec 32)) : orZero n < 2 ^ 32 := (n.getD 0).isLt

theorem fits_built (part : List Char) : (built part).Fits where
  offset n eq := by
    obtain ⟨_, -, rfl⟩ := Option.map_eq_some_iff.mp eq
    exact orZero_lt _
  length n eq := by
    obtain ⟨_, -, rfl⟩ := Option.map_eq_some_iff.mp eq
    exact orZero_lt _

/-- A part that is read and finished. -/
theorem finish_readPart {part : List Char} (noSemicolon : ';' ∉ part)
    {prev : Option SourceElement} {e : SourceElement} :
    (∃ b, readPart part = some b ∧ b.finish prev = .ok e) ↔
      Loose part ∧ (built part).Finishes (prev.getD .new) e := by
  simp only [readPart_eq_some_iff noSemicolon]
  constructor
  · rintro ⟨_, ⟨reading, rfl⟩, finished⟩
    obtain ⟨depth, finishes⟩ := (finish_eq_ok (fits_built part)).mp finished
    exact ⟨⟨reading, depth⟩, finishes⟩
  · rintro ⟨⟨reading, depth⟩, finishes⟩
    exact ⟨_, ⟨reading, rfl⟩, (finish_eq_ok (fits_built part)).mpr ⟨depth, finishes⟩⟩

/-- The parser succeeds exactly on parts it takes, and then each element is what the parts so far
merge to. -/
theorem elements_eq_some {ps : List (List Char)} (noSemicolon : ∀ part ∈ ps, ';' ∉ part)
    {prev : Option SourceElement} {es : List SourceElement} :
    elements prev ps = some es ↔ (∀ part ∈ ps, Loose part) ∧ es.length = ps.length ∧
      ∀ i e, es[i]? = some e →
        (merged ((ps.take (i + 1)).map built)).Finishes (prev.getD .new) e := by
  induction ps generalizing prev es with
  | nil =>
    constructor
    · rintro ⟨⟩
      simp
    · rintro ⟨-, length, -⟩
      rw [List.length_eq_zero_iff.mp length, elements]
  | cons part ps ih =>
    have head := noSemicolon part (.head _)
    have tail : ∀ p ∈ ps, ';' ∉ p := fun p mem => noSemicolon p (.tail _ mem)
    constructor
    · intro eq
      obtain ⟨b, read, eq⟩ := Option.bind_eq_some_iff.mp eq
      obtain ⟨e, finished, eq⟩ := Option.bind_eq_some_iff.mp eq
      obtain ⟨es, rest, rfl⟩ := Option.map_eq_some_iff.mp eq
      obtain ⟨loose, finishes⟩ :=
        (finish_readPart head).mp ⟨b, read, toOption_eq_some.mp finished⟩
      obtain ⟨looses, length, each⟩ := (ih tail).mp rest
      refine ⟨List.forall_mem_cons.mpr ⟨loose, looses⟩, by simp [length], fun i e' getEq => ?_⟩
      cases i with
      | zero =>
        obtain rfl : e = e' := Option.some.inj getEq
        simpa [merged_singleton] using finishes
      | succ i => exact (finishes_merged_cons finishes).mpr (each i e' getEq)
    · rintro ⟨looses, length, each⟩
      obtain ⟨loose, looses⟩ := List.forall_mem_cons.mp looses
      obtain ⟨e, es, rfl⟩ := List.exists_cons_of_length_eq_add_one length
      have finishes : (built part).Finishes (prev.getD .new) e := by
        simpa [merged_singleton] using each 0 e rfl
      obtain ⟨b, read, finished⟩ := (finish_readPart head).mpr ⟨loose, finishes⟩
      refine Option.bind_eq_some_iff.mpr ⟨b, read, Option.bind_eq_some_iff.mpr ⟨e,
        toOption_eq_some.mpr finished, Option.map_eq_some_iff.mpr ⟨es, ?_, rfl⟩⟩⟩
      refine (ih tail).mpr ⟨looses, by simpa using length, fun i e' getEq => ?_⟩
      exact (finishes_merged_cons finishes).mp (each (i + 1) e' getEq)

theorem exists_elements {ps : List (List Char)} (noSemicolon : ∀ part ∈ ps, ';' ∉ part)
    (looses : ∀ part ∈ ps, Loose part) (prev : Option SourceElement) :
    ∃ es, elements prev ps = some es := by
  induction ps generalizing prev with
  | nil => exact ⟨[], rfl⟩
  | cons part ps ih =>
    obtain ⟨loose, looses⟩ := List.forall_mem_cons.mp looses
    obtain ⟨head, tail⟩ := List.forall_mem_cons.mp noSemicolon
    obtain ⟨e, finished⟩ := exists_finish (fits_built part) prev loose.depth
    obtain ⟨es, rest⟩ := ih tail looses (some e)
    have read := (readPart_eq_some_iff head).mpr ⟨loose.reading, rfl⟩
    exact ⟨e :: es, Option.bind_eq_some_iff.mpr ⟨_, read, Option.bind_eq_some_iff.mpr ⟨e,
      toOption_eq_some.mpr finished, Option.map_eq_some_iff.mpr ⟨es, rest, rfl⟩⟩⟩⟩

theorem semicolon_notMem_parts {input : String} : ∀ part ∈ parts input, ';' ∉ part := by
  intro part mem
  rw [parts] at mem
  split_ifs at mem
  · cases mem
  · exact Library.notMem_of_mem_splitOn mem

/-- The parser succeeds exactly on inputs all of whose parts it takes. -/
theorem parse_ok_iff {input : String} :
    (∃ es, parse input = .ok es) ↔ ∀ part ∈ parts input, Loose part := by
  simp only [← toOption_eq_some, parse_toOption]
  constructor
  · rintro ⟨es, eq⟩
    exact ((elements_eq_some semicolon_notMem_parts).mp eq).1
  · intro looses
    exact exists_elements semicolon_notMem_parts looses none

/-- What the parser makes of an input. -/
theorem finishes_of_parse {input : String} {es : List SourceElement} (eq : parse input = .ok es) :
    es.length = (parts input).length ∧ ∀ i e, es[i]? = some e →
      (merged (((parts input).take (i + 1)).map built)).Finishes .new e := by
  rw [← toOption_eq_some, parse_toOption] at eq
  exact ((elements_eq_some semicolon_notMem_parts).mp eq).2

end FoundryCore.SourceMap
