import FoundryCore.Diagnostics.Display
import FoundryCore.Library.Unordered

/-!
# Carets before a frame

A diagnostic is displayed, with every framed line as it is, if and only if in each of its source
locations the carets stand behind the bar of the line above, as far as that line is highlighted at
all.
-/

namespace FoundryCore.Diagnostics

variable {enabled : Bool} {unicode : Unicode} {line number rest : Line}
  {chunks chunks' : List Chunk}
  {highlight : Option ((Nat × Nat) × Style)} {start stop n : Nat} {before after : Line}

/-! ## Text that is written -/

@[simp] theorem plain_nil : plain [] = [] := rfl

@[simp] theorem plain_append : plain (chunks ++ chunks') = plain chunks ++ plain chunks' := by
  simp [plain]

@[simp] theorem plain_text (text : Line) :
    plain (.text text :: chunks) = text ++ plain chunks := rfl

@[simp] theorem plain_styled (style : Style) :
    plain (styled enabled style chunks) = plain chunks := by
  unfold styled
  split_ifs <;> simp [plain]

theorem len_append (line line' : Line) : len (line ++ line') = len line + len line' :=
  Library.weight_append ..

theorem len_replicate : len (List.replicate n '^') = n := by
  induction n with
  | zero => rfl
  | succ n ih =>
    have one : Char.utf8Size '^' = 1 := by decide
    simp only [len, List.replicate_succ, Library.weight_cons, one] at ih ⊢
    omega

/-- The line has a frame: a bar after only whitespace and numbers. -/
structure Framed (unicode : Unicode) (line number rest : Line) : Prop where
  split : line = number ++ '|' :: rest
  number : ∀ c ∈ number, (isWhitespace c || unicode.isNumeric c) = true

theorem Framed.notMem (framed : Framed unicode line number rest) {c : Char} (small : c.val < 128)
    (other : (isWhitespace c || c.isDigit) = false) : c ∉ number := by
  intro mem
  have := framed.number c mem
  rw [unicode.ascii c small, other] at this
  cases this

theorem Framed.splitOnce (framed : Framed unicode line number rest) :
    Library.splitOnce '|' line = some (number, rest) :=
  Library.splitOnce_eq_some.mpr ⟨framed.split, framed.notMem (by decide) (by decide)⟩

theorem Framed.len (framed : Framed unicode line number rest) :
    len line = len number + 1 + len rest := by
  rw [framed.split, len_append]
  have one : Char.utf8Size '|' = 1 := by decide
  simp only [Diagnostics.len, Library.weight_cons, one]
  omega

/-- The three parts of a line behind its frame. -/
theorem plain_parts (framed : Framed unicode line number rest) {code marked after : Line}
    (first : str line (Diagnostics.len line - Diagnostics.len rest) start = some code)
    (second : str line start stop = some marked)
    (third : str line stop (Diagnostics.len line) = some after) :
    code ++ marked ++ after = rest := by
  have all := Library.part_append Char.utf8Size_pos
    (Library.part_append Char.utf8Size_pos first second) third
  have split : line = (number ++ ['|']) ++ rest := by simp [framed.split]
  have getEq : Diagnostics.len line - Diagnostics.len rest = Diagnostics.len (number ++ ['|']) := by
    rw [split, len_append]
    omega
  have whole : Library.part Char.utf8Size (Diagnostics.len line - Diagnostics.len rest)
      (Diagnostics.len line) line = some rest := by
    rw [getEq, split]
    exact Library.part_weight Char.utf8Size_pos
  exact Option.some.inj (all.symm.trans whole)

/-- What stands behind the frame of a line, with a part of it highlighted. -/
def fmtRest (enabled : Bool) (line rest : Line) : Option ((Nat × Nat) × Style) → Option (List Chunk)
  | none => some [.text rest]
  | some ((start, stop), style) =>
    if !isCharBoundary line start || !isCharBoundary line stop then some [.text rest]
    else do
      let code ← str line (len line - len rest) start
      let marked ← str line start stop
      let after ← str line stop (len line)
      return [Chunk.text code] ++ styled enabled style [Chunk.text marked] ++ [Chunk.text after]

theorem Framed.fmt_eq (framed : Framed unicode line number rest) :
    fmtFramedLocation enabled unicode line highlight = (fmtRest enabled line rest highlight).map
      ([.text ['\n']] ++ styled enabled frameStyle [.text number, .text ['|']] ++ ·) := by
  have all : number.all (fun c => isWhitespace c || unicode.isNumeric c) = true :=
    List.all_eq_true.mpr framed.number
  simp only [fmtFramedLocation, framed.splitOnce, all, Bool.not_true, Bool.false_eq_true, if_false]
  cases highlight with
  | none => rfl
  | some range =>
    obtain ⟨⟨start, stop⟩, style⟩ := range
    simp only [fmtRest]
    split_ifs
    · rfl
    · simp [Option.map_bind]

theorem fmt_of_not_framed (noneEq : ∀ number rest, ¬Framed unicode line number rest) :
    fmtFramedLocation enabled unicode line highlight = some [.text ['\n'], .text line] := by
  unfold fmtFramedLocation
  cases split : Library.splitOnce '|' line with
  | none => rfl
  | some parts =>
    obtain ⟨number, rest⟩ := parts
    have other : number.all (fun c => isWhitespace c || unicode.isNumeric c) = false := by
      by_contra all
      rw [Bool.not_eq_false] at all
      exact noneEq number rest ⟨(Library.splitOnce_eq_some.mp split).1, List.all_eq_true.mp all⟩
    simp [other]

theorem plain_fmtRest (framed : Framed unicode line number rest)
    (written : fmtRest enabled line rest highlight = some chunks) : plain chunks = rest := by
  cases highlight with
  | none =>
    obtain rfl := Option.some.inj written
    simp
  | some range =>
    obtain ⟨⟨start, stop⟩, style⟩ := range
    rw [fmtRest] at written
    split_ifs at written
    · obtain rfl := Option.some.inj written
      simp
    · obtain ⟨code, first, written⟩ := Option.bind_eq_some_iff.mp written
      obtain ⟨marked, second, written⟩ := Option.bind_eq_some_iff.mp written
      obtain ⟨after, third, written⟩ := Option.bind_eq_some_iff.mp written
      obtain rfl := Option.some.inj written
      simpa using plain_parts framed first second third

/-- A line is written as it is. -/
theorem plain_fmtFramedLocation
    (written : fmtFramedLocation enabled unicode line highlight = some chunks) :
    plain chunks = '\n' :: line := by
  by_cases noneEq : ∀ number rest, ¬Framed unicode line number rest
  · rw [fmt_of_not_framed noneEq] at written
    obtain rfl := Option.some.inj written
    simp
  · push Not at noneEq
    obtain ⟨number, rest, framed⟩ := noneEq
    rw [framed.fmt_eq] at written
    obtain ⟨chunks, behind, rfl⟩ := Option.map_eq_some_iff.mp written
    simp [plain_fmtRest framed behind, framed.split]

/-! ## Where writing a line panics -/

theorem isCharBoundary_iff : isCharBoundary line start = true ↔
    ∃ before after, line = before ++ after ∧ len before = start :=
  Library.cut_isSome_iff Char.utf8Size_pos

theorem str_isSome_iff : (str line start stop).isSome ↔
    start ≤ stop ∧ isCharBoundary line start = true ∧ isCharBoundary line stop = true :=
  Library.part_isSome_iff Char.utf8Size_pos

theorem isCharBoundary_len : isCharBoundary line (len line) = true :=
  isCharBoundary_iff.mpr ⟨line, [], by simp, rfl⟩

theorem le_len_of_isCharBoundary (cut : isCharBoundary line start = true) : start ≤ len line := by
  obtain ⟨before, after, rfl, rfl⟩ := isCharBoundary_iff.mp cut
  rw [len_append]
  omega

theorem Framed.restStart (framed : Framed unicode line number rest) :
    Diagnostics.len line - Diagnostics.len rest = Diagnostics.len number + 1 ∧
      isCharBoundary line (Diagnostics.len number + 1) = true := by
  have total := framed.len
  refine ⟨by omega, isCharBoundary_iff.mpr ⟨number ++ ['|'], rest, by simp [framed.split], ?_⟩⟩
  rw [len_append]
  rfl

/-- What is highlighted is to begin behind the frame, if it can be highlighted. -/
theorem fmtRest_isSome_iff (framed : Framed unicode line number rest) {style : Style} :
    (fmtRest enabled line rest (some ((start, stop), style))).isSome ↔
      (isCharBoundary line start = true → isCharBoundary line stop = true →
        len number + 1 ≤ start ∧ start ≤ stop) := by
  by_cases cut : isCharBoundary line start = true ∧ isCharBoundary line stop = true
  · have parts : (fmtRest enabled line rest (some ((start, stop), style))).isSome ↔
        (str line (len line - len rest) start).isSome ∧ (str line start stop).isSome ∧
          (str line stop (len line)).isSome := by
      simp only [fmtRest, cut, Bool.not_true, Bool.or_self, Bool.false_eq_true, if_false]
      cases str line (len line - len rest) start <;> cases str line start stop <;>
        cases str line stop (len line) <;> simp
    have bar := framed.restStart
    have := le_len_of_isCharBoundary cut.2
    rw [parts, str_isSome_iff, str_isSome_iff, str_isSome_iff, bar.1]
    simp only [bar.2, cut, isCharBoundary_len]
    grind
  · have skipped : (!isCharBoundary line start || !isCharBoundary line stop) = true := by grind
    simp only [fmtRest, skipped, if_true, Option.isSome_some, true_iff]
    grind

theorem fmtFramedLocation_none_isSome : (fmtFramedLocation enabled unicode line none).isSome := by
  by_cases noneEq : ∀ number rest, ¬Framed unicode line number rest
  · rw [fmt_of_not_framed noneEq]
    rfl
  · push Not at noneEq
    obtain ⟨number, rest, framed⟩ := noneEq
    rw [framed.fmt_eq]
    rfl

theorem Framed.unique {number' rest' : Line} (framed : Framed unicode line number rest)
    (framed' : Framed unicode line number' rest') : number = number' ∧ rest = rest' := by
  have := framed.splitOnce.symm.trans framed'.splitOnce
  simpa using this

/-- Writing a line panics only where what is highlighted begins before the end of its frame. -/
theorem fmtFramedLocation_isSome_iff {style : Style} :
    (fmtFramedLocation enabled unicode line (some ((start, stop), style))).isSome ↔
      ∀ number rest, Framed unicode line number rest → isCharBoundary line start = true →
        isCharBoundary line stop = true → len number + 1 ≤ start ∧ start ≤ stop := by
  by_cases noneEq : ∀ number rest, ¬Framed unicode line number rest
  · rw [fmt_of_not_framed noneEq]
    simp [noneEq]
  · push Not at noneEq
    obtain ⟨number, rest, framed⟩ := noneEq
    rw [framed.fmt_eq, Option.isSome_map, fmtRest_isSome_iff framed]
    constructor
    · intro fits number' rest' framed'
      rwa [← (framed.unique framed').1]
    · exact fun fits => fits number rest framed

/-! ## Carets -/

theorem findChar_append {p : Char → Bool} {c : Char} (first : ∀ d ∈ before, p d = false)
    (here : p c = true) : findChar p (before ++ c :: after) = some (len before) := by
  have taken : (before ++ c :: after).takeWhile (fun d => !p d) = before := by
    rw [List.takeWhile_append_of_pos (by simpa using first)]
    simp [here]
  rw [findChar, taken, if_pos (by simp [here])]

/-- The first carets of a line. -/
structure Carets (line before after : Line) (n : Nat) : Prop where
  split : line = before ++ (List.replicate (n + 1) '^' ++ after)
  first : '^' ∉ before
  last : after.head? ≠ some '^'

theorem exists_carets (someEq : '^' ∈ line) : ∃ before after n, Carets line before after n := by
  obtain ⟨before, behind, split, first⟩ := List.eq_append_cons_of_mem someEq
  have all : behind.takeWhile (· == '^') =
      List.replicate (behind.takeWhile (· == '^')).length '^' :=
    List.eq_replicate_iff.mpr ⟨rfl, fun c mem => by simpa using List.mem_takeWhile_imp mem⟩
  refine ⟨before, behind.dropWhile (· == '^'), (behind.takeWhile (· == '^')).length, ?_, first, ?_⟩
  · rw [List.replicate_succ, ← all, List.cons_append, List.takeWhile_append_dropWhile, split]
  · intro head
    have := List.head?_dropWhile_not (· == '^') behind
    simp [head] at this

namespace Carets

variable {line2 line3 : Line}

theorem notMem_before (carets : Carets line3 before after n) :
    ∀ c ∈ before, (c == '^') = false := by
  rintro c mem
  have other : c ≠ '^' := fun eq => carets.first (eq ▸ mem)
  simpa using other

theorem findChar_eq (carets : Carets line3 before after n) :
    findChar (· == '^') line3 = some (len before) := by
  rw [carets.split, List.replicate_succ, List.cons_append]
  exact findChar_append carets.notMem_before rfl

theorem dropWhile_eq (carets : Carets line3 before after n) :
    line3.dropWhile (· != '^') = List.replicate (n + 1) '^' ++ after := by
  rw [carets.split, List.dropWhile_append_of_pos, List.replicate_succ, List.cons_append]
  · rfl
  · intro c mem
    simpa using carets.notMem_before c mem

theorem findChar_behind (carets : Carets line3 before after n) :
    findChar (· != '^') (line3.dropWhile (· != '^')) =
      if after = [] then none else some (n + 1) := by
  rw [carets.dropWhile_eq]
  cases after with
  | nil => simp [findChar]
  | cons c after =>
    have other : (c != '^') = true := by simpa using carets.last
    rw [findChar_append (p := fun d => d != '^') (by simp) other, len_replicate]
    rfl

theorem len_eq (carets : Carets line3 before after n) :
    len line3 = len before + (n + 1) + len after := by
  rw [carets.split, len_append, len_append, len_replicate]
  omega

theorem same {before' after' : Line} {n' : Nat} (carets : Carets line3 before after n)
    (carets' : Carets line3 before' after' n') : len before = len before' ∧ n = n' := by
  have start : len before = len before' :=
    Option.some.inj (carets.findChar_eq.symm.trans carets'.findChar_eq)
  have stop := carets.findChar_behind.symm.trans carets'.findChar_behind
  have total := carets.len_eq.symm.trans carets'.len_eq
  refine ⟨start, ?_⟩
  split_ifs at stop with noneEq noneEq'
  · subst noneEq noneEq'
    omega
  · simpa using stop

/-- The code that carets point to begins with them and ends with them or with the line. -/
theorem highlightOf_eq (carets : Carets line3 before after n) (line2 : Line) :
    highlightOf line2 line3 = some (min (len before) (len line2),
      if "^ (".toList <:+: line3 then len line2 else min (len before + (n + 1)) (len line2)) := by
  rw [highlightOf, carets.findChar_eq, carets.findChar_behind, Option.map_some]
  split_ifs with spans noneEq
  · simp
  · obtain rfl := noneEq
    have := carets.len_eq
    simp only [len, Library.weight_nil] at this ⊢
    grind
  · grind

end Carets

/-! ## Source locations -/

namespace Location

variable {location : Location}

/-- The first caret stands behind the bar of the line above, if that line can be cut at it, and also
where the highlighted code ends. -/
def CaretsBehindFrame (unicode : Unicode) (location : Location) : Prop :=
  ∀ number rest before after n, Framed unicode location.line2 number rest →
    Carets location.line3 before after n → isCharBoundary location.line2 (len before) = true →
    ("^ (".toList <:+: location.line3 ∨ len location.line2 ≤ len before + (n + 1) ∨
      isCharBoundary location.line2 (len before + (n + 1)) = true) →
    len number < len before

/-- All three lines of the location are written. -/
def Written (enabled : Bool) (unicode : Unicode) (location : Location) : Prop :=
  ∀ call ∈ location.calls, (fmtFramedLocation enabled unicode call.1 call.2).isSome

/-- A caret stands behind the bar of its own line. -/
theorem behind_frame {line3 : Line} (framed : Framed unicode line3 number rest)
    (carets : Carets line3 before after n) : len number + 1 ≤ len before := by
  have same : number ++ '|' :: rest = before ++ (List.replicate (n + 1) '^' ++ after) :=
    framed.split.symm.trans carets.split
  rcases List.append_eq_append_iff.mp same with ⟨between, rfl, split⟩ | ⟨between, rfl, split⟩
  · cases between with
    | nil => simp [List.replicate_succ] at split
    | cons c between =>
      obtain ⟨rfl, -⟩ := List.cons.inj split
      rw [len_append]
      have : len ('|' :: between) = 1 + len between := rfl
      omega
  · cases between with
    | nil => simp [List.replicate_succ] at split
    | cons c between =>
      obtain ⟨rfl, -⟩ := List.cons.inj split
      exact absurd (by simp) (framed.notMem (c := '^') (by decide) (by decide))

theorem mem_of_findChar {c : Char} {i : Nat} (found : findChar (· == c) line = some i) :
    c ∈ line := by
  unfold findChar at found
  split_ifs at found with any
  simpa using any

/-- In the line of the carets, everything from the first one on is highlighted. -/
theorem line3_isSome {i : Nat} {style : Style} (line3 : Line)
    (found : findChar (· == '^') line3 = some i) :
    (fmtFramedLocation enabled unicode line3 (some ((i, len line3), style))).isSome := by
  rw [fmtFramedLocation_isSome_iff]
  intro number rest framed cut _
  obtain ⟨before, after, n, carets⟩ := exists_carets (mem_of_findChar found)
  obtain rfl : len before = i := by simpa [carets.findChar_eq] using found
  exact ⟨behind_frame framed carets, le_len_of_isCharBoundary cut⟩

/-- The line of the code is written if and only if what is highlighted begins behind its frame. -/
theorem line2_isSome_iff {style : Style} : (fmtFramedLocation enabled unicode location.line2
      ((highlightOf location.line2 location.line3).map (·, style))).isSome ↔
    location.CaretsBehindFrame unicode := by
  by_cases marked : '^' ∈ location.line3
  · obtain ⟨before, after, n, carets⟩ := exists_carets marked
    rw [carets.highlightOf_eq, Option.map_some, fmtFramedLocation_isSome_iff]
    constructor
    · intro fits number rest before' after' n' framed carets' cut cut'
      obtain ⟨start, rfl⟩ := carets.same carets'
      rw [← start] at cut cut' ⊢
      have inside := le_len_of_isCharBoundary cut
      have ends : isCharBoundary location.line2 (if "^ (".toList <:+: location.line3 then
          len location.line2 else min (len before + (n + 1)) (len location.line2)) = true := by
        split_ifs with spans
        · exact isCharBoundary_len
        · rcases cut' with spans' | long | cut'
          · exact absurd spans' spans
          · rw [Nat.min_eq_right long]
            exact isCharBoundary_len
          · rwa [Nat.min_eq_left (le_len_of_isCharBoundary cut')]
      rw [Nat.min_eq_left inside] at fits
      have := (fits number rest framed cut ends).1
      omega
    · intro behind number rest framed cut cut'
      have bar := framed.len
      refine ⟨?_, by split_ifs <;> omega⟩
      by_cases inside : len before ≤ len location.line2
      · rw [Nat.min_eq_left inside] at cut ⊢
        refine behind number rest before after n framed carets cut ?_
        split_ifs at cut' with spans
        · exact .inl spans
        · by_cases long : len location.line2 ≤ len before + (n + 1)
          · exact .inr (.inl long)
          · rw [Nat.min_eq_left (by omega)] at cut'
            exact .inr (.inr cut')
      · omega
  · have noneEq : highlightOf location.line2 location.line3 = none := by
      simpa [highlightOf, findChar] using marked
    rw [noneEq]
    refine iff_of_true fmtFramedLocation_none_isSome ?_
    intro number rest before after n framed carets
    exact absurd (by simp [carets.split, List.replicate_succ]) marked

theorem written_iff :
    location.Written enabled unicode ↔ location.CaretsBehindFrame unicode := by
  have first : (fmtFramedLocation enabled unicode location.line1 none).isSome :=
    fmtFramedLocation_none_isSome
  have third : (fmtFramedLocation enabled unicode location.line3
      ((findChar (· == '^') location.line3).map fun i =>
        ((i, len location.line3), diagStyle))).isSome := by
    cases found : findChar (· == '^') location.line3 with
    | none => exact fmtFramedLocation_none_isSome
    | some i => exact line3_isSome location.line3 found
  simp [Written, calls, first, third, line2_isSome_iff]

end Location

/-- The source locations that are written. -/
def locations : List Line → List Location
  | _ :: line1 :: line2 :: line3 :: lines => ⟨line1, line2, line3⟩ :: locations lines.tail
  | _ => []
termination_by lines => lines.length
decreasing_by
  simp only [List.length_tail, List.length_cons]
  omega

theorem fmtSourceLocation_isSome_iff {line1 line2 line3 : Line} {lines : List Line} :
    (fmtSourceLocation enabled unicode (line :: line1 :: line2 :: line3 :: lines)).isSome ↔
      (Location.mk line1 line2 line3).CaretsBehindFrame unicode := by
  have written : (Location.mk line1 line2 line3).Written enabled unicode ↔ _ := Location.written_iff
  rw [← written, Location.Written, fmtSourceLocation, Library.mapM_eq_ite]
  split_ifs with all
  · simpa using all
  · simpa using all

theorem fmtNotes_cons_isSome_iff {lines : List Line} :
    (fmtNotes enabled unicode (line :: lines)).isSome ↔
      (fmtSourceLocation enabled unicode lines).isSome ∧
        (fmtNotes enabled unicode (lines.drop 4)).isSome := by
  rw [fmtNotes]
  cases fmtSourceLocation enabled unicode lines <;>
    cases fmtNotes enabled unicode (lines.drop 4) <;> simp

/-- The lines from a source location on are written if and only if the carets of all locations in
them stand behind the frames. -/
theorem written_locations_iff (lines : List Line) :
    (fmtSourceLocation enabled unicode lines).isSome ∧
        (fmtNotes enabled unicode (lines.drop 4)).isSome ↔
      ∀ location ∈ locations lines, location.CaretsBehindFrame unicode := by
  induction lines using locations.induct with
  | case1 line line1 line2 line3 lines ih =>
    rw [fmtSourceLocation_isSome_iff, locations, List.forall_mem_cons, ← ih]
    refine and_congr_right fun _ => ?_
    cases lines with
    | nil => simp [fmtNotes, fmtSourceLocation]
    | cons note lines => exact fmtNotes_cons_isSome_iff
  | case2 lines few =>
    have noneEq : locations lines = [] := by
      rw [locations]
      exact few
    rw [noneEq]
    rcases lines with _ | ⟨line, _ | ⟨line1, _ | ⟨line2, _ | ⟨line3, lines⟩⟩⟩⟩
    · simp [fmtNotes, fmtSourceLocation]
    · simp [fmtNotes, fmtSourceLocation]
    · simp [fmtNotes, fmtSourceLocation]
    · simp [fmtNotes, fmtSourceLocation]
    · exact absurd rfl (few line line1 line2 line3 lines)

/-! ## The display -/

/-- The source locations in the formatted message. -/
def locationsOf (err : Error) : List Location :=
  locations (locationLines (lines (err.formattedMessage.getD "").toList))

/-- The diagnostic is displayed, with every line that may have a frame as it is. -/
structure Displays (enabled : Bool) (unicode : Unicode) (err : Error) : Prop where
  written : (fmt enabled unicode err).isSome
  unchanged : ∀ location ∈ locationsOf err, ∀ call ∈ location.calls,
    ∃ chunks, fmtFramedLocation enabled unicode call.1 call.2 = some chunks ∧
      plain chunks = '\n' :: call.1

theorem fmt_isSome_iff (err : Error) : (fmt enabled unicode err).isSome ↔
    ∀ location ∈ locationsOf err, location.CaretsBehindFrame unicode := by
  rw [locationsOf, fmt]
  generalize locationLines (lines (err.formattedMessage.getD "").toList) = lines
  have written : _ ∧ (fmtNotes enabled unicode (lines.drop 4)).isSome ↔ _ :=
    written_locations_iff lines
  rw [← written]
  cases fmtSourceLocation enabled unicode lines <;>
    cases fmtNotes enabled unicode (lines.drop 4) <;> simp

/-- A diagnostic is displayed if and only if the carets of all its source locations stand behind
the frames. -/
theorem displays_iff (enabled : Bool) (unicode : Unicode) (err : Error) :
    Displays enabled unicode err ↔
      ∀ location ∈ locationsOf err, location.CaretsBehindFrame unicode := by
  refine ⟨fun displays => (fmt_isSome_iff err).mp displays.written, fun behind => ?_⟩
  refine ⟨(fmt_isSome_iff err).mpr behind, fun location mem call called => ?_⟩
  obtain ⟨chunks, written⟩ := Option.isSome_iff_exists.mp
    (Location.written_iff.mpr (behind location mem) call called)
  exact ⟨chunks, written, plain_fmtFramedLocation written⟩

/-! ## A caret on the bar -/

/-- The ASCII digits. -/
def asciiDigits : Unicode := ⟨Char.isDigit, fun _ _ => rfl⟩

/-- The code is in a tenth line of a file whose frame is too narrow for it. -/
def caretOnBar : Error where
  sourceLocation := none
  severity := .error
  errorCode := none
  message := "wrong"
  formattedMessage := some "ParserError: wrong\n --> a.sol:10:1:\n  |\n10 | x\n  ^\n"

/-- Nothing can be taken from behind the bar up to the caret. -/
theorem not_displays_caretOnBar : fmt true asciiDigits caretOnBar = none ∧
    ¬Displays true asciiDigits caretOnBar := by
  have panics : fmt true asciiDigits caretOnBar = none := by decide +kernel
  exact ⟨panics, fun displays => by simpa [panics] using displays.written⟩

end FoundryCore.Diagnostics
