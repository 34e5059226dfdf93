import FoundryCore.Config
import FoundryCore.Library.Split

/-!
# Remappings as text

A remapping is written as `context:name=path`. What is written for a remapping that was parsed can
be parsed again, and moves nothing between the parts, unless a blank context was dropped from the
text and left a name with a colon in it.
-/

namespace FoundryCore

/-- `char::is_whitespace`. -/
def isWhitespace (c : Char) : Bool :=
  (0x9 ≤ c.toNat && c.toNat ≤ 0xd) || c.toNat == 0x20 || c.toNat == 0x85 || c.toNat == 0xa0 ||
    c.toNat == 0x1680 || (0x2000 ≤ c.toNat && c.toNat ≤ 0x200a) || c.toNat == 0x2028 ||
    c.toNat == 0x2029 || c.toNat == 0x202f || c.toNat == 0x205f || c.toNat == 0x3000

/-- Nothing is left of the text when it is trimmed. -/
def isBlank (text : String) : Bool := text.toList.all isWhitespace

/-- `str::split_once`. -/
def splitOnce (sep : Char) (text : String) : Option (String × String) :=
  (Library.splitOnce sep text.toList).map fun (before, after) =>
    (String.ofList before, String.ofList after)

inductive RemappingError
  | invalidRemapping (remapping : String)
  | emptyRemappingKey (remapping : String)
  | emptyRemappingValue (remapping : String)
deriving DecidableEq, Repr

/-- Whether a name or a path is neither a directory with its slash nor a Solidity file. -/
def needsTrailingSlash (nameOrPath : String) : Bool :=
  !decide ("/".toList <:+ nameOrPath.toList) && !decide (".sol".toList <:+ nameOrPath.toList)

/-- A name or a path with the slash it needs. -/
def withTrailingSlash (nameOrPath : String) : String :=
  if needsTrailingSlash nameOrPath then nameOrPath ++ "/" else nameOrPath

namespace Remapping

def fromStr (remapping : String) : Except RemappingError Remapping :=
  match splitOnce '=' remapping with
  | none => .error (.invalidRemapping remapping)
  | some (key, path) =>
    let (context, name) := match splitOnce ':' key with
      | none => (none, key)
      | some (context, name) => (some context, name)
    if isBlank name then .error (.emptyRemappingKey remapping)
    else if isBlank path then .error (.emptyRemappingValue remapping)
    -- if the remapping just starts with : (no context name), treat it as global
    else .ok { context := context.filter fun c => !isBlank c, name, path }

/-- Remappings are printed as `prefix=target`. -/
def display (r : Remapping) : String :=
  let s := match r.context with
    | some context => context ++ ":"
    | none => ""
  withTrailingSlash (s ++ (withTrailingSlash r.name ++ "=" ++ r.path))

/-- What is written for the remapping is parsed as the same context, name and path, up to the
slashes that were added, and is written as the same text again. -/
def RoundTrips (r : Remapping) : Prop :=
  ∃ r', fromStr r.display = .ok r' ∧ r'.context = r.context ∧
    r'.name = withTrailingSlash r.name ∧ r'.path = withTrailingSlash r.path ∧
    r'.display = r.display

end Remapping

/-! ## Slashes -/

@[simp] theorem toList_withTrailingSlash (text : String) :
    (withTrailingSlash text).toList =
      text.toList ++ if needsTrailingSlash text then ['/'] else [] := by
  rw [withTrailingSlash]
  split_ifs <;> simp

theorem needsTrailingSlash_withTrailingSlash (text : String) :
    needsTrailingSlash (withTrailingSlash text) = false := by
  rw [withTrailingSlash]
  split_ifs with needs
  · simp [needsTrailingSlash]
  · simpa using needs

/-- Whether a slash is needed shows in the path, since the text has a `=` before it. -/
theorem needsTrailingSlash_append (before path : String) :
    needsTrailingSlash (before ++ "=" ++ path) = needsTrailingSlash path := by
  have text : (before ++ "=" ++ path).toList = before.toList ++ '=' :: path.toList := by simp
  have slash : "/".toList <:+ before.toList ++ '=' :: path.toList ↔ "/".toList <:+ path.toList :=
    Library.suffix_append_cons (by decide)
  have sol : ".sol".toList <:+ before.toList ++ '=' :: path.toList ↔
      ".sol".toList <:+ path.toList := Library.suffix_append_cons (by decide)
  simp only [needsTrailingSlash, text, slash, sol]

theorem isBlank_withTrailingSlash {text : String} (proper : isBlank text = false) :
    isBlank (withTrailingSlash text) = false := by
  rw [isBlank, toList_withTrailingSlash, List.all_append]
  rw [isBlank] at proper
  rw [proper, Bool.false_and]

/-! ## Parsing -/

theorem splitOnce_eq_some {sep : Char} {text before after : String} :
    splitOnce sep text = some (before, after) ↔
      text.toList = before.toList ++ sep :: after.toList ∧ sep ∉ before.toList := by
  simp only [splitOnce, Option.map_eq_some_iff, Prod.exists, Prod.mk.injEq,
    Library.splitOnce_eq_some]
  constructor
  · rintro ⟨before, after, split, rfl, rfl⟩
    simpa using split
  · exact fun split => ⟨before.toList, after.toList, split, by simp, by simp⟩

theorem splitOnce_eq_none {sep : Char} {text : String} :
    splitOnce sep text = none ↔ sep ∉ text.toList := by
  rw [splitOnce, Option.map_eq_none_iff, Library.splitOnce_eq_none]

namespace Remapping

variable {text name path context : String} {r : Remapping}

/-- What the parts of a parsed remapping are like. -/
structure Parsed (r : Remapping) : Prop where
  name : '=' ∉ r.name.toList
  proper : isBlank r.name = false ∧ isBlank r.path = false
  context : ∀ context, r.context = some context →
    '=' ∉ context.toList ∧ ':' ∉ context.toList ∧ isBlank context = false

theorem parsed_of_fromStr (eq : fromStr text = .ok r) : r.Parsed := by
  unfold fromStr at eq
  split at eq
  · cases eq
  · next key path split =>
    obtain ⟨-, keyEq⟩ := splitOnce_eq_some.mp split
    cases colon : splitOnce ':' key with
    | none =>
      simp only [colon] at eq
      split_ifs at eq with blank blank'
      cases eq
      exact ⟨keyEq, ⟨by simpa using blank, by simpa using blank'⟩, by rintro context ⟨⟩⟩
    | some parts =>
      obtain ⟨context, name⟩ := parts
      obtain ⟨parts, fresh⟩ := splitOnce_eq_some.mp colon
      rw [parts] at keyEq
      simp only [colon] at eq
      split_ifs at eq with blank blank'
      cases eq
      refine ⟨fun mem => keyEq (by simp [mem]), ⟨by simpa using blank, by simpa using blank'⟩, ?_⟩
      intro c kept
      simp only at kept
      obtain ⟨same, proper⟩ := Option.filter_eq_some_iff.mp kept
      cases same
      exact ⟨fun mem => keyEq (by simp [mem]), fresh, by simpa using proper⟩

theorem fromStr_global (colon : ':' ∉ name.toList) (equal : '=' ∉ name.toList)
    (proper : isBlank name = false ∧ isBlank path = false) :
    fromStr (name ++ "=" ++ path) = .ok { name, path } := by
  have split : splitOnce '=' (name ++ "=" ++ path) = some (name, path) :=
    splitOnce_eq_some.mpr ⟨by simp, equal⟩
  simp [fromStr, split, splitOnce_eq_none.mpr colon, proper]

theorem fromStr_context (colon : ':' ∉ context.toList) (equal : '=' ∉ context.toList)
    (blank : isBlank context = false) (equal' : '=' ∉ name.toList)
    (proper : isBlank name = false ∧ isBlank path = false) :
    fromStr (context ++ ":" ++ name ++ "=" ++ path) = .ok { context, name, path } := by
  have split : splitOnce '=' (context ++ ":" ++ name ++ "=" ++ path) =
      some (context ++ ":" ++ name, path) :=
    splitOnce_eq_some.mpr ⟨by simp, by simp [equal, equal']⟩
  have split' : splitOnce ':' (context ++ ":" ++ name) = some (context, name) :=
    splitOnce_eq_some.mpr ⟨by simp, colon⟩
  simp [fromStr, split, split', proper, blank]

/-- A name with a colon is cut. -/
theorem length_name_of_fromStr (colon : ':' ∈ name.toList) (equal : '=' ∉ name.toList)
    (parsed : fromStr (name ++ "=" ++ path) = .ok r) : r.name.length < name.length := by
  have split : splitOnce '=' (name ++ "=" ++ path) = some (name, path) :=
    splitOnce_eq_some.mpr ⟨by simp, equal⟩
  cases cut : splitOnce ':' name with
  | none => exact absurd colon (splitOnce_eq_none.mp cut)
  | some parts =>
    obtain ⟨context, rest⟩ := parts
    obtain ⟨parts, -⟩ := splitOnce_eq_some.mp cut
    simp only [fromStr, split, cut] at parsed
    split_ifs at parsed
    cases parsed
    rw [← String.length_toList, ← String.length_toList, parts]
    grind

/-! ## Writing and parsing -/

theorem display_eq (r : Remapping) : r.display =
    (match r.context with | some context => context ++ ":" | none => "") ++
      withTrailingSlash r.name ++ "=" ++ withTrailingSlash r.path := by
  rw [display]
  generalize (match r.context with | some context => context ++ ":" | none => "") = before
  have text : before ++ (withTrailingSlash r.name ++ "=" ++ r.path) =
      before ++ withTrailingSlash r.name ++ "=" ++ r.path := by simp [String.append_assoc]
  rw [text, withTrailingSlash, needsTrailingSlash_append]
  rw [withTrailingSlash.eq_def r.path]
  split_ifs <;> simp [String.append_assoc]

/-- Adding the slashes again changes nothing. -/
theorem display_withTrailingSlash (r : Remapping) :
    display { context := r.context, name := withTrailingSlash r.name,
              path := withTrailingSlash r.path } = r.display := by
  have twice : ∀ text, withTrailingSlash (withTrailingSlash text) = withTrailingSlash text :=
    fun text => by
      rw [withTrailingSlash.eq_def (withTrailingSlash text),
        needsTrailingSlash_withTrailingSlash, if_neg (by simp)]
  rw [display_eq, display_eq, twice, twice]

/-- A remapping that was parsed is parsed again from what is written for it exactly if it has a
context or no colon in its name. -/
theorem textRoundTrips_iff (parsed : fromStr text = .ok r) :
    r.RoundTrips ↔ r.context ≠ none ∨ ':' ∉ r.name.toList := by
  have form := parsed_of_fromStr parsed
  have name : '=' ∉ (withTrailingSlash r.name).toList := by
    have := form.name
    rw [toList_withTrailingSlash]
    split_ifs <;> simp [this]
  have proper := And.intro (isBlank_withTrailingSlash form.proper.1)
    (isBlank_withTrailingSlash form.proper.2)
  have written := display_eq r
  cases has : r.context with
  | some context =>
    obtain ⟨equal, colon, blank⟩ := form.context context has
    rw [has] at written
    have again : fromStr r.display = .ok ⟨context, withTrailingSlash r.name,
        withTrailingSlash r.path⟩ := by
      rw [written]
      exact fromStr_context colon equal blank name proper
    refine iff_of_true ⟨_, again, has.symm, rfl, rfl, ?_⟩ (.inl (by simp))
    rw [← has]
    exact display_withTrailingSlash r
  | none =>
    rw [has] at written
    simp only [String.empty_append] at written
    simp only [ne_eq, not_true_eq_false, false_or]
    constructor
    · rintro ⟨r', again, global, same, -⟩ colon
      rw [written] at again
      have shorter := length_name_of_fromStr (by simp [colon]) name again
      rw [same] at shorter
      exact lt_irrefl _ shorter
    · intro colon
      have colon' : ':' ∉ (withTrailingSlash r.name).toList := by
        rw [toList_withTrailingSlash]
        split_ifs <;> simp [colon]
      refine ⟨⟨none, withTrailingSlash r.name, withTrailingSlash r.path⟩, ?_, has.symm, rfl, rfl,
        ?_⟩
      · rw [written]
        exact fromStr_global colon' name proper
      · rw [← has]
        exact display_withTrailingSlash r

/-- The remapping `ctx:a.sol=lib` keeps its context. -/
theorem textRoundTrips_iff_context : RoundTrips ⟨some "ctx", "a.sol", "lib"⟩ ↔
    some "ctx" ≠ none ∨ ':' ∉ "a.sol".toList :=
  textRoundTrips_iff
    (show fromStr "ctx:a.sol=lib" = .ok ⟨some "ctx", "a.sol", "lib"⟩ by decide +kernel)

/-- The blank context is dropped, and `a:b` is written back as a name `b` with the context `a`. -/
theorem not_roundTrips_blankContext :
    ∃ r, fromStr ":a:b=c" = .ok r ∧ ¬ r.RoundTrips := by
  refine ⟨⟨none, "a:b", "c"⟩, by decide +kernel, ?_⟩
  rintro ⟨r', again, same, -⟩
  have moved : fromStr "a:b/=c/" = .ok ⟨some "a", "b/", "c/"⟩ := by decide +kernel
  rw [show display ⟨none, "a:b", "c"⟩ = "a:b/=c/" by decide +kernel, moved] at again
  cases again
  cases same

end Remapping

end FoundryCore
