import FoundryCore.Cache.Iface
import FoundryCore.Library.Munch

/-!
# Tokens of an interface representation

The representation is read as the tokens that are left in the source, if no token has runs of
spaces in it or runs into what is left behind it, and what is left of the comments between two
tokens is still there for comments only.
-/

namespace FoundryCore.Iface

/-! ## Lexemes -/

/-- What a lexeme of a source is. -/
inductive LexemeKind
  | token | blank | comment
deriving DecidableEq, Repr

/-- The lexemes of a language, each with its kind. -/
structure Lexicon where
  kind : List Char → Option LexemeKind

/-- White space between tokens. -/
def isBlankChar (c : Char) : Bool := c = ' ' || c = '\t' || c = '\n' || c = '\r'

theorem isBlankChar_iff {c : Char} :
    isBlankChar c ↔ c = ' ' ∨ c = '\t' ∨ c = '\n' ∨ c = '\r' := by
  simp [isBlankChar, or_assoc]

namespace Lexicon

variable (lexicon : Lexicon)

def IsLexeme (text : List Char) : Prop := lexicon.kind text ≠ none

instance : DecidablePred lexicon.IsLexeme :=
  fun text => inferInstanceAs (Decidable (lexicon.kind text ≠ none))

/-- What is documented of white space: any of it is a lexeme, no other lexeme begins with it, and
no token ends with it. -/
structure Documented : Prop where
  blank : ∀ text, lexicon.kind text = some .blank ↔ text ≠ [] ∧ text.all isBlankChar
  begins : ∀ c text, isBlankChar c → lexicon.IsLexeme (c :: text) →
    lexicon.kind (c :: text) = some .blank
  ends : ∀ c text, isBlankChar c → lexicon.kind (text ++ [c]) ≠ some .token

def tokens (pieces : List (List Char)) : List (List Char) :=
  pieces.filter fun piece => lexicon.kind piece = some .token

end Lexicon

/-- A source that parses: its lexemes, and the items with spans of whole lexemes. -/
structure SourceUnit (lexicon : Lexicon) where
  content : Str
  items : List Item
  pieces : List (List Char)
  joined : pieces.flatten = content.1.toList
  munched : Library.Munched lexicon.IsLexeme pieces []
  spans : ∀ span ∈ spansToRemove items, span.1 ≤ span.2 ∧
    span.1 ∈ Library.boundaries Char.utf8Size pieces ∧
    span.2 ∈ Library.boundaries Char.utf8Size pieces
  sorted : (spansToRemove items).Pairwise fun span later => span.2 ≤ later.1

namespace SourceUnit

variable {lexicon : Lexicon} (unit : SourceUnit lexicon)

/-- The lexemes outside of the spans that are removed. -/
def retained : List (List Char) :=
  Library.substitute bytes unit.pieces ((spansToRemove unit.items).map (·, []))

/-- The tokens outside of comments and of the spans that are removed. -/
def tokens : List (List Char) := lexicon.tokens unit.retained

end SourceUnit

/-! ## What is left of a text -/

/-- Spaces and newlines, which may be removed. -/
def isLayout (c : Char) : Bool := c = ' ' || c = '\n'

/-- There are only white space and comments in the gap between two tokens. If there are comments,
what is left of the gap is read as white space and comments before what is left of the rest. -/
structure Gap (lexicon : Lexicon) (gap after : List (List Char)) : Prop where
  noToken : ∀ piece ∈ gap, lexicon.kind piece ≠ some .token
  comments : (∃ piece ∈ gap, lexicon.kind piece = some .comment) →
    ∃ parts, parts.flatten = squeeze gap.flatten ∧
      Library.Munched lexicon.IsLexeme parts (squeeze after.flatten) ∧
      ∀ part ∈ parts, lexicon.kind part ≠ some .token

/-- The tokens stay what they are when they are squeezed, none goes on with what is left behind it,
and all gaps are still gaps. -/
inductive Apart (lexicon : Lexicon) : List (List Char) → Prop
  | last {gap} : Gap lexicon gap [] → Apart lexicon gap
  | token {gap piece after} : Gap lexicon gap (piece :: after) →
    lexicon.kind piece = some .token → squeeze piece = piece →
    Library.Longest lexicon.IsLexeme piece (squeeze after.flatten) → Apart lexicon after →
    Apart lexicon (gap ++ piece :: after)

section Squeeze

variable {text gap piece rest : List Char} {c : Char}

@[simp] theorem squeeze_nil : squeeze [] = [] := rfl

theorem mem_squeeze (mem : c ∈ squeeze text) : c ∈ text :=
  List.mem_of_mem_filter (Library.mem_resize rfl mem)

theorem squeeze_all (blank : text.all isBlankChar) : (squeeze text).all isBlankChar := by
  rw [List.all_eq_true] at blank ⊢
  exact fun c mem => blank c (mem_squeeze mem)

/-- A text that begins and ends with characters other than spaces and newlines. -/
def Solid (text : List Char) : Prop :=
  text ≠ [] ∧ (∀ c ∈ text.head?, isLayout c = false) ∧ ∀ c ∈ text.getLast?, isLayout c = false

theorem squeeze_append (solid : Solid piece) :
    squeeze (gap ++ piece ++ rest) = squeeze gap ++ squeeze piece ++ squeeze rest := by
  obtain ⟨nonempty, first, last⟩ := solid
  obtain ⟨c, piece', begins⟩ := List.exists_cons_of_ne_nil nonempty
  obtain ⟨piece'', d, ends⟩ : ∃ piece'' d, piece = piece'' ++ [d] :=
    ⟨_, _, (List.dropLast_append_getLast nonempty).symm⟩
  have first' : c ≠ ' ' ∧ c ≠ '\n' := by simpa [isLayout, begins] using first
  have last' : d ≠ ' ' ∧ d ≠ '\n' := by simpa [isLayout, ends] using last
  simp only [squeeze, removeTwoOrMoreSpaces, List.filter_append]
  refine Library.resize_append_append rfl ⟨c, piece'.filter (· ≠ '\n'), ?_, first'.1⟩
    ⟨piece''.filter (· ≠ '\n'), d, ?_, last'.1⟩
  · simp [begins, first'.2]
  · simp [ends, last'.2]

end Squeeze

/-! ## Reading the representation -/

section Read

variable {lexicon : Lexicon} {gap piece : List Char} {pieces : List (List Char)}

/-- White space that is left is a lexeme, and ends before what is no white space. -/
theorem longest_blank (documented : lexicon.Documented) (nonempty : gap ≠ [])
    (blank : gap.all isBlankChar) {rest : List Char}
    (ends : ∀ c ∈ rest.head?, isBlankChar c = false) :
    Library.Longest lexicon.IsLexeme gap rest := by
  have kind := (documented.blank gap).mpr ⟨nonempty, blank⟩
  refine Library.longest_of_head nonempty (by simp [Lexicon.IsLexeme, kind]) ?_
  intro c head more lexeme
  obtain ⟨first, gap', rfl⟩ := List.exists_cons_of_ne_nil nonempty
  have firstBlank : isBlankChar first = true := List.all_eq_true.mp blank first (.head _)
  have all := ((documented.blank _).mp (documented.begins first _ firstBlank lexeme)).2
  simp [ends c head] at all

/-- A token begins and ends with characters other than white space. -/
theorem solid_of_token (documented : lexicon.Documented) (nonempty : piece ≠ [])
    (token : lexicon.kind piece = some .token) :
    Solid piece ∧ ∀ c ∈ piece.head?, isBlankChar c = false := by
  have layout : ∀ c, isBlankChar c = false → isLayout c = false := by
    intro c other
    simp_all [isBlankChar, isLayout]
  have first : ∀ c ∈ piece.head?, isBlankChar c = false := by
    intro c head
    obtain ⟨rest, rfl⟩ := List.head?_eq_some_iff.mp head
    by_contra blank
    have kind := documented.begins c rest (by simpa using blank) (by simp [Lexicon.IsLexeme, token])
    rw [token] at kind
    cases kind
  refine ⟨⟨nonempty, fun c head => layout c (first c head), fun c ends => layout c ?_⟩, first⟩
  obtain ⟨rest, rfl⟩ := List.getLast?_eq_some_iff.mp ends
  by_contra blank
  exact documented.ends c rest (by simpa using blank) token

/-- A gap is read as white space and comments. -/
theorem Gap.exists_munched {gap after : List (List Char)} (documented : lexicon.Documented)
    (given : Gap lexicon gap after) (lexemes : ∀ piece ∈ gap, lexicon.IsLexeme piece)
    (ends : ∀ c ∈ (squeeze after.flatten).head?, isBlankChar c = false) :
    ∃ parts, parts.flatten = squeeze gap.flatten ∧
      Library.Munched lexicon.IsLexeme parts (squeeze after.flatten) ∧
      ∀ part ∈ parts, lexicon.kind part ≠ some .token := by
  by_cases comments : ∃ piece ∈ gap, lexicon.kind piece = some .comment
  · exact given.comments comments
  have blank : gap.flatten.all isBlankChar := by
    rw [List.all_flatten, List.all_eq_true]
    intro piece mem
    obtain ⟨kind, eq⟩ := Option.ne_none_iff_exists'.mp (lexemes piece mem)
    cases kind with
    | token => exact absurd eq (given.noToken piece mem)
    | blank => exact ((documented.blank piece).mp eq).2
    | comment => exact absurd ⟨piece, mem, eq⟩ comments
  by_cases noneEq : squeeze gap.flatten = []
  · exact ⟨[], noneEq.symm, trivial, by simp⟩
  · have kind := (documented.blank _).mpr ⟨noneEq, squeeze_all blank⟩
    refine ⟨[squeeze gap.flatten], by simp, ⟨?_, trivial⟩, by simp [kind]⟩
    exact longest_blank documented noneEq (squeeze_all blank) ends

/-- What is squeezed is read as the tokens, with what is left of the gaps between them. -/
theorem Apart.exists_munched (documented : lexicon.Documented) (apart : Apart lexicon pieces)
    (lexemes : ∀ piece ∈ pieces, piece ≠ [] ∧ lexicon.IsLexeme piece) :
    ∃ parts, Library.Munched lexicon.IsLexeme parts [] ∧
      parts.flatten = squeeze pieces.flatten ∧ lexicon.tokens parts = lexicon.tokens pieces := by
  have noTokens : ∀ {parts : List (List Char)},
      (∀ part ∈ parts, lexicon.kind part ≠ some .token) → lexicon.tokens parts = [] :=
    fun other => List.filter_eq_nil_iff.mpr (by simpa using other)
  induction apart with
  | @last gap given =>
    obtain ⟨parts, text, munched, other⟩ :=
      given.exists_munched documented (fun piece mem => (lexemes piece mem).2) (by simp)
    exact ⟨parts, munched, text, (noTokens other).trans (noTokens given.noToken).symm⟩
  | @token gap piece after given kind same longest apart ih =>
    have inside : piece ∈ gap ++ piece :: after := by simp
    obtain ⟨solid, first⟩ := solid_of_token documented (lexemes piece inside).1 kind
    have squeezed : ∀ gap, squeeze (gap ++ piece ++ after.flatten) =
        squeeze gap ++ piece ++ squeeze after.flatten := fun gap => by
      rw [squeeze_append solid, same]
    have behind : squeeze (piece :: after).flatten = piece ++ squeeze after.flatten := by
      simpa using squeezed []
    have ends : ∀ c ∈ (squeeze (piece :: after).flatten).head?, isBlankChar c = false := by
      obtain ⟨c, rest, rfl⟩ := List.exists_cons_of_ne_nil solid.1
      rw [behind]
      simpa using first
    obtain ⟨parts, text, munched, other⟩ := given.exists_munched documented
      (fun piece mem => (lexemes piece (by simp [mem])).2) ends
    obtain ⟨parts', munched', text', tokens⟩ := ih fun piece mem => lexemes piece (by simp [mem])
    refine ⟨parts ++ piece :: parts', Library.munched_append ?_ ⟨?_, munched'⟩, ?_, ?_⟩
    · rwa [List.flatten_cons, text', List.append_nil, ← behind]
    · rwa [text', List.append_nil]
    · rw [List.flatten_append, List.flatten_cons, text, text', List.flatten_append,
        List.flatten_cons, ← List.append_assoc, ← List.append_assoc, squeezed]
    · have split : ∀ xs ys, lexicon.tokens (xs ++ piece :: ys) =
          lexicon.tokens xs ++ piece :: lexicon.tokens ys := fun xs ys => by
        simp [Lexicon.tokens, kind]
      rw [split, split, noTokens other, noTokens given.noToken, tokens]

end Read

namespace SourceUnit

variable {lexicon : Lexicon} (unit : SourceUnit lexicon)

theorem inOrder : InOrder unit.content.1.toList (spansToRemove unit.items) where
  range span mem := by
    have boundary : ∀ n ∈ Library.boundaries Char.utf8Size unit.pieces,
        IsCharBoundary unit.content.1.toList n := by
      intro n mem
      obtain ⟨before, after, eq, rfl⟩ := Library.mem_boundaries_iff.mp mem
      refine Option.isSome_iff_exists.mpr ⟨(before.flatten, after.flatten), ?_⟩
      rw [Library.cut_eq_some Char.utf8Size_pos, ← unit.joined, eq, List.flatten_append]
      exact ⟨rfl, rfl⟩
    obtain ⟨le, first, last⟩ := unit.spans span mem
    exact ⟨le, boundary _ first, boundary _ last⟩
  sorted := unit.sorted

/-- What is left of the text is what the lexemes outside of the spans make up. -/
theorem flatten_retained :
    unit.retained.flatten = without unit.content.1.toList (spansToRemove unit.items) := by
  have zero : 0 ∈ Library.boundaries Char.utf8Size unit.pieces :=
    Library.mem_boundaries_iff.mpr ⟨[], unit.pieces, rfl, rfl⟩
  rw [without, ← unit.joined]
  exact Library.flatten_substituteFrom Char.utf8Size_pos
    (fun piece mem => (Library.lexeme_of_munched unit.munched piece mem).1) zero
    fun span mem => (unit.spans span mem).2

theorem retained_subset : ∀ piece ∈ unit.retained, piece ∈ unit.pieces :=
  fun _ => Library.mem_of_mem_substituteFrom

/-- The representation of a source whose lexemes are kept apart is read as its tokens. -/
theorem exists_munched_representation (documented : lexicon.Documented)
    (apart : Apart lexicon unit.retained) : ∃ parts, Library.Munched lexicon.IsLexeme parts [] ∧
      interfaceRepresentationAst unit.content unit.items = .ok (.ofList parts.flatten) ∧
      lexicon.tokens parts = unit.tokens := by
  obtain ⟨parts, munched, text, tokens⟩ := apart.exists_munched documented fun piece mem =>
    Library.lexeme_of_munched unit.munched piece (unit.retained_subset piece mem)
  rw [flatten_retained] at text
  exact ⟨parts, munched, by rw [text, interfaceRepresentationAst_eq unit.inOrder], tokens⟩

end SourceUnit

/-- Two sources whose lexemes are kept apart have the same tokens if they have the same
representation. -/
theorem tokens_eq_of_representation_eq {lexicon : Lexicon} (documented : lexicon.Documented)
    (unit unit' : SourceUnit lexicon) (apart : Apart lexicon unit.retained)
    (apart' : Apart lexicon unit'.retained)
    (same : interfaceRepresentationAst unit.content unit.items =
      interfaceRepresentationAst unit'.content unit'.items) : unit.tokens = unit'.tokens := by
  obtain ⟨parts, munched, text, tokens⟩ := unit.exists_munched_representation documented apart
  obtain ⟨parts', munched', text', tokens'⟩ :=
    unit'.exists_munched_representation documented apart'
  rw [text, text'] at same
  have joined : parts.flatten = parts'.flatten := String.ofList_injective (Except.ok.inj same)
  rw [← tokens, ← tokens', Library.munched_unique munched munched' joined]

/-! ### A few lexemes -/

/-- Words, punctuation, white space and line comments. -/
def plainLexicon : Lexicon where
  kind text :=
    if text = [] then none
    else if text.all isBlankChar then some .blank
    else if ['/', '/'].isPrefixOf text ∧ '\n' ∉ text then some .comment
    else if text.all Char.isAlphanum then some .token
    else if text ∈ [['{'], ['}'], ['('], [')'], [';']] then some .token
    else none

theorem documented_plainLexicon : plainLexicon.Documented where
  blank text := by
    simp only [plainLexicon]
    split_ifs <;> simp_all
  begins c text blank lexeme := by
    have white := isBlankChar_iff.mp blank
    have notWord : c.isAlphanum = false := by rcases white with rfl | rfl | rfl | rfl <;> decide
    have notSlash : c ≠ '/' := by rcases white with rfl | rfl | rfl | rfl <;> decide
    have notPunctuation : c :: text ∉ [['{'], ['}'], ['('], [')'], [';']] := by
      rcases white with rfl | rfl | rfl | rfl <;> simp
    have notComment : ¬(['/', '/'].isPrefixOf (c :: text) ∧ '\n' ∉ c :: text) := by
      simp [List.isPrefixOf, Ne.symm notSlash]
    have notWords : ¬(c :: text).all Char.isAlphanum := by simp [notWord]
    simp only [Lexicon.IsLexeme, plainLexicon, if_neg notComment, if_neg notWords,
      if_neg notPunctuation] at lexeme ⊢
    split_ifs at lexeme ⊢ <;> simp_all
  ends c text blank := by
    have notWord : c.isAlphanum = false := by
      rcases isBlankChar_iff.mp blank with rfl | rfl | rfl | rfl <;> decide
    have notWords : ¬(text ++ [c]).all Char.isAlphanum := by simp [notWord]
    have notPunctuation : text ++ [c] ∉ [['{'], ['}'], ['('], [')'], [';']] := by
      intro mem
      have solid : ∀ text ∈ [['{'], ['}'], ['('], [')'], [';']], ∀ c ∈ text,
          isBlankChar c = false := by simp [isBlankChar]
      rw [solid _ mem c (by simp)] at blank
      cases blank
    simp only [plainLexicon, if_neg notWords, if_neg notPunctuation]
    split_ifs <;> simp

/-- Two contracts with a comment between them, which a newline ends. -/
def commentedUnit : SourceUnit plainLexicon where
  content := ⟨"contract A{}//\ncontract B{}", by decide⟩
  items := [.contract .contract [], .contract .contract []]
  pieces := ["contract", " ", "A", "\x7b", "\x7d", "//", "\n", "contract", " ", "B", "\x7b",
    "\x7d"].map String.toList
  joined := by decide
  munched := by decide +kernel
  spans := by simp [spansToRemove, Item.spansToRemove]
  sorted := by simp [spansToRemove, Item.spansToRemove]

/-- The same without the newline: the comment goes on to the end. -/
def swallowedUnit : SourceUnit plainLexicon where
  content := ⟨"contract A{}//contract B{}", by decide⟩
  items := [.contract .contract []]
  pieces := ["contract", " ", "A", "\x7b", "\x7d", "//contract B{}"].map String.toList
  joined := by decide
  munched := by decide +kernel
  spans := by simp [spansToRemove, Item.spansToRemove]
  sorted := by simp [spansToRemove, Item.spansToRemove]

theorem not_tokens_eq_of_representation_eq : plainLexicon.Documented ∧
    interfaceRepresentationAst commentedUnit.content commentedUnit.items =
        interfaceRepresentationAst swallowedUnit.content swallowedUnit.items ∧
      commentedUnit.tokens ≠ swallowedUnit.tokens := by
  refine ⟨documented_plainLexicon, ?_, by decide +kernel⟩
  rw [interfaceRepresentationAst_eq commentedUnit.inOrder,
    interfaceRepresentationAst_eq swallowedUnit.inOrder]
  decide +kernel

/-- White space, or what is left as a single comment. -/
def isGap (gap after : List (List Char)) : Bool :=
  gap.all (plainLexicon.kind · == some .blank) ||
    plainLexicon.kind (squeeze gap.flatten) == some .comment &&
      decide (Library.Longest plainLexicon.IsLexeme (squeeze gap.flatten) (squeeze after.flatten))

/-- Whether the pieces are kept apart behind the beginning of a gap. -/
def keepsApart : List (List Char) → List (List Char) → Bool
  | gap, [] => isGap gap []
  | gap, piece :: after =>
    if plainLexicon.kind piece = some .token then
      isGap gap (piece :: after) && squeeze piece == piece &&
        decide (Library.Longest plainLexicon.IsLexeme piece (squeeze after.flatten)) &&
        keepsApart [] after
    else keepsApart (gap ++ [piece]) after

theorem gap_of_isGap {gap after : List (List Char)} (given : isGap gap after)
    (noToken : ∀ piece ∈ gap, plainLexicon.kind piece ≠ some .token) :
    Gap plainLexicon gap after := by
  refine ⟨noToken, fun ⟨piece, mem, comment⟩ => ?_⟩
  simp only [isGap, Bool.or_eq_true, Bool.and_eq_true, List.all_eq_true, beq_iff_eq,
    decide_eq_true_eq] at given
  rcases given with blank | ⟨kind, longest⟩
  · have blank := blank piece mem
    rw [comment] at blank
    cases blank
  · exact ⟨[squeeze gap.flatten], by simp, ⟨by simpa using longest, trivial⟩, by simp [kind]⟩

theorem apart_of_keepsApart {gap pieces : List (List Char)} (kept : keepsApart gap pieces)
    (noToken : ∀ piece ∈ gap, plainLexicon.kind piece ≠ some .token) :
    Apart plainLexicon (gap ++ pieces) := by
  induction pieces generalizing gap with
  | nil =>
    rw [List.append_nil]
    exact .last (gap_of_isGap kept noToken)
  | cons piece after ih =>
    rw [keepsApart] at kept
    split_ifs at kept with kind
    · simp only [Bool.and_eq_true, beq_iff_eq, decide_eq_true_eq] at kept
      obtain ⟨⟨⟨given, same⟩, longest⟩, rest⟩ := kept
      exact .token (gap_of_isGap given noToken) kind same longest (ih rest (by simp))
    · have rest := ih kept (List.forall_mem_append.mpr ⟨noToken, by simpa using kind⟩)
      rwa [List.append_assoc] at rest

/-- A contract with an empty constructor, and a comment that ends with a space. -/
def emptyUnit : SourceUnit plainLexicon where
  content := ⟨"contract A\x7bconstructor(){}\x7d// foo ", by decide⟩
  items := [.contract .contract [⟨(11, 26), some ⟨.constructor, none, (24, 26)⟩⟩]]
  pieces := ["contract", " ", "A", "\x7b", "constructor", "(", ")", "\x7b", "\x7d", "\x7d",
    "// foo "].map String.toList
  joined := by decide
  munched := by decide +kernel
  spans := by decide +kernel
  sorted := by decide +kernel

/-- The same with a call in the constructor, and more lines. -/
def callingUnit : SourceUnit plainLexicon where
  content := ⟨"contract A\x7b\nconstructor()\x7bb();\x7d\n\x7d// foo ", by decide⟩
  items := [.contract .contract [⟨(12, 31), some ⟨.constructor, none, (25, 31)⟩⟩]]
  pieces := ["contract", " ", "A", "\x7b", "\n", "constructor", "(", ")", "\x7b", "b", "(", ")",
    ";", "\x7d", "\n", "\x7d", "// foo "].map String.toList
  joined := by decide
  munched := by decide +kernel
  spans := by decide +kernel
  sorted := by decide +kernel

theorem tokens_eq_of_representation_eq_constructor : emptyUnit.tokens = callingUnit.tokens := by
  refine tokens_eq_of_representation_eq documented_plainLexicon emptyUnit callingUnit
    (@apart_of_keepsApart [] _ (by decide +kernel) nofun)
    (@apart_of_keepsApart [] _ (by decide +kernel) nofun) ?_
  rw [interfaceRepresentationAst_eq emptyUnit.inOrder,
    interfaceRepresentationAst_eq callingUnit.inOrder]
  decide +kernel

end FoundryCore.Iface
