import FoundryCore.Bytecode.Linking

/-!
# The order of the libraries

What a list of libraries makes of an object is determined by its outcome, which does not depend on
the order of the list. Compact bytecode is linked in the same way.
-/

open Std

namespace FoundryCore.Linking

variable {crates : Crates} {code : Bytes} {references : LinkReferences}
  {libs libs' : List LinkedLibrary}

/-- Libraries in another order have no other outcome. -/
theorem Outcome.unique {b b' b'' : Bytecode} {linked linked' : Bool} (perm : libs.Perm libs')
    (outcome : Outcome crates b code libs linked b')
    (outcome' : Outcome crates b code libs' linked' b'') : (linked, b') = (linked', b'') := by
  have member : ∀ lib, lib ∈ libs ↔ lib ∈ libs' := fun _ => perm.mem_iff
  have linkedEq : linked = linked' := by
    rw [Bool.eq_iff_iff, outcome.linked_iff, outcome'.linked_iff]
    simp only [Covers, member]
  subst linkedEq
  obtain ⟨code₁, changed, yes, no, -⟩ := outcome.object
  obtain ⟨code₂, changed', yes', no', -⟩ := outcome'.object
  have same : code₁ = code₂ := by
    refine changed.unique (changed'.mono fun i new => ?_)
    simp only [slots, member]
  subst same
  have object : b'.object = b''.object := by
    cases linked with
    | false => rw [no rfl, no' rfl]
    | true =>
      obtain ⟨bytes, decoded, eq⟩ := yes rfl
      obtain ⟨bytes', decoded', eq'⟩ := yes' rfl
      rw [eq, eq', Option.some.inj (decoded.symm.trans decoded')]
  have referencesEq : b'.linkReferences = b''.linkReferences := by
    refine outcome.noEmpty.ext outcome'.noEmpty fun file library => ?_
    rw [outcome.references, outcome'.references]
    simp only [(perm.map key).mem_iff]
  have sourceMap := outcome.sourceMap.trans outcome'.sourceMap.symm
  cases b'
  cases b''
  simp_all

/-! ## Compact bytecode -/

/-- A call returns true only if it leaves a linked object. -/
theorem isUnlinked_of_linkReferences {object object' : BytecodeObject} {file library : String}
    {address : Address} {references' : LinkReferences}
    (eq : linkReferences crates object references file library address =
      some (true, object', references')) : object'.isUnlinked = false := by
  unfold linkReferences at eq
  split_ifs at eq with linked
  · cases eq
    simpa using linked
  · split at eq
    · cases eq
    · obtain ⟨object₁, -, eq⟩ := Option.bind_eq_some_iff.mp eq
      cases resolved : object₁.resolve crates with
      | bytecode bytes => grind [BytecodeObject.isUnlinked]
      | unlinked code => grind [BytecodeObject.asBytes]

/-- Nothing more happens to an object that is linked. -/
theorem linkEach_of_linked {b : CompactBytecode} (linked : b.object.isUnlinked = false) :
    b.linkEach crates libs = some (!libs.isEmpty, b) := by
  induction libs with
  | nil => rfl
  | cons lib libs ih =>
    simp [CompactBytecode.linkEach, CompactBytecode.link, linkReferences, linked, ih]

/-- Linking compact bytecode with each library in turn is linking bytecode with all of them. -/
theorem linkEach_ofBytecode (crates : Crates) (libs : List LinkedLibrary) (b : Bytecode) :
    (CompactBytecode.ofBytecode b).linkEach crates libs =
      (b.linkAll crates libs).map fun (linked, b) => (linked, .ofBytecode b) := by
  induction libs generalizing b with
  | nil => rfl
  | cons lib libs ih =>
    obtain ⟨file, library, address⟩ := lib
    rw [CompactBytecode.linkEach, Bytecode.linkAll, CompactBytecode.link, Bytecode.link,
      CompactBytecode.ofBytecode]
    cases eq : linkReferences crates b.object b.linkReferences file library address with
    | none => rfl
    | some result =>
      obtain ⟨linked, object, references⟩ := result
      cases linked with
      | false =>
        have rest := ih { b with object, linkReferences := references }
        rw [CompactBytecode.ofBytecode] at rest
        simp only [Option.bind_eq_bind, Option.bind_some, Option.pure_def, Bool.false_or,
          Bool.false_eq_true, if_false, rest]
        cases ({ b with object, linkReferences := references } : Bytecode).linkAll crates libs <;>
          rfl
      | true =>
        have rest : CompactBytecode.linkEach crates ⟨object, b.sourceMap, references⟩ libs =
            some (!libs.isEmpty, ⟨object, b.sourceMap, references⟩) :=
          linkEach_of_linked (isUnlinked_of_linkReferences eq)
        simp only [Option.bind_eq_bind, Option.bind_some, Option.pure_def, Bool.true_or,
          if_true, rest]
        rfl

/-! ## Any order -/

/-- Bytecode with references that are consistent with its placeholders is linked with a list of
libraries in any order, to the outcome of the list. So is compact bytecode. -/
theorem linkAll_perm (documented : crates.Documented) {sourceMap : Option String}
    (consistent : Consistent crates code references) (given : references.isEmpty = false)
    (noEmpty : references.NoEmpty) (distinct : (libs.map key).Nodup) :
    ∃ linked b', Outcome crates ⟨.unlinked code, sourceMap, references⟩ code libs linked b' ∧
      ∀ libs', libs.Perm libs' →
        Bytecode.linkAll crates ⟨.unlinked code, sourceMap, references⟩ libs' =
          some (linked, b') ∧
        CompactBytecode.linkEach crates ⟨.unlinked code, sourceMap, references⟩ libs' =
          some (linked, .ofBytecode b') := by
  obtain ⟨linked, b', -, outcome⟩ := outcome_linkAll (b := ⟨.unlinked code, sourceMap, references⟩)
    documented distinct rfl consistent noEmpty given
  refine ⟨linked, b', outcome, fun libs' perm => ?_⟩
  have distinct' : (libs'.map key).Nodup := (perm.map key).nodup_iff.mp distinct
  obtain ⟨linked', b'', eq, outcome'⟩ := outcome_linkAll
    (b := ⟨.unlinked code, sourceMap, references⟩) documented distinct' rfl consistent noEmpty given
  rw [← Outcome.unique perm outcome outcome'] at eq
  refine ⟨eq, ?_⟩
  have compact := linkEach_ofBytecode crates libs' ⟨.unlinked code, sourceMap, references⟩
  rw [eq] at compact
  exact compact

/-! ## An object with one library -/

def hexDigit (n : Nat) : UInt8 := if n < 10 then .ofNat (48 + n) else .ofNat (87 + n)

def hexValue (b : UInt8) : Option UInt8 :=
  if 48 ≤ b ∧ b ≤ 57 then some (b - 48)
  else if 65 ≤ b ∧ b ≤ 70 then some (b - 55)
  else if 97 ≤ b ∧ b ≤ 102 then some (b - 87)
  else none

def decodeDigits : Bytes → Option Bytes
  | [] => some []
  | [_] => none
  | b :: c :: rest => do
    let high ← hexValue b
    let low ← hexValue c
    return (high * 16 + low) :: (← decodeDigits rest)

/-- Hex digits as they are written and read, a search that finds all occurrences, and the hash of
`lib2.sol:L`. -/
def oneLibrary : Crates where
  keccak256 _ := [203, 144, 17, 97, 232, 18, 206, 183, 140, 254, 48, 202, 101, 5, 12, 67, 55, 113,
    63, 34, 116, 212, 174, 117, 9, 28, 212, 91, 153, 28, 18, 229]
  formatHex bytes := bytes.flatMap fun b => [hexDigit (b.toNat / 16), hexDigit (b.toNat % 16)]
  decodeHex := decodeDigits
  findIter haystack needle :=
    (List.range haystack.length).filter fun i => Library.OccursAt needle haystack i

theorem isHexDigit_hexDigit : ∀ n < 16, isHexDigit (hexDigit n) := by decide

theorem hexValue_isSome : ∀ b, isHexDigit b → (hexValue b).isSome := by
  intro b digit
  simp only [isHexDigit, Bool.or_eq_true, Bool.and_eq_true, decide_eq_true_eq] at digit
  unfold hexValue
  split_ifs <;> grind

theorem decodeDigits_isSome (text : Bytes) (digits : ∀ b ∈ text, isHexDigit b)
    (even : text.length % 2 = 0) : (decodeDigits text).isSome := by
  induction text using decodeDigits.induct with
  | case1 => rfl
  | case2 b => simp at even
  | case3 b c rest ih =>
    have high := hexValue_isSome b (digits b (by simp))
    have low := hexValue_isSome c (digits c (by simp))
    have tail := ih (fun b mem => digits b (by simp [mem])) (by simp at even; omega)
    obtain ⟨high, eq⟩ := Option.isSome_iff_exists.mp high
    obtain ⟨low, eq'⟩ := Option.isSome_iff_exists.mp low
    obtain ⟨tail, eq''⟩ := Option.isSome_iff_exists.mp tail
    simp [decodeDigits, eq, eq', eq'']

theorem documented_oneLibrary : oneLibrary.Documented where
  length_keccak256 _ := rfl
  length_formatHex bytes := by
    simp only [oneLibrary]
    induction bytes with
    | nil => rfl
    | cons b bytes ih =>
      rw [List.flatMap_cons, List.length_append, ih, List.length_cons]
      grind
  digits_formatHex bytes b mem := by
    obtain ⟨c, -, mem⟩ := List.mem_flatMap.mp mem
    have := c.toNat_lt
    have high := isHexDigit_hexDigit (c.toNat / 16) (by omega)
    have low := isHexDigit_hexDigit (c.toNat % 16) (by omega)
    grind
  decodeHex := decodeDigits_isSome
  findIter haystack needle i mem := by simpa using (List.mem_filter.mp mem).2
  findIter_all haystack needle nonempty _ i occurs := by
    have := occurs.le_length nonempty
    have := List.length_pos_of_ne_nil nonempty
    refine List.mem_filter.mpr ⟨List.mem_range.mpr (by omega), by simpa using occurs⟩

def oneCode : Bytes := utf8 "73__$cb901161e812ceb78cfe30ca65050c4337$__63".toList

theorem needle_ne_nil (placeholder : Bytes) : needle placeholder ≠ [] := by
  simp [needle, utf8]

/-- A placeholder stands inside the code. -/
theorem Marks.lt_length {file library : String} {i : Nat}
    (marks : Marks crates code file library i) : i < code.length := by
  have inside : ∀ placeholder, Library.OccursAt (needle placeholder) code i → i < code.length := by
    intro placeholder occurs
    have within := occurs.le_length (needle_ne_nil placeholder)
    have := List.length_pos_of_ne_nil (needle_ne_nil placeholder)
    omega
  exact marks.elim (inside _) (inside _)

theorem marks_iff_eq {file library : String} {n : Nat} (inside : n < code.length)
    (within : ∀ i < code.length, Marks crates code file library i ↔ i = n) {i : Nat} :
    Marks crates code file library i ↔ i = n := by
  constructor
  · exact fun marks => (within i marks.lt_length).mp marks
  · rintro rfl
    exact (within i inside).mpr rfl

theorem marks_oneCode {i : Nat} : Marks oneLibrary oneCode "lib2.sol" "L" i ↔ i = 2 :=
  marks_iff_eq (by decide +kernel) (by unfold Marks; decide +kernel)

def ones : Address := ⟨List.replicate 20 0x11, rfl⟩

/-! ## An object with two libraries -/

/-- The hashes of `lib1.sol:K` and of `lib2.sol:L`. -/
def twoLibrary : Crates :=
  { oneLibrary with
    keccak256 := fun text =>
      if text = utf8 "lib1.sol:K".toList then
        [168, 241, 23, 58, 69, 76, 84, 226, 132, 190, 52, 195, 117, 50, 48, 254, 83, 145, 37, 148,
          240, 146, 29, 12, 171, 19, 145, 155, 33, 42, 215, 154]
      else oneLibrary.keccak256 text }

theorem documented_twoLibrary : twoLibrary.Documented where
  length_keccak256 text := by
    simp only [twoLibrary]
    split_ifs <;> rfl
  length_formatHex := documented_oneLibrary.length_formatHex
  digits_formatHex := documented_oneLibrary.digits_formatHex
  decodeHex := documented_oneLibrary.decodeHex
  findIter := documented_oneLibrary.findIter
  findIter_all := documented_oneLibrary.findIter_all

def twoReferences : LinkReferences :=
  ((∅ : LinkReferences).insert "lib1.sol"
      ((∅ : ExtTreeMap String (List Offsets)).insert "K" [⟨22, 20⟩])).insert "lib2.sol"
    ((∅ : ExtTreeMap String (List Offsets)).insert "L" [⟨1, 20⟩])

def twoCode : Bytes :=
  utf8 ("73__$cb901161e812ceb78cfe30ca65050c4337$__63" ++
    "__$a8f1173a454c54e284be34c3753230fe53$__").toList

theorem refers_twoReferences {file library : String} :
    twoReferences.Refers file library ↔
      file = "lib2.sol" ∧ library = "L" ∨ file = "lib1.sol" ∧ library = "K" := by
  simp only [twoReferences, LinkReferences.Refers, LinkReferences.offsets,
    Library.getElem?_insert_eq]
  split_ifs with second first
  · simp [second, Library.getElem?_insert_eq]
  · simp [first, Library.getElem?_insert_eq]
  · simp [second, first]

/-- Two placeholders, and hex digits around them. -/
theorem places_twoCode : twoCode.length = 84 ∧ ∀ i < 84,
    (Marks twoLibrary twoCode "lib2.sol" "L" i ↔ i = 2) ∧
    (Marks twoLibrary twoCode "lib1.sol" "K" i ↔ i = 44) ∧
    (twoCode[i]?.all isHexDigit ∨ 2 ≤ i ∧ i < 2 + 40 ∨ 44 ≤ i ∧ i < 44 + 40) := by
  unfold Marks
  decide +kernel

theorem length_twoCode : twoCode.length = 84 := places_twoCode.1

theorem marks_second {i : Nat} : Marks twoLibrary twoCode "lib2.sol" "L" i ↔ i = 2 :=
  marks_iff_eq (by simp [length_twoCode]) fun i lt => (places_twoCode.2 i (length_twoCode ▸ lt)).1

theorem marks_first {i : Nat} : Marks twoLibrary twoCode "lib1.sol" "K" i ↔ i = 44 :=
  marks_iff_eq (by simp [length_twoCode]) fun i lt =>
    (places_twoCode.2 i (length_twoCode ▸ lt)).2.1

theorem consistent_twoReferences : Consistent twoLibrary twoCode twoReferences where
  ascii file library refers c mem := by
    have small : ("lib2.sol" ++ ":" ++ "L").toList.all (·.toNat ≤ 127) ∧
        ("lib1.sol" ++ ":" ++ "K").toList.all (·.toNat ≤ 127) := by simp
    rcases refers_twoReferences.mp refers with ⟨rfl, rfl⟩ | ⟨rfl, rfl⟩
    · exact UInt32.le_iff_toNat_le.mpr (by simpa using List.all_eq_true.mp small.1 c mem)
    · exact UInt32.le_iff_toNat_le.mpr (by simpa using List.all_eq_true.mp small.2 c mem)
  apart file library i file' library' j refers refers' mark mark' := by
    rcases refers_twoReferences.mp refers with ⟨rfl, rfl⟩ | ⟨rfl, rfl⟩ <;>
      rcases refers_twoReferences.mp refers' with ⟨rfl, rfl⟩ | ⟨rfl, rfl⟩ <;>
      simp only [marks_second, marks_first] at mark mark' <;> subst mark mark'
    · exact .inl rfl
    · exact .inr (.inl (by decide))
    · exact .inr (.inr (by decide))
    · exact .inl rfl
  digits p b at_p := by
    have lt : p < 84 := length_twoCode ▸ (List.getElem?_eq_some_iff.mp at_p).1
    rcases (places_twoCode.2 p lt).2.2 with digit | second | first
    · exact .inl (by simpa [at_p] using digit)
    · exact .inr ⟨_, _, 2, refers_twoReferences.mpr (.inl ⟨rfl, rfl⟩), marks_second.mpr rfl, second⟩
    · exact .inr ⟨_, _, 44, refers_twoReferences.mpr (.inr ⟨rfl, rfl⟩), marks_first.mpr rfl, first⟩
  even := by simp [length_twoCode]

theorem noEmpty_twoReferences : twoReferences.NoEmpty := by
  intro file contracts at_file
  simp only [twoReferences, Library.getElem?_insert_eq] at at_file
  split_ifs at at_file
  · cases at_file
    simp
  · cases at_file
    simp
  · simp at at_file

/-- Both libraries of an object, and one of them beside a library that it does not refer to. -/
theorem linkAll_perm_twoLibraries :
    (∃ linked b', Outcome twoLibrary ⟨.unlinked twoCode, none, twoReferences⟩ twoCode
        [("lib1.sol", "K", ones), ("lib2.sol", "L", ones)] linked b' ∧
      ∀ libs', [("lib1.sol", "K", ones), ("lib2.sol", "L", ones)].Perm libs' →
        Bytecode.linkAll twoLibrary ⟨.unlinked twoCode, none, twoReferences⟩ libs' =
          some (linked, b') ∧
        CompactBytecode.linkEach twoLibrary ⟨.unlinked twoCode, none, twoReferences⟩ libs' =
          some (linked, .ofBytecode b')) ∧
    ∃ linked b', Outcome twoLibrary ⟨.unlinked twoCode, none, twoReferences⟩ twoCode
        [("lib3.sol", "M", ones), ("lib2.sol", "L", ones)] linked b' ∧
      ∀ libs', [("lib3.sol", "M", ones), ("lib2.sol", "L", ones)].Perm libs' →
        Bytecode.linkAll twoLibrary ⟨.unlinked twoCode, none, twoReferences⟩ libs' =
          some (linked, b') ∧
        CompactBytecode.linkEach twoLibrary ⟨.unlinked twoCode, none, twoReferences⟩ libs' =
          some (linked, .ofBytecode b') :=
  ⟨linkAll_perm documented_twoLibrary consistent_twoReferences (by simp [twoReferences])
      noEmpty_twoReferences (by simp [key]),
    linkAll_perm documented_twoLibrary consistent_twoReferences (by simp [twoReferences])
      noEmpty_twoReferences (by simp [key])⟩

/-- Any references to no library are consistent with an object without placeholders. -/
theorem consistent_of_no_library (noneEq : ∀ file library, ¬ references.Refers file library) :
    Consistent oneLibrary (utf8 "6000".toList) references ∧ Covers references libs := by
  refine ⟨⟨?_, ?_, ?_, by decide⟩, ?_⟩
  · exact fun file library refers => absurd refers (noneEq file library)
  · exact fun file library _ _ _ _ refers => absurd refers (noneEq file library)
  · intro p b getEq
    have each : (utf8 "6000".toList).all isHexDigit := by decide
    exact .inl (List.all_eq_true.mp each b (List.mem_of_getElem? getEq))
  · exact fun file library refers => absurd refers (noneEq file library)

def noLibrary : LinkReferences := (∅ : LinkReferences).insert "a.sol" ∅

/-- An object without references is not reported as linked, though any list covers them, and
neither is one with a file without libraries. -/
theorem not_linked_of_no_references :
    ((Consistent oneLibrary (utf8 "6000".toList) ∅ ∧ Covers ∅ [("lib2.sol", "L", ones)]) ∧
      (Bytecode.linkAll oneLibrary ⟨.unlinked (utf8 "6000".toList), none, ∅⟩
        [("lib2.sol", "L", ones)]).map (·.1) = some false) ∧
    (Consistent oneLibrary (utf8 "6000".toList) noLibrary ∧
        Covers noLibrary [("lib2.sol", "L", ones)]) ∧
      (Bytecode.linkAll oneLibrary ⟨.unlinked (utf8 "6000".toList), none, noLibrary⟩
        [("lib2.sol", "L", ones)]).map (·.1) = some false := by
  refine ⟨⟨consistent_of_no_library ?_, rfl⟩, consistent_of_no_library ?_, rfl⟩
  · simp [LinkReferences.Refers, LinkReferences.offsets]
  · intro file library
    simp only [LinkReferences.Refers, LinkReferences.offsets, noLibrary,
      Library.getElem?_insert_eq]
    split_ifs <;> simp

end FoundryCore.Linking
