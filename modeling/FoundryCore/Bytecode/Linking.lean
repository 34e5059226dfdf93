import FoundryCore.Bytecode.Basic

/-!
# Linking in any order

The references of an unlinked object are consistent with its placeholders if everything in it but
the placeholders of these libraries is hex digits. Linking a library then leaves the placeholders
of the other ones as they are. What a list of libraries makes of the object and its references can
be said without the order of the list.
-/

open Std

namespace FoundryCore.Linking

open Library (OccursAt Overwritten Apart)

variable {crates : Crates} {code code' : Bytes} {references : LinkReferences}
  {file library file' library' : String} {address : Address} {libs libs' : List LinkedLibrary}

/-! ## References and placeholders -/

/-- What is known about a library that is referred to. -/
def LinkReferences.offsets (references : LinkReferences) (file library : String) :
    Option (List Offsets) :=
  references[file]?.bind (·[library]?)

/-- The object refers to the library. -/
def LinkReferences.Refers (references : LinkReferences) (file library : String) : Prop :=
  (references.offsets file library).isSome

/-- No file is left without a library. -/
def LinkReferences.NoEmpty (references : LinkReferences) : Prop :=
  ∀ (file : String) (contracts : ExtTreeMap String (List Offsets)),
    references[file]? = some contracts → contracts.isEmpty = false

/-- A placeholder of the library stands at a position of the code. -/
def Marks (crates : Crates) (code : Bytes) (file library : String) (i : Nat) : Prop :=
  OccursAt (hashNeedle crates (file ++ ":" ++ library)) code i ∨
    OccursAt (fullyQualifiedNeedle (file ++ ":" ++ library)) code i

/-- A placeholder of the name stands at a position of the code. -/
def MarksName (crates : Crates) (code : Bytes) (name : String) (i : Nat) : Prop :=
  OccursAt (hashNeedle crates name) code i ∨ OccursAt (fullyQualifiedNeedle name) code i

/-- The references are consistent with the placeholders in the code: names are ASCII, no place
belongs to two of them, and everything else is hex digits. -/
structure Consistent (crates : Crates) (code : Bytes) (references : LinkReferences) : Prop where
  ascii : ∀ file library, references.Refers file library →
    ∀ c ∈ (file ++ ":" ++ library).toList, c.val ≤ 127
  apart : ∀ file library i file' library' j, references.Refers file library →
    references.Refers file' library' → Marks crates code file library i →
    Marks crates code file' library' j →
    (file, library, i) = (file', library', j) ∨ Apart 40 i j
  digits : ∀ p b, code[p]? = some b → isHexDigit b ∨
    ∃ file library i, references.Refers file library ∧ Marks crates code file library i ∧
      i ≤ p ∧ p < i + 40
  even : code.length % 2 = 0

/-- All libraries that are referred to are in the list. -/
def Covers (references : LinkReferences) (libs : List LinkedLibrary) : Prop :=
  ∀ file library, references.Refers file library → ∃ address, (file, library, address) ∈ libs

/-- The addresses that a list of libraries brings into the code. -/
def slots (crates : Crates) (code : Bytes) (references : LinkReferences)
    (libs : List LinkedLibrary) (i : Nat) (new : Bytes) : Prop :=
  ∃ file library address, (file, library, address) ∈ libs ∧ references.Refers file library ∧
    Marks crates code file library i ∧ new = crates.formatHex address.1

/-! ## One library -/

theorem length_utf8 {text : List Char} (ascii : ∀ c ∈ text, c.val ≤ 127) :
    (utf8 text).length = text.length := by
  induction text with
  | nil => rfl
  | cons c text ih =>
    have one : c.utf8Size = 1 := Char.utf8Size_eq_one_iff.mpr (ascii c (.head _))
    have rest := ih fun c mem => ascii c (.tail _ mem)
    rw [utf8] at rest
    rw [utf8, List.flatMap_cons, List.length_append, String.length_utf8EncodeChar, one, rest,
      List.length_cons, Nat.add_comm]

theorem length_needle {placeholder : Bytes} (length : placeholder.length = 36) :
    (needle placeholder).length = 40 := by
  have ends : (utf8 ['_', '_']).length = 2 := by decide
  rw [needle, List.length_append, List.length_append, ends, length]

theorem needle_ends {placeholder : Bytes} (length : placeholder.length = 36) :
    (needle placeholder)[0]? = some 95 ∧
      (needle placeholder)[(needle placeholder).length - 1]? = some 95 := by
  have ends : utf8 ['_', '_'] = [95, 95] := by decide
  rw [length_needle length, needle, ends]
  constructor
  · rfl
  · rw [List.getElem?_append_right (by simp [length])]
    simp [length]

theorem length_libraryHashPlaceholder (documented : crates.Documented) (name : String) :
    (libraryHashPlaceholder crates name).length = 36 := by
  have dollar : (utf8 ['$']).length = 1 := by decide
  have hash : (libraryHash crates name).length = 17 := by
    rw [libraryHash, List.length_take, documented.length_keccak256]
    rfl
  rw [libraryHashPlaceholder, List.length_append, List.length_append, dollar,
    documented.length_formatHex, hash]

theorem length_libraryFullyQualifiedPlaceholder {name : String}
    (ascii : ∀ c ∈ name.toList, c.val ≤ 127) :
    (utf8 (libraryFullyQualifiedPlaceholder name)).length = 36 := by
  rw [length_utf8]
  · rw [libraryFullyQualifiedPlaceholder, List.length_take, List.length_append,
      List.length_replicate]
    omega
  · intro c mem
    rcases List.mem_append.mp (List.mem_of_mem_take mem) with mem | mem
    · exact ascii c mem
    · rw [List.eq_of_mem_replicate mem]
      decide

theorem length_formatHex_address (documented : crates.Documented) (address : Address) :
    (crates.formatHex address.1).length = 40 := by
  rw [documented.length_formatHex, address.2]

/-- The underscore of a placeholder is no part of an address. -/
theorem notMem_formatHex (documented : crates.Documented) (address : Address) :
    (95 : UInt8) ∉ crates.formatHex address.1 := by
  intro mem
  exact absurd (documented.digits_formatHex _ _ mem) (by decide)

/-- The two texts that mark a library are found by are as long as an address, and begin and end
with an underscore. -/
theorem needles_spec (documented : crates.Documented) {name : String}
    (ascii : ∀ c ∈ name.toList, c.val ≤ 127) {text : Bytes}
    (isNeedle : text = hashNeedle crates name ∨ text = fullyQualifiedNeedle name) :
    text.length = 40 ∧ text[0]? = some 95 ∧ text[text.length - 1]? = some 95 := by
  rcases isNeedle with rfl | rfl
  · have length := length_libraryHashPlaceholder documented name
    exact ⟨length_needle length, needle_ends length⟩
  · have length := length_libraryFullyQualifiedPlaceholder ascii
    exact ⟨length_needle length, needle_ends length⟩

/-- The addresses are written over all placeholders of a name, if they are as long as an address and
apart from each other. -/
theorem link_overwritten (documented : crates.Documented)
    (full : (fullyQualifiedNeedle name).length = 40)
    (apart : ∀ i j, MarksName crates code name i → MarksName crates code name j →
      i = j ∨ Apart 40 i j) (address : Address) :
    ∃ code', link crates code name address = some code' ∧
      Overwritten (fun i new => MarksName crates code name i ∧
        new = crates.formatHex address.1) code code' := by
  have hash : (hashNeedle crates name).length = 40 :=
    length_needle (length_libraryHashPlaceholder documented name)
  have found : ∀ i, i ∈ crates.findIter code (hashNeedle crates name) ++
      crates.findIter code (fullyQualifiedNeedle name) ↔ MarksName crates code name i := by
    intro i
    rw [List.mem_append]
    constructor
    · exact Or.imp (documented.findIter _ _ i) (documented.findIter _ _ i)
    · refine Or.imp (documented.findIter_all _ _ ?_ ?_ i) (documented.findIter_all _ _ ?_ ?_ i)
      · intro nil
        simp [nil] at hash
      · intro i j occurs occurs'
        rw [hash]
        exact apart i j (.inl occurs) (.inl occurs')
      · intro nil
        simp [nil] at full
      · intro i j occurs occurs'
        rw [full]
        exact apart i j (.inr occurs) (.inr occurs')
  have length := length_formatHex_address documented address
  by_cases noneEq : (crates.findIter code (hashNeedle crates name) ++
      crates.findIter code (fullyQualifiedNeedle name)).isEmpty
  · refine ⟨code, by simp [link, hash, full, noneEq], .refl fun i new slot => ?_⟩
    rw [← found, List.isEmpty_iff.mp noneEq] at slot
    exact absurd slot.1 (List.not_mem_nil)
  · have fits : ∀ i ∈ crates.findIter code (hashNeedle crates name) ++
        crates.findIter code (fullyQualifiedNeedle name),
          i + (crates.formatHex address.1).length ≤ code.length := by
      intro i mem
      rw [length]
      rcases (found i).mp mem with occurs | occurs
      · have := occurs.le_length (by intro nil; simp [nil] at hash)
        omega
      · have := occurs.le_length (by intro nil; simp [nil] at full)
        omega
    obtain ⟨code', eq, changed⟩ := Library.overwritten_foldlM fits fun i mem j mem' => by
      rw [length]
      exact apart i j ((found i).mp mem) ((found j).mp mem')
    refine ⟨code', ?_, changed.mono fun i new => by rw [found]⟩
    simpa [link, hash, full, noneEq, length] using eq

/-- Linking a library writes its address over its placeholders. -/
theorem link_spec (address : Address) (documented : crates.Documented)
    (consistent : Consistent crates code references) (refers : references.Refers file library) :
    ∃ code', link crates code (file ++ ":" ++ library) address = some code' ∧
      Overwritten (fun i new => Marks crates code file library i ∧
        new = crates.formatHex address.1) code code' := by
  have ascii := consistent.ascii file library refers
  have full : (fullyQualifiedNeedle (file ++ ":" ++ library)).length = 40 :=
    (needles_spec documented ascii (.inr rfl)).1
  refine link_overwritten documented full (fun i j mark mark' => ?_) address
  rcases consistent.apart _ _ i _ _ j refers refers mark mark' with same | apart
  · exact .inl (by simpa using same)
  · exact .inr apart

/-- The placeholders of another library stay where they are. -/
theorem marks_iff (documented : crates.Documented) (consistent : Consistent crates code references)
    {slots : Nat → Bytes → Prop} (changed : Overwritten slots code code')
    (refers : references.Refers file library)
    (others : ∀ j new, slots j new → ∃ (file' library' : String) (address : Address),
      (file', library') ≠ (file, library) ∧ references.Refers file' library' ∧
      Marks crates code file' library' j ∧ new = crates.formatHex address.1) (i : Nat) :
    Marks crates code' file library i ↔ Marks crates code file library i := by
  have ascii := consistent.ascii file library refers
  have each : ∀ text, (text = hashNeedle crates (file ++ ":" ++ library) ∨
      text = fullyQualifiedNeedle (file ++ ":" ++ library)) →
        (OccursAt text code i → Marks crates code file library i) →
        (OccursAt text code' i ↔ OccursAt text code i) := by
    intro text isNeedle mark
    obtain ⟨length, first, last⟩ := needles_spec documented ascii isNeedle
    refine Library.occursAt_iff_of_overwritten changed ?_ first last ?_
    · intro j new slot
      obtain ⟨_, _, address, -, -, -, rfl⟩ := others j new slot
      rw [length]
      exact ⟨length_formatHex_address documented address, notMem_formatHex documented address⟩
    · intro occurs j new slot
      obtain ⟨file', library', address, other, refers', mark', -⟩ := others j new slot
      rw [length]
      rcases consistent.apart _ _ i _ _ j refers refers' (mark occurs) mark' with same | apart
      · simp only [Prod.mk.injEq] at same
        exact absurd (Prod.ext same.1.symm same.2.1.symm) other
      · exact apart
  exact or_congr (each _ (.inl rfl) .inl) (each _ (.inr rfl) .inr)

/-! ## The references that are left -/

namespace LinkReferences

variable {other : LinkReferences}

/-- The references but the one to a library. -/
def without (references : LinkReferences) (file library : String) : LinkReferences :=
  match references[file]? with
  | none => references
  | some contracts =>
    let contracts := contracts.erase library
    let references := references.erase file
    if contracts.isEmpty then references else references.insert file contracts

theorem offsets_without : (references.without file library).offsets file' library' =
    if (file', library') = (file, library) then none else references.offsets file' library' := by
  unfold without
  cases getEq : references[file]? with
  | none =>
    split_ifs with same
    · cases same
      simp [offsets, getEq]
    · rfl
  | some contracts =>
    by_cases sameFile : file' = file
    · subst sameFile
      by_cases empty : (contracts.erase library).isEmpty
      · have gone : (contracts.erase library)[library']? = none := by
          rw [ExtTreeMap.isEmpty_iff.mp empty]
          simp
        rw [Library.getElem?_erase_eq] at gone
        simp only [empty, if_true, offsets, Library.getElem?_erase_eq, getEq, Option.bind_none,
          Option.bind_some, Prod.mk.injEq, true_and]
        split_ifs at gone ⊢
        · rfl
        · exact gone.symm
      · simp [empty, offsets, getEq, Library.getElem?_erase_eq]
    · by_cases empty : (contracts.erase library).isEmpty
      · simp [empty, offsets, Library.getElem?_erase_eq, sameFile]
      · simp [empty, offsets, Library.getElem?_insert_eq, Library.getElem?_erase_eq, sameFile]

theorem refers_without : (references.without file library).Refers file' library' ↔
    references.Refers file' library' ∧ (file', library') ≠ (file, library) := by
  rw [Refers, Refers, offsets_without]
  split_ifs with same <;> simp [same]

theorem NoEmpty.without (noEmpty : references.NoEmpty) :
    (references.without file library).NoEmpty := by
  intro file' contracts' getEq'
  unfold LinkReferences.without at getEq'
  cases getEq : references[file]? with
  | none =>
    rw [getEq] at getEq'
    exact noEmpty file' contracts' getEq'
  | some contracts =>
    rw [getEq] at getEq'
    by_cases empty : (contracts.erase library).isEmpty
    · simp only [empty, if_true, Library.getElem?_erase_eq] at getEq'
      split_ifs at getEq'
      exact noEmpty file' contracts' getEq'
    · simp only [empty, Bool.false_eq_true, if_false, Library.getElem?_insert_eq,
        Library.getElem?_erase_eq] at getEq'
      split_ifs at getEq'
      · cases getEq'
        simpa using empty
      · exact noEmpty file' contracts' getEq'

/-- References without empty files are determined by what is known about each library. -/
theorem NoEmpty.ext (noEmpty : references.NoEmpty) (noEmpty' : other.NoEmpty)
    (same : ∀ file library, references.offsets file library = other.offsets file library) :
    references = other := by
  apply ExtTreeMap.ext_getElem?
  intro file
  have same := same file
  simp only [offsets] at same
  cases getEq : references[file]? with
  | none =>
    cases getEq' : other[file]? with
    | none => rfl
    | some contracts' =>
      obtain ⟨library, at_lib, someEq⟩ :=
        Library.exists_getElem?_of_isEmpty (noEmpty' file contracts' getEq')
      have := same library
      simp_all
  | some contracts =>
    cases getEq' : other[file]? with
    | none =>
      obtain ⟨library, at_lib, someEq⟩ :=
        Library.exists_getElem?_of_isEmpty (noEmpty file contracts getEq)
      have := same library
      simp_all
    | some contracts' =>
      congr 1
      apply ExtTreeMap.ext_getElem?
      intro library
      simpa [getEq, getEq'] using same library

theorem NoEmpty.isEmpty_iff (noEmpty : references.NoEmpty) :
    references.isEmpty ↔ ∀ file library, ¬ references.Refers file library := by
  rw [ExtTreeMap.isEmpty_iff]
  constructor
  · rintro rfl file library
    simp [Refers, offsets]
  · intro noneEq
    refine noEmpty.ext (fun file contracts getEq => ?_) fun file library => ?_
    · simp at getEq
    · have := noneEq file library
      simp_all [Refers, offsets]

end LinkReferences

/-! ## One step -/

theorem slots_singleton {i : Nat} {new : Bytes} :
    slots crates code references [(file, library, address)] i new ↔
      references.Refers file library ∧ Marks crates code file library i ∧
        new = crates.formatHex address.1 := by
  constructor
  · rintro ⟨file', library', address', mem, slot⟩
    cases List.mem_singleton.mp mem
    exact slot
  · exact fun slot => ⟨file, library, address, .head _, slot⟩

theorem Consistent.without (documented : crates.Documented)
    (consistent : Consistent crates code references)
    (changed : Overwritten (slots crates code references [(file, library, address)]) code code') :
    (∀ file' library' i, (references.without file library).Refers file' library' →
      (Marks crates code' file' library' i ↔ Marks crates code file' library' i)) ∧
    Consistent crates code' (references.without file library) := by
  have kept : ∀ file' library' i, (references.without file library).Refers file' library' →
      (Marks crates code' file' library' i ↔ Marks crates code file' library' i) := by
    intro file' library' i refers
    obtain ⟨refers, other⟩ := LinkReferences.refers_without.mp refers
    refine marks_iff documented consistent changed refers ?_ i
    intro j new slot
    obtain ⟨refers₁, mark, rfl⟩ := slots_singleton.mp slot
    exact ⟨_, _, _, Ne.symm other, refers₁, mark, rfl⟩
  refine ⟨kept, ?_, ?_, ?_, ?_⟩
  · intro file' library' refers
    exact consistent.ascii _ _ (LinkReferences.refers_without.mp refers).1
  · intro file₁ library₁ i file₂ library₂ j refers refers' mark mark'
    rw [kept _ _ _ refers] at mark
    rw [kept _ _ _ refers'] at mark'
    exact consistent.apart _ _ _ _ _ _ (LinkReferences.refers_without.mp refers).1
      (LinkReferences.refers_without.mp refers').1 mark mark'
  · intro p b getEq
    by_cases inside : ∃ i, references.Refers file library ∧ Marks crates code file library i ∧
        i ≤ p ∧ p < i + 40
    · obtain ⟨i, refers, mark, le, lt⟩ := inside
      have position : i + (p - i) = p := by omega
      have length := length_formatHex_address documented address
      have new := changed.new i _ (slots_singleton.mpr ⟨refers, mark, rfl⟩) (p - i) (by omega)
      rw [position, getEq] at new
      exact .inl (documented.digits_formatHex _ _ (List.mem_of_getElem? new.symm))
    · have same := changed.kept p ?_
      · rw [getEq] at same
        rcases consistent.digits p b same.symm with digit | ⟨file', library', i, refers, mark, lt⟩
        · exact .inl digit
        · have left : (references.without file library).Refers file' library' := by
            refine LinkReferences.refers_without.mpr ⟨refers, ?_⟩
            rintro same
            cases same
            exact inside ⟨i, refers, mark, lt⟩
          exact .inr ⟨file', library', i, left, (kept _ _ _ left).mpr mark, lt⟩
      · intro i new slot
        obtain ⟨refers, mark, rfl⟩ := slots_singleton.mp slot
        rw [length_formatHex_address documented]
        by_contra within
        exact inside ⟨i, refers, mark, by omega, by omega⟩
  · rw [changed.length]
    exact consistent.even

/-- An object whose references are all linked can be decoded. -/
theorem Consistent.decodeHex (documented : crates.Documented)
    (consistent : Consistent crates code references) (noEmpty : references.NoEmpty)
    (noneEq : references.isEmpty) : (crates.decodeHex code).isSome := by
  refine documented.decodeHex code (fun b mem => ?_) consistent.even
  obtain ⟨p, getEq⟩ := List.getElem?_of_mem mem
  rcases consistent.digits p b getEq with digit | ⟨file, library, i, refers, -⟩
  · exact digit
  · exact absurd refers (noEmpty.isEmpty_iff.mp noneEq file library)

/-- What a call makes of an unlinked object. -/
theorem linkReferences_spec (file library : String) (address : Address)
    (documented : crates.Documented)
    (consistent : Consistent crates code references) (noEmpty : references.NoEmpty)
    (given : references.isEmpty = false) :
    ∃ code', Overwritten (slots crates code references [(file, library, address)]) code code' ∧
      ((references.without file library).isEmpty = true → ∃ bytes,
        crates.decodeHex code' = some bytes ∧
        linkReferences crates (.unlinked code) references file library address =
          some (true, .bytecode bytes, references.without file library)) ∧
      ((references.without file library).isEmpty = false →
        linkReferences crates (.unlinked code) references file library address =
          some (false, .unlinked code', references.without file library)) := by
  cases getEq : references[file]? with
  | none =>
    have same : references.without file library = references := by
      rw [LinkReferences.without, getEq]
    refine ⟨code, .refl ?_, ?_, ?_⟩
    · intro i new slot
      have refers := (slots_singleton.mp slot).1
      simp [LinkReferences.Refers, LinkReferences.offsets, getEq] at refers
    · simp [same, given]
    · intro _
      simp [linkReferences, BytecodeObject.isUnlinked, getEq, same]
  | some contracts =>
    have step : ∃ code', Overwritten (slots crates code references [(file, library, address)])
        code code' ∧ (if library ∈ contracts then
          BytecodeObject.link crates file library address (.unlinked code)
          else some (.unlinked code)) = some (.unlinked code') := by
      by_cases mem : library ∈ contracts
      · have refers : references.Refers file library := by
          simpa [LinkReferences.Refers, LinkReferences.offsets, getEq] using mem
        obtain ⟨code', eq, changed⟩ := link_spec address documented consistent refers
        refine ⟨code', changed.mono fun i new => ?_, ?_⟩
        · rw [slots_singleton, and_iff_right refers]
        · simp [mem, BytecodeObject.link, BytecodeObject.linkFullyQualified, eq]
      · refine ⟨code, .refl ?_, by rw [if_neg mem]⟩
        intro i new slot
        have refers := (slots_singleton.mp slot).1
        have := ExtTreeMap.mem_iff_isSome_getElem?.not.mp mem
        simp [LinkReferences.Refers, LinkReferences.offsets, getEq, this] at refers
    obtain ⟨code', changed, eq⟩ := step
    have rest : (if (contracts.erase library).isEmpty then references.erase file
        else (references.erase file).insert file (contracts.erase library)) =
          references.without file library := by
      rw [LinkReferences.without, getEq]
    refine ⟨code', changed, ?_, ?_⟩
    · intro empty
      obtain ⟨bytes, decoded⟩ := Option.isSome_iff_exists.mp
        ((consistent.without documented changed).2.decodeHex documented noEmpty.without empty)
      refine ⟨bytes, decoded, ?_⟩
      simp only [linkReferences, BytecodeObject.isUnlinked, getEq, eq, rest, empty]
      simp [BytecodeObject.resolve, decoded, BytecodeObject.asBytes]
    · intro someEq
      simp only [linkReferences, BytecodeObject.isUnlinked, getEq, eq, rest, someEq]
      simp

/-! ## A list of libraries -/

/-- What identifies a library in a list. -/
def key (lib : LinkedLibrary) : String × String := (lib.1, lib.2.1)

/-- What linking a list of libraries makes of an object with the given code. -/
structure Outcome (crates : Crates) (b : Bytecode) (code : Bytes) (libs : List LinkedLibrary)
    (linked : Bool) (b' : Bytecode) : Prop where
  linked_iff : linked = true ↔ Covers b.linkReferences libs
  /-- The addresses are in the code, which is decoded if it is fully linked. -/
  object : ∃ code', Overwritten (slots crates code b.linkReferences libs) code code' ∧
    (linked = true → ∃ bytes, crates.decodeHex code' = some bytes ∧ b'.object = .bytecode bytes) ∧
    (linked = false → b'.object = .unlinked code') ∧
    ∀ file library i, b.linkReferences.Refers file library → (file, library) ∉ libs.map key →
      (Marks crates code' file library i ↔ Marks crates code file library i)
  references : ∀ file library, b'.linkReferences.offsets file library =
    if (file, library) ∈ libs.map key then none else b.linkReferences.offsets file library
  noEmpty : b'.linkReferences.NoEmpty
  sourceMap : b'.sourceMap = b.sourceMap

theorem mem_key : (file, library) ∈ libs.map key ↔ ∃ address, (file, library, address) ∈ libs := by
  simp only [List.mem_map, key, Prod.mk.injEq]
  constructor
  · rintro ⟨⟨_, _, address⟩, mem, rfl, rfl⟩
    exact ⟨address, mem⟩
  · rintro ⟨address, mem⟩
    exact ⟨_, mem, rfl, rfl⟩

/-- The libraries behind the first one find the same placeholders without it. -/
theorem slots_cons {i : Nat} {new : Bytes} (fresh : (file, library) ∉ libs.map key)
    (kept : ∀ file' library' i, (references.without file library).Refers file' library' →
      (Marks crates code' file' library' i ↔ Marks crates code file' library' i)) :
    slots crates code references ((file, library, address) :: libs) i new ↔
      slots crates code references [(file, library, address)] i new ∨
        slots crates code' (references.without file library) libs i new := by
  have left : ∀ file' library' address', (file', library', address') ∈ libs →
      ((references.without file library).Refers file' library' ↔
        references.Refers file' library') := by
    intro file' library' address' mem
    rw [LinkReferences.refers_without, and_iff_left]
    rintro same
    exact fresh (same ▸ mem_key.mpr ⟨address', mem⟩)
  constructor
  · rintro ⟨file', library', address', mem, refers, mark, newEq⟩
    rcases List.mem_cons.mp mem with same | mem
    · exact .inl ⟨file', library', address', same ▸ .head _, refers, mark, newEq⟩
    · have refers' := (left _ _ _ mem).mpr refers
      exact .inr ⟨file', library', address', mem, refers', (kept _ _ _ refers').mpr mark, newEq⟩
  · rintro (slot | ⟨file', library', address', mem, refers, mark, newEq⟩)
    · exact ⟨file, library, address, .head _, slots_singleton.mp slot⟩
    · exact ⟨file', library', address', .tail _ mem, (left _ _ _ mem).mp refers,
        (kept _ _ _ refers).mp mark, newEq⟩

theorem covers_cons :
    Covers references ((file, library, address) :: libs) ↔
      Covers (references.without file library) libs := by
  constructor
  · intro covers file' library' refers
    obtain ⟨refers, other⟩ := LinkReferences.refers_without.mp refers
    obtain ⟨address', mem⟩ := covers file' library' refers
    rcases List.mem_cons.mp mem with same | mem
    · cases same
      exact absurd rfl other
    · exact ⟨address', mem⟩
  · intro covers file' library' refers
    by_cases same : (file', library') = (file, library)
    · cases same
      exact ⟨address, .head _⟩
    · obtain ⟨address', mem⟩ :=
        covers file' library' (LinkReferences.refers_without.mpr ⟨refers, same⟩)
      exact ⟨address', .tail _ mem⟩

/-- The slots of two different libraries do not overlap. -/
theorem slots_apart (documented : crates.Documented)
    (consistent : Consistent crates code references)
    (kept : ∀ file' library' i, (references.without file library).Refers file' library' →
      (Marks crates code' file' library' i ↔ Marks crates code file' library' i))
    {i j : Nat} {new new' : Bytes}
    (slot : slots crates code references [(file, library, address)] i new)
    (slot' : slots crates code' (references.without file library) libs j new') :
    i + new.length ≤ j ∨ j + new'.length ≤ i := by
  obtain ⟨refers, mark, rfl⟩ := slots_singleton.mp slot
  obtain ⟨file', library', address', -, refers', mark', rfl⟩ := slot'
  rw [length_formatHex_address documented, length_formatHex_address documented]
  rw [kept _ _ _ refers'] at mark'
  obtain ⟨refers', other⟩ := LinkReferences.refers_without.mp refers'
  rcases consistent.apart _ _ i _ _ j refers refers' mark mark' with same | apart
  · simp only [Prod.mk.injEq] at same
    exact absurd (Prod.ext same.1.symm same.2.1.symm) other
  · exact apart

/-- Linking a list of libraries, by what it does to the object and its references. -/
theorem outcome_linkAll (documented : crates.Documented) {b : Bytecode}
    (distinct : (libs.map key).Nodup) (unlinked : b.object = .unlinked code)
    (consistent : Consistent crates code b.linkReferences) (noEmpty : b.linkReferences.NoEmpty)
    (given : b.linkReferences.isEmpty = false) :
    ∃ linked b', b.linkAll crates libs = some (linked, b') ∧
      Outcome crates b code libs linked b' := by
  induction libs generalizing b code with
  | nil =>
    refine ⟨false, b, rfl, ?_, ⟨code, .refl ?_, by simp, fun _ => unlinked, by simp⟩, by simp,
      noEmpty, rfl⟩
    · simp only [Bool.false_eq_true, false_iff]
      intro covers
      have noneEq := noEmpty.isEmpty_iff.mpr fun file library refers => by
        simpa using covers file library refers
      simp [given] at noneEq
    · rintro i new ⟨file, library, address, mem, -⟩
      simp at mem
  | cons lib libs ih =>
    obtain ⟨file, library, address⟩ := lib
    obtain ⟨fresh, distinct⟩ := List.nodup_cons.mp distinct
    obtain ⟨code₁, changed, done, more⟩ :=
      linkReferences_spec file library address documented consistent noEmpty given
    obtain ⟨kept, consistent₁⟩ := consistent.without documented changed
    have all : ∀ i new, slots crates code b.linkReferences [(file, library, address)] i new ∨
        slots crates code₁ (b.linkReferences.without file library) libs i new ↔
          slots crates code b.linkReferences ((file, library, address) :: libs) i new :=
      fun i new => (slots_cons fresh kept).symm
    cases empty : (b.linkReferences.without file library).isEmpty with
    | true =>
      obtain ⟨bytes, decoded, eq⟩ := done empty
      have noneEq := noEmpty.without.isEmpty_iff.mp empty
      have step : b.linkAll crates ((file, library, address) :: libs) =
          some (true, ⟨.bytecode bytes, b.sourceMap, b.linkReferences.without file library⟩) := by
        simp [Bytecode.linkAll, Bytecode.link, unlinked, eq]
      refine ⟨_, _, step, ?_, ⟨code₁, ?_, ?_⟩, ?_, noEmpty.without, rfl⟩
      · rw [covers_cons]
        exact iff_of_true rfl fun file' library' refers => absurd refers (noneEq file' library')
      · refine changed.mono fun i new => ?_
        rw [← all, or_iff_left]
        rintro ⟨file', library', _, -, refers, -⟩
        exact noneEq file' library' refers
      · refine ⟨fun _ => ⟨bytes, decoded, rfl⟩, by simp, fun file' library' i refers out => ?_⟩
        refine kept file' library' i (LinkReferences.refers_without.mpr ⟨refers, ?_⟩)
        rintro same
        exact out (same ▸ .head _)
      · intro file' library'
        have gone := noneEq file' library'
        rw [LinkReferences.Refers, Bool.not_eq_true, Option.isSome_eq_false_iff,
          Option.isNone_iff_eq_none] at gone
        split_ifs with mem
        · exact gone
        · rw [gone]
          rw [LinkReferences.offsets_without, if_neg fun same => mem (by simp [same, key])] at gone
          exact gone.symm
    | false =>
      have eq := more empty
      obtain ⟨linked, b', eq', outcome⟩ := ih
        (b := ⟨.unlinked code₁, b.sourceMap, b.linkReferences.without file library⟩)
        distinct rfl consistent₁ noEmpty.without empty
      obtain ⟨code', changed', yes, no, marks⟩ := outcome.object
      have step : b.linkAll crates ((file, library, address) :: libs) = some (linked, b') := by
        simp [Bytecode.linkAll, Bytecode.link, unlinked, eq, eq']
      refine ⟨linked, b', step, ?_, ⟨code', ?_, yes, no, ?_⟩, ?_, outcome.noEmpty,
        outcome.sourceMap⟩
      · rw [covers_cons]
        exact outcome.linked_iff
      · exact (changed.trans changed' fun i new j new' slot slot' =>
          slots_apart documented consistent kept slot slot').mono all
      · intro file' library' i refers out
        have refers' : (b.linkReferences.without file library).Refers file' library' :=
          LinkReferences.refers_without.mpr ⟨refers, fun same => out (by simp [same, key])⟩
        rw [marks file' library' i refers' fun mem => out (.tail _ mem), kept _ _ _ refers']
      · intro file' library'
        rw [outcome.references, LinkReferences.offsets_without]
        by_cases mem : (file', library') ∈ libs.map key
        · simp [mem]
        · by_cases same : (file', library') = (file, library) <;> simp [mem, same, key]

end FoundryCore.Linking
