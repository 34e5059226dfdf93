import FoundryCore.Bytecode.Linking

/-!
# The link references of both parts

A contract has bytecode for its creation and for its runtime. The references of both are put into
one map by file, where those of the runtime replace all that the creation has of the same file.
-/

open Std

namespace FoundryCore.Linking

structure DeployedBytecode where
  bytecode : Option Bytecode

structure ContractBytecode where
  bytecode : Option Bytecode
  deployedBytecode : Option DeployedBytecode

structure CompactDeployedBytecode where
  bytecode : Option CompactBytecode

structure CompactContractBytecode where
  bytecode : Option CompactBytecode
  deployedBytecode : Option CompactDeployedBytecode

/-- `BTreeMap::extend`. -/
def LinkReferences.extend (links references : LinkReferences) : LinkReferences :=
  links.insertMany references.toList

/-- The references of the creation and of the runtime code, which two types look for alike. -/
def allReferences (creation runtime : Option LinkReferences) : LinkReferences :=
  let links : LinkReferences := match creation with
    | some references => LinkReferences.extend ∅ references
    | none => ∅
  match runtime with
  | some references => links.extend references
  | none => links

namespace ContractBytecode

variable (code : ContractBytecode)

def creationReferences : Option LinkReferences := code.bytecode.map (·.linkReferences)

def runtimeReferences : Option LinkReferences :=
  (code.deployedBytecode.bind (·.bytecode)).map (·.linkReferences)

/-- Looks for all link references in deployment and runtime bytecodes. -/
def allLinkReferences : LinkReferences :=
  allReferences code.creationReferences code.runtimeReferences

end ContractBytecode

namespace CompactContractBytecode

variable (code : CompactContractBytecode)

def creationReferences : Option LinkReferences := code.bytecode.map (·.linkReferences)

def runtimeReferences : Option LinkReferences :=
  (code.deployedBytecode.bind (·.bytecode)).map (·.linkReferences)

/-- Looks for all link references in deployment and runtime bytecodes. -/
def allLinkReferences : LinkReferences :=
  allReferences code.creationReferences code.runtimeReferences

end CompactContractBytecode

/-! ## What is lost -/

section Union

variable {creation runtime : Option LinkReferences} {file library : String}

/-- A part that is missing refers to nothing. -/
def RefersIn (references : Option LinkReferences) (file library : String) : Prop :=
  ∃ r ∈ references, r.Refers file library

/-- The references are those of the creation and of the runtime. -/
def IsUnion (all : LinkReferences) (creation runtime : Option LinkReferences) : Prop :=
  ∀ file library, all.Refers file library ↔
    RefersIn creation file library ∨ RefersIn runtime file library

/-- For each file that both parts refer to, the runtime refers to all libraries that the creation
refers to. -/
def RuntimeCovers (creation runtime : Option LinkReferences) : Prop :=
  ∀ c ∈ creation, ∀ r ∈ runtime, ∀ file ∈ r, ∀ library, c.Refers file library →
    r.Refers file library

theorem getElem?_extend (links references : LinkReferences) (file : String) :
    (links.extend references)[file]? = references[file]?.or links[file]? :=
  Library.getElem?_insertMany_toList ..

theorem refers_iff {references : LinkReferences} : references.Refers file library ↔
    ∃ contracts : ExtTreeMap String (List Offsets),
      references[file]? = some contracts ∧ library ∈ contracts := by
  simp only [LinkReferences.Refers, LinkReferences.offsets]
  cases references[file]? with
  | none => simp
  | some contracts => simp

theorem not_refers_empty : ¬(∅ : LinkReferences).Refers file library := by
  simp [refers_iff]

theorem refersIn_iff {references : Option LinkReferences} :
    RefersIn references file library ↔ (references.getD ∅).Refers file library := by
  cases references <;> simp [RefersIn, not_refers_empty]

theorem runtimeCovers_iff : RuntimeCovers creation runtime ↔ ∀ file ∈ runtime.getD ∅, ∀ library,
    (creation.getD ∅).Refers file library → (runtime.getD ∅).Refers file library := by
  cases creation <;> cases runtime <;> simp [RuntimeCovers, not_refers_empty]

theorem getElem?_allReferences (file : String) : (allReferences creation runtime)[file]? =
    (runtime.getD ∅)[file]?.or (creation.getD ∅)[file]? := by
  cases creation <;> cases runtime <;> simp [allReferences, getElem?_extend]

/-- A file of the runtime has what the runtime refers to, and other files what the creation refers
to. -/
theorem refers_allReferences : (allReferences creation runtime).Refers file library ↔
    if file ∈ runtime.getD ∅ then (runtime.getD ∅).Refers file library
    else (creation.getD ∅).Refers file library := by
  rw [refers_iff, getElem?_allReferences]
  cases found : (runtime.getD ∅)[file]? with
  | none =>
    have other : file ∉ runtime.getD ∅ := by
      rw [ExtTreeMap.mem_iff_isSome_getElem?, found]
      simp
    rw [if_neg other, refers_iff, Option.none_or]
  | some contracts =>
    have mem : file ∈ runtime.getD ∅ := by
      rw [ExtTreeMap.mem_iff_isSome_getElem?, found]
      rfl
    rw [if_pos mem, refers_iff, found, Option.some_or]

theorem isUnion_iff : IsUnion (allReferences creation runtime) creation runtime ↔
    RuntimeCovers creation runtime := by
  simp only [runtimeCovers_iff, IsUnion, refers_allReferences, refersIn_iff]
  constructor
  · intro union file mem library refers
    have kept := (union file library).mpr (.inl refers)
    rwa [if_pos mem] at kept
  · intro covers file library
    split_ifs with mem
    · exact ⟨.inr, fun either => either.elim (covers file mem library) id⟩
    · have other : ¬(runtime.getD ∅).Refers file library := by
        rw [refers_iff]
        rintro ⟨contracts, found, -⟩
        exact mem (ExtTreeMap.mem_iff_isSome_getElem?.mpr (Option.isSome_of_eq_some found))
      simp [other]

end Union

/-- Both functions find all references of a contract if the runtime refers to all libraries of its
files that the creation refers to. -/
theorem allLinkReferences_iff (code : ContractBytecode) (compact : CompactContractBytecode) :
    (IsUnion code.allLinkReferences code.creationReferences code.runtimeReferences ↔
        RuntimeCovers code.creationReferences code.runtimeReferences) ∧
      (IsUnion compact.allLinkReferences compact.creationReferences compact.runtimeReferences ↔
        RuntimeCovers compact.creationReferences compact.runtimeReferences) :=
  ⟨isUnion_iff, isUnion_iff⟩

/-! ## Two libraries of a file -/

/-- References to one library. -/
def referenceTo (file library : String) : LinkReferences :=
  (∅ : LinkReferences).insert file ((∅ : ExtTreeMap String (List Offsets)).insert library [⟨0, 20⟩])

/-- The constructor uses one library of a file and the runtime the other one. -/
def twoLibraries : ContractBytecode where
  bytecode := some { object := .unlinked [], linkReferences := referenceTo "a.sol" "L" }
  deployedBytecode := some
    ⟨some { object := .unlinked [], linkReferences := referenceTo "a.sol" "M" }⟩

def twoLibrariesCompact : CompactContractBytecode where
  bytecode := twoLibraries.bytecode.map .ofBytecode
  deployedBytecode := twoLibraries.deployedBytecode.map fun code =>
    ⟨code.bytecode.map .ofBytecode⟩

/-- The library of the constructor is missing. -/
theorem not_isUnion_twoLibraries :
    ¬IsUnion twoLibraries.allLinkReferences twoLibraries.creationReferences
        twoLibraries.runtimeReferences ∧
      ¬IsUnion twoLibrariesCompact.allLinkReferences twoLibrariesCompact.creationReferences
        twoLibrariesCompact.runtimeReferences := by
  have creation : RefersIn (some (referenceTo "a.sol" "L")) "a.sol" "L" :=
    ⟨_, rfl, by simp [referenceTo, refers_iff]⟩
  have missing : ¬(allReferences (some (referenceTo "a.sol" "L"))
      (some (referenceTo "a.sol" "M"))).Refers "a.sol" "L" := by
    rw [refers_allReferences]
    simp [referenceTo, refers_iff]
  exact ⟨fun union => missing ((union _ _).mpr (.inl creation)),
    fun union => missing ((union _ _).mpr (.inl creation))⟩

end FoundryCore.Linking
