import FoundryCore.Bytecode.Order
import FoundryCore.Library.Runs
import FoundryCore.Remappings.Text

/-!
# Fully qualified names of contracts

A contract is named by the path of its file and its name, separated by a colon. The three that
read such a name take it apart at different colons.
-/

open Std

namespace FoundryCore

/-- Represents the common contract argument pattern `<path>:<contractname>`. -/
structure FullContractInfo where
  /-- Location of the contract. -/
  path : String
  name : String
deriving DecidableEq, Repr

/-- Represents the contract argument pattern where `<path>:` is optional. -/
structure ContractInfo where
  path : Option String
  name : String
deriving DecidableEq, Repr

/-- `str::trim`, of the name of a contract. -/
def trimName (name : String) : String := .ofList (Library.trim isWhitespace name.toList)

namespace FullContractInfo

/-- `Display`. -/
def toString (info : FullContractInfo) : String := info.path ++ ":" ++ info.name

/-- `FromStr`. The message of the error has the placeholder in it as it is. -/
def fromStr (s : String) : Except String FullContractInfo :=
  match splitOnce ':' s with
  | none => .error "Expected `<path>:<contractname>`, got `\x7bs\x7d`"
  | some (path, name) => .ok { path, name := trimName name }

end FullContractInfo

namespace ContractInfo

/-- `Display`. -/
def toString (info : ContractInfo) : String :=
  match info.path with
  | some path => path ++ ":" ++ info.name
  | none => info.name

def err : String :=
  "contract source info format must be `<path>:<contractname>` or `<contractname>`"

/-- `FromStr`. Reads the pieces between the colons from the last one on. -/
def fromStr (s : String) : Except String ContractInfo :=
  match (s.toList.splitOn ':').reverse.map String.ofList with
  | [] => .error err
  | name :: rest =>
    let name := trimName name
    if ".sol".toList <:+ name.toList ∨ '/' ∈ name.toList then .error err
    else .ok { path := rest.head?, name }

/-- `From<FullContractInfo>`. -/
def ofFull (info : FullContractInfo) : ContractInfo := { path := some info.path, name := info.name }

end ContractInfo

namespace Linking.Bytecode

/-- Same as `Bytecode::link` but with fully qualified name (`file.sol:Math`). -/
def linkFullyQualified (crates : Crates) (code : Bytecode) (name : String) (addr : Address) :
    Option (Bool × Bytecode) :=
  match splitOnce ':' name with
  | some (file, lib) => code.link crates file lib addr
  | none => some (false, code)

end Linking.Bytecode

/-! ## Reading a printed name -/

/-- Where the first colon of a printed name is. -/
theorem splitOnce_eq_iff {path name path' name' : String} :
    splitOnce ':' (path ++ ":" ++ name) = some (path', name') ↔
      path ++ ":" ++ name = path' ++ ":" ++ name' ∧ ':' ∉ path'.toList := by
  have colon : ":".toList = [':'] := rfl
  simp only [splitOnce, Option.map_eq_some_iff, Prod.exists, Prod.mk.injEq,
    Library.splitOnce_eq_some]
  constructor
  · rintro ⟨before, after, ⟨eq, fresh⟩, rfl, rfl⟩
    refine ⟨String.toList_injective ?_, by simpa using fresh⟩
    simpa using eq
  · rintro ⟨eq, fresh⟩
    refine ⟨path'.toList, name'.toList, ⟨?_, fresh⟩, by simp⟩
    rw [eq]
    simp [colon]

/-- The first colon is the printed one if the path has none. -/
theorem splitOnce_printed {path name : String} :
    splitOnce ':' (path ++ ":" ++ name) = some (path, name) ↔ ':' ∉ path.toList := by
  simp [splitOnce_eq_iff]

section

variable {path name : String}

/-- All three take the path and the name from what is printed. -/
structure Recovers (crates : Linking.Crates) (path name : String) : Prop where
  full : FullContractInfo.fromStr (FullContractInfo.toString { path, name }) = .ok { path, name }
  info : ContractInfo.fromStr (ContractInfo.toString (.ofFull { path, name })) =
    .ok (.ofFull { path, name })
  link : ∀ (code : Linking.Bytecode) (addr : Linking.Address),
    code.linkFullyQualified crates (FullContractInfo.toString { path, name }) addr =
      code.link crates path name addr

/-- A printed name is read back if the path has no colon. -/
theorem FullContractInfo.fromStr_toString_iff (trimmed : trimName name = name) :
    fromStr (toString { path, name }) = .ok { path, name } ↔ ':' ∉ path.toList := by
  rw [fromStr, toString]
  constructor
  · intro read
    cases split : splitOnce ':' (path ++ ":" ++ name) with
    | none => simp [split] at read
    | some parts =>
      obtain ⟨path', name'⟩ := parts
      obtain ⟨rfl, -⟩ : path' = path ∧ trimName name' = name := by simpa [split] using read
      exact (splitOnce_eq_iff.mp split).2
  · intro fresh
    rw [splitOnce_printed.mpr fresh]
    simp [trimmed]

/-- The pieces of a printed name, from the last one on. -/
theorem ContractInfo.pieces_printed (fresh : ':' ∉ name.toList) :
    ((path ++ ":" ++ name).toList.splitOn ':').reverse =
      name.toList :: (path.toList.splitOn ':').reverse := by
  have text : (path ++ ":" ++ name).toList = path.toList ++ ':' :: name.toList := by simp
  rw [text, List.splitOn_append_cons_self, List.splitOn_eq_singleton fresh]
  simp

theorem ContractInfo.fromStr_toString_iff (trimmed : trimName name = name)
    (fresh : ':' ∉ name.toList) (slash : '/' ∉ name.toList)
    (extension : ¬ ".sol".toList <:+ name.toList) :
    fromStr (toString (.ofFull { path, name })) = .ok (.ofFull { path, name }) ↔
      ':' ∉ path.toList := by
  obtain ⟨last, before, pieces⟩ := List.exists_cons_of_ne_nil
    (List.reverse_ne_nil_iff.mpr (List.splitOn_ne_nil ':' path.toList))
  have read : fromStr (toString (.ofFull { path, name })) =
      .ok { path := some (.ofList last), name } := by
    have valid : ¬ (".sol".toList <:+ name.toList ∨ '/' ∈ name.toList) := by tauto
    change fromStr (path ++ ":" ++ name) = _
    rw [fromStr, pieces_printed fresh, pieces]
    simp only [List.map_cons, String.ofList_toList, trimmed, if_neg valid, List.head?_cons]
  have printed : fromStr (toString (.ofFull { path, name })) = .ok (.ofFull { path, name }) ↔
      String.ofList last = path := by
    rw [read]
    simp [ofFull]
  rw [printed]
  constructor
  · rintro rfl
    have mem : last ∈ (String.ofList last).toList.splitOn ':' := by
      rw [← List.mem_reverse, pieces]
      exact List.mem_cons_self
    simpa using Library.notMem_of_mem_splitOn mem
  · intro fresh'
    rw [List.splitOn_eq_singleton fresh', List.reverse_singleton] at pieces
    obtain ⟨rfl, -⟩ := List.cons.inj pieces
    exact String.ofList_toList

/-- Where the file and the library are taken apart at another colon, the references of the file
stay. -/
theorem Linking.Bytecode.linkFullyQualified_iff (crates : Crates) :
    (∀ (code : Bytecode) (addr : Address), code.linkFullyQualified crates
      (FullContractInfo.toString { path, name }) addr = code.link crates path name addr) ↔
        ':' ∉ path.toList := by
  constructor
  · intro same colon
    obtain ⟨before, after, eq⟩ : ∃ before after, splitOnce ':' (path ++ ":" ++ name) =
        some (before, after) := by
      cases split : splitOnce ':' (path ++ ":" ++ name) with
      | none => simp [splitOnce, Library.splitOnce_eq_none] at split
      | some parts => exact ⟨parts.1, parts.2, rfl⟩
    have other : before ≠ path := by
      rintro rfl
      exact (splitOnce_eq_iff.mp eq).2 colon
    -- an object that refers to nothing but the file
    let references : LinkReferences := (∅ : LinkReferences).insert path ∅
    let code : Bytecode := { object := .unlinked [], linkReferences := references }
    let addr : Address := ⟨List.replicate 20 0, rfl⟩
    have present : references[path]? = some ∅ := by simp [references]
    have absent : references[before]? = none := by simp [references, other.symm]
    have kept : code.linkFullyQualified crates (path ++ ":" ++ name) addr =
        some (false, code) := by
      rw [linkFullyQualified, eq]
      simp [link, Linking.linkReferences, code, BytecodeObject.isUnlinked, absent]
    have removed : ∃ linked object, Linking.linkReferences crates code.object references path name
        addr = some (linked, object, references.erase path) := by
      have nothing : (∅ : ExtTreeMap String (List Offsets)).erase name = ∅ := by
        ext
        simp
      simp only [Linking.linkReferences, code, BytecodeObject.isUnlinked, present, nothing,
        Bool.not_true, Bool.false_eq_true, if_false, ExtTreeMap.not_mem_empty,
        ExtTreeMap.isEmpty_empty, if_true, Option.bind_eq_bind, Option.bind_some]
      split_ifs
      · exact ⟨_, _, rfl⟩
      · exact ⟨_, _, rfl⟩
    obtain ⟨linked, object, linkedEq⟩ := removed
    have stays : references.erase path = references := by
      have eq := (same code addr).symm.trans kept
      rw [link, linkedEq] at eq
      simpa [code] using congrArg (Option.map (·.2.linkReferences)) eq
    have gone : (references.erase path)[path]? = none := by simp
    rw [stays, present] at gone
    cases gone
  · intro fresh code addr
    rw [linkFullyQualified, FullContractInfo.toString, splitOnce_printed.mpr fresh]

/-- The path and the name of a contract are recovered if the path has no colon. -/
theorem recovers_iff (crates : Linking.Crates) (trimmed : trimName name = name)
    (fresh : ':' ∉ name.toList) (slash : '/' ∉ name.toList)
    (extension : ¬ ".sol".toList <:+ name.toList) :
    Recovers crates path name ↔ ':' ∉ path.toList := by
  constructor
  · intro recovers
    exact (FullContractInfo.fromStr_toString_iff trimmed).mp recovers.full
  · intro colon
    exact
      { full := (FullContractInfo.fromStr_toString_iff trimmed).mpr colon
        info := (ContractInfo.fromStr_toString_iff trimmed fresh slash extension).mpr colon
        link := (Linking.Bytecode.linkFullyQualified_iff crates).mpr colon }

end

theorem recovers_math : Recovers Linking.oneLibrary "lib/Math.sol" "Math" :=
  (recovers_iff Linking.oneLibrary (by decide +kernel) (by decide +kernel) (by decide +kernel)
    (by decide +kernel)).mpr (by decide +kernel)

/-- With a path on a drive, two of them take the path for two different ones. -/
theorem not_recovers :
    FullContractInfo.fromStr "C:/lib/Math.sol:Math" =
      .ok { path := "C", name := "/lib/Math.sol:Math" } ∧
    ContractInfo.fromStr "C:/lib/Math.sol:Math" =
      .ok { path := some "/lib/Math.sol", name := "Math" } ∧
    ∀ crates, ¬ Recovers crates "C:/lib/Math.sol" "Math" := by
  refine ⟨rfl, rfl, fun crates recovers => ?_⟩
  have read : FullContractInfo.fromStr "C:/lib/Math.sol:Math" =
      .ok { path := "C:/lib/Math.sol", name := "Math" } := recovers.full
  have other : FullContractInfo.fromStr "C:/lib/Math.sol:Math" =
      .ok { path := "C", name := "/lib/Math.sol:Math" } := rfl
  rw [other] at read
  simp at read

end FoundryCore
