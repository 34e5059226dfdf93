import FoundryCore.Library.Map
import FoundryCore.Library.Overwrite

/-!
# Bytecode that is not fully linked

The bytecode of a contract is a hex string with a placeholder wherever the address of a library
belongs. Linking a library writes its address over its placeholders and removes its reference.
When no reference is left, the hex string is decoded.
-/

open Std

namespace FoundryCore.Linking

open Library (OccursAt overwrite)

abbrev Bytes := List UInt8

/-- The bytes of a text. -/
def utf8 (text : List Char) : Bytes := text.flatMap String.utf8EncodeChar

/-- An address of twenty bytes. -/
abbrev Address := { bytes : Bytes // bytes.length = 20 }

def isHexDigit (b : UInt8) : Bool :=
  (48 ≤ b && b ≤ 57) || (65 ≤ b && b ≤ 70) || (97 ≤ b && b ≤ 102)

/-- What linking uses of other crates. -/
structure Crates where
  keccak256 : Bytes → Bytes
  /-- `hex::Buffer::format` without a prefix. -/
  formatHex : Bytes → Bytes
  /-- `hex::decode`. -/
  decodeHex : Bytes → Option Bytes
  /-- `memmem::find_iter`, of a haystack and a needle. -/
  findIter : Bytes → Bytes → List Nat

/-- What the crates document. -/
structure Crates.Documented (crates : Crates) : Prop where
  length_keccak256 : ∀ text, (crates.keccak256 text).length = 32
  length_formatHex : ∀ bytes, (crates.formatHex bytes).length = 2 * bytes.length
  digits_formatHex : ∀ bytes, ∀ b ∈ crates.formatHex bytes, isHexDigit b
  decodeHex : ∀ text : Bytes, (∀ b ∈ text, isHexDigit b) → text.length % 2 = 0 →
    (crates.decodeHex text).isSome
  /-- The occurrences are found, but for those that overlap an earlier one. -/
  findIter : ∀ haystack needle i, i ∈ crates.findIter haystack needle → OccursAt needle haystack i
  findIter_all : ∀ haystack needle, needle ≠ [] →
    (∀ i j, OccursAt needle haystack i → OccursAt needle haystack j →
      i = j ∨ Library.Apart needle.length i j) →
    ∀ i, OccursAt needle haystack i → i ∈ crates.findIter haystack needle

variable (crates : Crates)

/-! ## Placeholders -/

/-- The first bytes of the hash of a library's name. -/
def libraryHash (name : String) : Bytes := (crates.keccak256 (utf8 name.toList)).take 17

/-- The library hash placeholder as `$hex(library_hash(name))$`. -/
def libraryHashPlaceholder (name : String) : Bytes :=
  utf8 ['$'] ++ crates.formatHex (libraryHash crates name) ++ utf8 ['$']

def libraryFullyQualifiedPlaceholder (name : String) : List Char :=
  (name.toList ++ List.replicate 36 '_').take 36

/-- The text a placeholder is found by. -/
def needle (placeholder : Bytes) : Bytes := utf8 ['_', '_'] ++ placeholder ++ utf8 ['_', '_']

def hashNeedle (name : String) : Bytes := needle (libraryHashPlaceholder crates name)

/-- The library placeholder used to be the fully qualified name of the library. -/
def fullyQualifiedNeedle (name : String) : Bytes :=
  needle (utf8 (libraryFullyQualifiedPlaceholder name))

/-- Writes the address over all placeholders of the library. Each of the three assertions on
lengths may fail, and so may the writing of a slice. -/
def link (unlinked : Bytes) (name : String) (address : Address) : Option Bytes := do
  guard ((hashNeedle crates name).length = 40)
  let refs := crates.findIter unlinked (hashNeedle crates name)
  guard ((fullyQualifiedNeedle name).length = 40)
  let refs := refs ++ crates.findIter unlinked (fullyQualifiedNeedle name)
  if refs.isEmpty then return unlinked
  let hexAddr := crates.formatHex address.1
  guard (hexAddr.length = 40)
  refs.foldlM (fun unlinked idx => overwrite unlinked hexAddr idx) unlinked

/-! ## Objects -/

/-- The bytecode of a contract that might be not fully linked yet. -/
inductive BytecodeObject
  | bytecode (bytes : Bytes)
  /-- Bytecode as hex string, here by its bytes, that contains library placeholders. -/
  | unlinked (code : Bytes)
deriving DecidableEq, Repr

namespace BytecodeObject

def asBytes : BytecodeObject → Option Bytes
  | bytecode bytes => some bytes
  | unlinked _ => none

def isUnlinked : BytecodeObject → Bool
  | bytecode _ => false
  | unlinked _ => true

/-- Tries to resolve the unlinked string object to a valid bytecode object. -/
def resolve : BytecodeObject → BytecodeObject
  | bytecode bytes => .bytecode bytes
  | unlinked code => match crates.decodeHex code with
    | some linked => .bytecode linked
    | none => .unlinked code

def linkFullyQualified (name : String) (addr : Address) : BytecodeObject → Option BytecodeObject
  | bytecode bytes => some (.bytecode bytes)
  | unlinked code => (Linking.link crates code name addr).map .unlinked

/-- Links using the `file` and `library` names as fully qualified name `<file>:<library>`. -/
def link (file library : String) (addr : Address) (object : BytecodeObject) :
    Option BytecodeObject :=
  object.linkFullyQualified crates (file ++ ":" ++ library) addr

end BytecodeObject

/-! ## Link references -/

/-- Byte offsets into the bytecode. -/
structure Offsets where
  start : UInt32
  length : UInt32
deriving DecidableEq, Repr

/-- The libraries that an object refers to, by file. -/
abbrev LinkReferences := ExtTreeMap String (ExtTreeMap String (List Offsets))

/-- A library with its file and its address. -/
abbrev LinkedLibrary := String × String × Address

/-- Links an object with its references, which two types have. Also returns whether the object
is fully linked. -/
def linkReferences (object : BytecodeObject) (references : LinkReferences)
    (file library : String) (address : Address) :
    Option (Bool × BytecodeObject × LinkReferences) :=
  if !object.isUnlinked then some (true, object, references)
  else match references[file]? with
    | none => some (false, object, references)
    | some contracts => do
      let object ←
        (if library ∈ contracts then object.link crates file library address else some object)
      let contracts := contracts.erase library
      let references := references.erase file
      let references :=
        if contracts.isEmpty then references else references.insert file contracts
      if references.isEmpty then
        let object := object.resolve crates
        return (object.asBytes.isSome, object, references)
      else return (false, object, references)

structure Bytecode where
  object : BytecodeObject
  sourceMap : Option String := none
  linkReferences : LinkReferences

structure CompactBytecode where
  object : BytecodeObject
  sourceMap : Option String := none
  linkReferences : LinkReferences

namespace Bytecode

/-- Tries to link the bytecode object with the `file` and `library` name. Returns true if the
bytecode object is fully linked. -/
def link (code : Bytecode) (file library : String) (address : Address) :
    Option (Bool × Bytecode) := do
  let (linked, object, references) ←
    Linking.linkReferences crates code.object code.linkReferences file library address
  return (linked, { code with object, linkReferences := references })

/-- Links the bytecode object with all provided `(file, lib, addr)`. -/
def linkAll (code : Bytecode) : List LinkedLibrary → Option (Bool × Bytecode)
  | [] => some (false, code)
  | (file, lib, addr) :: libs => do
    let (linked, code) ← code.link crates file lib addr
    if linked then return (true, code)
    else code.linkAll libs

end Bytecode

namespace CompactBytecode

def link (code : CompactBytecode) (file library : String) (address : Address) :
    Option (Bool × CompactBytecode) := do
  let (linked, object, references) ←
    Linking.linkReferences crates code.object code.linkReferences file library address
  return (linked, { code with object, linkReferences := references })

/-- Links with each of the libraries in turn, and tells if some of the calls returned true. -/
def linkEach (code : CompactBytecode) : List LinkedLibrary → Option (Bool × CompactBytecode)
  | [] => some (false, code)
  | (file, lib, addr) :: libs => do
    let (linked, code) ← code.link crates file lib addr
    let (linked', code) ← code.linkEach libs
    return (linked || linked', code)

/-- `From<Bytecode>`. -/
def ofBytecode (code : Bytecode) : CompactBytecode :=
  { object := code.object, sourceMap := code.sourceMap, linkReferences := code.linkReferences }

end CompactBytecode

end FoundryCore.Linking
