import FoundryCore.BlockExplorers.Numeric
import FoundryCore.Library.Json

/-!
# Contract metadata

Block explorers send the metadata of a contract in several forms: its source code is a text, a map
of sources or a document inside a string, and numbers and flags may be strings. It is written in
one of these forms, which is read back as what was written.
-/

open Std

namespace FoundryCore

open Library

namespace BlockExplorers

abbrev Address := BitVec 160

abbrev Bytes := List (BitVec 8)

inductive SourceCodeLanguage
  | solidity | vyper
deriving DecidableEq, Repr

structure SourceCodeEntry where
  content : String
deriving DecidableEq, Repr

abbrev SourceCodeEntries := ExtTreeMap String SourceCodeEntry

/-- The contract metadata's source code field; `σ` are the values of JSON. -/
inductive SourceCodeMetadata (σ : Type)
  /-- Contains just mapped source code. -/
  | sources (sources : SourceCodeEntries)
  /-- Contains metadata and path mapped source code. -/
  | metadata (language : Option SourceCodeLanguage) (sources : SourceCodeEntries)
    (settings : Option σ)
  /-- Contains only the source code. -/
  | sourceCode (text : String)

/-- The metadata of a contract. -/
structure Metadata (σ : Type) where
  sourceCode : SourceCodeMetadata σ
  abi : String
  contractName : String
  compilerVersion : String
  optimizationUsed : U64
  runs : U64
  constructorArguments : Bytes
  evmVersion : String
  library : String
  licenseType : String
  proxy : U64
  implementation : Option Address
  swarmSource : String

/-- What is used of other crates: the parser, and the formats of their types. A text that begins
with a brace is an object, and a value is written as null if it was read from it. -/
structure Crates (σ : Type) where
  uint : Uint
  parse : String → Option Json
  value : Codec σ
  isNull : σ → Bool
  bytes : Codec Bytes
  address : KeyText Address
  documented : uint.Documented
  parse_brace : ∀ text json, text.toList.head? = some '\x7b' → parse text = some json →
    ∃ entries, json = .object entries
  value_fits : ∀ v, value.Fits v
  encode_null : ∀ iteration path v, value.encode iteration path v = .null ↔ isNull v = true
  decode_null : ∀ json v, value.decode json = some v → (isNull v = true ↔ json = .null)
  bytes_fits : ∀ raw, bytes.Fits raw
  address_text : ∀ a, address.text a ≠ ""

/-- The text of a number in a document. -/
def numeralText (n : Numeral) : List Char :=
  (if n.negative then ['-'] else []) ++ Nat.toDigits 10 n.whole ++
    (if n.fraction = [] then [] else '.' :: n.fraction.map fun d => Nat.digitChar d.val) ++
    match n.exponent with
    | none => []
    | some e => 'e' :: (if e < 0 then ['-'] else []) ++ Nat.toDigits 10 e.natAbs

theorem isDigit_toDigits {n : Nat} {c : Char} (mem : c ∈ Nat.toDigits 10 n) : c.isDigit = true :=
  Nat.isDigit_of_mem_toDigits (by decide) (by decide) mem

theorem isDigit_digitChar : ∀ d : Fin 10, (Nat.digitChar d.val).isDigit = true := by decide

/-- A number of a document keeps its text. -/
def numberOf (n : Numeral) : JsonNumber where
  text := numeralText n
  nonempty := by simp [numeralText]
  chars c mem := by
    simp only [numeralText, List.mem_append] at mem
    rcases mem with ((sign | whole) | fraction) | exponent
    · split_ifs at sign <;> simp_all
    · exact .inl (isDigit_toDigits whole)
    · split_ifs at fraction
      · cases fraction
      · rcases List.mem_cons.mp fraction with rfl | digit
        · simp
        · obtain ⟨d, -, rfl⟩ := List.mem_map.mp digit
          exact .inl (isDigit_digitChar d)
    · split at exponent
      · cases exponent
      · rcases List.mem_cons.mp exponent with rfl | rest
        · simp
        · rcases List.mem_append.mp rest with sign | digits
          · split_ifs at sign <;> simp_all
          · exact .inl (isDigit_toDigits digits)
  unsigned := by
    have digit : '+' ∉ Nat.toDigits 10 n.whole := fun mem => by
      have := isDigit_toDigits mem
      simp at this
    cases digits : Nat.toDigits 10 n.whole with
    | nil => exact absurd digits Nat.toDigits_ne_nil
    | cons c rest =>
      have other : c ≠ '+' := fun same => digit (by simp [digits, same])
      simp only [numeralText, digits]
      split_ifs <;> simp [other]

namespace Crates

variable {σ : Type} (crates : Crates σ)

/-! ## Documents -/

/-- The format of `SourceCodeEntry`. -/
def entry : Codec SourceCodeEntry where
  encode _ _ entry := .object [("content", .string entry.content)]
  decode json := do
    match ← json.readStruct [["content"]] with
    | [some (.string content)] => some { content }
    | _ => none
  Fits _ := True
  decode_encode _ _ _ _ := by simp [Json.readStruct, Json.named]

def sourceEntries : Codec SourceCodeEntries := .map stringKey entry

def languageName : SourceCodeLanguage → String
  | .solidity => "Solidity"
  | .vyper => "Vyper"

def languageOf (name : String) : Option SourceCodeLanguage :=
  if name = "Solidity" then some .solidity else if name = "Vyper" then some .vyper else none

/-- `Deserialize` of `SourceCodeLanguage`: a unit variant may stand as an object of its name. -/
def decodeLanguage : Json → Option SourceCodeLanguage
  | .string name | .object [(name, .null)] => languageOf name
  | _ => none

/-- `Serialize` of `SourceCodeMetadata`. -/
def encodeSourceCode (iteration : Iteration) (path : List String) : SourceCodeMetadata σ → Json
  | .sources sources => sourceEntries.encode iteration path sources
  | .metadata language sources settings => .object <|
    (match language with
      | some language => [("language", .string (languageName language))]
      | none => []) ++
    [("sources", sourceEntries.encode iteration (path ++ ["sources"]) sources)] ++
    match settings with
    | some settings =>
      [("settings", crates.value.encode iteration (path ++ ["settings"]) settings)]
    | none => []
  | .sourceCode text => .string text

/-- A field with a default. -/
def fieldOr {τ : Type} (default : τ) (read : Json → Option τ) : Option Json → Option τ
  | some json => read json
  | none => some default

/-- `Deserialize` of the variant with metadata. A number that was buffered is an object with a key
of its own. -/
def decodeMetadataVariant : Json → Option (SourceCodeMetadata σ)
  | .object fields => do
    match ← (Json.object fields).readStruct [["language"], ["sources"], ["settings"]] with
    | [language, sources, settings] =>
      let language ← Json.readOption decodeLanguage language
      let sources ← fieldOr ∅ sourceEntries.decode sources
      let settings ← Json.readOption crates.value.decode settings
      some (.metadata language sources settings)
    | _ => none
  | .number _ => some (.metadata none ∅ none)
  | _ => none

/-- `Deserialize` of `SourceCodeMetadata`: the first variant that fits. -/
def decodeUntagged (json : Json) : Option (SourceCodeMetadata σ) :=
  match sourceEntries.decode json with
  | some sources => some (.sources sources)
  | none =>
    match crates.decodeMetadataVariant json with
    | some found => some found
    | none =>
      match json with
      | .string text => some (.sourceCode text)
      | _ => none

/-- The text stands between braces. -/
def braced (text : String) : Bool :=
  text.toList.head? = some '\x7b' && text.toList.getLast? = some '\x7d'

/-- A document in a string, without double braces around it. -/
def unwrapped (text : String) : String :=
  if ['\x7b', '\x7b'] <+: text.toList ∧ ['\x7d', '\x7d'] <:+ text.toList then
    .ofList (text.toList.drop 1).dropLast
  else text

/-- Deserializes an object, a document in a string or the source code itself. -/
def deserializeSourceCode : Json → Option (SourceCodeMetadata σ)
  | .string text =>
    if braced text then (crates.parse (unwrapped text)).bind crates.decodeUntagged
    else some (.sourceCode text)
  | json => crates.decodeUntagged json

/-- `Deserialize` of `StringifiedNumeric`. -/
def stringified : Json → Option StringifiedNumeric
  | .string text => some (.string text.toList)
  | .number n => some (.num (numberOf n))
  | _ => none

/-- Supports parsing numbers as strings. -/
def deserializeStringifiedU64 (json : Json) : Option U64 :=
  (stringified json).bind fun value => value.deserializeStringifiedU64 crates.uint

/-- Supports parsing either a number or a boolean, which is then converted. -/
def deserializeStringifiedBoolOrU64 (json : Json) : Option U64 :=
  match crates.deserializeStringifiedU64 json with
  | some u => some u
  | none =>
    match json with
    | .string text =>
      if text = "true" then some 1 else if text = "false" then some 0 else none
    | _ => none

/-- Nothing if empty, otherwise an address. -/
def deserializeAddressOpt : Json → Option (Option Address)
  | .null => some none
  | .string text => if text = "" then some none else (crates.address.read text).map some
  | _ => none

def readString : Json → Option String
  | .string text => some text
  | _ => none

def u64Json (n : U64) : Json := .number ⟨false, n.toNat, [], none⟩

/-- `Serialize` of `Metadata`. -/
def encode (iteration : Iteration) (path : List String) (m : Metadata σ) : Json :=
  .object <|
    [("SourceCode", crates.encodeSourceCode iteration (path ++ ["SourceCode"]) m.sourceCode),
      ("ABI", .string m.abi), ("ContractName", .string m.contractName),
      ("CompilerVersion", .string m.compilerVersion),
      ("OptimizationUsed", u64Json m.optimizationUsed), ("Runs", u64Json m.runs),
      ("ConstructorArguments",
        crates.bytes.encode iteration (path ++ ["ConstructorArguments"]) m.constructorArguments),
      ("EVMVersion", .string m.evmVersion), ("Library", .string m.library),
      ("LicenseType", .string m.licenseType), ("Proxy", u64Json m.proxy)] ++
    (match m.implementation with
      | some implementation => [("Implementation", .string (crates.address.text implementation))]
      | none => []) ++
    [("SwarmSource", .string m.swarmSource)]

def metadataFields : List (List String) :=
  [["SourceCode"], ["ABI"], ["ContractName"], ["CompilerVersion"], ["OptimizationUsed"],
    ["Runs", "OptimizationRuns"], ["ConstructorArguments"], ["EVMVersion"], ["Library"],
    ["LicenseType"], ["Proxy", "IsProxy"], ["Implementation"], ["SwarmSource"]]

/-- `Deserialize` of `Metadata`. -/
def decode (json : Json) : Option (Metadata σ) := do
  match ← json.readStructFrom 11 metadataFields with
  | [some sourceCode, some abi, some contractName, some compilerVersion, some optimizationUsed,
      runs, constructorArguments, some evmVersion, library, licenseType, some proxy,
      implementation, swarmSource] =>
    let sourceCode ← crates.deserializeSourceCode sourceCode
    let abi ← readString abi
    let contractName ← readString contractName
    let compilerVersion ← readString compilerVersion
    let optimizationUsed ← crates.deserializeStringifiedBoolOrU64 optimizationUsed
    let runs ← fieldOr 0 crates.deserializeStringifiedU64 runs
    let constructorArguments ← fieldOr [] crates.bytes.decode constructorArguments
    let evmVersion ← readString evmVersion
    let library ← fieldOr "" readString library
    let licenseType ← fieldOr "" readString licenseType
    let proxy ← crates.deserializeStringifiedBoolOrU64 proxy
    let implementation ← fieldOr none crates.deserializeAddressOpt implementation
    let swarmSource ← fieldOr "" readString swarmSource
    some { sourceCode, abi, contractName, compilerVersion, optimizationUsed, runs,
           constructorArguments, evmVersion, library, licenseType, proxy, implementation,
           swarmSource }
  | _ => none

/-! ## What is read back -/

/-- A text that is no document, or settings that are not null. -/
def Plain : SourceCodeMetadata σ → Prop
  | .sources _ => True
  | .metadata _ _ settings => ∀ v, settings = some v → crates.isNull v = false
  | .sourceCode text => braced text = false

variable {crates} {iteration : Iteration} {path : List String}

theorem sourceEntries_decode_encode (sources : SourceCodeEntries) :
    sourceEntries.decode (sourceEntries.encode iteration path sources) = some sources :=
  sourceEntries.decode_encode _ _ _ fun _ _ _ => trivial

theorem entry_decode_eq_none {fields : List (String × Json)}
    (objects : ∀ e ∈ fields, ∃ inner, e.2 = .object inner) :
    entry.decode (.object fields) = none := by
  have named : ∀ e ∈ Json.named ["content"] fields, ∃ inner, e.2 = .object inner :=
    fun e mem => objects e (List.mem_filter.mp mem).1
  simp only [entry, Json.readStruct, List.mapM_cons, List.mapM_nil]
  cases found : Json.named ["content"] fields with
  | nil => rfl
  | cons e rest =>
    cases rest with
    | nil =>
      obtain ⟨inner, eq⟩ := named e (by simp [found])
      simp [eq]
    | cons e' rest => rfl

/-- A map of sources is no source. -/
theorem entry_decode_sourceEntries (sources : SourceCodeEntries) :
    entry.decode (sourceEntries.encode iteration path sources) = none := by
  refine entry_decode_eq_none fun e mem => ?_
  obtain ⟨source, -, rfl⟩ := List.mem_map.mp ((iteration.perm _ _).mem_iff.mp mem)
  exact ⟨_, rfl⟩

/-- The sources of the other variant are not among the entries of a map. -/
theorem sourceEntries_decode_variant {before after : List (String × Json)}
    (sources : SourceCodeEntries) :
    sourceEntries.decode (.object (before ++
      [("sources", sourceEntries.encode iteration path sources)] ++ after)) = none := by
  simp only [sourceEntries, Codec.map, Codec.decodeMap, Option.map_eq_none_iff, mapM_eq_ite,
    ite_eq_right_iff, reduceCtorEq, imp_false, not_forall]
  refine ⟨_, List.mem_append_left _ (List.mem_append_right _ List.mem_cons_self), ?_⟩
  have noneEq : entry.decode (sourceEntries.encode iteration path sources) = none :=
    entry_decode_sourceEntries sources
  simp only [sourceEntries, Codec.map] at noneEq
  simp [Codec.readEntry, noneEq]

theorem decodeUntagged_variant (language : Option SourceCodeLanguage)
    (sources : SourceCodeEntries) {settings : Option σ}
    (plain : crates.Plain (.metadata language sources settings)) :
    crates.decodeUntagged (crates.encodeSourceCode iteration path
      (.metadata language sources settings)) = some (.metadata language sources settings) := by
  have read : crates.decodeMetadataVariant (crates.encodeSourceCode iteration path
      (.metadata language sources settings)) = some (.metadata language sources settings) := by
    have languages : ∀ l, Json.readOption decodeLanguage (some (.string (languageName l))) =
        some (some l) := by
      intro l
      cases l <;> rfl
    have values : ∀ v, settings = some v → Json.readOption crates.value.decode
        (some (crates.value.encode iteration (path ++ ["settings"]) v)) = some (some v) := by
      intro v eq
      have ne : crates.value.encode iteration (path ++ ["settings"]) v ≠ .null := by
        rw [ne_eq, crates.encode_null, plain v eq]
        decide
      rw [Json.readOption_of_ne_null ne, crates.value.decode_encode _ _ _ (crates.value_fits v)]
      rfl
    have back : sourceEntries.decode (sourceEntries.encode iteration (path ++ ["sources"])
        sources) = some sources := sourceEntries_decode_encode sources
    cases language <;> cases settings <;>
      simp [encodeSourceCode, decodeMetadataVariant, Json.readStruct, Json.named, fieldOr, back,
        languages, values, Json.readField]
  have other : sourceEntries.decode (crates.encodeSourceCode iteration path
      (.metadata language sources settings)) = none := sourceEntries_decode_variant sources
  simp only [decodeUntagged, other, read]

theorem deserialize_of_not_string {json : Json} (object : ∀ text, json ≠ .string text) :
    crates.deserializeSourceCode json = crates.decodeUntagged json := by
  cases json <;> first | rfl | exact absurd rfl (object _)

theorem deserializeSourceCode_encode {m : SourceCodeMetadata σ} (plain : crates.Plain m) :
    crates.deserializeSourceCode (crates.encodeSourceCode iteration path m) = some m := by
  cases m with
  | sources sources =>
    have object : ∀ text, crates.encodeSourceCode iteration path (.sources sources) ≠
        .string text := by simp [encodeSourceCode, sourceEntries, Codec.map, Codec.encodeMap]
    have read : sourceEntries.decode (crates.encodeSourceCode iteration path (.sources sources)) =
        some sources := sourceEntries_decode_encode sources
    rw [deserialize_of_not_string object]
    simp only [decodeUntagged, read]
  | metadata language sources settings =>
    have object : ∀ text, crates.encodeSourceCode iteration path
        (.metadata language sources settings) ≠ .string text := by simp [encodeSourceCode]
    rw [deserialize_of_not_string object, decodeUntagged_variant _ _ plain]
  | sourceCode text =>
    have plain : braced text = false := plain
    simp [encodeSourceCode, deserializeSourceCode, plain]

/-- Text is only the source code that stands there as text. -/
theorem plain_of_decodeUntagged {json : Json} {m : SourceCodeMetadata σ}
    (object : ∀ text, json ≠ .string text) (read : crates.decodeUntagged json = some m) :
    crates.Plain m := by
  unfold decodeUntagged at read
  split at read
  · cases read
    trivial
  · split at read
    · next found variant =>
      cases read
      unfold decodeMetadataVariant at variant
      split at variant
      · obtain ⟨parts, -, variant⟩ := Option.bind_eq_some_iff.mp variant
        split at variant
        · obtain ⟨language, -, variant⟩ := Option.bind_eq_some_iff.mp variant
          obtain ⟨sources, -, variant⟩ := Option.bind_eq_some_iff.mp variant
          obtain ⟨settings, optional, variant⟩ := Option.bind_eq_some_iff.mp variant
          cases variant
          intro v eq
          subst eq
          obtain ⟨inner, -, null, decoded⟩ := Json.readOption_eq_some_some.mp optional
          rwa [Bool.eq_false_iff, ne_eq, crates.decode_null inner v decoded]
        · cases variant
      · cases variant
        intro v eq
        cases eq
      · cases variant
    · split at read
      · exact absurd rfl (object _)
      · cases read

/-- What stands between braces begins with a brace without the double ones, too. -/
theorem head?_unwrapped {text : String} (between : braced text = true) :
    (unwrapped text).toList.head? = some '\x7b' := by
  have first : text.toList.head? = some '\x7b' := by simp_all [braced]
  unfold unwrapped
  split_ifs with doubled
  · obtain ⟨⟨rest, eq⟩, last⟩ := doubled
    rw [← eq] at last
    rw [String.toList_ofList, ← eq]
    cases rest with
    | nil => revert last; decide
    | cons c rest => rfl
  · exact first

theorem plain_of_deserialize {json : Json} {m : SourceCodeMetadata σ}
    (read : crates.deserializeSourceCode json = some m) : crates.Plain m := by
  by_cases string : ∃ text, json = .string text
  · obtain ⟨text, rfl⟩ := string
    rw [deserializeSourceCode] at read
    split_ifs at read with between
    · obtain ⟨inner, parsed, read⟩ := Option.bind_eq_some_iff.mp read
      obtain ⟨fields, rfl⟩ := crates.parse_brace _ _ (head?_unwrapped between) parsed
      exact plain_of_decodeUntagged (by simp) read
    · cases read
      exact Bool.eq_false_iff.mpr between
  · have object : ∀ text, json ≠ .string text := fun text eq => string ⟨text, eq⟩
    rw [deserialize_of_not_string object] at read
    exact plain_of_decodeUntagged object read

theorem deserializeStringifiedU64_u64Json (n : U64) :
    crates.deserializeStringifiedU64 (u64Json n) = some n := by
  have number : readNumber 10 (Nat.toDigits 10 n.toNat) = some n.toNat :=
    readNumber_toDigits (by decide) (by decide) n.toNat
  obtain ⟨digits, value⟩ := readNumber_eq_some.mp number
  have text : numeralText ⟨false, n.toNat, [], none⟩ = Nat.toDigits 10 n.toNat := by
    simp [numeralText]
  have less : n.toNat < 2 ^ 64 := n.isLt
  have wide : n.toNat < 2 ^ 256 := less.trans (by decide)
  have read : crates.uint.fromStr 256 (Nat.toDigits 10 n.toNat) = some (.ofNat 256 n.toNat) := by
    rw [fromStr_of_isDigits crates.documented digits, value, if_pos wide]
  have narrow : (BitVec.ofNat 256 n.toNat).toNat = n.toNat := by
    rw [BitVec.toNat_ofNat, Nat.mod_eq_of_lt wide]
  simp only [deserializeStringifiedU64, u64Json, stringified, Option.bind_some,
    StringifiedNumeric.deserializeStringifiedU64, StringifiedNumeric.toU256, numberOf, text, read,
    crates.documented.tryInto64, narrow, if_pos less]
  refine congrArg some (BitVec.eq_of_toNat_eq ?_)
  rw [BitVec.toNat_setWidth, narrow, Nat.mod_eq_of_lt less]

theorem deserializeStringifiedBoolOrU64_u64Json (n : U64) :
    crates.deserializeStringifiedBoolOrU64 (u64Json n) = some n := by
  simp only [deserializeStringifiedBoolOrU64, deserializeStringifiedU64_u64Json]

theorem deserializeAddressOpt_text (a : Address) :
    crates.deserializeAddressOpt (.string (crates.address.text a)) = some (some a) := by
  simp [deserializeAddressOpt, crates.address_text, crates.address.read_text]

/-- The fields of what is written. -/
theorem readStructFrom_encode (m : Metadata σ) :
    (crates.encode iteration path m).readStructFrom 11 metadataFields = some
      [some (crates.encodeSourceCode iteration (path ++ ["SourceCode"]) m.sourceCode),
        some (.string m.abi), some (.string m.contractName), some (.string m.compilerVersion),
        some (u64Json m.optimizationUsed), some (u64Json m.runs),
        some (crates.bytes.encode iteration (path ++ ["ConstructorArguments"])
          m.constructorArguments),
        some (.string m.evmVersion), some (.string m.library), some (.string m.licenseType),
        some (u64Json m.proxy),
        m.implementation.map fun a => .string (crates.address.text a),
        some (.string m.swarmSource)] := by
  obtain ⟨sourceCode, abi, contractName, compilerVersion, optimizationUsed, runs,
    constructorArguments, evmVersion, library, licenseType, proxy, implementation,
    swarmSource⟩ := m
  cases implementation <;>
    exact Json.readStructFrom_object (.cons rfl (.cons rfl (.cons rfl (.cons rfl (.cons rfl
      (.cons rfl (.cons rfl (.cons rfl (.cons rfl (.cons rfl (.cons rfl (.cons rfl (.cons rfl
        .nil)))))))))))))

/-- Metadata is read back if its source code is. -/
theorem decode_encode {m : Metadata σ} (plain : crates.Plain m.sourceCode) :
    crates.decode (crates.encode iteration path m) = some m := by
  have source : crates.deserializeSourceCode (crates.encodeSourceCode iteration
      (path ++ ["SourceCode"]) m.sourceCode) = some m.sourceCode :=
    deserializeSourceCode_encode plain
  have bytes := crates.bytes.decode_encode iteration (path ++ ["ConstructorArguments"])
    m.constructorArguments (crates.bytes_fits _)
  have implementation : fieldOr none crates.deserializeAddressOpt
      (m.implementation.map fun a => .string (crates.address.text a)) =
        some m.implementation := by
    cases m.implementation with
    | none => rfl
    | some a => exact deserializeAddressOpt_text a
  rw [decode, readStructFrom_encode]
  -- one field after the other, in the order of the deserializer
  refine Option.bind_eq_some_iff.mpr ⟨_, rfl, ?_⟩
  refine Option.bind_eq_some_iff.mpr ⟨_, source, ?_⟩
  iterate 3 refine Option.bind_eq_some_iff.mpr ⟨_, rfl, ?_⟩
  refine Option.bind_eq_some_iff.mpr ⟨_, deserializeStringifiedBoolOrU64_u64Json _, ?_⟩
  refine Option.bind_eq_some_iff.mpr ⟨_, deserializeStringifiedU64_u64Json _, ?_⟩
  refine Option.bind_eq_some_iff.mpr ⟨_, bytes, ?_⟩
  iterate 3 refine Option.bind_eq_some_iff.mpr ⟨_, rfl, ?_⟩
  refine Option.bind_eq_some_iff.mpr ⟨_, deserializeStringifiedBoolOrU64_u64Json _, ?_⟩
  refine Option.bind_eq_some_iff.mpr ⟨_, implementation, ?_⟩
  exact Option.bind_eq_some_iff.mpr ⟨_, rfl, rfl⟩

theorem plain_of_decode {json : Json} {m : Metadata σ} (read : crates.decode json = some m) :
    crates.Plain m.sourceCode := by
  unfold decode at read
  obtain ⟨fields, -, read⟩ := Option.bind_eq_some_iff.mp read
  split at read
  · obtain ⟨sourceCode, source, read⟩ := Option.bind_eq_some_iff.mp read
    iterate 12 obtain ⟨_, -, read⟩ := Option.bind_eq_some_iff.mp read
    cases read
    exact plain_of_deserialize source
  · cases read

/-! ## The metadata of contracts -/

variable (crates)

/-- The format of `ContractMetadata`. -/
def contract : Codec (List (Metadata σ)) where
  encode iteration path items :=
    .array (items.mapIdx fun i m => crates.encode iteration (path ++ [toString i]) m)
  decode
    | .array items => items.mapM crates.decode
    | _ => none
  Fits items := ∀ m ∈ items, crates.Plain m.sourceCode
  decode_encode iteration path items plain := by
    refine mapM_eq_some_iff.mpr (List.forall₂_iff_get.mpr ⟨by simp, fun i _ less => ?_⟩)
    simpa using decode_encode (plain _ (List.getElem_mem less))

theorem contract_fits {json : Json} {items : List (Metadata σ)}
    (read : crates.contract.decode json = some items) : crates.contract.Fits items := by
  intro m mem
  cases json with
  | array values =>
    simp only [contract, mapM_eq_ite] at read
    split_ifs at read
    cases read
    obtain ⟨value, -, read⟩ := List.mem_filterMap.mp mem
    exact plain_of_decode read
  | _ => cases read

/-- What is read from any document, in whatever form it was sent, is written so that it is read
again. No other metadata is: its source code would stand between braces, or its settings are
null. -/
theorem reads_back (iteration : Iteration) (path : List String) (items : List (Metadata σ)) :
    ((∃ json, crates.contract.decode json = some items) ↔
      crates.contract.decode (crates.contract.encode iteration path items) = some items) ∧
    (crates.contract.decode (crates.contract.encode iteration path items) = some items ↔
      ∀ m ∈ items, crates.Plain m.sourceCode) := by
  have plain : ∀ json, crates.contract.decode json = some items →
      ∀ m ∈ items, crates.Plain m.sourceCode := fun _ read => crates.contract_fits read
  refine ⟨⟨?_, fun read => ⟨_, read⟩⟩, plain _, fun plain => ?_⟩
  · rintro ⟨json, read⟩
    exact crates.contract.decode_encode _ _ _ (plain json read)
  · exact crates.contract.decode_encode _ _ _ plain

end Crates

/-! ## An explorer -/

/-- The two hexadecimal digits of a byte. -/
def hexByte (b : BitVec 8) : List Char :=
  [Nat.digitChar (b.toNat / 16), Nat.digitChar (b.toNat % 16)]

def readHexBytes : List Char → Option Bytes
  | [] => some []
  | high :: low :: rest => do
    let b ← readNumber 16 [high, low]
    (readHexBytes rest).map (BitVec.ofNat 8 b :: ·)
  | _ => none

theorem readNumber_hexByte (b : BitVec 8) : readNumber 16 (hexByte b) = some b.toNat := by
  have high := digitValue_digitChar (b.toNat / 16) (by omega)
  have low := digitValue_digitChar (b.toNat % 16) (by omega)
  have less : b.toNat / 16 < 16 := by omega
  have less' : b.toNat % 16 < 16 := by omega
  simp only [readNumber, hexByte, isDigits, valueOf, List.all_cons, List.all_nil, high, low,
    Option.any_some, less, less', List.foldl_cons, List.foldl_nil, Option.getD_some]
  simp
  omega

theorem readHexBytes_hexBytes (bytes : Bytes) :
    readHexBytes (bytes.flatMap hexByte) = some bytes := by
  induction bytes with
  | nil => rfl
  | cons b rest ih =>
    have here := readNumber_hexByte b
    simp only [hexByte] at here
    rw [List.flatMap_cons, hexByte, List.cons_append, List.cons_append, List.nil_append,
      readHexBytes, here]
    simp [ih]

def hexBytes : Codec Bytes where
  encode _ _ bytes := .string (.ofList ('0' :: 'x' :: bytes.flatMap hexByte))
  decode
    | .string text =>
      match text.toList with
      | '0' :: 'x' :: digits => readHexBytes digits
      | digits => readHexBytes digits
    | _ => none
  Fits _ := True
  decode_encode _ _ bytes _ := by simp [readHexBytes_hexBytes]

def valueCodec : Codec Json where
  encode _ _ v := v
  decode := some
  Fits _ := True
  decode_encode _ _ _ _ := rfl

/-- The parser for a single text. -/
def Crates.ofText (text : String) (fields : List (String × Json)) : Crates Json where
  uint := radixUint
  parse text' := if text' = text then some (.object fields) else none
  value := valueCodec
  isNull
    | .null => true
    | _ => false
  bytes := hexBytes
  address := hexKey 160 40
  documented := radixUint_documented
  parse_brace text' json _ read := by
    split_ifs at read
    exact ⟨fields, (Option.some.inj read).symm⟩
  value_fits _ := trivial
  encode_null _ _ v := by cases v <;> simp [valueCodec]
  decode_null json v read := by
    cases read
    cases json <;> simp
  bytes_fits _ := trivial
  address_text a := by simp [hexKey, hexText]

theorem Crates.parse_ofText (text : String) (fields : List (String × Json)) :
    (ofText text fields).parse text = some (.object fields) := if_pos rfl

def sourceFields : List (String × Json) :=
  [("language", .string "Solidity"),
    ("sources", .object [("C.sol", .object [("content", .string "contract C \x7b\x7d")])]),
    ("settings", .object [("optimizer", .object [])])]

def sourceText : String :=
  "\x7b\"language\":\"Solidity\",\"sources\":\x7b\"C.sol\":" ++
    "\x7b\"content\":\"contract C \x7b\x7d\"\x7d\x7d," ++
    "\"settings\":\x7b\"optimizer\":\x7b\x7d\x7d\x7d"

/-- A contract as an explorer sends it. -/
def explorerFields : List (String × Json) :=
  [("SourceCode", .string ("\x7b" ++ sourceText ++ "\x7d")), ("ABI", .string "[]"),
    ("ContractName", .string "C"), ("CompilerVersion", .string "v0.8.26+commit.8a97fa7a"),
    ("OptimizationUsed", .string "true"), ("OptimizationRuns", .string "200"),
    ("ConstructorArguments", .string "00ff"), ("EVMVersion", .string "Default"),
    ("IsProxy", .string "0"), ("Implementation", .string "")]

def explorerItem : Metadata Json where
  sourceCode := .metadata (some .solidity)
    (ExtTreeMap.ofList [("C.sol", SourceCodeEntry.mk "contract C \x7b\x7d")])
    (some (.object [("optimizer", .object [])]))
  abi := "[]"
  contractName := "C"
  compilerVersion := "v0.8.26+commit.8a97fa7a"
  optimizationUsed := 1
  runs := 200
  constructorArguments := [0, 255]
  evmVersion := "Default"
  library := ""
  licenseType := ""
  proxy := 0
  implementation := none
  swarmSource := ""

theorem unwrapped_sourceText : Crates.unwrapped ("\x7b" ++ sourceText ++ "\x7d") = sourceText := by
  decide

theorem decode_explorerFields : (Crates.ofText sourceText sourceFields).decode
    (.object explorerFields) = some explorerItem := by
  have parsed : (Crates.ofText sourceText sourceFields).parse
      (Crates.unwrapped ("\x7b" ++ sourceText ++ "\x7d")) = some (.object sourceFields) := by
    rw [unwrapped_sourceText, Crates.parse_ofText]
  have source : (Crates.ofText sourceText sourceFields).deserializeSourceCode
      (.string ("\x7b" ++ sourceText ++ "\x7d")) = some explorerItem.sourceCode := by
    have between : Crates.braced ("\x7b" ++ sourceText ++ "\x7d") = true := by decide
    rw [Crates.deserializeSourceCode, if_pos between, parsed]
    rfl
  have fields : (Json.object explorerFields).readStructFrom 11 Crates.metadataFields = some
      [some (.string ("\x7b" ++ sourceText ++ "\x7d")), some (.string "[]"), some (.string "C"),
        some (.string "v0.8.26+commit.8a97fa7a"), some (.string "true"), some (.string "200"),
        some (.string "00ff"), some (.string "Default"), none, none, some (.string "0"),
        some (.string ""), none] :=
    Json.readStructFrom_object (.cons rfl (.cons rfl (.cons rfl (.cons rfl (.cons rfl (.cons rfl
      (.cons rfl (.cons rfl (.cons rfl (.cons rfl (.cons rfl (.cons rfl (.cons rfl .nil)))))))))))))
  rw [Crates.decode, fields]
  refine Option.bind_eq_some_iff.mpr ⟨_, rfl, ?_⟩
  refine Option.bind_eq_some_iff.mpr ⟨_, source, ?_⟩
  iterate 11 refine Option.bind_eq_some_iff.mpr ⟨_, rfl, ?_⟩
  exact Option.bind_eq_some_iff.mpr ⟨_, rfl, rfl⟩
/-- A contract with its source code in a string is read, and read again once it is written. -/
theorem Crates.reads_back_item :
    (ofText sourceText sourceFields).contract.decode
        ((ofText sourceText sourceFields).contract.encode .sorted [] [explorerItem]) =
      some [explorerItem] := by
  refine ((ofText sourceText sourceFields).reads_back .sorted [] [explorerItem]).1.mp
    ⟨.array [.object explorerFields], ?_⟩
  exact mapM_eq_some_iff.mpr (.cons decode_explorerFields .nil)

end BlockExplorers

end FoundryCore
