import FoundryCore.ForkDb.Backend
import FoundryCore.Library.Json
import FoundryCore.Library.Radix
import Mathlib.Data.List.Basic

/-!
# The cache file of the fork database

What a fork fetched is kept in a JSON file, compressed where the crate is built so, together with
the block it was fetched at. The formats of values from other crates are parameters. A file
written by an older version lacks fields of the block environment, and may name a single host.
-/

open Std

namespace FoundryCore.ForkDb

open Library

abbrev Chain := BitVec 64

/-- Relevant identifying markers of the data. -/
structure BlockchainDbMeta (β : Type) where
  chain : Option Chain
  blockEnv : β
  hosts : ExtTreeSet String

/-- The hosts are ignored, and so is the chain. -/
instance {β : Type} [BEq β] : BEq (BlockchainDbMeta β) := ⟨fun a b => a.blockEnv == b.blockEnv⟩

/-- The data that a cache file holds. -/
structure JsonBlockCacheData (β : Type) where
  dbMeta : BlockchainDbMeta β
  data : MemDb

/-- The format of a block environment. It is written as an object that has all fields
of the default, and read through a map of its fields. -/
structure EnvFormat (β : Type) where
  fields : β → List (String × Json)
  fromValue : Json → Option β
  default : β
  complete : ∀ env, ∀ field ∈ fields default, field.1 ∈ (fields env).map Prod.fst
  fromValue_fields : ∀ env, fromValue (.object (fields env)) = some env
  fromValue_congr : ∀ entries entries', Json.last? entries = Json.last? entries' →
    fromValue (.object entries) = fromValue (.object entries')

/-- The formats of the types of other crates. That of an account does not promise to keep the
number under which a database knows it. -/
structure Formats (β : Type) where
  env : EnvFormat β
  chain : Codec Chain
  account : Codec AccountInfo
  word : Codec U256
  hash : Codec B256
  address : KeyText Address
  index : KeyText U256
  chain_not_null : ∀ iteration path c, chain.encode iteration path c ≠ .null
  chain_fits : ∀ c, chain.Fits c
  account_fits : ∀ info, info.accountId = none → account.Fits info
  word_fits : ∀ w, word.Fits w
  hash_fits : ∀ h, hash.Fits h

/-- No account of the database has a number of its own. -/
def MemDb.Plain (db : MemDb) : Prop :=
  ∀ (address : Address) info, db.accounts[address]? = some info → info.accountId = none

namespace Formats

variable {β : Type} (formats : Formats β)

/-! ## Documents -/

def accounts : Codec AddressData := .map formats.address formats.account

def slots : Codec StorageInfo := .map formats.index formats.word

def storage : Codec StorageData := .map formats.address formats.slots

def blockHashes : Codec BlockHashData := .map formats.index formats.hash

def chainEntry (iteration : Iteration) (chain : Option Chain) : List (String × Json) :=
  match chain with
  | some chain => [("chain", formats.chain.encode iteration ["meta", "chain"] chain)]
  | none => []

def hostsJson (hosts : ExtTreeSet String) : Json := .array (hosts.toList.map .string)

/-- `Serialize` of `BlockchainDbMeta`. -/
def encodeMeta (iteration : Iteration) (dbMeta : BlockchainDbMeta β) : Json :=
  .object (formats.chainEntry iteration dbMeta.chain ++
    [("block_env", .object (formats.env.fields dbMeta.blockEnv)),
      ("hosts", hostsJson dbMeta.hosts)])

/-- The entries of `JsonBlockCacheData`. -/
def dataEntries (iteration : Iteration) (cache : JsonBlockCacheData β) : List (String × Json) :=
  [("meta", formats.encodeMeta iteration cache.dbMeta),
    ("accounts", formats.accounts.encode iteration ["accounts"] cache.data.accounts),
    ("storage", formats.storage.encode iteration ["storage"] cache.data.storage),
    ("block_hashes", formats.blockHashes.encode iteration ["block_hashes"] cache.data.blockHashes)]

/-- `Serialize` of `JsonBlockCacheData`. -/
def encodeData (iteration : Iteration) (cache : JsonBlockCacheData β) : Json :=
  .object (formats.dataEntries iteration cache)

/-- Fields that are missing are filled in from the default. -/
def fill (entries : List (String × Json)) : List (String × Json) :=
  entries ++ (formats.env.fields formats.env.default).filter fun field =>
    field.1 ∉ entries.map Prod.fst

/-- `Deserialize` of `BlockEnvBackwardsCompat`. -/
def decodeEnv : Json → Option β
  | .object entries => formats.env.fromValue (.object (formats.fill entries))
  | value => formats.env.fromValue value

def readString : Json → Option String
  | .string text => some text
  | _ => none

/-- `Deserialize` of `Hosts`, as the set it is turned into: several hosts or a single one. -/
def decodeHosts : Json → Option (ExtTreeSet String)
  | .array items => (items.mapM readString).map fun hosts => ExtTreeSet.ofList hosts
  | .string host => some (ExtTreeSet.ofList [host])
  | _ => none

/-- `Deserialize` of an optional chain; the field may be missing. -/
def decodeChain : Option Json → Option (Option Chain)
  | none | some .null => some none
  | some value => (formats.chain.decode value).map some

def metaFields : List (List String) := [["chain"], ["block_env"], ["hosts", "host"]]

/-- `Deserialize` of `BlockchainDbMeta`. -/
def decodeMeta (json : Json) : Option (BlockchainDbMeta β) := do
  match ← json.readStruct metaFields with
  | [chain, some blockEnv, some hosts] =>
    let chain ← formats.decodeChain chain
    let blockEnv ← formats.decodeEnv blockEnv
    let hosts ← decodeHosts hosts
    some { chain, blockEnv, hosts }
  | _ => none

def dataFields : List (List String) := [["meta"], ["accounts"], ["storage"], ["block_hashes"]]

/-- `Deserialize` of `JsonBlockCacheData`. -/
def decodeData (json : Json) : Option (JsonBlockCacheData β) := do
  match ← json.readStruct dataFields with
  | [some dbMeta, some accounts, some storage, some blockHashes] =>
    let dbMeta ← formats.decodeMeta dbMeta
    let accounts ← formats.accounts.decode accounts
    let storage ← formats.storage.decode storage
    let blockHashes ← formats.blockHashes.decode blockHashes
    some { dbMeta, data := { accounts, storage, blockHashes } }
  | _ => none

end Formats

/-! ## What is read back -/

/-- The entries of a block environment, where fields may be missing whose values are those of the
default. -/
def EnvFormat.Older {β : Type} (format : EnvFormat β) (env : β) (entries : List (String × Json)) :
    Prop :=
  ∀ key, Json.last? entries key = Json.last? (format.fields env) key ∨
    (key ∉ entries.map Prod.fst ∧
      Json.last? (format.fields format.default) key = Json.last? (format.fields env) key)

/-- Several hosts in any order, or a single one. -/
def Formats.OlderHosts (hosts : ExtTreeSet String) (json : Json) : Prop :=
  (∃ l : List String, json = .array (l.map .string) ∧ ∀ host, host ∈ hosts ↔ host ∈ l) ∨
    ∃ host, json = .string host ∧ ∀ host', host' ∈ hosts ↔ host' = host

namespace Formats

variable {β : Type} (formats : Formats β)

/-- A document of the markers: entries under other names may stand anywhere. -/
structure OlderMeta (iteration : Iteration) (dbMeta : BlockchainDbMeta β)
    (entries : List (String × Json)) : Prop where
  chain : Json.named ["chain"] entries = formats.chainEntry iteration dbMeta.chain ∨
    (dbMeta.chain = none ∧ ∃ name, Json.named ["chain"] entries = [(name, .null)])
  blockEnv : ∃ name env, Json.named ["block_env"] entries = [(name, .object env)] ∧
    formats.env.Older dbMeta.blockEnv env
  hosts : ∃ name hosts, Json.named ["hosts", "host"] entries = [(name, hosts)] ∧
    OlderHosts dbMeta.hosts hosts

/-- A document of the data. -/
structure OlderData (iteration : Iteration) (cache : JsonBlockCacheData β)
    (entries : List (String × Json)) : Prop where
  dbMeta : ∃ name entries', Json.named ["meta"] entries = [(name, .object entries')] ∧
    formats.OlderMeta iteration cache.dbMeta entries'
  accounts : ∃ name, Json.named ["accounts"] entries =
    [(name, formats.accounts.encode iteration ["accounts"] cache.data.accounts)]
  storage : ∃ name, Json.named ["storage"] entries =
    [(name, formats.storage.encode iteration ["storage"] cache.data.storage)]
  blockHashes : ∃ name, Json.named ["block_hashes"] entries =
    [(name, formats.blockHashes.encode iteration ["block_hashes"] cache.data.blockHashes)]

variable {formats} {iteration : Iteration}

theorem last?_fill (entries : List (String × Json)) (key : String) :
    Json.last? (formats.fill entries) key =
      if key ∈ entries.map Prod.fst then Json.last? entries key
      else Json.last? (formats.env.fields formats.env.default) key := by
  rw [fill, Json.last?_append]
  split_ifs with here
  · rw [Json.last?_eq_none.mpr, Option.none_or]
    intro filled
    obtain ⟨field, mem, rfl⟩ := List.mem_map.mp filled
    exact of_decide_eq_true (List.mem_filter.mp mem).2 here
  · rw [Json.last?_filter (fun key => key ∉ entries.map Prod.fst) _ (decide_eq_true here),
      Json.last?_eq_none.mpr here, Option.or_none]

theorem decodeEnv_of_older {env : β} {entries : List (String × Json)}
    (older : formats.env.Older env entries) : formats.decodeEnv (.object entries) = some env := by
  have same : Json.last? (formats.fill entries) = Json.last? (formats.env.fields env) := by
    funext key
    rw [last?_fill]
    rcases older key with written | ⟨missing, default⟩
    · split_ifs with here
      · exact written
      · -- nor is the field one of the environment, which has all fields of the default
        have absent := Json.last?_eq_none.mpr here
        rw [written, Json.last?_eq_none] at absent
        rw [Json.last?_eq_none.mpr absent, Json.last?_eq_none]
        intro named
        obtain ⟨field, mem, rfl⟩ := List.mem_map.mp named
        exact absent (formats.env.complete env field mem)
    · rw [if_neg missing, default]
  rw [decodeEnv, formats.env.fromValue_congr _ _ same, formats.env.fromValue_fields]

theorem decodeHosts_of_older {hosts : ExtTreeSet String} {json : Json}
    (older : OlderHosts hosts json) : decodeHosts json = some hosts := by
  rcases older with ⟨l, rfl, same⟩ | ⟨host, rfl, same⟩
  · have read : (l.map Json.string).mapM readString = some l := by
      simp [mapM_eq_some_iff, readString, List.forall₂_same]
    simp only [decodeHosts, read, Option.map_some, Option.some.injEq]
    exact ExtTreeSet.ext_mem fun host => by simp [same]
  · simp only [decodeHosts, Option.some.injEq]
    exact ExtTreeSet.ext_mem fun host' => by simpa [same] using eq_comm

theorem decodeMeta_of_older {dbMeta : BlockchainDbMeta β} {entries : List (String × Json)}
    (older : formats.OlderMeta iteration dbMeta entries) :
    formats.decodeMeta (.object entries) = some dbMeta := by
  obtain ⟨chain, ⟨_, env, envEq, envOlder⟩, _, hosts, hostsEq, hostsOlder⟩ := older
  have read : ∃ field, Json.readField (Json.named ["chain"] entries) = some field ∧
      formats.decodeChain field = some dbMeta.chain := by
    rcases chain with eq | ⟨noneEq, _, eq⟩
    · rw [eq]
      cases getEq : dbMeta.chain with
      | none => exact ⟨none, rfl, rfl⟩
      | some c =>
        refine ⟨_, rfl, ?_⟩
        have back := formats.chain.decode_encode iteration ["meta", "chain"] c
          (formats.chain_fits c)
        have notNull := formats.chain_not_null iteration ["meta", "chain"] c
        rw [decodeChain, back, Option.map_some]
        all_goals simp [notNull]
    · exact ⟨some .null, by rw [eq]; rfl, by rw [noneEq]; rfl⟩
  obtain ⟨field, read, chain⟩ := read
  simp [decodeMeta, Json.readStruct, metaFields, read, envEq, hostsEq, chain,
    decodeEnv_of_older envOlder, decodeHosts_of_older hostsOlder]

theorem accounts_decode_encode {db : MemDb} (plain : db.Plain) (path : List String) :
    formats.accounts.decode (formats.accounts.encode iteration path db.accounts) =
      some db.accounts :=
  formats.accounts.decode_encode _ _ _ fun address info getEq =>
    formats.account_fits info (plain address info getEq)

theorem slots_fits (slots : StorageInfo) : formats.slots.Fits slots :=
  fun _ word _ => formats.word_fits word

theorem storage_decode_encode (db : MemDb) (path : List String) :
    formats.storage.decode (formats.storage.encode iteration path db.storage) = some db.storage :=
  formats.storage.decode_encode _ _ _ fun _ slots _ => slots_fits slots

theorem blockHashes_decode_encode (db : MemDb) (path : List String) :
    formats.blockHashes.decode (formats.blockHashes.encode iteration path db.blockHashes) =
      some db.blockHashes :=
  formats.blockHashes.decode_encode _ _ _ fun _ hash _ => formats.hash_fits hash

theorem decodeData_of_older {cache : JsonBlockCacheData β} {entries : List (String × Json)}
    (plain : cache.data.Plain) (older : formats.OlderData iteration cache entries) :
    formats.decodeData (.object entries) = some cache := by
  obtain ⟨⟨_, entries', metaEq, metaOlder⟩, ⟨_, accounts⟩, ⟨_, storage⟩, _, blockHashes⟩ := older
  simp [decodeData, Json.readStruct, dataFields, metaEq, accounts, storage, blockHashes,
    decodeMeta_of_older metaOlder, accounts_decode_encode plain, storage_decode_encode,
    blockHashes_decode_encode]

/-- What is written today is one of the forms. -/
theorem older_dataEntries (iteration : Iteration) (cache : JsonBlockCacheData β) :
    formats.OlderData iteration cache (formats.dataEntries iteration cache) := by
  refine ⟨⟨_, _, rfl, ?_⟩, ⟨_, rfl⟩, ⟨_, rfl⟩, ⟨_, rfl⟩⟩
  have other : ∀ name, name ≠ "chain" →
      ∀ entry ∈ formats.chainEntry iteration cache.dbMeta.chain, entry.1 ≠ name := by
    intro name ne entry mem
    cases getEq : cache.dbMeta.chain with
    | none => simp [getEq, chainEntry] at mem
    | some chain => simp_all [chainEntry, ne_comm]
  refine ⟨.inl ?_, ⟨"block_env", _, ?_, fun key => .inl rfl⟩, ⟨"hosts", _, ?_, .inl
    ⟨cache.dbMeta.hosts.toList, rfl, fun host => ExtTreeSet.mem_toList.symm⟩⟩⟩
  · rw [Json.named_append]
    cases cache.dbMeta.chain <;> simp [chainEntry, Json.named]
  · rw [Json.named_append, Json.named_eq_nil.mpr fun entry mem => by
      simpa using other "block_env" (by decide) entry mem]
    simp [Json.named]
  · rw [Json.named_append, Json.named_eq_nil.mpr fun entry mem => by
      simpa using ⟨other "hosts" (by decide) entry mem, other "host" (by decide) entry mem⟩]
    simp [Json.named, hostsJson]

theorem decodeData_encodeData {cache : JsonBlockCacheData β} (plain : cache.data.Plain)
    (iteration : Iteration) :
    formats.decodeData (formats.encodeData iteration cache) = some cache :=
  decodeData_of_older plain (older_dataEntries iteration cache)

end Formats

/-! ## Files -/

/-- Zstd frame magic number. -/
def ZSTD_FRAME_MAGIC : Bytes := [0x28, 0xB5, 0x2F, 0xFD]

/-- Compression by frames. A frame that is cut off is not decoded. -/
structure Zstd where
  encode : Bytes → Bytes
  decodeAll : Bytes → Option Bytes
  magic : ∀ raw, ZSTD_FRAME_MAGIC <+: encode raw
  decodeAll_encode : ∀ raw, decodeAll (encode raw) = some raw
  decodeAll_take : ∀ raw n, 4 ≤ n → n < (encode raw).length →
    decodeAll ((encode raw).take n) = none

/-- Why a cache file is not loaded. -/
inductive LoadError
  | notRead | notDecompressed | notDeserialized
  | report (message : String)
deriving DecidableEq, Repr

/-- How the crate is built: whether it compresses, and the text format it is linked with. -/
structure Build (β : Type) where
  formats : Formats β
  text : JsonText
  zstd : Option Zstd

namespace Build

variable {β : Type} (build : Build β)

def maybeDecompress (raw : Bytes) (path : String) : Except LoadError Bytes :=
  if ZSTD_FRAME_MAGIC.isPrefixOf raw then
    match build.zstd with
    | some zstd =>
      match zstd.decodeAll raw with
      | some decompressed => .ok decompressed
      | none => .error .notDecompressed
    | none => .error (.report ("cache file at `" ++ path ++
        "` is zstd-compressed but the `zstd` feature is not enabled"))
  else .ok raw

/-- `JsonBlockCacheDB::load`, of a file with this content. -/
def load (path : String) (content : Option Bytes) : Except LoadError (JsonBlockCacheData β) :=
  match content with
  | none => .error .notRead
  | some raw =>
    match build.maybeDecompress raw path with
    | .error err => .error err
    | .ok jsonBytes =>
      match (build.text.read jsonBytes).bind build.formats.decodeData with
      | some data => .ok data
      | none => .error .notDeserialized

/-- The bytes that `JsonBlockCacheDB::flush_to` writes. -/
def flushed (iteration : Iteration) (data : JsonBlockCacheData β) : Bytes :=
  let json := build.text.write (build.formats.encodeData iteration data)
  match build.zstd with
  | some zstd => zstd.encode json
  | none => json

variable {build}

/-- What begins like a frame is no document. -/
theorem not_magic_of_read {raw : Bytes} {json : Json} (read : build.text.read raw = some json) :
    ZSTD_FRAME_MAGIC.isPrefixOf raw = false := by
  by_contra magic
  obtain ⟨rest, rfl⟩ := List.isPrefixOf_iff_prefix.mp (eq_true_of_ne_false magic)
  rw [ZSTD_FRAME_MAGIC, List.cons_append, build.text.read_parenthesis] at read
  cases read

theorem load_of_read {raw : Bytes} {path : String} {json : Json} {cache : JsonBlockCacheData β}
    (read : build.text.read raw = some json) (eq : build.formats.decodeData json = some cache) :
    build.load path (some raw) = .ok cache := by
  simp [load, maybeDecompress, not_magic_of_read read, read, eq]

/-- The document of the data stays within the limits of its text. -/
def Fits (build : Build β) (iteration : Iteration) (cache : JsonBlockCacheData β) : Prop :=
  cache.data.Plain ∧ build.text.Fits (build.formats.dataEntries iteration cache)

variable {cache : JsonBlockCacheData β} {iteration : Iteration}

/-- What is flushed can be loaded. -/
theorem load_flushed (fits : build.Fits iteration cache) (path : String) :
    build.load path (some (build.flushed iteration cache)) = .ok cache := by
  have read := build.text.read_write _ fits.2
  have eq := build.formats.decodeData_encodeData fits.1 iteration
  rw [← Formats.encodeData] at read
  cases built : build.zstd with
  | none =>
    simp only [flushed, built]
    exact load_of_read read eq
  | some zstd =>
    have magic := List.isPrefixOf_iff_prefix.mpr
      (zstd.magic (build.text.write (build.formats.encodeData iteration cache)))
    simp [load, flushed, built, maybeDecompress, magic, zstd.decodeAll_encode, read, eq]

/-- A part of a frame that is too short for the magic number. -/
theorem read_take_magic {raw : Bytes} (magic : ZSTD_FRAME_MAGIC <+: raw) (n : Nat) :
    build.text.read (raw.take n) = none := by
  obtain ⟨rest, rfl⟩ := magic
  cases n with
  | zero => exact build.text.read_nil
  | succ n => exact build.text.read_parenthesis _

theorem load_of_not_read {raw : Bytes} (magic : ¬ ZSTD_FRAME_MAGIC.isPrefixOf raw = true)
    (read : build.text.read raw = none) (path : String) :
    build.load path (some raw) = .error .notDeserialized := by
  simp [load, maybeDecompress, magic, read]

/-- What is cut off cannot. -/
theorem load_take (fits : build.Fits iteration cache) {n : Nat}
    (less : n < (build.flushed iteration cache).length) (path : String) :
    ∃ err, build.load path (some ((build.flushed iteration cache).take n)) = .error err := by
  cases built : build.zstd with
  | none =>
    simp only [flushed, built] at less ⊢
    have read := build.text.read_take _ n fits.2 less
    by_cases magic : ZSTD_FRAME_MAGIC.isPrefixOf
        ((build.text.write (build.formats.encodeData iteration cache)).take n) = true
    · simp [load, maybeDecompress, magic, built]
    · exact ⟨_, load_of_not_read magic read path⟩
  | some zstd =>
    simp only [flushed, built] at less ⊢
    by_cases magic : ZSTD_FRAME_MAGIC.isPrefixOf
        ((zstd.encode (build.text.write (build.formats.encodeData iteration cache))).take n) = true
    · have long : 4 ≤ n := by
        have bound := (List.isPrefixOf_iff_prefix.mp magic).length_le
        rw [List.length_take] at bound
        exact bound.trans (min_le_left _ _)
      have decoded := zstd.decodeAll_take _ n long less
      exact ⟨.notDecompressed, by simp [load, maybeDecompress, magic, built, decoded]⟩
    · exact ⟨_, load_of_not_read magic (read_take_magic (zstd.magic _) n) path⟩

/-- A file is read to the data it was written from: the one that was flushed, in whatever order
the maps were gone over, and any document that an earlier version wrote, whether this build
compresses or not. Of a file that is cut off nothing is read. -/
theorem load_spec (build : Build β) (path : String) (iteration : Iteration)
    (cache : JsonBlockCacheData β) :
    (build.Fits iteration cache →
      build.load path (some (build.flushed iteration cache)) = .ok cache ∧
      ∀ n < (build.flushed iteration cache).length,
        ∃ err, build.load path (some ((build.flushed iteration cache).take n)) = .error err) ∧
    ∀ raw entries, build.text.read raw = some (.object entries) →
      build.formats.OlderData iteration cache entries → cache.data.Plain →
        build.load path (some raw) = .ok cache := by
  refine ⟨fun fits => ⟨load_flushed fits path, fun n less => load_take fits less path⟩, ?_⟩
  intro raw entries read older plain
  exact load_of_read read (Formats.decodeData_of_older plain older)

end Build

/-! ## A build -/

/-- Some fields of a block environment. -/
structure BlockEnv where
  number : U256
  basefee : BitVec 64
deriving DecidableEq

def BlockEnv.format : EnvFormat BlockEnv where
  fields env := [("number", .string (hexText 0 env.number.toNat)),
    ("basefee", naturalJson env.basefee.toNat)]
  fromValue
    | .object entries => do
      let number ← (Json.last? entries "number").bind (hexCodec 256 0).decode
      let basefee ← (Json.last? entries "basefee").bind readNatural
      some { number, basefee := .ofNat 64 basefee }
    | _ => none
  default := ⟨0, 0⟩
  complete env field mem := by
    rcases List.mem_pair.mp mem with rfl | rfl <;> simp
  fromValue_fields env := by
    simp [Json.last?, List.lookup_cons, hexCodec]
  fromValue_congr entries entries' same := by simp only [same]

def codeJson : Option Bytecode → Json
  | none => .null
  | some code => .array (code.raw.map fun byte => naturalJson byte.toNat)

def readCode : Json → Option (Option Bytecode)
  | .null => some none
  | .array bytes => (bytes.mapM readNatural).map fun raw => some ⟨raw.map (BitVec.ofNat 8)⟩
  | _ => none

@[simp] theorem readCode_codeJson (code : Option Bytecode) :
    readCode (codeJson code) = some code := by
  cases code with
  | none => rfl
  | some code =>
    have read : (code.raw.map fun byte => naturalJson byte.toNat).mapM readNatural =
        some (code.raw.map BitVec.toNat) := by
      simp [mapM_eq_some_iff, List.forall₂_same]
    simp [codeJson, readCode, read, Function.comp_def]

def accountCodec : Codec AccountInfo where
  encode _ _ info := .object
    [("balance", .string (hexText 0 info.balance.toNat)), ("nonce", naturalJson info.nonce.toNat),
      ("code_hash", .string (hexText 64 info.codeHash.toNat)), ("code", codeJson info.code)]
  decode json := do
    match ← json.readStruct [["balance"], ["nonce"], ["code_hash"], ["code"]] with
    | [some balance, some nonce, some codeHash, some code] =>
      let balance ← (hexCodec 256 0).decode balance
      let nonce ← readNatural nonce
      let codeHash ← (hexCodec 256 64).decode codeHash
      let code ← readCode code
      some { balance, nonce := .ofNat 64 nonce, codeHash, accountId := none, code }
    | _ => none
  Fits info := info.accountId = none
  decode_encode _ _ info plain := by
    simp [Json.readStruct, Json.named, hexCodec, ← plain]

def BlockEnv.formats : Formats BlockEnv where
  env := BlockEnv.format
  chain := { hexCodec 64 0 with
    encode := fun _ _ chain => naturalJson chain.toNat
    decode := fun json => (readNatural json).map (BitVec.ofNat 64)
    decode_encode := by simp }
  account := accountCodec
  word := hexCodec 256 0
  hash := hexCodec 256 64
  address := hexKey 160 40
  index := hexKey 256 0
  chain_not_null _ _ _ := by simp [naturalJson]
  chain_fits _ := trivial
  account_fits _ plain := plain
  word_fits _ := trivial
  hash_fits _ := trivial

/-- A slot of the account 1 at block 17. -/
def slotCache (value : U256) : JsonBlockCacheData BlockEnv where
  dbMeta := { chain := none, blockEnv := ⟨17, 0⟩, hosts := ExtTreeSet.ofList ["localhost"] }
  data := { storage := (∅ : StorageData).insert 1 ((∅ : StorageInfo).insert 2 value) }

theorem plain_slotCache (value : U256) : (slotCache value).data.Plain :=
  fun address info getEq => by simp [slotCache] at getEq

/-- The data before the base fee was added and when there was a single host. -/
def olderEntries : List (String × Json) :=
  [("meta", .object
      [("cfg_env", .object []), ("block_env", .object [("number", .string (hexText 0 17))]),
        ("host", .string "localhost")]),
    ("accounts", .object []),
    ("storage", .object
      [(hexText 40 1, .object [(hexText 0 2, .string (hexText 0 7))])]),
    ("block_hashes", .object [])]

/-- The text of it, as it stands in the file. -/
def olderText : Bytes :=
  0x7B :: asciiBytes
    ("\"meta\":\x7b\"cfg_env\":\x7b\x7d,\"block_env\":\x7b\"number\":\"0x11\"\x7d," ++
      "\"host\":\"localhost\"\x7d,\"accounts\":\x7b\x7d,\"storage\":\x7b" ++
      "\"0x0000000000000000000000000000000000000001\":\x7b\"0x2\":\"0x7\"\x7d\x7d," ++
      "\"block_hashes\":\x7b\x7d\x7d")

/-- The text of what is flushed now. -/
def slotText : Bytes :=
  0x7B :: asciiBytes
    ("\"meta\":\x7b\"block_env\":\x7b\"number\":\"0x11\",\"basefee\":0\x7d," ++
      "\"hosts\":[\"localhost\"]\x7d,\"accounts\":\x7b\x7d,\"storage\":\x7b" ++
      "\"0x0000000000000000000000000000000000000001\":\x7b\"0x2\":\"0x7\"\x7d\x7d," ++
      "\"block_hashes\":\x7b\x7d\x7d")

theorem olderData_olderEntries :
    BlockEnv.formats.OlderData .sorted (slotCache 7) olderEntries := by
  refine ⟨⟨"meta", _, rfl, .inl rfl, ⟨"block_env", _, rfl, ?_⟩, ⟨"host", _, rfl, ?_⟩⟩,
    ⟨"accounts", ?_⟩, ⟨"storage", ?_⟩, ⟨"block_hashes", ?_⟩⟩
  · intro key
    rcases eq_or_ne key "number" with rfl | other
    · exact .inl (by
        simp [Json.last?, BlockEnv.formats, BlockEnv.format, slotCache, List.lookup_cons])
    · refine .inr ⟨by simpa using other, ?_⟩
      simp [Json.last?, BlockEnv.formats, BlockEnv.format, slotCache, List.lookup_cons,
        beq_false_of_ne other]
  · exact .inr ⟨"localhost", rfl, fun host => by simpa [slotCache] using eq_comm⟩
  · rfl
  · rfl
  · rfl

/-- The older document is read, and so is the one that is flushed now. -/
theorem load_spec_slot :
    (Build.mk BlockEnv.formats (.ofDocument olderEntries olderText rfl) none).load "cache.json"
        (some olderText) = .ok (slotCache 7) ∧
      ∃ text : JsonText, (Build.mk BlockEnv.formats text none).load "cache.json"
        (some ((Build.mk BlockEnv.formats text none).flushed .sorted (slotCache 7))) =
          .ok (slotCache 7) := by
  constructor
  · exact (Build.load_spec _ _ .sorted _).2 _ _ (JsonText.read_ofDocument _ _ rfl)
      olderData_olderEntries (plain_slotCache 7)
  · let text := JsonText.ofDocument (BlockEnv.formats.dataEntries .sorted (slotCache 7))
      slotText rfl
    exact ⟨text, ((Build.load_spec ⟨BlockEnv.formats, text, none⟩ "cache.json" .sorted
      (slotCache 7)).1 ⟨plain_slotCache 7, JsonText.fits_ofDocument _ _ rfl⟩).1⟩

end FoundryCore.ForkDb
