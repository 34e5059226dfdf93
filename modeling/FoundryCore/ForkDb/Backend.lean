import FoundryCore.Library.Machine
import Mathlib.Data.Finset.Basic

/-!
# The fork backend

`BackendHandler` answers reads from a shared database and fetches missing values from a
provider, one request for each key in flight at a time. The handler is a future: here a
step of its `poll` loop is one transition, so that calls of the `SharedBackend`s interleave
with it freely. What the provider answers, and when, is an input of each step.
-/

open Std

namespace FoundryCore.ForkDb

/-! ## Data -/

abbrev Address := BitVec 160
abbrev U256 := BitVec 256
abbrev B256 := BitVec 256
abbrev Bytes := List (BitVec 8)

/-- `U256::from` on a `u64`. -/
def U256.ofU64 (n : BitVec 64) : U256 := n.setWidth 256

/-- The hash of the empty byte string. -/
def KECCAK_EMPTY : B256 :=
  0xc5d2460186f7233c927e7db2dcc703c0e500b653ca82273b7bfad8045d85a470#256

structure Bytecode where
  raw : Bytes
deriving DecidableEq, Repr

/-- What the handler uses to read the code of an account: its hash, and `Bytecode::new_raw`, which
is none where the code panics. -/
structure Revm where
  keccak256 : Bytes → B256
  newRaw : Bytes → Option Bytecode

/-- Code that begins with `ef01` has to be a delegation designator of EIP-7702, that is the version
0 and 20 more bytes have to follow; other code is taken as it is. The hashes are left out. -/
def Revm.unhashed : Revm where
  keccak256 _ := 0
  newRaw code :=
    if code.take 2 = [0xef, 0x01] ∧ ¬ (code.length = 23 ∧ code[2]? = some 0) then none
    else some ⟨code⟩

structure AccountInfo where
  balance : U256
  nonce : BitVec 64
  codeHash : B256
  accountId : Option Nat
  code : Option Bytecode
deriving DecidableEq, Repr

inductive BlockNumberOrTag
  | latest | finalized | safe | earliest | pending
  | number (number : BitVec 64)
deriving DecidableEq, Repr

inductive BlockId
  | hash (hash : B256) (requireCanonical : Option Bool)
  | number (tag : BlockNumberOrTag)
deriving DecidableEq, Repr

instance : Inhabited BlockId := ⟨.number .latest⟩

/-- The parts of a block and of a transaction that identify them; the handler only passes
them on. -/
structure BlockResponse where
  hash : B256
deriving DecidableEq, Repr

structure TransactionResponse where
  hash : B256
deriving DecidableEq, Repr

/-- An error report of the provider. -/
abbrev Report := String

/-- The errors that reach a listener of the handler. -/
inductive DatabaseError
  | getAccount (address : Address) (err : Report)
  | getStorage (address : Address) (idx : U256) (err : Report)
  | getBlockHash (number : BitVec 64) (err : Report)
  | getFullBlock (number : BlockId) (err : Report)
  | blockNotFound (number : BlockId)
  | getTransaction (tx : B256) (err : Report)
deriving DecidableEq, Repr

abbrev DatabaseResult := Except DatabaseError

/-- The sending half of a oneshot channel, by the number under which it was created. -/
abbrev Sender := Nat

instance : TransOrd Address := inferInstanceAs (TransOrd (BitVec 160))

instance : TransOrd U256 := inferInstanceAs (TransOrd (BitVec 256))

instance transOrdU64 : TransOrd (BitVec 64) := inferInstance

/-- Storage listeners are keyed by address and slot together. -/
instance : Ord (Address × U256) := lexOrd

instance : TransOrd (Address × U256) := inferInstanceAs (@TransOrd _ lexOrd)

instance : LawfulEqOrd (Address × U256) := inferInstanceAs (@LawfulEqOrd _ lexOrd)

abbrev StorageInfo := ExtTreeMap U256 U256
abbrev AddressData := ExtTreeMap Address AccountInfo
abbrev StorageData := ExtTreeMap Address StorageInfo
abbrev BlockHashData := ExtTreeMap U256 B256

structure MemDb where
  accounts : AddressData := ∅
  storage : StorageData := ∅
  blockHashes : BlockHashData := ∅

/-- What the database stores and the handler fetches. -/
inductive Key
  | account (address : Address)
  | storage (address : Address) (idx : U256)
  | blockHash (number : U256)
deriving DecidableEq, Repr

inductive Value
  | account (info : AccountInfo)
  | slot (value : U256)
  | hash (hash : B256)
deriving DecidableEq, Repr

/-- The content of the database for a key. -/
def MemDb.get? (db : MemDb) : Key → Option Value
  | .account address => db.accounts[address]?.map .account
  | .storage address idx => (db.storage[address]?.bind (·[idx]?)).map .slot
  | .blockHash number => db.blockHashes[number]?.map .hash

/-- Request variants that are executed by the provider. -/
inductive ProviderRequest
  | account (address : Address) (block : BlockId)
  | storage (address : Address) (idx : U256) (block : BlockId)
  | blockHash (number : BitVec 64)
  | fullBlock (sender : Sender) (number : BlockId)
  | transaction (sender : Sender) (tx : B256)
  | anyRequest (sender : Sender)
deriving DecidableEq, Repr

/-- The output of a request's future. -/
def ProviderRequest.Output : ProviderRequest → Type
  | .account _ _ => Except Report (U256 × BitVec 64 × Bytes)
  | .storage _ _ _ => Except Report U256
  | .blockHash _ => Except Report B256
  | .fullBlock _ _ => Except Report (Option BlockResponse)
  | .transaction _ _ => Except Report TransactionResponse
  | .anyRequest _ => Except Report Bytes

/-- The key that a request fetches. -/
def ProviderRequest.key? : ProviderRequest → Option Key
  | .account address _ => some (.account address)
  | .storage address idx _ => some (.storage address idx)
  | .blockHash number => some (.blockHash (U256.ofU64 number))
  | .fullBlock _ _ | .transaction _ _ | .anyRequest _ => none

/-- The request type the backend listens for. -/
inductive BackendRequest
  | basic (address : Address) (sender : Sender)
  | storage (address : Address) (idx : U256) (sender : Sender)
  | blockHash (number : BitVec 64) (sender : Sender)
  | fullBlock (number : BlockId) (sender : Sender)
  | transaction (tx : B256) (sender : Sender)
  | setPinnedBlock (block : BlockId)
  | updateAddress (data : AddressData)
  | updateStorage (data : StorageData)
  | updateBlockHash (data : BlockHashData)
  | anyRequest (sender : Sender)

/-- What is sent to a caller whose request belongs to no key. -/
inductive Reply
  | fullBlock (block : DatabaseResult BlockResponse)
  | transaction (tx : DatabaseResult TransactionResponse)
  | any (result : Except Report Bytes)
deriving DecidableEq

/-- What the handler does that a listener or the database can observe: a listener joins the
list of a key, a fetch of a key completes, an answer for a key is sent, an answer that
belongs to no key is sent, an update message sets a key. -/
inductive Event
  | accepted (key : Key) (listener : Sender)
  | completed (key : Key)
  | answered (key : Key) (listener : Sender) (value : DatabaseResult Value)
  | replied (sender : Sender) (reply : Reply)
  | updated (key : Key) (value : Value)
deriving DecidableEq

structure BackendHandler where
  /-- Stores all the data. -/
  db : MemDb := {}
  /-- Requests currently in progress. -/
  pendingRequests : List ProviderRequest := []
  accountRequests : ExtTreeMap Address (List Sender) := ∅
  storageRequests : ExtTreeMap (Address × U256) (List Sender) := ∅
  blockRequests : ExtTreeMap (BitVec 64) (List Sender) := ∅
  /-- Unprocessed queued requests. -/
  queuedRequests : List BackendRequest := []
  /-- The block to fetch data from. -/
  blockId : Option BlockId := none

/-! ## Handling a request -/

namespace BackendHandler

/-- Process a request for an account's storage. -/
def requestAccountStorage (h : BackendHandler) (address : Address) (idx : U256)
    (listener : Sender) : BackendHandler × List Event :=
  match h.storageRequests[(address, idx)]? with
  | some listeners =>
    ({ h with
        storageRequests := h.storageRequests.insert (address, idx) (listeners ++ [listener]) },
      [.accepted (.storage address idx) listener])
  | none =>
    ({ h with
        storageRequests := h.storageRequests.insert (address, idx) [listener]
        pendingRequests :=
          h.pendingRequests ++ [ProviderRequest.storage address idx (h.blockId.getD default)] },
      [.accepted (.storage address idx) listener])

/-- The request that fetches the account data. -/
def getAccountReq (h : BackendHandler) (address : Address) : ProviderRequest :=
  .account address (h.blockId.getD default)

/-- Process a request for an account. -/
def requestAccount (h : BackendHandler) (address : Address) (listener : Sender) :
    BackendHandler × List Event :=
  match h.accountRequests[address]? with
  | some listeners =>
    ({ h with accountRequests := h.accountRequests.insert address (listeners ++ [listener]) },
      [.accepted (.account address) listener])
  | none =>
    ({ h with
        accountRequests := h.accountRequests.insert address [listener]
        pendingRequests := h.pendingRequests ++ [h.getAccountReq address] },
      [.accepted (.account address) listener])

/-- Process a request for an entire block. -/
def requestFullBlock (h : BackendHandler) (number : BlockId) (sender : Sender) :
    BackendHandler :=
  { h with pendingRequests := h.pendingRequests ++ [ProviderRequest.fullBlock sender number] }

/-- Process a request for a transaction. -/
def requestTransaction (h : BackendHandler) (tx : B256) (sender : Sender) : BackendHandler :=
  { h with pendingRequests := h.pendingRequests ++ [ProviderRequest.transaction sender tx] }

/-- Process a request for a block hash. -/
def requestHash (h : BackendHandler) (number : BitVec 64) (listener : Sender) :
    BackendHandler × List Event :=
  match h.blockRequests[number]? with
  | some listeners =>
    ({ h with blockRequests := h.blockRequests.insert number (listeners ++ [listener]) },
      [.accepted (.blockHash (U256.ofU64 number)) listener])
  | none =>
    ({ h with
        blockRequests := h.blockRequests.insert number [listener]
        pendingRequests := h.pendingRequests ++ [ProviderRequest.blockHash number] },
      [.accepted (.blockHash (U256.ofU64 number)) listener])

/-- Handle a request: answer it from the database, join a fetch in progress, or start one. -/
def onRequest (h : BackendHandler) : BackendRequest → BackendHandler × List Event
  | .basic address sender =>
    match h.db.accounts[address]? with
    | some basic => (h, [.answered (.account address) sender (.ok (.account basic))])
    | none => h.requestAccount address sender
  | .blockHash number sender =>
    match h.db.blockHashes[U256.ofU64 number]? with
    | some hash => (h, [.answered (.blockHash (U256.ofU64 number)) sender (.ok (.hash hash))])
    | none => h.requestHash number sender
  | .fullBlock number sender => (h.requestFullBlock number sender, [])
  | .transaction tx sender => (h.requestTransaction tx sender, [])
  | .storage address idx sender =>
    match h.db.storage[address]?.bind (·[idx]?) with
    | some value => (h, [.answered (.storage address idx) sender (.ok (.slot value))])
    | none => h.requestAccountStorage address idx sender
  | .setPinnedBlock block => ({ h with blockId := some block }, [])
  | .updateAddress data =>
    ({ h with db := { h.db with accounts := h.db.accounts.insertMany data.toList } },
      data.toList.map fun (address, info) => .updated (.account address) (.account info))
  | .updateStorage data =>
    ({ h with db := { h.db with storage := h.db.storage.insertMany data.toList } },
      data.toList.flatMap fun (address, slots) =>
        slots.toList.map fun (idx, value) => .updated (.storage address idx) (.slot value))
  | .updateBlockHash data =>
    ({ h with db := { h.db with blockHashes := h.db.blockHashes.insertMany data.toList } },
      data.toList.map fun (number, hash) => .updated (.blockHash number) (.hash hash))
  | .anyRequest sender =>
    ({ h with pendingRequests := h.pendingRequests ++ [ProviderRequest.anyRequest sender] }, [])

/-! ## Handling a response -/

/-- Converts a fetched account to the form the database stores; none where the code panics. -/
def toAccountInfo (revm : Revm) (balance : U256) (nonce : BitVec 64) (code : Bytes) :
    Option AccountInfo :=
  let (code, codeHash) := if code.isEmpty then ([], KECCAK_EMPTY) else (code, revm.keccak256 code)
  (revm.newRaw code).map fun code =>
    { nonce, balance, code := some code, codeHash, accountId := none }

/-- Sends one answer to every listener of a key. -/
def notify (key : Key) (listeners : Option (List Sender)) (value : DatabaseResult Value) :
    List Event :=
  .completed key :: (listeners.getD []).map (.answered key · value)

/-- A request that was taken from the pending ones is ready: store what it fetched and notify
the listeners of its key. None where the code panics, on an account whose code is malformed. -/
def onReady (revm : Revm) (h : BackendHandler) :
    (request : ProviderRequest) → request.Output → Option (BackendHandler × List Event)
  | .account address _, .error err =>
    some ({ h with accountRequests := h.accountRequests.erase address },
      notify (.account address) h.accountRequests[address]? (.error (.getAccount address err)))
  | .account address _, .ok (balance, nonce, code) =>
    (toAccountInfo revm balance nonce code).map fun acc =>
      ({ h with
          db := { h.db with accounts := h.db.accounts.insert address acc }
          accountRequests := h.accountRequests.erase address },
        notify (.account address) h.accountRequests[address]? (.ok (.account acc)))
  | .storage address idx _, .error err =>
    some ({ h with storageRequests := h.storageRequests.erase (address, idx) },
      notify (.storage address idx) h.storageRequests[(address, idx)]?
        (.error (.getStorage address idx err)))
  | .storage address idx _, .ok value =>
    let slots := (h.db.storage[address]?.getD ∅).insert idx value
    some ({ h with
        db := { h.db with storage := h.db.storage.insert address slots }
        storageRequests := h.storageRequests.erase (address, idx) },
      notify (.storage address idx) h.storageRequests[(address, idx)]? (.ok (.slot value)))
  | .blockHash number, .error err =>
    some ({ h with blockRequests := h.blockRequests.erase number },
      notify (.blockHash (U256.ofU64 number)) h.blockRequests[number]?
        (.error (.getBlockHash number err)))
  | .blockHash number, .ok value =>
    some ({ h with
        db := { h.db with blockHashes := h.db.blockHashes.insert (U256.ofU64 number) value }
        blockRequests := h.blockRequests.erase number },
      notify (.blockHash (U256.ofU64 number)) h.blockRequests[number]? (.ok (.hash value)))
  | .fullBlock sender number, resp =>
    let msg := match resp with
      | .ok (some block) => .ok block
      | .ok none => .error (.blockNotFound number)
      | .error err => .error (.getFullBlock number err)
    some (h, [.replied sender (.fullBlock msg)])
  | .transaction sender txHash, tx =>
    let msg := match tx with
      | .ok tx => .ok tx
      | .error err => .error (.getTransaction txHash err)
    some (h, [.replied sender (.transaction msg)])
  | .anyRequest sender, result => some (h, [.replied sender (.any result)])

end BackendHandler

/-! ## The poll loop -/

/-- `Vec::swap_remove`: the last element takes the place of the removed one; `none` when the
index is out of range, where the code panics. -/
def swapRemove {α : Type*} (xs : List α) (n : Nat) : Option (α × List α) :=
  xs[n]?.map fun x => (x, (xs.set n (xs.getLastD x)).dropLast)

/-- Where the handler stands in `poll`: not being polled, draining the queue, receiving
commands, about to poll the pending request below an index, finished, or panicked. -/
inductive Pc
  | idle | drain | receive
  | polling (n : Nat)
  | finished | panicked
deriving DecidableEq, Repr

/-- What a `SharedBackend` can ask for; the call creates the oneshot channel itself. -/
inductive Call
  | basic (address : Address)
  | storage (address : Address) (idx : U256)
  | blockHash (number : BitVec 64)
  | fullBlock (number : BlockId)
  | transaction (tx : B256)
  | setPinnedBlock (block : BlockId)
  | insertOrUpdateAddress (data : AddressData)
  | insertOrUpdateStorage (data : StorageData)
  | insertOrUpdateBlockHashes (data : BlockHashData)
  | anyRequest

/-- The message that a call sends. -/
def Call.request (sender : Sender) : Call → BackendRequest
  | .basic address => .basic address sender
  | .storage address idx => .storage address idx sender
  | .blockHash number => .blockHash number sender
  | .fullBlock number => .fullBlock number sender
  | .transaction tx => .transaction tx sender
  | .setPinnedBlock block => .setPinnedBlock block
  | .insertOrUpdateAddress data => .updateAddress data
  | .insertOrUpdateStorage data => .updateStorage data
  | .insertOrUpdateBlockHashes data => .updateBlockHash data
  | .anyRequest => .anyRequest sender

/-- The handler, its channel and the `SharedBackend`s that hold the sending half. -/
structure System where
  handler : BackendHandler := {}
  pc : Pc := .idle
  /-- Messages sent and not yet received. -/
  incoming : List BackendRequest := []
  /-- Some `SharedBackend` is alive. -/
  connected : Bool := true
  /-- The number of oneshot channels created so far. -/
  created : Nat := 0

/-- What can happen next: a `SharedBackend` makes a call, the last one is dropped, or the
handler takes a step of `poll`, for which it is given what each request answers at this
moment (`none` is pending). -/
inductive Action
  | call (call : Call)
  | dropLast
  | poll (ready : (request : ProviderRequest) → Option request.Output)

namespace System

/-- Polls the request at index `n` of the pending ones. -/
def pollRequest (revm : Revm)
    (ready : (request : ProviderRequest) → Option request.Output) (s : System) (n : Nat) :
    System × List Event :=
  match swapRemove s.handler.pendingRequests n with
  | none => ({ s with pc := .panicked }, [])
  | some (request, rest) =>
    match ready request with
    | some output =>
      let handler := { s.handler with pendingRequests := rest }
      match handler.onReady revm request output with
      | some (handler, out) => ({ s with handler, pc := .polling n }, out)
      | none => ({ s with handler, pc := .panicked }, [])
    | none =>
      -- not ready, insert and poll again
      ({ s with
          handler := { s.handler with pendingRequests := rest ++ [request] }
          pc := .polling n }, [])

/-- One step of `BackendHandler::poll`. -/
def poll (revm : Revm)
    (ready : (request : ProviderRequest) → Option request.Output) (s : System) :
    Option (System × List Event) :=
  match s.pc with
  | .idle => some ({ s with pc := .drain }, [])
  | .drain =>
    match s.handler.queuedRequests with
    | [] => some ({ s with pc := .receive }, [])
    | req :: rest =>
      let (handler, out) := { s.handler with queuedRequests := rest }.onRequest req
      some ({ s with handler }, out)
  | .receive =>
    match s.incoming, s.connected with
    | req :: rest, _ =>
      some ({ s with
        handler := { s.handler with queuedRequests := s.handler.queuedRequests ++ [req] }
        incoming := rest }, [])
    | [], true => some ({ s with pc := .polling s.handler.pendingRequests.length }, [])
    | [], false => some ({ s with pc := .finished }, [])
  | .polling 0 =>
    if s.handler.queuedRequests.isEmpty then some ({ s with pc := .idle }, [])
    else some ({ s with pc := .drain }, [])
  | .polling (n + 1) => some (s.pollRequest revm ready n)
  | .finished | .panicked => none

/-- A call sends its message unless the receiving half is gone. -/
def call (s : System) (call : Call) : Option (System × List Event) :=
  if s.connected then
    some ({ s with
      incoming :=
        if s.pc = .finished ∨ s.pc = .panicked then s.incoming
        else s.incoming ++ [call.request s.created]
      created := s.created + 1 }, [])
  else none

/-- The fork backend as a machine. -/
def machine (revm : Revm) : Library.Machine System Action Event where
  step s
    | .call request => s.call request
    | .dropLast => if s.connected then some ({ s with connected := false }, []) else none
    | .poll ready => s.poll revm ready

/-- A freshly spawned backend over a database. -/
def spawn (db : MemDb) (pinned : Option BlockId) : System :=
  { handler := { db, blockId := pinned } }

end System

end FoundryCore.ForkDb
