import FoundryCore.ForkDb.Backend
import FoundryCore.Library.Map

/-!
# What the handler does with a message and with a response

The functions of `BackendHandler` come in one copy for each kind of key. Read through
`listeners`, `inFlight` and `MemDb.get?` the copies agree, and each function has one
specification that names the key.
-/

open Std

namespace FoundryCore.ForkDb

open Library

/-! ## Views of the handler by key -/

namespace BackendHandler

/-- The listeners that wait for a key. Block numbers are looked up as `u64`. -/
def listeners (h : BackendHandler) : Key → Option (List Sender)
  | .account address => h.accountRequests[address]?
  | .storage address idx => h.storageRequests[(address, idx)]?
  | .blockHash number =>
    if U256.ofU64 (number.setWidth 64) = number then h.blockRequests[number.setWidth 64]? else none

/-- The keys of the provider requests in flight. -/
def inFlight (h : BackendHandler) : List Key :=
  h.pendingRequests.filterMap ProviderRequest.key?

end BackendHandler

theorem U256.setWidth_ofU64 (n : BitVec 64) : (U256.ofU64 n).setWidth 64 = n := by
  apply BitVec.eq_of_toNat_eq
  have := n.isLt
  simp only [U256.ofU64, BitVec.toNat_setWidth]
  omega

@[simp] theorem BackendHandler.listeners_ofU64 (h : BackendHandler) (n : BitVec 64) :
    h.listeners (.blockHash (U256.ofU64 n)) = h.blockRequests[n]? := by
  simp [listeners, U256.setWidth_ofU64]

theorem BackendHandler.listeners_blockHash_insert {h h' : BackendHandler} {n : BitVec 64}
    {ls : List Sender} (eq : h'.blockRequests = h.blockRequests.insert n ls) (number : U256) :
    h'.listeners (.blockHash number) =
      if number = U256.ofU64 n then some ls else h.listeners (.blockHash number) := by
  simp only [listeners, eq, getElem?_insert_eq]
  by_cases same : number = U256.ofU64 n
  · subst same
    simp [U256.setWidth_ofU64]
  · split_ifs with fits found
    · exact absurd (found ▸ fits.symm) same
    all_goals simp

theorem BackendHandler.listeners_blockHash_erase {h h' : BackendHandler} {n : BitVec 64}
    (eq : h'.blockRequests = h.blockRequests.erase n) (number : U256) :
    h'.listeners (.blockHash number) =
      if number = U256.ofU64 n then none else h.listeners (.blockHash number) := by
  simp only [listeners, eq, getElem?_erase_eq]
  by_cases same : number = U256.ofU64 n
  · subst same
    simp [U256.setWidth_ofU64]
  · split_ifs with fits found
    · exact absurd (found ▸ fits.symm) same
    all_goals simp

/-- The key a request reads and the channel it is answered on. -/
def BackendRequest.read? : BackendRequest → Option (Key × Sender)
  | .basic address sender => some (.account address, sender)
  | .storage address idx sender => some (.storage address idx, sender)
  | .blockHash number sender => some (.blockHash (U256.ofU64 number), sender)
  | _ => none

/-- The channel a request is answered on. -/
def BackendRequest.sender? : BackendRequest → Option Sender
  | .basic _ sender | .storage _ _ sender | .blockHash _ sender | .fullBlock _ sender
  | .transaction _ sender | .anyRequest sender => some sender
  | .setPinnedBlock _ | .updateAddress _ | .updateStorage _ | .updateBlockHash _ => none

theorem BackendRequest.sender?_of_read? {req : BackendRequest} {k : Key} {l : Sender}
    (read : req.read? = some (k, l)) : req.sender? = some l := by
  cases req <;> simp_all [read?, sender?]

/-- The channel that a provider request holds itself. -/
def ProviderRequest.sender? : ProviderRequest → Option Sender
  | .fullBlock sender _ | .transaction sender _ | .anyRequest sender => some sender
  | .account _ _ | .storage _ _ _ | .blockHash _ => none

theorem ProviderRequest.sender?_of_key? {request : ProviderRequest} {k : Key}
    (key : request.key? = some k) : request.sender? = none := by
  cases request <;> simp_all [key?, sender?]

/-- Setting one slot of an account leaves its other slots, and other accounts, as they are. -/
theorem MemDb.get?_insert_slot (db : MemDb) (address : Address) (idx value : U256)
    (address' : Address) (idx' : U256) :
    MemDb.get? { db with
        storage := db.storage.insert address ((db.storage[address]?.getD ∅).insert idx value) }
      (.storage address' idx') =
      if address' = address ∧ idx' = idx then some (.slot value)
      else db.get? (.storage address' idx') := by
  simp only [get?, getElem?_insert_eq]
  by_cases same : address' = address
  · subst same
    cases eq : db.storage[address']? <;> by_cases slot : idx' = idx <;>
      simp [getElem?_insert_eq, slot]
  · simp [same]

/-! ## What the handler's functions do -/

namespace BackendHandler

variable {h h' : BackendHandler} {k k' : Key} {l : Sender} {out : List Event}

/-- `h'` is `h` after the listener joined the key, with a new request if it is the first. -/
structure Joins (h : BackendHandler) (k : Key) (l : Sender) (h' : BackendHandler) : Prop where
  db : h'.db = h.db
  queued : h'.queuedRequests = h.queuedRequests
  listeners : ∀ k', h'.listeners k' =
    if k' = k then some ((h.listeners k).getD [] ++ [l]) else h.listeners k'
  pending : ∃ requests : List ProviderRequest, h'.pendingRequests = h.pendingRequests ++ requests ∧
    requests.filterMap ProviderRequest.key? = (if (h.listeners k).isSome then [] else [k]) ∧
    requests.filterMap ProviderRequest.sender? = []

theorem requestAccount_joins (h : BackendHandler) (address : Address) (l : Sender) :
    h.Joins (.account address) l (h.requestAccount address l).1 ∧
      (h.requestAccount address l).2 = [.accepted (.account address) l] := by
  unfold requestAccount
  split
  · next ls eq =>
    refine ⟨⟨rfl, rfl, fun k' => ?_, [], by simp, by simp [listeners, eq], rfl⟩, rfl⟩
    cases k' <;> simp [listeners, getElem?_insert_eq, eq]
  · next eq =>
    refine ⟨⟨rfl, rfl, fun k' => ?_, [_], rfl, ?_, ?_⟩, rfl⟩
    · cases k' <;> simp [listeners, getElem?_insert_eq, eq]
    · simp [listeners, eq, getAccountReq, ProviderRequest.key?]
    · simp [getAccountReq, ProviderRequest.sender?]

theorem requestAccountStorage_joins (h : BackendHandler) (address : Address) (idx : U256)
    (l : Sender) :
    h.Joins (.storage address idx) l (h.requestAccountStorage address idx l).1 ∧
      (h.requestAccountStorage address idx l).2 = [.accepted (.storage address idx) l] := by
  unfold requestAccountStorage
  split
  · next ls eq =>
    refine ⟨⟨rfl, rfl, fun k' => ?_, [], by simp, by simp [listeners, eq], rfl⟩, rfl⟩
    cases k' <;> simp [listeners, getElem?_insert_eq, eq]
  · next eq =>
    refine ⟨⟨rfl, rfl, fun k' => ?_, [_], rfl, ?_, ?_⟩, rfl⟩
    · cases k' <;> simp [listeners, getElem?_insert_eq, eq]
    · simp [listeners, eq, ProviderRequest.key?]
    · simp [ProviderRequest.sender?]

theorem requestHash_joins (h : BackendHandler) (number : BitVec 64) (l : Sender) :
    h.Joins (.blockHash (U256.ofU64 number)) l (h.requestHash number l).1 ∧
      (h.requestHash number l).2 = [.accepted (.blockHash (U256.ofU64 number)) l] := by
  unfold requestHash
  split
  · next ls eq =>
    refine ⟨⟨rfl, rfl, fun k' => ?_, [], by simp, by simp [eq], rfl⟩, rfl⟩
    cases k' with
    | blockHash n => simpa [eq] using listeners_blockHash_insert rfl n
    | _ => simp [listeners]
  · next eq =>
    refine ⟨⟨rfl, rfl, fun k' => ?_, [_], rfl, ?_, ?_⟩, rfl⟩
    · cases k' with
      | blockHash n => simpa [eq] using listeners_blockHash_insert rfl n
      | _ => simp [listeners]
    · simp [eq, ProviderRequest.key?]
    · simp [ProviderRequest.sender?]

/-- A request that reads no key changes neither the listeners nor the keys in flight; it may
put its own channel among the pending requests. -/
structure Aside (h : BackendHandler) (req : BackendRequest) (h' : BackendHandler) : Prop where
  queued : h'.queuedRequests = h.queuedRequests
  listeners : h'.listeners = h.listeners
  pending : ∃ requests : List ProviderRequest, h'.pendingRequests = h.pendingRequests ++ requests ∧
    requests.filterMap ProviderRequest.key? = [] ∧
    requests.filterMap ProviderRequest.sender? = req.sender?.toList

/-- What a request does: it reads a key that the database holds, or joins the listeners of
its key, or is no read of a key. -/
theorem onRequest_cases (h : BackendHandler) (req : BackendRequest) :
    (∃ k l v, req.read? = some (k, l) ∧ h.db.get? k = some v ∧
      h.onRequest req = (h, [.answered k l (.ok v)])) ∨
    (∃ k l h', req.read? = some (k, l) ∧ h.db.get? k = none ∧ h.Joins k l h' ∧
      h.onRequest req = (h', [.accepted k l])) ∨
    (req.read? = none ∧ h.Aside req (h.onRequest req).1 ∧
      ∀ e ∈ (h.onRequest req).2, ∃ k v, e = .updated k v) := by
  cases req with
  | basic address sender =>
    cases eq : h.db.accounts[address]? with
    | some info =>
      exact .inl ⟨_, _, .account info, rfl, by simp [MemDb.get?, eq], by simp [onRequest, eq]⟩
    | none =>
      obtain ⟨joins, out⟩ := h.requestAccount_joins address sender
      exact .inr (.inl ⟨_, _, _, rfl, by simp [MemDb.get?, eq], joins,
        by simp only [onRequest, eq]; exact Prod.ext rfl out⟩)
  | storage address idx sender =>
    cases eq : h.db.storage[address]?.bind (·[idx]?) with
    | some value =>
      exact .inl ⟨_, _, .slot value, rfl, by simp [MemDb.get?, eq], by simp [onRequest, eq]⟩
    | none =>
      obtain ⟨joins, out⟩ := h.requestAccountStorage_joins address idx sender
      exact .inr (.inl ⟨_, _, _, rfl, by simp [MemDb.get?, eq], joins,
        by simp only [onRequest, eq]; exact Prod.ext rfl out⟩)
  | blockHash number sender =>
    cases eq : h.db.blockHashes[U256.ofU64 number]? with
    | some hash =>
      exact .inl ⟨_, _, .hash hash, rfl, by simp [MemDb.get?, eq], by simp [onRequest, eq]⟩
    | none =>
      obtain ⟨joins, out⟩ := h.requestHash_joins number sender
      exact .inr (.inl ⟨_, _, _, rfl, by simp [MemDb.get?, eq], joins,
        by simp only [onRequest, eq]; exact Prod.ext rfl out⟩)
  | fullBlock number sender =>
    exact .inr (.inr ⟨rfl, ⟨rfl, rfl, [_], rfl, rfl, rfl⟩, by simp [onRequest]⟩)
  | transaction tx sender =>
    exact .inr (.inr ⟨rfl, ⟨rfl, rfl, [_], rfl, rfl, rfl⟩, by simp [onRequest]⟩)
  | anyRequest sender =>
    exact .inr (.inr ⟨rfl, ⟨rfl, rfl, [_], rfl, rfl, rfl⟩, by simp [onRequest]⟩)
  | setPinnedBlock block =>
    exact .inr (.inr ⟨rfl, ⟨rfl, rfl, [], by simp [onRequest], rfl, rfl⟩, by simp [onRequest]⟩)
  | updateAddress data =>
    refine .inr (.inr ⟨rfl, ⟨rfl, rfl, [], by simp [onRequest], rfl, rfl⟩, fun e he => ?_⟩)
    obtain ⟨_, _, rfl⟩ := List.mem_map.mp he
    exact ⟨_, _, rfl⟩
  | updateStorage data =>
    refine .inr (.inr ⟨rfl, ⟨rfl, rfl, [], by simp [onRequest], rfl, rfl⟩, fun e he => ?_⟩)
    obtain ⟨_, _, he⟩ := List.mem_flatMap.mp he
    obtain ⟨_, _, rfl⟩ := List.mem_map.mp he
    exact ⟨_, _, rfl⟩
  | updateBlockHash data =>
    refine .inr (.inr ⟨rfl, ⟨rfl, rfl, [], by simp [onRequest], rfl, rfl⟩, fun e he => ?_⟩)
    obtain ⟨_, _, rfl⟩ := List.mem_map.mp he
    exact ⟨_, _, rfl⟩

/-- `h'` is `h` after the fetch of the key completed with `value`. -/
structure Completes (h : BackendHandler) (k : Key) (value : DatabaseResult Value)
    (h' : BackendHandler) : Prop where
  queued : h'.queuedRequests = h.queuedRequests
  pending : h'.pendingRequests = h.pendingRequests
  listeners : ∀ k', h'.listeners k' = if k' = k then none else h.listeners k'
  db : ∀ k', h'.db.get? k' =
    match value with
    | .ok v => if k' = k then some v else h.db.get? k'
    | .error _ => h.db.get? k'

/-- The value that a successful response supplies for the key of its request. -/
def fetched (revm : Revm) : (request : ProviderRequest) → request.Output → Option Value
  | .account _ _, .ok (balance, nonce, code) =>
    (toAccountInfo revm balance nonce code).map .account
  | .storage _ _ _, .ok value => some (.slot value)
  | .blockHash _, .ok hash => some (.hash hash)
  | _, _ => none

/-- The response is an account whose code cannot be read. -/
def malformed (revm : Revm) : (request : ProviderRequest) → request.Output → Bool
  | .account _ _, .ok (_, _, code) => (revm.newRaw code).isNone
  | _, _ => false

theorem toAccountInfo_eq_none_iff {revm : Revm} {balance : U256} {nonce : BitVec 64}
    {code : Bytes} : toAccountInfo revm balance nonce code = none ↔ revm.newRaw code = none := by
  unfold toAccountInfo
  cases code <;> simp

/-- The code panics on malformed responses, and on no others. -/
theorem onReady_eq_none_iff {revm : Revm} {h : BackendHandler} {request : ProviderRequest}
    {output : request.Output} :
    h.onReady revm request output = none ↔ malformed revm request output = true := by
  cases request with
  | account address block =>
    cases output with
    | error err => simp [onReady, malformed]
    | ok output => simp [onReady, malformed, toAccountInfo_eq_none_iff]
  | storage | blockHash => cases output <;> simp [onReady, malformed]
  | fullBlock | transaction | anyRequest => simp [onReady, malformed]

theorem exists_onReady {revm : Revm} (h : BackendHandler) {request : ProviderRequest}
    {output : request.Output} (fine : malformed revm request output = false) :
    ∃ h' out, h.onReady revm request output = some (h', out) := by
  cases ready : h.onReady revm request output with
  | none => simp [onReady_eq_none_iff.mp ready] at fine
  | some result => exact ⟨result.1, result.2, rfl⟩

/-- A malformed response brings nothing for its key. -/
theorem fetched_of_malformed {revm : Revm} {request : ProviderRequest} {output : request.Output}
    (bad : malformed revm request output = true) :
    (∃ k, request.key? = some k) ∧ fetched revm request output = none := by
  cases request with
  | account address block =>
    cases output with
    | error err => simp [malformed] at bad
    | ok output =>
      have none : toAccountInfo revm output.1 output.2.1 output.2.2 = none :=
        toAccountInfo_eq_none_iff.mpr (Option.isNone_iff_eq_none.mp bad)
      exact ⟨⟨_, rfl⟩, by simp [fetched, none]⟩
  | storage | blockHash => cases output <;> simp [malformed] at bad
  | fullBlock | transaction | anyRequest => simp [malformed] at bad

/-- What a ready request does: it completes its key and answers exactly the listeners of the
key, or it answers its own channel. -/
theorem onReady_cases {revm : Revm} {h h' : BackendHandler} {request : ProviderRequest}
    {output : request.Output} {out : List Event}
    (ready : h.onReady revm request output = some (h', out)) :
    (∃ k v, request.key? = some k ∧ v.toOption = fetched revm request output ∧
      h.Completes k v h' ∧ out = notify k (h.listeners k) v) ∨
    (request.key? = none ∧ ∃ sender reply, request.sender? = some sender ∧ h' = h ∧
      out = [.replied sender reply]) := by
  cases request with
  | account address block =>
    left
    cases output with
    | error err =>
      obtain ⟨rfl, rfl⟩ := by simpa [onReady] using ready
      refine ⟨_, _, rfl, rfl, ⟨rfl, rfl, fun k' => ?_, fun k' => rfl⟩, rfl⟩
      cases k' <;> simp [listeners, getElem?_erase_eq]
    | ok output =>
      obtain ⟨acc, read, eq⟩ := Option.map_eq_some_iff.mp ready
      obtain ⟨rfl, rfl⟩ := Prod.mk.inj eq
      refine ⟨_, .ok (.account acc), rfl, by simp [fetched, read, Except.toOption],
        ⟨rfl, rfl, fun k' => ?_, fun k' => ?_⟩, rfl⟩
      · cases k' <;> simp [listeners, getElem?_erase_eq]
      · cases k' <;> simp [MemDb.get?, getElem?_insert_eq, apply_ite (Option.map _)]
  | storage address idx block =>
    left
    cases output with
    | error err =>
      obtain ⟨rfl, rfl⟩ := by simpa [onReady] using ready
      refine ⟨_, _, rfl, rfl, ⟨rfl, rfl, fun k' => ?_, fun k' => rfl⟩, rfl⟩
      cases k' <;> simp [listeners, getElem?_erase_eq]
    | ok value =>
      obtain ⟨rfl, rfl⟩ := by simpa [onReady] using ready
      refine ⟨_, _, rfl, rfl, ⟨rfl, rfl, fun k' => ?_, fun k' => ?_⟩, rfl⟩
      · cases k' <;> simp [listeners, getElem?_erase_eq]
      · cases k' with
        | storage address' idx' => simpa using h.db.get?_insert_slot address idx value _ _
        | _ => simp [MemDb.get?]
  | blockHash number =>
    left
    cases output with
    | error err =>
      obtain ⟨rfl, rfl⟩ := by simpa [onReady] using ready
      refine ⟨_, .error (.getBlockHash number err), rfl, rfl,
        ⟨rfl, rfl, fun k' => ?_, fun k' => rfl⟩, by simp⟩
      cases k' with
      | blockHash n => simpa using listeners_blockHash_erase (h := h) rfl n
      | _ => simp [listeners]
    | ok hash =>
      obtain ⟨rfl, rfl⟩ := by simpa [onReady] using ready
      refine ⟨_, .ok (.hash hash), rfl, rfl, ⟨rfl, rfl, fun k' => ?_, fun k' => ?_⟩, by simp⟩
      · cases k' with
        | blockHash n => simpa using listeners_blockHash_erase (h := h) rfl n
        | _ => simp [listeners]
      · cases k' <;> simp [MemDb.get?, getElem?_insert_eq, apply_ite (Option.map _)]
  | fullBlock sender number =>
    obtain ⟨rfl, rfl⟩ := by simpa [onReady] using ready
    exact .inr ⟨rfl, _, _, rfl, rfl, rfl⟩
  | transaction sender tx =>
    obtain ⟨rfl, rfl⟩ := by simpa [onReady] using ready
    exact .inr ⟨rfl, _, _, rfl, rfl, rfl⟩
  | anyRequest sender =>
    obtain ⟨rfl, rfl⟩ := by simpa [onReady] using ready
    exact .inr ⟨rfl, _, _, rfl, rfl, rfl⟩

/-- A response moves no requests, and leaves the pinned block. -/
theorem onReady_frame {revm : Revm} {h h' : BackendHandler} {request : ProviderRequest}
    {output : request.Output} {out : List Event}
    (ready : h.onReady revm request output = some (h', out)) :
    h'.queuedRequests = h.queuedRequests ∧ h'.pendingRequests = h.pendingRequests ∧
      h'.blockId = h.blockId := by
  cases request with
  | account =>
    cases output with
    | error =>
      obtain ⟨rfl, rfl⟩ := by simpa [onReady] using ready
      exact ⟨rfl, rfl, rfl⟩
    | ok =>
      obtain ⟨acc, -, eq⟩ := Option.map_eq_some_iff.mp ready
      obtain ⟨rfl, rfl⟩ := Prod.mk.inj eq
      exact ⟨rfl, rfl, rfl⟩
  | storage | blockHash =>
    cases output <;>
    · obtain ⟨rfl, rfl⟩ := by simpa [onReady] using ready
      exact ⟨rfl, rfl, rfl⟩
  | _ =>
    obtain ⟨rfl, rfl⟩ := by simpa [onReady] using ready
    exact ⟨rfl, rfl, rfl⟩

end BackendHandler

/-! ## What a step of the system does -/

/-- Removing from the middle leaves what comes before, and permutes what comes after. -/
theorem swapRemove_append {α : Type*} (head tail : List α) (x : α) :
    ∃ rest, swapRemove (head ++ x :: tail) head.length = some (x, head ++ rest) ∧
      rest.Perm tail := by
  have at_n : (head ++ x :: tail)[head.length]? = some x := by simp
  simp only [swapRemove, at_n, Option.map_some, Option.some.injEq, Prod.mk.injEq, true_and]
  induction tail using List.reverseRecOn with
  | nil => exact ⟨[], by simp, .refl _⟩
  | append_singleton mid last _ =>
    have last_eq : (head ++ x :: (mid ++ [last])).getLastD x = last := by
      rw [show head ++ x :: (mid ++ [last]) = (head ++ x :: mid) ++ [last] by simp,
        List.getLastD_concat]
    have set_last : (head ++ x :: (mid ++ [last])).set head.length last =
        head ++ last :: mid ++ [last] := by simp
    refine ⟨last :: mid, ?_, (List.perm_append_singleton last mid).symm⟩
    rw [last_eq, set_last, List.dropLast_concat]

theorem swapRemove_perm {α : Type*} {xs rest : List α} {n : Nat} {x : α}
    (h : swapRemove xs n = some (x, rest)) : xs.Perm (x :: rest) := by
  obtain ⟨y, at_n, -⟩ := Option.map_eq_some_iff.mp h
  obtain ⟨lt, at_n⟩ := List.getElem?_eq_some_iff.mp at_n
  obtain ⟨head, tail, rfl, rfl⟩ : ∃ head tail, xs = head ++ y :: tail ∧ head.length = n :=
    ⟨xs.take n, xs.drop (n + 1), by simp [← at_n], by simp; omega⟩
  obtain ⟨moved, removed, perm⟩ := swapRemove_append head tail y
  obtain ⟨rfl, rfl⟩ : y = x ∧ head ++ moved = rest := by simpa [removed] using h
  calc (head ++ y :: tail).Perm (y :: (head ++ tail)) := List.perm_middle
    _ |>.Perm (y :: (head ++ moved)) := (perm.symm.append_left head).cons y

namespace System

/-- The messages that the handler has not handled, the next one first. -/
def unprocessed (s : System) : List BackendRequest := s.handler.queuedRequests ++ s.incoming

/-- What a step does: it moves messages and requests around without handling any, sends a
message with a fresh channel, handles the next message, takes in a response, or panics on one. -/
inductive Effect (revm : Revm) (s s' : System) : Action → List Event → Prop
  | quiet (a : Action) (queue : s'.unprocessed = s.unprocessed)
      (listeners : s'.handler.listeners = s.handler.listeners)
      (pending : s'.handler.pendingRequests.Perm s.handler.pendingRequests)
      (db : s'.handler.db = s.handler.db) (created : s'.created = s.created) :
      Effect revm s s' a []
  | sends (call : Call) (sent : List BackendRequest)
      (queue : s'.unprocessed = s.unprocessed ++ sent)
      (fresh : sent = [] ∨ sent = [call.request s.created])
      (handler : s'.handler = s.handler) (created : s'.created = s.created + 1) :
      Effect revm s s' (.call call) []
  | handles (ready) (out : List Event) (req : BackendRequest) (rest : List BackendRequest)
      (pc : s.pc = .drain) (queue : s.handler.queuedRequests = req :: rest)
      (handler : { s.handler with queuedRequests := rest }.onRequest req = (s'.handler, out))
      (incoming : s'.incoming = s.incoming) (created : s'.created = s.created) :
      Effect revm s s' (.poll ready) out
  | readies (ready) (out : List Event) (n : Nat) (request : ProviderRequest)
      (rest : List ProviderRequest) (output : request.Output) (pc : s.pc = .polling (n + 1))
      (removed : swapRemove s.handler.pendingRequests n = some (request, rest))
      (answer : ready request = some output)
      (handler : { s.handler with pendingRequests := rest }.onReady revm request output =
        some (s'.handler, out))
      (incoming : s'.incoming = s.incoming) (created : s'.created = s.created) :
      Effect revm s s' (.poll ready) out
  | panics (ready) (n : Nat) (request : ProviderRequest) (rest : List ProviderRequest)
      (output : request.Output) (pc : s.pc = .polling (n + 1))
      (removed : swapRemove s.handler.pendingRequests n = some (request, rest))
      (answer : ready request = some output)
      (bad : BackendHandler.malformed revm request output = true)
      (panicked : s'.pc = .panicked)
      (handler : s'.handler = { s.handler with pendingRequests := rest })
      (incoming : s'.incoming = s.incoming) (created : s'.created = s.created) :
      Effect revm s s' (.poll ready) []

variable {revm : Revm} {s s' : System} {a : Action} {out : List Event}

theorem step_effect (eq : (machine revm).step s a = some (s', out)) :
    Effect revm s s' a out := by
  cases a with
  | call request =>
    simp only [machine, call] at eq
    split_ifs at eq with connected gone <;> obtain ⟨rfl, rfl⟩ := by simpa using eq
    · exact .sends request [] (by simp [unprocessed]) (.inl rfl) rfl rfl
    · exact .sends request _ (by simp [unprocessed]) (.inr rfl) rfl rfl
  | dropLast =>
    simp only [machine] at eq
    split_ifs at eq
    obtain ⟨rfl, rfl⟩ := by simpa using eq
    exact .quiet _ rfl rfl .rfl rfl rfl
  | poll ready =>
    simp only [machine, poll] at eq
    split at eq
    · obtain ⟨rfl, rfl⟩ := by simpa using eq
      exact .quiet _ rfl rfl .rfl rfl rfl
    · next pc =>
      split at eq
      · obtain ⟨rfl, rfl⟩ := by simpa using eq
        exact .quiet _ rfl rfl .rfl rfl rfl
      · next req rest queue =>
        obtain ⟨rfl, rfl⟩ := by simpa using eq
        exact .handles ready _ req rest pc queue rfl rfl rfl
    · split at eq
      · next incoming =>
        obtain ⟨rfl, rfl⟩ := by simpa using eq
        exact .quiet _ (by simp [unprocessed, incoming]) rfl .rfl rfl rfl
      all_goals
        obtain ⟨rfl, rfl⟩ := by simpa using eq
        exact .quiet _ rfl rfl .rfl rfl rfl
    · split at eq <;>
      · obtain ⟨rfl, rfl⟩ := by simpa using eq
        exact .quiet _ rfl rfl .rfl rfl rfl
    · next n pc =>
      simp only [pollRequest] at eq
      split at eq
      · obtain ⟨rfl, rfl⟩ := by simpa using eq
        exact .quiet _ rfl rfl .rfl rfl rfl
      · next request rest removed =>
        split at eq
        · next output answer =>
          split at eq
          · next handler out took =>
            obtain ⟨rfl, rfl⟩ := by simpa using eq
            exact .readies ready _ n request rest output pc removed answer took rfl rfl
          · next failed =>
            obtain ⟨rfl, rfl⟩ := by simpa using eq
            exact .panics ready n request rest output pc removed answer
              (BackendHandler.onReady_eq_none_iff.mp failed) rfl rfl rfl rfl
        · obtain ⟨rfl, rfl⟩ := by simpa using eq
          exact .quiet _ rfl rfl
            ((List.perm_append_singleton request rest).trans (swapRemove_perm removed).symm) rfl rfl
    all_goals simp at eq

/-- The step that handles the next queued message. -/
theorem step_of_drain {ready} {req : BackendRequest} {rest : List BackendRequest}
    (pc : s.pc = .drain) (queue : s.handler.queuedRequests = req :: rest) :
    (machine revm).step s (.poll ready) =
      some ({ s with handler := ({ s.handler with queuedRequests := rest }.onRequest req).1 },
        ({ s.handler with queuedRequests := rest }.onRequest req).2) := by
  simp only [machine, poll, pc, queue]

/-- The step that takes in a response. -/
theorem step_of_ready {ready} {n : Nat} {request : ProviderRequest} {rest : List ProviderRequest}
    {output : request.Output} {h' : BackendHandler} (pc : s.pc = .polling (n + 1))
    (removed : swapRemove s.handler.pendingRequests n = some (request, rest))
    (answer : ready request = some output)
    (took : { s.handler with pendingRequests := rest }.onReady revm request output =
      some (h', out)) :
    (machine revm).step s (.poll ready) =
      some ({ s with handler := h', pc := .polling n }, out) := by
  simp only [machine, poll, pc, pollRequest, removed, answer, took]

/-- The step that panics on a response. -/
theorem step_of_malformed {ready} {n : Nat} {request : ProviderRequest}
    {rest : List ProviderRequest} {output : request.Output} (pc : s.pc = .polling (n + 1))
    (removed : swapRemove s.handler.pendingRequests n = some (request, rest))
    (answer : ready request = some output)
    (bad : BackendHandler.malformed revm request output = true) :
    (machine revm).step s (.poll ready) =
      some ({ s with
          handler := { s.handler with pendingRequests := rest }
          pc := .panicked }, []) := by
  simp only [machine, poll, pc, pollRequest, removed, answer,
    BackendHandler.onReady_eq_none_iff.mpr bad]

/-- A panicked handler stays so. -/
theorem panicked_of_step (eq : (machine revm).step s a = some (s', out)) (pc : s.pc = .panicked) :
    s'.pc = .panicked := by
  cases a with
  | call request =>
    simp only [machine, call] at eq
    split_ifs at eq <;>
    · obtain ⟨rfl, rfl⟩ := by simpa using eq
      exact pc
  | dropLast =>
    simp only [machine] at eq
    split_ifs at eq
    obtain ⟨rfl, rfl⟩ := by simpa using eq
    exact pc
  | poll ready => simp [machine, poll, pc] at eq

/-- The step that puts back a request that is not ready. -/
theorem step_of_pending {ready} {n : Nat} {request : ProviderRequest}
    {rest : List ProviderRequest} (pc : s.pc = .polling (n + 1))
    (removed : swapRemove s.handler.pendingRequests n = some (request, rest))
    (answer : ready request = none) :
    (machine revm).step s (.poll ready) =
      some ({ s with
          handler := { s.handler with pendingRequests := rest ++ [request] }
          pc := .polling n }, []) := by
  simp only [machine, poll, pc, pollRequest, removed, answer]

end System

end FoundryCore.ForkDb
