import FoundryCore.Library.Machine
import FoundryCore.WalletBrowser.Queue

/-!
# The browser wallet server

The command line asks for a transaction, a signature or a key authorization and polls for the
answer; the browser posts answers and connection updates. All of them run concurrently and
meet in the state of the server, each part of which has a lock of its own. A step of the
machine is what one task does between taking one lock and the next: the rest of the tasks may
run in between. Clocks are not modelled, a caller may find its time elapsed after any poll.
-/

open Std

namespace FoundryCore.WalletBrowser

open Library

abbrev Bytes := List UInt8
abbrev Address := BitVec 160
abbrev ChainId := BitVec 64

structure Connection where
  address : Address
  chainId : ChainId
  deriving DecidableEq

/-- The three kinds of requests, each with a queue of its own. -/
inductive Operation
  | transaction
  | signing
  | keyAuthorization
  deriving DecidableEq

inductive SignType
  | personalSign
  | signTypedDataV4
  deriving DecidableEq

/-- `fields` holds what the server compares but does not look into. -/
structure KeyAuthorization where
  witness : Option Bytes
  account : Option Address
  isAdmin : Bool
  fields : Bytes
  deriving DecidableEq

structure SignedKeyAuthorization where
  authorization : KeyAuthorization
  signature : Bytes
  deriving DecidableEq

/-- What the encoding libraries provide for key authorizations. -/
structure KeyAuthorizationScheme where
  hexDecode : Bytes → Except String Bytes
  decode : Bytes → Except String SignedKeyAuthorization
  recoverSigner : SignedKeyAuthorization → Except String Address
  signatureHash : KeyAuthorization → BitVec 256
  showHash : BitVec 256 → String
  showAddress : Address → String

/-- A scheme that refuses every key authorization. -/
def KeyAuthorizationScheme.refusing : KeyAuthorizationScheme where
  hexDecode _ := .error "odd number of digits"
  decode _ := .error "unexpected list"
  recoverSigner _ := .error "invalid signature"
  signatureHash _ := 0
  showHash _ := ""
  showAddress _ := ""

/-- A request to the browser; `N` is the transaction request of the network. -/
inductive Request (N : Type)
  | transaction (id : Uuid) (request : N)
  | signing (id : Uuid) (signType : SignType) (message : String) (address : Address)
  | keyAuthorization (id : Uuid) (rootAccount : Address) (keyAuthorization : KeyAuthorization)
      (digest : BitVec 256)
  deriving DecidableEq

/-- A posted response. `result` is the hash, the signature or the text of the signed hex. -/
structure Response where
  id : Uuid
  result : Option Bytes
  error : Option String
  deriving DecidableEq

inductive BrowserWalletError
  | timeout (operation : String)
  | rejected (operation : String) (reason : String)
  | notConnected
  | serverError (message : String)
  deriving DecidableEq

inductive Answer
  | bytes (b : Bytes)
  | signed (authorization : SignedKeyAuthorization)
  deriving DecidableEq

/-- What a call to the server returns. -/
abbrev Outcome := Except BrowserWalletError Answer

variable {N : Type} {scheme : KeyAuthorizationScheme}

namespace Request

def id : Request N → Uuid
  | transaction id _ | signing id _ _ _ | keyAuthorization id _ _ _ => id

instance : HasId (Request N) := ⟨id⟩

def operation : Request N → Operation
  | transaction .. => .transaction
  | signing .. => .signing
  | keyAuthorization .. => .keyAuthorization

end Request

/-! ## Posted responses -/

/-- The texts and the check in which the handlers of posted responses differ. -/
structure PostHandler where
  unknown : String
  neither : String
  both : String
  validate : Bytes → Option String := fun _ => none

/-- Whether a response is let through to the queue, and the text of the refusal. -/
def PostHandler.check (handler : PostHandler) (pending : Bool) (body : Response) :
    Except String Unit :=
  if !pending then .error handler.unknown
  else
    match body.result, body.error with
    | none, none => .error handler.neither
    | some _, some _ => .error handler.both
    | some result, none =>
      match handler.validate result with
      | some message => .error message
      | none => .ok ()
    | none, some _ => .ok ()

def postTransactionResponse : PostHandler where
  unknown := "Unknown transaction id"
  neither := "Either hash or error must be provided"
  both := "Only one of hash or error can be provided"
  validate hash :=
    if hash.all (· == 0) then some "Invalid (zero) transaction hash"
    else if hash.length ≠ 32 then some "Malformed transaction hash (expected 32 bytes)"
    else none

def postSigningResponse : PostHandler where
  unknown := "Unknown signing request id"
  neither := "Either signature or error must be provided"
  both := "Only one of signature or error can be provided"

def postKeyAuthorizationResponse : PostHandler where
  unknown := "Unknown key authorization id"
  neither := "Either signed_hex or error must be provided"
  both := "Only one of signed_hex or error can be provided"

def Operation.post : Operation → PostHandler
  | .transaction => postTransactionResponse
  | .signing => postSigningResponse
  | .keyAuthorization => postKeyAuthorizationResponse

/-- The response with which a disconnect answers a request. -/
def disconnected (id : Uuid) : Response :=
  { id, result := none, error := some "Wallet disconnected" }

/-! ## What callers get -/

def Operation.name : Operation → String
  | .transaction => "Transaction"
  | .signing => "Signing"
  | .keyAuthorization => "KeyAuthorization"

def Operation.missing : Operation → String
  | .transaction => "Transaction response missing both hash and error"
  | .signing => "Signing response missing both signature and error"
  | .keyAuthorization => "Key authorization response missing both signed_hex and error"

/-- Drops every leading `0x`. -/
def trimStartMatches0x : Bytes → Bytes
  | 0x30 :: 0x78 :: rest => trimStartMatches0x rest
  | text => text

/-- The checks on a signed key authorization that the wallet returned. -/
def verifyKeyAuthorization (scheme : KeyAuthorizationScheme) (rootAccount : Address)
    (keyAuthorization : KeyAuthorization) (signedHex : Bytes) : Outcome :=
  match scheme.hexDecode (trimStartMatches0x signedHex) with
  | .error e => .error (.serverError ("invalid hex in key authorization response: " ++ e))
  | .ok bytes =>
    match scheme.decode bytes with
    | .error e =>
      .error (.serverError ("invalid SignedKeyAuthorization RLP from wallet: " ++ e))
    | .ok signed =>
      if signed.authorization ≠ keyAuthorization then
        .error (.serverError ("wallet returned a mutated KeyAuthorization payload: signed digest "
          ++ scheme.showHash (scheme.signatureHash signed.authorization) ++ " but requested "
          ++ scheme.showHash (scheme.signatureHash keyAuthorization)))
      else
        match scheme.recoverSigner signed with
        | .ok recovered =>
          if recovered = rootAccount then .ok (.signed signed)
          else .error (.serverError ("wallet returned a SignedKeyAuthorization signed by "
            ++ scheme.showAddress recovered ++ " but the connected root account is "
            ++ scheme.showAddress rootAccount))
        | .error e => .error (.serverError
            ("wallet returned an unrecoverable SignedKeyAuthorization signature: " ++ e))

/-- The result of a response as its caller takes it. -/
def Request.accept (scheme : KeyAuthorizationScheme) : Request N → Bytes → Outcome
  | transaction .., hash => .ok (.bytes hash)
  | signing .., signature => .ok (.bytes signature)
  | keyAuthorization _ rootAccount authorization _, signedHex =>
    verifyKeyAuthorization scheme rootAccount authorization signedHex

/-- What the caller of a request returns when it finds a response. -/
def Request.outcome (scheme : KeyAuthorizationScheme) (request : Request N)
    (response : Response) : Outcome :=
  match response.result with
  | some result => request.accept scheme result
  | none =>
    match response.error with
    | some error => .error (.rejected request.operation.name error)
    | none => .error (.serverError request.operation.missing)

theorem verifyKeyAuthorization_ne_timeout {rootAccount : Address}
    {keyAuthorization : KeyAuthorization} {signedHex : Bytes} {operation : String} :
    verifyKeyAuthorization scheme rootAccount keyAuthorization signedHex ≠
      .error (.timeout operation) := by
  unfold verifyKeyAuthorization
  repeat' split
  all_goals simp

/-- No response makes a call return a timeout. -/
theorem Request.outcome_ne_timeout {request : Request N} {response : Response}
    {operation : String} : request.outcome scheme response ≠ .error (.timeout operation) := by
  unfold Request.outcome
  split
  · cases request with
    | transaction | signing => simp [Request.accept]
    | keyAuthorization => exact verifyKeyAuthorization_ne_timeout
  · split <;> simp

/-- The fields of a key authorization that the browser cannot show yet. -/
def KeyAuthorization.unsupportedFields (k : KeyAuthorization) : List String :=
  (if k.witness.isSome then ["witness"] else []) ++
    (if k.account.isSome then ["account"] else []) ++ if k.isAdmin then ["is_admin"] else []

/-- Requests that are refused before they reach the queue. -/
def Request.refused : Request N → Option BrowserWalletError
  | keyAuthorization _ _ k _ =>
    if k.unsupportedFields = [] then none
    else some (.serverError ("browser key authorization signing does not support T5 fields yet: "
      ++ ", ".intercalate k.unsupportedFields))
  | _ => none

/-! ## Tasks and state -/

/-- The call that made a request: it has seen a connection, waits for its next poll, has
polled in vain, or has returned. -/
inductive Caller (N : Type)
  | connected (request : Request N)
  | polling (request : Request N)
  | missed (request : Request N)
  | returned

/-- The handler of a posted response, between its check and its store. -/
inductive Post
  | checked (op : Operation) (body : Response)
  | responded (result : Except String Unit)

/-- `callers`, `posts` and `updates` hold the tasks that have been started; an update of the
connection still has to drain the queues it lists. -/
structure System (N : Type) where
  connection : Option Connection
  queue : Operation → RequestQueue (Request N) Response
  callers : Uuid → Option (Caller N)
  posts : ℕ → Option Post
  updates : ℕ → Option (List Operation)

inductive Action (N : Type)
  | request (request : Request N)
  | enqueue (id : Uuid)
  | poll (id : Uuid)
  | sleep (id : Uuid)
  | timeOut (id : Uuid)
  | check (post : ℕ) (op : Operation) (body : Response)
  | store (post : ℕ)
  | update (n : ℕ) (connection : Option Connection)
  | drain (n : ℕ)

inductive Event (N : Type)
  | enqueued (request : Request N)
  | returned (request : Request N) (outcome : Outcome)
  | accepted (op : Operation) (body : Response)
  | connected
  | disconnected (n : ℕ)
  | failed (n : ℕ) (op : Operation) (id : Uuid)
  deriving DecidableEq

/-- The server before it has been used. -/
def BrowserWalletState.new : System N where
  connection := none
  queue _ := {}
  callers _ := none
  posts _ := none
  updates _ := none

namespace System

variable {s s' : System N} {out : List (Event N)} {id : Uuid} {n : ℕ}

def setCaller (s : System N) (id : Uuid) (caller : Caller N) : System N :=
  { s with callers := Function.update s.callers id (some caller) }

def setQueue (s : System N) (op : Operation) (q : RequestQueue (Request N) Response) :
    System N :=
  { s with queue := Function.update s.queue op q }

/-- A call starts by looking for a connection. Every request has an id of its own. -/
def request (s : System N) (request : Request N) : Option (System N × List (Event N)) :=
  match s.callers request.id with
  | some _ => none
  | none =>
    if s.connection.isNone then
      some (s.setCaller request.id .returned, [.returned request (.error .notConnected)])
    else
      match request.refused with
      | some error =>
        some (s.setCaller request.id .returned, [.returned request (.error error)])
      | none => some (s.setCaller request.id (.connected request), [])

def enqueue (s : System N) (id : Uuid) : Option (System N × List (Event N)) :=
  match s.callers id with
  | some (.connected request) =>
    some ((s.setQueue request.operation ((s.queue request.operation).addRequest request)).setCaller
      id (.polling request), [.enqueued request])
  | _ => none

def poll (scheme : KeyAuthorizationScheme) (s : System N) (id : Uuid) :
    Option (System N × List (Event N)) :=
  match s.callers id with
  | some (.polling request) =>
    match (s.queue request.operation).getResponse id with
    | (some response, q) => some ((s.setQueue request.operation q).setCaller id .returned,
        [.returned request (request.outcome scheme response)])
    | (none, q) => some ((s.setQueue request.operation q).setCaller id (.missed request), [])
  | _ => none

def sleep (s : System N) (id : Uuid) : Option (System N × List (Event N)) :=
  match s.callers id with
  | some (.missed request) => some (s.setCaller id (.polling request), [])
  | _ => none

def timeOut (s : System N) (id : Uuid) : Option (System N × List (Event N)) :=
  match s.callers id with
  | some (.missed request) =>
    some ((s.setQueue request.operation ((s.queue request.operation).removeRequest id).2).setCaller
      id .returned, [.returned request (.error (.timeout request.operation.name))])
  | _ => none

/-- A response is posted, and checked against the requests that are pending. -/
def check (s : System N) (n : ℕ) (op : Operation) (body : Response) :
    Option (System N × List (Event N)) :=
  match s.posts n with
  | some _ => none
  | none =>
    match op.post.check ((s.queue op).hasRequest body.id) body with
    | .ok () => some ({ s with posts := Function.update s.posts n (some (.checked op body)) }, [])
    | .error e =>
      some ({ s with posts := Function.update s.posts n (some (.responded (.error e))) }, [])

/-- A response that passed its checks is recorded, whatever became of its request. -/
def store (s : System N) (n : ℕ) : Option (System N × List (Event N)) :=
  match s.posts n with
  | some (.checked op body) =>
    some ({ s.setQueue op ((s.queue op).answer body.id body) with
      posts := Function.update s.posts n (some (.responded (.ok ()))) }, [.accepted op body])
  | _ => none

def update (s : System N) (n : ℕ) (connection : Option Connection) :
    Option (System N × List (Event N)) :=
  match s.updates n with
  | some _ => none
  | none =>
    match connection with
    | some c => some ({ s with
        connection := some c
        updates := Function.update s.updates n (some []) }, [.connected])
    | none => some ({ s with
        connection := none
        updates := Function.update s.updates n (some [.transaction, .signing, .keyAuthorization]) },
        [.disconnected n])

/-- A disconnect fails the requests that are pending in the next queue. -/
def drain (s : System N) (n : ℕ) : Option (System N × List (Event N)) :=
  match s.updates n with
  | some (op :: rest) =>
    some ({ s.setQueue op ((s.queue op).failPending WalletBrowser.disconnected) with
      updates := Function.update s.updates n (some rest) },
      (s.queue op).requests.map fun r => .failed n op r.id)
  | _ => none

end System

/-- The server with its callers and the browser. -/
def machine (scheme : KeyAuthorizationScheme) : Machine (System N) (Action N) (Event N) where
  step s
    | .request request => s.request request
    | .enqueue id => s.enqueue id
    | .poll id => s.poll scheme id
    | .sleep id => s.sleep id
    | .timeOut id => s.timeOut id
    | .check n op body => s.check n op body
    | .store n => s.store n
    | .update n connection => s.update n connection
    | .drain n => s.drain n

/-! ## What a step can do -/

/-- The steps of the machine with what each of them reads and leaves. -/
inductive Effect (scheme : KeyAuthorizationScheme) (s : System N) :
    Action N → System N → List (Event N) → Prop
  | refused {request error} (fresh : s.callers request.id = none) :
      Effect scheme s (.request request) (s.setCaller request.id .returned)
        [.returned request (.error error)]
  | admitted {request} (fresh : s.callers request.id = none) (connected : s.connection ≠ none) :
      Effect scheme s (.request request) (s.setCaller request.id (.connected request)) []
  | enqueued {id request} (caller : s.callers id = some (.connected request)) :
      Effect scheme s (.enqueue id)
        ((s.setQueue request.operation ((s.queue request.operation).addRequest request)).setCaller
          id (.polling request)) [.enqueued request]
  | found {id request response} (caller : s.callers id = some (.polling request))
      (here : (s.queue request.operation).responses[id]? = some response) :
      Effect scheme s (.poll id)
        ((s.setQueue request.operation ((s.queue request.operation).getResponse id).2).setCaller
          id .returned) [.returned request (request.outcome scheme response)]
  | missed {id request} (caller : s.callers id = some (.polling request))
      (absent : (s.queue request.operation).responses[id]? = none) :
      Effect scheme s (.poll id)
        ((s.setQueue request.operation ((s.queue request.operation).getResponse id).2).setCaller
          id (.missed request)) []
  | slept {id request} (caller : s.callers id = some (.missed request)) :
      Effect scheme s (.sleep id) (s.setCaller id (.polling request)) []
  | timedOut {id request} (caller : s.callers id = some (.missed request)) :
      Effect scheme s (.timeOut id)
        ((s.setQueue request.operation ((s.queue request.operation).removeRequest id).2).setCaller
          id .returned) [.returned request (.error (.timeout request.operation.name))]
  | checked {n op body} (fresh : s.posts n = none) (pending : (s.queue op).hasRequest body.id) :
      Effect scheme s (.check n op body)
        { s with posts := Function.update s.posts n (some (.checked op body)) } []
  | rejected {n op body e} (fresh : s.posts n = none) :
      Effect scheme s (.check n op body)
        { s with posts := Function.update s.posts n (some (.responded (.error e))) } []
  | stored {n op body} (post : s.posts n = some (.checked op body)) :
      Effect scheme s (.store n)
        { s.setQueue op ((s.queue op).answer body.id body) with
          posts := Function.update s.posts n (some (.responded (.ok ()))) } [.accepted op body]
  | connected {n c} (fresh : s.updates n = none) :
      Effect scheme s (.update n (some c))
        { s with connection := some c, updates := Function.update s.updates n (some []) }
        [.connected]
  | disconnected {n} (fresh : s.updates n = none) :
      Effect scheme s (.update n none)
        { s with
          connection := none
          updates :=
            Function.update s.updates n (some [.transaction, .signing, .keyAuthorization]) }
        [.disconnected n]
  | drained {n op rest} (task : s.updates n = some (op :: rest)) :
      Effect scheme s (.drain n)
        { s.setQueue op ((s.queue op).failPending WalletBrowser.disconnected) with
          updates := Function.update s.updates n (some rest) }
        ((s.queue op).requests.map fun r => .failed n op r.id)

theorem PostHandler.pending_of_check {handler : PostHandler} {pending : Bool} {body : Response}
    (ok : handler.check pending body = .ok ()) : pending = true := by
  unfold PostHandler.check at ok
  split at ok
  · cases ok
  · next known => simpa using known

theorem Effect.of_step {s s' : System N} {a : Action N} {out : List (Event N)}
    (step : (machine scheme).step s a = some (s', out)) : Effect scheme s a s' out := by
  cases a with
  | request request =>
    simp only [machine, System.request] at step
    split at step
    · cases step
    · next fresh =>
      split at step
      · obtain ⟨rfl, rfl⟩ := by simpa using step
        exact .refused fresh
      · next someEq =>
        split at step
        · obtain ⟨rfl, rfl⟩ := by simpa using step
          exact .refused fresh
        · obtain ⟨rfl, rfl⟩ := by simpa using step
          exact .admitted fresh (by simpa using someEq)
  | enqueue id =>
    simp only [machine, System.enqueue] at step
    split at step
    · next caller =>
      obtain ⟨rfl, rfl⟩ := by simpa using step
      exact .enqueued caller
    · cases step
  | poll id =>
    simp only [machine, System.poll] at step
    split at step
    · next request caller =>
      split at step
      · next response q here =>
        obtain ⟨rfl, rfl⟩ := by simpa using step
        obtain ⟨value, rfl⟩ := Prod.mk.inj here
        exact .found caller value
      · next q here =>
        obtain ⟨rfl, rfl⟩ := by simpa using step
        obtain ⟨absent, rfl⟩ := Prod.mk.inj here
        exact .missed caller absent
    · cases step
  | sleep id =>
    simp only [machine, System.sleep] at step
    split at step
    · next caller =>
      obtain ⟨rfl, rfl⟩ := by simpa using step
      exact .slept caller
    · cases step
  | timeOut id =>
    simp only [machine, System.timeOut] at step
    split at step
    · next caller =>
      obtain ⟨rfl, rfl⟩ := by simpa using step
      exact .timedOut caller
    · cases step
  | check n op body =>
    simp only [machine, System.check] at step
    split at step
    · cases step
    · next fresh =>
      split at step
      · next ok =>
        obtain ⟨rfl, rfl⟩ := by simpa using step
        exact .checked fresh (PostHandler.pending_of_check ok)
      · obtain ⟨rfl, rfl⟩ := by simpa using step
        exact .rejected fresh
  | store n =>
    simp only [machine, System.store] at step
    split at step
    · next post =>
      obtain ⟨rfl, rfl⟩ := by simpa using step
      exact .stored post
    · cases step
  | update n connection =>
    simp only [machine, System.update] at step
    split at step
    · cases step
    · next fresh =>
      split at step
      · obtain ⟨rfl, rfl⟩ := by simpa using step
        exact .connected fresh
      · obtain ⟨rfl, rfl⟩ := by simpa using step
        exact .disconnected fresh
  | drain n =>
    simp only [machine, System.drain] at step
    split at step
    · next task =>
      obtain ⟨rfl, rfl⟩ := by simpa using step
      exact .drained task
    · cases step

end FoundryCore.WalletBrowser
