import FoundryCore.BlockExplorers.Metadata
import FoundryCore.Library.Machine

/-!
# Cached answers of block explorers

A client asks an explorer for the ABI or the source code of a contract and puts the answer in a
file with the time when it expires. Other clients find it there until then, each with a time to
live of its own. A file may be torn, and clients may ask about a contract at the same time.
-/

open Std

namespace FoundryCore

open Library

namespace BlockExplorers

inductive EtherscanError
  | reqwest
  | serde (content : String)
  | contractCodeNotVerified (address : Address)
  | emptyResult (status message : String)
  | rateLimitExceeded
  | errorResponse (status message : String) (result : Option String)
  | invalidApiKey
  | blockedByCloudflare
  | cloudFlareSecurityChallenge
  | pageNotFound
deriving DecidableEq, Repr

/-- The API response type. -/
structure Response (τ : Type) where
  status : String
  message : String
  result : τ

inductive ResponseData (τ : Type)
  | success (response : Response τ)
  | error (response : Response (Option String))

/-- Whether a text has another one in it. -/
def contains (text part : String) : Bool := part.toList <:+: text.toList

def startsWith (text part : String) : Bool := part.toList <+: text.toList

/-- What a client uses of other crates, with the format of an ABI, which is not null, and the text
of files. No part of an object's text is read as another value. -/
structure Explorer (σ α : Type) extends Crates σ where
  abi : Codec α
  text : JsonText
  toLowercase : String → String
  /-- The text of an address in the name of a file. -/
  debug : Address → String
  abi_fits : ∀ json a, abi.decode json = some a → abi.Fits a
  abi_ne_null : ∀ iteration path a, abi.encode iteration path a ≠ .null
  read_part : ∀ entries n json, text.read ((text.write (.object entries)).take n) = some json →
    json = .object entries
  debug_inj : ∀ a b, debug a = debug b → a = b

/-- The kinds of answers that are cached. -/
inductive Kind
  | abi | sources
deriving DecidableEq, Repr

/-- The directory of a kind. -/
def Kind.directory : Kind → String
  | .abi => "abi"
  | .sources => "sources"

/-- Nanoseconds since the Unix epoch. -/
abbrev SystemTime := Int

/-- What is left of a write: the directory or the file cannot be created, or some bytes are
written. -/
inductive Fate
  | noDirectory | noFile
  | wrote (n : Nat)
deriving DecidableEq, Repr

/-- The files of the cache. -/
abbrev Files := String → Option Bytes

namespace Explorer

variable {σ α : Type} (X : Explorer σ α)

/-! ## Responses -/

/-- `Deserialize` of `Response`, given how to read the result if it is there. -/
def decodeResponse {τ : Type} (result : Option Json → Option τ) (json : Json) :
    Option (Response τ) := do
  match ← json.readStruct [["status"], ["message"], ["result"]] with
  | [some (.string status), some (.string message), field] =>
    (result field).map fun result => { status, message, result }
  | _ => none

/-- `Deserialize` of `ResponseData`: the first variant that fits. -/
def decodeResponseData {τ : Type} (result : Option Json → Option τ) (json : Json) :
    Option (ResponseData τ) :=
  match decodeResponse result json with
  | some response => some (.success response)
  | none =>
    match json with
    | .object _ => (decodeResponse (Json.readOption Crates.readString) json).map .error
    | _ => none

def isBlockedByCloudflareResponse (txt : String) : Bool :=
  contains (X.toLowercase txt) "sorry, you have been blocked"

def isCloudflareSecurityChallenge (txt : String) : Bool :=
  contains txt "https://www.cloudflare.com?utm_source=challenge" ||
    contains (X.toLowercase txt) "checking if the site connection is secure"

/-- Performs sanity checks on a response and deserializes it. -/
def sanitizeResponse {τ : Type} (result : Option Json → Option τ) (res : String) :
    Except EtherscanError (Response τ) :=
  match (X.parse res).bind (decodeResponseData result) with
  | none =>
    if res = "Page not found" then .error .pageNotFound
    else if X.isBlockedByCloudflareResponse res then .error .blockedByCloudflare
    else if X.isCloudflareSecurityChallenge res then .error .cloudFlareSecurityChallenge
    else .error (.serde res)
  | some (.error response) =>
    match response.result with
    | some result =>
      if startsWith result "Max rate limit reached" then .error .rateLimitExceeded
      else if contains (X.toLowercase result) "invalid api key" then .error .invalidApiKey
      else .error (.errorResponse response.status response.message (some result))
    | none => .error (.errorResponse response.status response.message none)
  | some (.success response) => .ok response

/-- Whether all entries of the result are objects with an address only. -/
def isAddressOnlySourceCodeResponse (response : String) : Bool :=
  match X.parse response with
  | some (.object fields) =>
    match Json.last? fields "result" with
    | some (.array result) => !result.isEmpty && result.all fun
      | .object entry => !entry.isEmpty && entry.all fun field => field.1 = "Address"
      | _ => false
    | _ => false
  | _ => false

/-! ## Answers -/

/-- The items of a kind. -/
abbrev Item (_ : Explorer σ α) : Kind → Type
  | .abi => α
  | .sources => List (Metadata σ)

/-- What a client is told, and what it puts in the cache: an item, or that there is none. -/
structure Answer (τ : Type) where
  result : Except EtherscanError τ
  cached : Option (Option τ)

/-- What `Client::contract_abi` makes of a response, if there was one. -/
def abiAnswer (address : Address) : Option String → Answer α
  | none => ⟨.error .reqwest, none⟩
  | some res =>
    match X.sanitizeResponse (Json.readOption Crates.readString) res with
    | .error err => ⟨.error err, none⟩
    | .ok resp =>
      match resp.result with
      | none =>
        if contains resp.message "Contract source code not verified" then
          ⟨.error (.contractCodeNotVerified address), none⟩
        else ⟨.error (.emptyResult resp.status resp.message), none⟩
      | some result =>
        if resp.status = "0" ∧ contains (X.toLowercase result) "invalid api key" then
          ⟨.error .invalidApiKey, none⟩
        else if startsWith result "Max rate limit reached" then ⟨.error .rateLimitExceeded, none⟩
        else if startsWith result "Contract source code not verified" ∨
            startsWith resp.message "Contract source code not verified" then
          ⟨.error (.contractCodeNotVerified address), some none⟩
        else
          match (X.parse result).bind X.abi.decode with
          | none => ⟨.error (.serde result), none⟩
          | some abi => ⟨.ok abi, some (some abi)⟩

/-- What `Client::contract_source_code` makes of a response, if there was one. -/
def sourceAnswer (address : Address) : Option String → Answer (List (Metadata σ))
  | none => ⟨.error .reqwest, none⟩
  | some response =>
    if contains response "Contract source code not verified" then
      ⟨.error (.contractCodeNotVerified address), some none⟩
    else if X.isAddressOnlySourceCodeResponse response then
      ⟨.error (.contractCodeNotVerified address), some none⟩
    else
      match X.sanitizeResponse (fun field => field.bind X.contract.decode) response with
      | .error err => ⟨.error err, none⟩
      | .ok response => ⟨.ok response.result, some (some response.result)⟩

def codec : (k : Kind) → Codec (X.Item k)
  | .abi => X.abi
  | .sources => X.contract

def answer : (k : Kind) → Address → Option String → Answer (X.Item k)
  | .abi => X.abiAnswer
  | .sources => X.sourceAnswer

/-- What is told of an item that is in the cache. -/
def told {τ : Type} (address : Address) : Option τ → Except EtherscanError τ
  | some item => .ok item
  | none => .error (.contractCodeNotVerified address)

/-! ## The cache -/

/-- The file of a contract. -/
def path (k : Kind) (address : Address) : String :=
  k.directory ++ "/" ++ X.debug address ++ ".json"

/-- `Serialize` of `CacheEnvelope`. -/
def envelope (iteration : Iteration) (k : Kind) (expiry : U64) (data : Option (X.Item k)) :
    List (String × Json) :=
  [("expiry", Crates.u64Json expiry),
    ("data", match data with
      | some item => (X.codec k).encode iteration ["data"] item
      | none => .null)]

def readU64 : Json → Option U64
  | .number ⟨false, n, [], none⟩ => if n < 2 ^ 64 then some (.ofNat 64 n) else none
  | _ => none

/-- `Deserialize` of `CacheEnvelope`. -/
def decodeEnvelope (k : Kind) (json : Json) : Option (U64 × Option (X.Item k)) := do
  match ← json.readStruct [["expiry"], ["data"]] with
  | [some expiry, data] =>
    let expiry ← readU64 expiry
    let data ← Json.readOption (X.codec k).decode data
    some (expiry, data)
  | _ => none

/-- `Cache::get`. The clock panics before the epoch. -/
def get (files : Files) (k : Kind) (address : Address) (now : SystemTime) :
    Except String (Option (Option (X.Item k))) :=
  match files (X.path k address) with
  | none => .ok none
  | some contents =>
    match (X.text.read contents).bind (X.decodeEnvelope k) with
    | none => .ok none
    | some (expiry, data) =>
      if now < 0 then .error "system time is before unix epoch"
      else .ok (if now < expiry.toNat * 10 ^ 9 then some data else none)

/-- The time when an item expires, in seconds, unless the clock panics. -/
def expiry (now : SystemTime) (ttl : Nat) : Except String U64 :=
  if 2 ^ 63 * 10 ^ 9 ≤ now + ttl then .error "cache ttl overflowed"
  else if now + ttl < 0 then .error "system time is before unix epoch"
  else .ok (.ofInt 64 ((now + ttl) / 10 ^ 9))

/-- What the file of an item has after `Cache::set`: it is created before the expiry is known. -/
def contents (iteration : Iteration) (k : Kind) (item : Option (X.Item k)) (now : SystemTime)
    (ttl n : Nat) : Bytes :=
  match expiry now ttl with
  | .error _ => []
  | .ok expiry => (X.text.write (.object (X.envelope iteration k expiry item))).take n

/-- `Cache::set`. -/
def set (iteration : Iteration) (files : Files) (k : Kind) (address : Address)
    (item : Option (X.Item k)) (now : SystemTime) (ttl : Nat) : Fate → Except String Unit × Files
  | .noDirectory | .noFile => (.ok (), files)
  | .wrote n => ((expiry now ttl).map fun _ => (),
      Function.update files (X.path k address) (some (X.contents iteration k item now ttl n)))

/-! ## Clients -/

/-- What a client does first: it answers from the cache, or asks the explorer. -/
inductive Begin (τ : Type)
  | panicked (message : String)
  | answered (result : Except EtherscanError τ)
  | ask

/-- The beginning of a call, by a client that may have a cache. -/
def start (files : Files) (k : Kind) (address : Address) (ttl : Option Nat) (now : SystemTime) :
    Begin (X.Item k) :=
  match ttl with
  | none => .ask
  | some _ =>
    match X.get files k address now with
    | .error message => .panicked message
    | .ok (some src) => .answered (told address src)
    | .ok none => .ask

/-- A call that asked the explorer. -/
structure Asked where
  kind : Kind
  address : Address
  ttl : Option Nat
deriving DecidableEq

/-- How the explorer answers a call, and how the answer is written. -/
structure Reply where
  response : Option String
  now : SystemTime
  iteration : Iteration
  fate : Fate

/-- The end of a call that asked the explorer. -/
def finish (files : Files) (asked : Asked) (reply : Reply) :
    Except String (Except EtherscanError (X.Item asked.kind)) × Files :=
  let answer := X.answer asked.kind asked.address reply.response
  match asked.ttl, answer.cached with
  | some ttl, some item =>
    let (written, files) :=
      X.set reply.iteration files asked.kind asked.address item reply.now ttl reply.fate
    (written.map fun _ => answer.result, files)
  | _, _ => (.ok answer.result, files)

/-- The files, and the calls that wait for the explorer. -/
structure State where
  files : Files
  waiting : List Asked

inductive Action
  | start (asked : Asked) (now : SystemTime)
  | finish (i : Nat) (reply : Reply)

/-- A call that the explorer answered. -/
structure Event where
  asked : Asked
  reply : Reply

def machine : Machine State Action Event where
  step s
    | .start asked now =>
      match X.start s.files asked.kind asked.address asked.ttl now with
      | .ask => some ({ s with waiting := s.waiting ++ [asked] }, [])
      | _ => some (s, [])
    | .finish i reply =>
      match s.waiting[i]? with
      | none => none
      | some asked => some ({ files := (X.finish s.files asked reply).2,
                              waiting := s.waiting.eraseIdx i }, [⟨asked, reply⟩])

/-! ## What the history says -/

/-- The call puts its answer, or a part of it, in the file of the contract. -/
def stores (k : Kind) (address : Address) (e : Event) : Bool :=
  e.asked.kind = k && e.asked.address = address && e.asked.ttl.isSome &&
    (X.answer k address e.reply.response).cached.isSome &&
    match e.reply.fate with
    | .wrote _ => true
    | _ => false

/-- The last call that did so. -/
def lastStore (es : List Event) (k : Kind) (address : Address) : Option Event :=
  es.reverse.find? (X.stores k address)

/-- What it put there. -/
def stored (k : Kind) (e : Event) : Bytes :=
  match e.asked.ttl, (X.answer k e.asked.address e.reply.response).cached, e.reply.fate with
  | some ttl, some item, .wrote n => X.contents e.reply.iteration k item e.reply.now ttl n
  | _, _, _ => []

/-- What the call put there can be read, and does not expire until later. -/
structure Live (k : Kind) (e : Event) (ttl : Nat) (now : SystemTime) : Prop where
  given : e.asked.ttl = some ttl
  epoch : 0 ≤ e.reply.now + ttl
  fits : e.reply.now + ttl < 2 ^ 63 * 10 ^ 9
  readable : (X.text.read (X.stored k e)).isSome
  before : now < (e.reply.now + ttl) / 10 ^ 9 * 10 ^ 9

variable {X} {k : Kind} {address : Address} {es : List Event} {e : Event}

theorem lastStore_append (e : Event) : X.lastStore (es ++ [e]) k address =
    if X.stores k address e then some e else X.lastStore es k address := by
  rw [lastStore, List.reverse_append, List.reverse_singleton, List.singleton_append,
    List.find?_cons, lastStore]
  cases X.stores k address e <;> rfl

theorem stores_of_lastStore (last : X.lastStore es k address = some e) :
    X.stores k address e = true :=
  List.find?_some last

/-! ## Files -/

theorem path_inj {k' : Kind} {address' : Address}
    (same : X.path k address = X.path k' address') : k = k' ∧ address = address' := by
  have kinds : k = k' := by
    have first := congrArg (fun text => text.toList.head?) same
    cases k <;> cases k' <;> simp [path, Kind.directory] at first ⊢
  subst kinds
  refine ⟨rfl, X.debug_inj _ _ ?_⟩
  have texts := congrArg String.toList same
  simp only [path, String.toList_append, List.append_cancel_right_eq,
    List.append_cancel_left_eq] at texts
  exact String.toList_inj.mp texts

/-- What is cached is what the client is told, and what can be written. -/
def Answer.Agrees {τ : Type} (codec : Codec τ) (address : Address) (answer : Answer τ) : Prop :=
  ∀ item, answer.cached = some item →
    answer.result = told address item ∧ ∀ x, item = some x → codec.Fits x

theorem Answer.agrees_none {τ : Type} {codec : Codec τ} (result : Except EtherscanError τ) :
    Agrees codec address ⟨result, none⟩ := by
  intro item cached
  cases cached

theorem Answer.agrees_notVerified {τ : Type} {codec : Codec τ} :
    Agrees codec address ⟨.error (.contractCodeNotVerified address), some none⟩ := by
  intro item cached
  cases cached
  exact ⟨rfl, fun x eq => by cases eq⟩

theorem Answer.agrees_ok {τ : Type} {codec : Codec τ} {x : τ} (fits : codec.Fits x) :
    Agrees codec address ⟨.ok x, some (some x)⟩ := by
  intro item cached
  cases cached
  refine ⟨rfl, fun x' eq => ?_⟩
  cases eq
  exact fits

theorem abiAnswer_agrees (response : Option String) :
    (X.abiAnswer address response).Agrees X.abi address := by
  unfold abiAnswer
  split
  · exact Answer.agrees_none _
  · split
    · exact Answer.agrees_none _
    · split
      · split_ifs
        all_goals exact Answer.agrees_none _
      · split_ifs
        · exact Answer.agrees_none _
        · exact Answer.agrees_none _
        · exact Answer.agrees_notVerified
        · split
          · exact Answer.agrees_none _
          · next a read =>
            obtain ⟨json, -, decoded⟩ := Option.bind_eq_some_iff.mp read
            exact Answer.agrees_ok (X.abi_fits json a decoded)

theorem sanitizeResponse_result {τ : Type} {result : Option Json → Option τ} {res : String}
    {response : Response τ} (eq : X.sanitizeResponse result res = .ok response) :
    ∃ field, result field = some response.result := by
  unfold sanitizeResponse at eq
  split at eq
  · split_ifs at eq
  · split at eq
    · split_ifs at eq
    · cases eq
  · next data =>
    cases eq
    obtain ⟨json, -, decoded⟩ := Option.bind_eq_some_iff.mp data
    unfold decodeResponseData at decoded
    split at decoded
    · next response' read =>
      cases decoded
      obtain ⟨fields, -, read⟩ := Option.bind_eq_some_iff.mp read
      split at read
      · next field =>
        obtain ⟨x, found, rfl⟩ := Option.map_eq_some_iff.mp read
        exact ⟨field, found⟩
      · cases read
    · split at decoded
      · obtain ⟨_, -, eq⟩ := Option.map_eq_some_iff.mp decoded
        cases eq
      · cases decoded

theorem sourceAnswer_agrees (response : Option String) :
    (X.sourceAnswer address response).Agrees X.contract address := by
  unfold sourceAnswer
  split
  · exact Answer.agrees_none _
  · split_ifs
    · exact Answer.agrees_notVerified
    · exact Answer.agrees_notVerified
    · split
      · exact Answer.agrees_none _
      · next response eq =>
        obtain ⟨field, read⟩ := sanitizeResponse_result eq
        obtain ⟨json, -, decoded⟩ := Option.bind_eq_some_iff.mp read
        exact Answer.agrees_ok (X.contract_fits decoded)

theorem answer_agrees (response : Option String) :
    (X.answer k address response).Agrees (X.codec k) address := by
  cases k with
  | abi => exact abiAnswer_agrees response
  | sources => exact sourceAnswer_agrees response

theorem encode_ne_null (iteration : Iteration) (path : List String) (item : X.Item k) :
    (X.codec k).encode iteration path item ≠ .null := by
  cases k with
  | abi => exact X.abi_ne_null _ _ _
  | sources => exact fun eq => by cases eq

theorem readU64_u64Json (n : U64) : readU64 (Crates.u64Json n) = some n := by
  have less : n.toNat < 2 ^ 64 := n.isLt
  simp only [readU64, Crates.u64Json, if_pos less, BitVec.ofNat_toNat, BitVec.setWidth_eq]

/-- An envelope is read back. -/
theorem decodeEnvelope_envelope {iteration : Iteration} {expiry : U64} {data : Option (X.Item k)}
    (fits : ∀ x, data = some x → (X.codec k).Fits x) :
    X.decodeEnvelope k (.object (X.envelope iteration k expiry data)) = some (expiry, data) := by
  cases data with
  | none =>
    simp [decodeEnvelope, envelope, Json.readStruct, Json.named, Json.readField, readU64_u64Json,
      Json.readOption]
  | some item =>
    have back := (X.codec k).decode_encode iteration ["data"] item (fits item rfl)
    have value : Json.readOption (X.codec k).decode
        (some ((X.codec k).encode iteration ["data"] item)) = some (some item) := by
      rw [Json.readOption_of_ne_null (encode_ne_null _ _ _), back]
      rfl
    simp [decodeEnvelope, envelope, Json.readStruct, Json.named, Json.readField, readU64_u64Json,
      value]

/-- A call changes the file of its contract, if it has an item for it. -/
theorem finish_files (files : Files) (asked : Asked) (reply : Reply) :
    (X.finish files asked reply).2 (X.path k address) =
      if X.stores k address ⟨asked, reply⟩ then some (X.stored k ⟨asked, reply⟩)
      else files (X.path k address) := by
  obtain ⟨kind, address', ttl⟩ := asked
  by_cases same : kind = k ∧ address' = address
  · obtain ⟨rfl, rfl⟩ := same
    cases ttl with
    | none => simp [finish, stores]
    | some ttl =>
      cases item : (X.answer kind address' reply.response).cached with
      | none => simp [finish, stores, item]
      | some item' =>
        cases written : reply.fate <;> simp [finish, stores, stored, set, item, written]
  · have other : X.stores k address ⟨⟨kind, address', ttl⟩, reply⟩ = false := by
      simp only [stores, Bool.and_eq_false_iff, decide_eq_false_iff_not]
      tauto
    have paths : X.path k address ≠ X.path kind address' := fun eq =>
      same ⟨(path_inj eq).1.symm, (path_inj eq).2.symm⟩
    rw [other, if_neg Bool.false_ne_true]
    simp only [finish]
    split
    · unfold set
      split
      · rfl
      · rfl
      · exact Function.update_of_ne paths _ _
    · rfl

/-- The file of a contract is what the last call put there. -/
def Recorded (X : Explorer σ α) (es : List Event) (s : State) : Prop :=
  ∀ k address, s.files (X.path k address) = (X.lastStore es k address).map (X.stored k)

theorem Recorded.step {s s' : State} {action : Action} {out : List Event}
    (recorded : X.Recorded es s) (step : X.machine.step s action = some (s', out)) :
    X.Recorded (es ++ out) s' := by
  intro k address
  cases action with
  | start asked now =>
    simp only [machine] at step
    split at step
    all_goals
      cases step
      simpa using recorded k address
  | finish i reply =>
    simp only [machine] at step
    split at step
    · cases step
    · next asked getEq =>
      cases step
      have files : (X.finish s.files asked reply).2 (X.path k address) = _ :=
        finish_files s.files asked reply
      rw [recorded] at files
      rw [lastStore_append]
      refine files.trans ?_
      split_ifs <;> rfl

theorem recorded_of_run {s : State}
    (run : X.machine.Run ⟨fun _ => none, []⟩ es s) : X.Recorded es s :=
  run.invariant (fun _ _ => rfl) fun _ _ _ _ _ recorded step => recorded.step step

/-! ## What is read -/

theorem expiry_eq_ok {now : SystemTime} {ttl : Nat} (epoch : 0 ≤ now + ttl)
    (fits : now + ttl < 2 ^ 63 * 10 ^ 9) :
    expiry now ttl = .ok (.ofInt 64 ((now + ttl) / 10 ^ 9)) := by
  rw [expiry, if_neg (Int.not_le.mpr fits), if_neg (Int.not_lt.mpr epoch)]

theorem of_expiry_eq_ok {now : SystemTime} {ttl : Nat} {n : U64} (eq : expiry now ttl = .ok n) :
    0 ≤ now + ttl ∧ now + ttl < 2 ^ 63 * 10 ^ 9 := by
  unfold expiry at eq
  split_ifs at eq with fits epoch
  exact ⟨Int.not_lt.mp epoch, Int.not_le.mp fits⟩

theorem toNat_expiry {now : SystemTime} {ttl : Nat} (epoch : 0 ≤ now + ttl)
    (fits : now + ttl < 2 ^ 63 * 10 ^ 9) :
    ((BitVec.ofInt 64 ((now + ttl) / 10 ^ 9)).toNat : Int) = (now + ttl) / 10 ^ 9 := by
  have whole : 0 ≤ (now + ttl) / 10 ^ 9 := Int.ediv_nonneg epoch (by decide)
  have less : (now + ttl) / 10 ^ 9 < 2 ^ 63 := Int.ediv_lt_of_lt_mul (by decide) fits
  have wide : (now + ttl) / 10 ^ 9 < (2 ^ 64 : Nat) := less.trans (by decide)
  rw [BitVec.toNat_ofInt, Int.emod_eq_of_lt whole wide, Int.toNat_of_nonneg whole]

/-- What a call wrote is no document, or it is its envelope. -/
theorem read_stored (stores : X.stores k address e = true) {ttl : Nat}
    (given : e.asked.ttl = some ttl) {json : Json}
    (read : X.text.read (X.stored k e) = some json) :
    ∃ item, (X.answer k address e.reply.response).result = told address item ∧
      0 ≤ e.reply.now + ttl ∧ e.reply.now + ttl < 2 ^ 63 * 10 ^ 9 ∧
        X.decodeEnvelope k json = some (.ofInt 64 ((e.reply.now + ttl) / 10 ^ 9), item) := by
  obtain ⟨⟨kind, address', ttl'⟩, ⟨response, now, iteration, fate⟩⟩ := e
  obtain rfl : ttl' = some ttl := given
  simp only [Explorer.stores, Bool.and_eq_true, decide_eq_true_eq] at stores
  obtain ⟨⟨⟨⟨rfl, rfl⟩, -⟩, cached⟩, wrote⟩ := stores
  obtain ⟨item, cached⟩ := Option.isSome_iff_exists.mp cached
  obtain ⟨result, fits⟩ := answer_agrees response item cached
  cases fate with
  | wrote n =>
    simp only [stored, cached, contents] at read
    cases time : expiry now ttl with
    | error message =>
      rw [time] at read
      simp [X.text.read_nil] at read
    | ok seconds =>
      obtain ⟨epoch, below⟩ := of_expiry_eq_ok time
      obtain rfl := Except.ok.inj (time.symm.trans (expiry_eq_ok epoch below))
      rw [time] at read
      obtain rfl := X.read_part _ _ _ read
      exact ⟨item, result, epoch, below, decodeEnvelope_envelope fits⟩
  | _ => cases wrote

theorem start_of_live {files : Files} (stores : X.stores k address e = true)
    (getEq : files (X.path k address) = some (X.stored k e)) {ttl ttl' : Nat} {now : SystemTime}
    (live : X.Live k e ttl' now) : X.start files k address (some ttl) now =
      if now < 0 then .panicked "system time is before unix epoch"
      else .answered (X.answer k address e.reply.response).result := by
  obtain ⟨json, read⟩ := Option.isSome_iff_exists.mp live.readable
  obtain ⟨item, result, epoch, fits, decoded⟩ := read_stored stores live.given read
  have before := live.before
  rw [← toNat_expiry epoch fits] at before
  simp only [start, get, getEq, read, Option.bind_some, decoded, if_pos before, result]
  split_ifs <;> rfl

theorem start_of_not_live {files : Files} (stores : X.stores k address e = true)
    (getEq : files (X.path k address) = some (X.stored k e)) {ttl : Nat} {now : SystemTime}
    (dead : ∀ ttl', ¬ X.Live k e ttl' now) : X.start files k address (some ttl) now = .ask := by
  cases read : X.text.read (X.stored k e) with
  | none => simp [start, get, getEq, read]
  | some json =>
    have given : e.asked.ttl.isSome = true := by
      simp only [Explorer.stores, Bool.and_eq_true] at stores
      exact stores.1.1.2
    obtain ⟨ttl', given⟩ := Option.isSome_iff_exists.mp given
    obtain ⟨item, -, epoch, fits, decoded⟩ := read_stored stores given read
    have after : ¬ now < (e.reply.now + ttl') / 10 ^ 9 * 10 ^ 9 := fun before =>
      dead ttl' ⟨given, epoch, fits, by rw [read]; rfl, before⟩
    -- so the clock is past the epoch
    have past : ¬ now < 0 := Int.not_lt.mpr <| (Int.mul_nonneg
      (Int.ediv_nonneg epoch (by decide)) (by decide)).trans (Int.not_lt.mp after)
    rw [← toNat_expiry epoch fits] at after
    simp only [start, get, getEq, read, Option.bind_some, decoded, if_neg past, if_neg after]

/-- However the calls of several clients overlap and whatever becomes of their writes, a client
answers from the cache exactly if the last call that wrote the file of the contract left it whole,
and only until it expires, and then as that call did. -/
theorem recalls_last {s : State} (run : X.machine.Run ⟨fun _ => none, []⟩ es s) (k : Kind)
    (address : Address) (ttl : Nat) (now : SystemTime) :
    (∀ e ttl', X.lastStore es k address = some e → X.Live k e ttl' now →
      X.start s.files k address (some ttl) now =
        if now < 0 then .panicked "system time is before unix epoch"
        else .answered (X.answer k address e.reply.response).result) ∧
    ((∀ e ttl', X.lastStore es k address = some e → ¬ X.Live k e ttl' now) →
      X.start s.files k address (some ttl) now = .ask) := by
  have recorded := recorded_of_run run k address
  constructor
  · intro e ttl' last live
    rw [last] at recorded
    exact start_of_live (stores_of_lastStore last) recorded live
  · intro dead
    cases last : X.lastStore es k address with
    | none =>
      rw [last] at recorded
      simp [start, get, recorded]
    | some e =>
      rw [last] at recorded
      exact start_of_not_live (stores_of_lastStore last) recorded fun ttl' => dead e ttl' last

end Explorer

/-! ## A contract without source code -/

def missingFields : List (String × Json) :=
  [("expiry", .number ⟨false, 65, [], none⟩), ("data", .null)]

def missingBytes : Bytes := asciiBytes "\x7b\"expiry\":65,\"data\":null\x7d"

theorem nil_ne_missingBytes : [] ≠ missingBytes := by decide

theorem parenthesis_ne_missingBytes (rest : Bytes) : 0x28 :: rest ≠ missingBytes := by
  intro same
  have first : some 0x28 = missingBytes.head? := congrArg List.head? same
  revert first
  decide

/-- The text of a single envelope. -/
def missingText : JsonText where
  write
    | .object [("expiry", .number ⟨false, 65, [], none⟩), ("data", .null)] => missingBytes
    | _ => []
  read raw := if raw = missingBytes then some (.object missingFields) else none
  Fits entries := entries = missingFields
  read_write entries fits := by
    subst fits
    exact if_pos rfl
  read_take entries n fits less := by
    subst fits
    exact if_neg fun same => less.not_ge ((List.take_eq_self_iff _).mp same)
  read_nil := if_neg nil_ne_missingBytes
  read_parenthesis rest := if_neg (parenthesis_ne_missingBytes rest)

theorem missingText_part (entries : List (String × Json)) (n : Nat) (json : Json)
    (read : missingText.read ((missingText.write (.object entries)).take n) = some json) :
    json = .object entries := by
  simp only [missingText] at read
  split_ifs at read with whole
  split at whole
  · next eq =>
    cases read
    exact eq.symm
  · simp [missingBytes, asciiBytes] at whole

/-- An explorer whose ABIs are arrays. -/
def Explorer.ofMissing : Explorer Json (List Json) where
  toCrates := .ofText sourceText sourceFields
  abi :=
    { encode := fun _ _ entries => .array entries
      decode := fun
        | .array entries => some entries
        | _ => none
      Fits := fun _ => True
      decode_encode := fun _ _ _ _ => rfl }
  text := missingText
  toLowercase text := text.map Char.toLower
  debug a := hexText 40 a.toNat
  abi_fits _ _ _ := trivial
  abi_ne_null _ _ _ eq := by cases eq
  read_part := missingText_part
  debug_inj a b same := by
    have read := congrArg readHex same
    simpa [BitVec.toNat_inj] using read

/-- A call that waits from the fifth second, for the answer that there is no source code. -/
def missingCall : Explorer.Event where
  asked := ⟨.sources, 1, some (60 * 10 ^ 9)⟩
  reply :=
    { response := some "\x7b\"result\":\"Contract source code not verified\"\x7d"
      now := 5500000000
      iteration := .sorted
      fate := .wrote 100 }

/-- A call beside it, whose write is cut off. -/
def cutCall : Explorer.Event where
  asked := missingCall.asked
  reply := { missingCall.reply with now := 5400000000, fate := .wrote 10 }

theorem stores_missingCall :
    Explorer.ofMissing.stores .sources 1 missingCall = true := by decide

theorem stores_cutCall : Explorer.ofMissing.stores .sources 1 cutCall = true := by decide

theorem live_missingCall {now : SystemTime} (before : now < 65 * 10 ^ 9) :
    Explorer.ofMissing.Live .sources missingCall (60 * 10 ^ 9) now where
  given := rfl
  epoch := by decide
  fits := by decide
  readable := by decide
  before := before

/-- Two calls ask the explorer at the same time. What the first one to be answered writes is cut
off, so the explorer is asked again. The answer of the other one is told while it lives, in whole
seconds. Then the explorer is asked, and about the ABI it is asked before. -/
theorem Explorer.recalls_last_missing :
    (∃ s, ofMissing.machine.Run ⟨fun _ => none, []⟩ [cutCall] s ∧
      ofMissing.start s.files .sources 1 (some 0) (64 * 10 ^ 9) = .ask) ∧
    ∃ s, ofMissing.machine.Run ⟨fun _ => none, []⟩ [cutCall, missingCall] s ∧
      ofMissing.start s.files .sources 1 (some 0) (64 * 10 ^ 9) =
        .answered (.error (.contractCodeNotVerified 1)) ∧
      ofMissing.start s.files .sources 1 (some 0) (-1) =
        .panicked "system time is before unix epoch" ∧
      ofMissing.start s.files .sources 1 (some 0) (65 * 10 ^ 9) = .ask ∧
      ofMissing.start s.files .abi 1 (some 0) (64 * 10 ^ 9) = .ask := by
  have overlapping : ∃ s,
      ofMissing.machine.Run ⟨fun _ => none, []⟩ ([] ++ [] ++ [] ++ [cutCall]) s ∧
        s.waiting = [missingCall.asked] :=
    ⟨_, .step (a := .finish 1 cutCall.reply)
      (.step (a := .start cutCall.asked 5200000000)
        (.step (a := .start missingCall.asked (5 * 10 ^ 9)) .refl rfl) rfl) rfl, rfl⟩
  obtain ⟨s₁, run₁, waiting⟩ := overlapping
  have answered : ofMissing.machine.step s₁ (.finish 0 missingCall.reply) =
      some (⟨(ofMissing.finish s₁.files missingCall.asked missingCall.reply).2, []⟩,
        [missingCall]) := by
    simp only [machine, waiting]
    rfl
  have run₂ := run₁.step answered
  have cut : ofMissing.lastStore [cutCall] .sources 1 = some cutCall :=
    (@lastStore_append _ _ ofMissing .sources 1 [] cutCall).trans (if_pos stores_cutCall)
  have last : ofMissing.lastStore [cutCall, missingCall] .sources 1 = some missingCall :=
    (@lastStore_append _ _ ofMissing .sources 1 [cutCall] missingCall).trans
      (if_pos stores_missingCall)
  have other : ofMissing.lastStore [cutCall, missingCall] .abi 1 = none := by decide
  refine ⟨⟨s₁, run₁, ?_⟩, _, run₂, ?_, ?_, ?_, ?_⟩
  · refine (recalls_last run₁ .sources 1 0 (64 * 10 ^ 9)).2 fun e ttl found live => ?_
    obtain rfl := Option.some.inj (cut.symm.trans found)
    exact absurd live.readable (by decide)
  · have told := (recalls_last run₂ .sources 1 0 (64 * 10 ^ 9)).1 missingCall _ last
      (live_missingCall (by decide))
    rw [told, if_neg (by decide)]
    rfl
  · have told := (recalls_last run₂ .sources 1 0 (-1)).1 missingCall _ last
      (live_missingCall (by decide))
    rw [told, if_pos (by decide)]
  · refine (recalls_last run₂ .sources 1 0 (65 * 10 ^ 9)).2 fun e ttl found live => ?_
    obtain rfl := Option.some.inj (last.symm.trans found)
    obtain rfl : 60 * 10 ^ 9 = ttl := Option.some.inj live.given
    exact absurd live.before (by decide)
  · refine (recalls_last run₂ .abi 1 0 (64 * 10 ^ 9)).2 fun e ttl found _ => ?_
    cases other.symm.trans found

end BlockExplorers

end FoundryCore
