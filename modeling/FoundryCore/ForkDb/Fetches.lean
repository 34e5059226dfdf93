import FoundryCore.ForkDb.Listeners

/-!
# What the provider is asked for

The database is there so that the provider is asked for each key once. It is asked again only
after a fetch failed, or after an update message set the storage of the account anew, since that
drops the slots that the message leaves out.
-/

open Std

namespace FoundryCore.ForkDb

open Library

/-- What matters for who has to be asked: the provider is asked for a key, a fetch fails, the
storage of an account is set anew. -/
inductive FetchEvent
  | asked (key : Key)
  | failed (key : Key)
  | replaced (address : Address)
deriving DecidableEq

/-- The key may have to be fetched again. -/
def FetchEvent.loses (k : Key) : FetchEvent → Bool
  | .asked _ => false
  | .failed k' => k' = k
  | .replaced address =>
    match k with
    | .storage address' _ => address' = address
    | .account _ | .blockHash _ => false

/-- The keys of the provider requests that a message starts. -/
def BackendHandler.asks (h : BackendHandler) (req : BackendRequest) : List Key :=
  ((h.onRequest req).1.pendingRequests.drop h.pendingRequests.length).filterMap
    ProviderRequest.key?

/-- The accounts whose storage a message sets. -/
def BackendRequest.replaces : BackendRequest → List Address
  | .updateStorage data => data.keys
  | _ => []

namespace System

/-- What the next step does about fetches. -/
def fetchEvents (revm : Revm) (s : System) (a : Action) : List FetchEvent :=
  match s.input a with
  | .nothing => []
  | .message req =>
    ({ s.handler with queuedRequests := s.handler.queuedRequests.tail }.asks req).map .asked ++
      req.replaces.map .replaced
  | .response request output =>
    match request.key?, BackendHandler.fetched revm request output with
    | some k, none => [.failed k]
    | _, _ => []

/-- The fork backend, observed through what the provider is asked for. -/
def fetchMachine (revm : Revm) : Machine System Action FetchEvent :=
  (machine revm).observed (fetchEvents revm)

end System

/-! ## What has not to be fetched -/

namespace BackendHandler

variable {h h' : BackendHandler} {k k' : Key} {l : Sender} {v : DatabaseResult Value}

/-- The key is in the database, or a request for it is in flight. -/
def Provided (h : BackendHandler) (k : Key) : Prop := (h.db.get? k).isSome ∨ k ∈ h.inFlight

instance : Decidable (h.Provided k) := inferInstanceAs (Decidable (_ ∨ _))

theorem Joins.asks {req : BackendRequest} (joins : h.Joins k l h')
    (eq : (h.onRequest req).1 = h') :
    h.asks req = if (h.listeners k).isSome then [] else [k] := by
  obtain ⟨requests, pending, keys, -⟩ := joins.pending
  rw [BackendHandler.asks, eq, pending, List.drop_left, keys]

theorem Aside.asks {req : BackendRequest} (aside : h.Aside req (h.onRequest req).1) :
    h.asks req = [] := by
  obtain ⟨requests, pending, keys, -⟩ := aside.pending
  rw [BackendHandler.asks, pending, List.drop_left, keys]

/-- A message keeps what the database holds, but for the slots of the accounts it sets. -/
theorem onRequest_keeps (h : BackendHandler) (req : BackendRequest) (k : Key)
    (known : (h.db.get? k).isSome) :
    ((h.onRequest req).1.db.get? k).isSome ∨
      ∃ address ∈ req.replaces, FetchEvent.loses k (.replaced address) := by
  obtain ⟨_, _, _, -, -, eq⟩ | ⟨_, _, h', -, -, joins, eq⟩ | ⟨read, -, -⟩ := h.onRequest_cases req
  · exact .inl (by rwa [eq])
  · exact .inl (by rwa [eq, joins.db])
  · cases req with
    | basic | storage | blockHash => simp [BackendRequest.read?] at read
    | fullBlock | transaction | anyRequest | setPinnedBlock => exact .inl known
    | updateAddress data =>
      left
      cases k with
      | account address =>
        cases entry : data[address]? <;> simp_all [onRequest, MemDb.get?]
      | _ => exact known
    | updateBlockHash data =>
      left
      cases k with
      | blockHash number =>
        cases entry : data[number]? <;> simp_all [onRequest, MemDb.get?]
      | _ => exact known
    | updateStorage data =>
      cases k with
      | storage address idx =>
        cases entry : data[address]? with
        | none =>
          left
          simpa [onRequest, MemDb.get?, getElem?_insertMany_toList, entry] using known
        | some slots =>
          have named : address ∈ data := ExtTreeMap.mem_iff_isSome_getElem?.mpr (by simp [entry])
          exact .inr ⟨address, by simpa [BackendRequest.replaces] using named,
            by simp [FetchEvent.loses]⟩
      | _ => exact .inl known

/-- A message asks for at most one key, which nobody provides so far. -/
theorem Consistent.asks_cases (consistent : h.Consistent) (req : BackendRequest) :
    h.asks req = [] ∨ ∃ k, h.asks req = [k] ∧ ¬ h.Provided k ∧ (h.onRequest req).1.Provided k := by
  obtain ⟨_, _, _, -, -, eq⟩ | ⟨k, _, h', -, unknown, joins, eq⟩ | ⟨-, aside, -⟩ :=
    h.onRequest_cases req
  · exact .inl (by simp [BackendHandler.asks, eq])
  · have now : (h.onRequest req).1 = h' := by rw [eq]
    rw [joins.asks now, now]
    split_ifs with listed
    · exact .inl rfl
    · refine .inr ⟨k, rfl, ?_, .inr (by simp [joins.inFlight, listed])⟩
      rintro (known | flying)
      · simp [unknown] at known
      · exact listed ((consistent.listed k).mpr flying)
  · exact .inl aside.asks

/-- A message keeps what is provided, but for the slots of the accounts it sets. -/
theorem onRequest_provides (req : BackendRequest) (provided : h.Provided k) :
    (h.onRequest req).1.Provided k ∨
      ∃ address ∈ req.replaces, FetchEvent.loses k (.replaced address) := by
  rcases provided with known | flying
  · exact (h.onRequest_keeps req k known).imp_left .inl
  · refine .inl (.inr ?_)
    obtain ⟨_, _, _, -, -, eq⟩ | ⟨_, _, h', -, -, joins, eq⟩ | ⟨-, aside, -⟩ :=
      h.onRequest_cases req
    · rwa [eq]
    · rw [eq, joins.inFlight]
      exact List.mem_append_left _ flying
    · rwa [aside.inFlight]

/-- A response provides its key, unless the fetch failed. -/
theorem onReady_provides {revm : Revm} {request : ProviderRequest} {output : request.Output}
    {out : List Event} (ready : h.onReady revm request output = some (h', out))
    (provided : h.Provided k ∨ request.key? = some k) :
    h'.Provided k ∨ request.key? = some k ∧ fetched revm request output = none := by
  obtain ⟨k', v, key, value, done, -⟩ | ⟨key, sender, reply, -, eq, -⟩ := onReady_cases ready
  · have flying : h'.inFlight = h.inFlight := by rw [inFlight, done.pending, inFlight]
    have db := done.db k
    rw [key, Option.some.injEq] at provided ⊢
    rw [Provided, flying]
    by_cases same : k' = k
    · cases v with
      | ok v => exact .inl (.inl (by simp [db, same]))
      | error err => exact .inr ⟨same, value.symm⟩
    · have kept : h'.db.get? k = h.db.get? k := by
        cases v <;> simpa [Ne.symm same] using db
      rw [kept]
      exact .inl (provided.resolve_right same)
  · rw [eq]
    exact .inl (provided.resolve_right (by simp [key]))

end BackendHandler

/-! ## How often the provider is asked -/

namespace System

variable {revm : Revm} {s s' : System} {es : List FetchEvent} {a : Action}
  {out : List Event} {k : Key}

theorem count_asked (keys : List Key) (addresses : List Address) :
    (keys.map FetchEvent.asked ++ addresses.map FetchEvent.replaced).count (.asked k) =
      keys.count k := by
  induction keys with
  | nil => simp [List.count_eq_zero]
  | cons key keys ih => simp_all [List.count_cons]

theorem countP_loses (keys : List Key) (addresses : List Address) :
    (keys.map FetchEvent.asked ++ addresses.map FetchEvent.replaced).countP (FetchEvent.loses k) =
      addresses.countP fun address => FetchEvent.loses k (.replaced address) := by
  have none : (keys.map FetchEvent.asked).countP (FetchEvent.loses k) = 0 := by
    simp [List.countP_eq_zero, FetchEvent.loses]
  rw [List.countP_append, none, Nat.zero_add, List.countP_map]
  rfl

/-- What is provided before a response is taken in is provided without it, or it is the key of the
response. -/
theorem provided_of_perm {h : BackendHandler} {request : ProviderRequest}
    {rest : List ProviderRequest} (pending : h.pendingRequests.Perm (request :: rest))
    (provided : h.Provided k) :
    BackendHandler.Provided { h with pendingRequests := rest } k ∨ request.key? = some k := by
  rcases provided with known | waiting
  · exact .inl (.inl known)
  · have mem := ((pending.filterMap ProviderRequest.key?).mem_iff (a := k)).mp waiting
    cases key : request.key? with
    | none =>
      rw [List.filterMap_cons, key] at mem
      exact .inl (.inr mem)
    | some k' =>
      rw [List.filterMap_cons, key, List.mem_cons] at mem
      rcases mem with rfl | mem
      · exact .inr rfl
      · exact .inl (.inr mem)

/-- A key is asked for when nobody provides it, and it stays provided until it is lost. -/
theorem fetchEvents_spec (eq : (machine revm).step s a = some (s', out))
    (consistent : s.pc ≠ .panicked → s.handler.Consistent) (k : Key) :
    (s.fetchEvents revm a).count (.asked k) + (if s.handler.Provided k then 1 else 0) ≤
      (if s'.handler.Provided k then 1 else 0) +
        (s.fetchEvents revm a).countP (FetchEvent.loses k) := by
  have takes := step_takes eq
  unfold fetchEvents
  generalize s.input a = input at takes
  cases takes with
  | nothing db _ _ pending =>
    have same : s'.handler.Provided k ↔ s.handler.Provided k := by
      simp only [BackendHandler.Provided, BackendHandler.inFlight, db,
        (pending.filterMap ProviderRequest.key?).mem_iff]
    simp [same]
  | message req rest _ pc queue handler =>
    simp only [queue, List.tail_cons, count_asked, countP_loses]
    have before : BackendHandler.Consistent { s.handler with queuedRequests := rest } :=
      (consistent (by simp [pc])).congr rfl .rfl
    have now : ({ s.handler with queuedRequests := rest }.onRequest req).1 = s'.handler := by
      rw [handler]
    have kept (provided : s.handler.Provided k) : s'.handler.Provided k ∨
        0 < req.replaces.countP fun address => FetchEvent.loses k (.replaced address) := by
      have kept := BackendHandler.onRequest_provides req
        (h := { s.handler with queuedRequests := rest }) provided
      rw [now] at kept
      exact kept.imp_right List.countP_pos_iff.mpr
    rcases before.asks_cases req with none | ⟨k', one, absent, present⟩
    · rw [none, List.count_nil]
      split_ifs with provided still
      all_goals try omega
      have := (kept provided).resolve_left still
      omega
    · rw [now] at present
      rw [one, List.count_singleton]
      by_cases same : k' = k
      · subst same
        have absent : ¬ s.handler.Provided k' := absent
        simp [absent, present]
      · split_ifs with _ provided still
        all_goals first | omega | simp_all
  | response request rest output _ pending handler =>
    have before := provided_of_perm (k := k) pending
    by_cases provided : s.handler.Provided k
    · rcases BackendHandler.onReady_provides handler (before provided) with still | ⟨key, failed⟩
      · have still : s'.handler.Provided k := still
        simp only [provided, still, if_true]
        split <;> simp
      · simp [key, failed, provided, FetchEvent.loses]
    · simp only [provided, if_false]
      split <;> simp
  | malformed request rest output pending bad _ handler =>
    have before := provided_of_perm (k := k) pending
    obtain ⟨⟨k', key⟩, failed⟩ := BackendHandler.fetched_of_malformed bad
    by_cases provided : s.handler.Provided k
    · rcases before provided with still | same
      · have still : s'.handler.Provided k := by rwa [handler]
        simp [key, failed, provided, still]
      · obtain rfl : k' = k := by simpa [key] using same
        simp [key, failed, provided, FetchEvent.loses]
    · simp [key, failed, provided]

/-- The provider is asked for a key once, unless the key was lost: a fetch failed, or an update
message set the storage of the account. A key that the database holds from the beginning is not
asked for before it is lost. -/
theorem asked_once {db : MemDb} {pinned : Option BlockId}
    (run : (fetchMachine revm).Run (spawn db pinned) es s) (k : Key) :
    es.count (.asked k) + (if (db.get? k).isSome then 1 else 0) ≤
      1 + es.countP (FetchEvent.loses k) := by
  have invariant := Machine.Run.invariant (M := fetchMachine revm)
    (P := fun es s => (s.pc ≠ .panicked → s.handler.Consistent) ∧
      es.count (.asked k) + (if (db.get? k).isSome then 1 else 0) ≤
        (if s.handler.Provided k then 1 else 0) + es.countP (FetchEvent.loses k)) ?_ ?_ run
  · obtain ⟨-, bound⟩ := invariant
    split_ifs at bound ⊢ <;> omega
  · refine ⟨fun _ => .initial db pinned, ?_⟩
    simp [spawn, BackendHandler.Provided, BackendHandler.inFlight]
  · rintro es s a s' seen ⟨consistent, bound⟩ eq
    obtain ⟨⟨out, step⟩, rfl⟩ := Machine.observed_step.mp eq
    have spec := fetchEvents_spec step consistent k
    refine ⟨consistent_of_step step consistent, ?_⟩
    rw [List.count_append, List.countP_append]
    omega

/-- Two calls for an account whose fetch fails, a third one that succeeds, and a fourth. -/
def failsOnce : List Action :=
  let answer (output : Except Report (U256 × BitVec 64 × Bytes)) :
      (request : ProviderRequest) → Option request.Output
    | .account _ _ => some output
    | _ => none
  [Action.call (.basic 1), .call (.basic 1)] ++
    List.replicate 11 (Action.poll (answer (.error "unavailable"))) ++ [Action.call (.basic 1)] ++
    List.replicate 10 (Action.poll (answer (.ok (5, 0, [])))) ++ [Action.call (.basic 1)] ++
    List.replicate 10 (Action.poll fun _ => none)

theorem asked_once_failing : ∃ es s,
    (fetchMachine .unhashed).Run (spawn {} none) es s ∧ es.count (.asked (.account 1)) = 2 ∧
      es.count (.asked (.account 1)) + 0 ≤ 1 + es.countP (FetchEvent.loses (.account 1)) := by
  have history : ((fetchMachine .unhashed).exec failsOnce (spawn {} none)).map Prod.snd =
      some [.asked (.account 1), .failed (.account 1), .asked (.account 1)] := by decide
  obtain ⟨⟨s, es⟩, eq, rfl⟩ := Option.map_eq_some_iff.mp history
  have run := Machine.run_of_exec _ eq
  exact ⟨_, s, run, by decide, asked_once run (.account 1)⟩

end System

end FoundryCore.ForkDb
