import FoundryCore.ForkDb.Listeners

/-!
# The pinned block

A request for an account or a slot captures the pinned block when it is created, and listeners
that come later join the request of their key whatever the block is by then. Here the history
of a run records the pins and, for every event, the response it came from.
-/

open Std

namespace FoundryCore.ForkDb

open Library BackendHandler

/-- The block that a request reads. -/
def ProviderRequest.block? : ProviderRequest → Option BlockId
  | .account _ block | .storage _ _ block => some block
  | .blockHash _ | .fullBlock _ _ | .transaction _ _ | .anyRequest _ => none

/-- A key whose value depends on the block it is read at. -/
def Key.AtBlock : Key → Prop
  | .account _ | .storage _ _ => True
  | .blockHash _ => False

/-- A pin that is handled, or an event together with the input of the step that emitted it. -/
inductive PinEvent
  | pinned (block : BlockId)
  | emitted (event : Event) (input : Input)

/-- The event that a record is about. -/
def PinEvent.event? : PinEvent → Option Event
  | .pinned _ => none
  | .emitted event _ => some event

/-- The block of a pin. -/
def PinEvent.pinned? : PinEvent → Option BlockId
  | .pinned block => some block
  | .emitted _ _ => none

/-- The block that was pinned last. -/
def lastPinned (es : List PinEvent) : Option BlockId := (es.filterMap (·.pinned?)).getLast?

/-- The block that a message pins. -/
def Input.pinned? : Input → Option BlockId
  | .message (.setPinnedBlock block) => some block
  | _ => none

namespace System

/-- What the next step adds to the history of pins and events. -/
def pinEvents (revm : Revm) (s : System) (a : Action) : List PinEvent :=
  (s.input a).pinned?.toList.map .pinned ++
    (((machine revm).step s a).elim [] Prod.snd).map (.emitted · (s.input a))

/-- The fork backend, observed through its pins and events. -/
def pinMachine (revm : Revm) : Machine System Action PinEvent :=
  (machine revm).observed (pinEvents revm)

end System

/-- The listener was accepted for the key, which means that the database did not hold the key,
after block `b` was pinned and before the next pin. -/
def AcceptedAt (k : Key) (l : Sender) (b : BlockId) (es : List PinEvent) : Prop :=
  ∃ before i after, es = before ++ PinEvent.emitted (.accepted k l) i :: after ∧
    lastPinned before = some b

/-- Whoever is accepted for an account or a slot while block `b` is pinned is answered, when it is
answered with a value, by the value of a response for block `b`. -/
def PinRespected (revm : Revm) (es : List PinEvent) : Prop :=
  ∀ before k l v i after, es = before ++ PinEvent.emitted (.answered k l (.ok v)) i :: after →
    ∀ b, k.AtBlock → AcceptedAt k l b before →
      ∃ request output, i = .response request output ∧ request.key? = some k ∧
        request.block? = some b ∧ fetched revm request output = some v

/-- No read about to be handled, of an account or a slot that the database does not hold, finds a
request in flight for its key with another block than the one pinned last. -/
def AsksPinned (es : List PinEvent) (s : System) (a : Action) : Prop :=
  ∀ req k l b, s.input a = .message req → req.read? = some (k, l) → s.handler.db.get? k = none →
    lastPinned es = some b → ∀ request ∈ s.handler.pendingRequests, request.key? = some k →
      ∀ block, request.block? = some block → block = b

/-! ## The block of a request -/

theorem ProviderRequest.block?_isSome {request : ProviderRequest} {k : Key}
    (key : request.key? = some k) (atBlock : k.AtBlock) : ∃ block, request.block? = some block := by
  cases request <;> simp_all [key?, block?]
  · rw [← key] at atBlock
    exact atBlock

theorem onRequest_blockId (h : BackendHandler) (req : BackendRequest) :
    (h.onRequest req).1.blockId = (Input.message req).pinned?.or h.blockId := by
  cases req with
  | basic address l =>
    simp only [onRequest, requestAccount]
    repeat' split
    all_goals rfl
  | storage address idx l =>
    simp only [onRequest, requestAccountStorage]
    repeat' split
    all_goals rfl
  | blockHash number l =>
    simp only [onRequest, requestHash]
    repeat' split
    all_goals rfl
  | _ => rfl

/-- A request that a message creates reads the block that is pinned now. -/
theorem onRequest_pending (h : BackendHandler) (req : BackendRequest) :
    ∃ requests : List ProviderRequest,
      (h.onRequest req).1.pendingRequests = h.pendingRequests ++ requests ∧
      ∀ request ∈ requests, ∀ block, request.block? = some block →
        block = h.blockId.getD default := by
  cases req with
  | basic address l =>
    simp only [onRequest, requestAccount]
    repeat' split
    · exact ⟨[], by simp, by simp⟩
    · exact ⟨[], by simp, by simp⟩
    · exact ⟨[_], rfl, by simp [getAccountReq, ProviderRequest.block?]⟩
  | storage address idx l =>
    simp only [onRequest, requestAccountStorage]
    repeat' split
    · exact ⟨[], by simp, by simp⟩
    · exact ⟨[], by simp, by simp⟩
    · exact ⟨[_], rfl, by simp [ProviderRequest.block?]⟩
  | blockHash number l =>
    simp only [onRequest, requestHash]
    repeat' split
    · exact ⟨[], by simp, by simp⟩
    · exact ⟨[], by simp, by simp⟩
    · exact ⟨[_], rfl, by simp [ProviderRequest.block?]⟩
  | fullBlock | transaction | anyRequest => exact ⟨[_], rfl, by simp [ProviderRequest.block?]⟩
  | _ => exact ⟨[], by simp [onRequest], by simp⟩

/-! ## Histories -/

section History

variable {es out : List PinEvent} {k : Key} {l : Sender} {b : BlockId}

theorem lastPinned_append (es out : List PinEvent) :
    lastPinned (es ++ out) = (lastPinned out).or (lastPinned es) := by
  simp [lastPinned, List.filterMap_append, List.getLast?_append]

theorem AcceptedAt.mem (h : AcceptedAt k l b es) :
    .accepted k l ∈ es.filterMap PinEvent.event? := by
  obtain ⟨before, i, after, rfl, -⟩ := h
  simp [PinEvent.event?]

/-- Who is accepted in a longer history was accepted before or in what was added. -/
theorem AcceptedAt.of_append (h : AcceptedAt k l b (es ++ out)) :
    AcceptedAt k l b es ∨ ∃ before i after,
      out = before ++ PinEvent.emitted (.accepted k l) i :: after ∧
      lastPinned (es ++ before) = some b := by
  obtain ⟨before, i, after, split, last⟩ := h
  obtain ⟨mid, rfl, rest⟩ | ⟨mid, rfl, rest⟩ := List.append_eq_append_iff.mp split
  · exact .inr ⟨mid, i, after, rest, last⟩
  · cases mid with
    | nil => exact .inr ⟨[], i, after, by simpa using rest.symm, by simpa using last⟩
    | cons e mid =>
      obtain ⟨rfl, rfl⟩ : .emitted (.accepted k l) i = e ∧ after = mid ++ out := by
        simpa using rest
      exact .inl ⟨before, i, mid, rfl, last⟩

theorem AcceptedAt.of_append_notMem (h : AcceptedAt k l b (es ++ out))
    (absent : ∀ i, .emitted (.accepted k l) i ∉ out) : AcceptedAt k l b es := by
  obtain old | ⟨before, i, after, rfl, -⟩ := h.of_append
  · exact old
  · exact absurd (by simp) (absent i)

/-- Pins stay respected when every answer that is added is by a response for the block pinned
when its listener was accepted. -/
theorem PinRespected.append {revm : Revm} (r : PinRespected revm es)
    (brings : ∀ before k l v i after,
      out = before ++ PinEvent.emitted (.answered k l (.ok v)) i :: after →
      ∀ b, k.AtBlock → AcceptedAt k l b (es ++ before) →
        ∃ request output, i = .response request output ∧ request.key? = some k ∧
          request.block? = some b ∧ fetched revm request output = some v) :
    PinRespected revm (es ++ out) := by
  intro before k l v i after split b atBlock accepted
  obtain ⟨mid, rfl, rest⟩ | ⟨mid, rfl, rest⟩ := List.append_eq_append_iff.mp split
  · exact brings mid k l v i after rest b atBlock accepted
  · cases mid with
    | nil =>
      exact brings [] k l v i after (by simpa using rest.symm) b atBlock (by simpa using accepted)
    | cons e mid =>
      obtain ⟨rfl, rfl⟩ : .emitted (.answered k l (.ok v)) i = e ∧ after = mid ++ out := by
        simpa using rest
      exact r before k l v i mid rfl b atBlock accepted

end History

/-! ## Runs -/

/-- What holds in a run: the handler has the block that was pinned last, and a listener waits
for a request at the block pinned when it was accepted. -/
structure Pinning (revm : Revm) (es : List PinEvent) (h : BackendHandler) : Prop where
  blockId : ∀ b, lastPinned es = some b → h.blockId = some b
  waits : ∀ k l b, k.AtBlock → AcceptedAt k l b es → l ∈ (h.listeners k).getD [] →
    ∀ request ∈ h.pendingRequests, request.key? = some k → request.block? = some b
  respected : PinRespected revm es

namespace System

variable {revm : Revm} {db : MemDb} {pinned : Option BlockId} {es out : List PinEvent}
  {s s' : System} {a : Action}

theorem pinEvents_of_step {out : List Event}
    (eq : (machine revm).step s a = some (s', out)) :
    pinEvents revm s a =
      (s.input a).pinned?.toList.map .pinned ++ out.map (.emitted · (s.input a)) := by
  simp [pinEvents, eq]

theorem pinEvents_event? {out : List Event}
    (eq : (machine revm).step s a = some (s', out)) :
    (pinEvents revm s a).filterMap PinEvent.event? = out := by
  rw [pinEvents_of_step eq]
  cases (s.input a).pinned? <;> simp [PinEvent.event?, List.filterMap_cons, Function.comp_def]

end System

section Step

variable {revm : Revm} {es : List PinEvent} {h h' : BackendHandler} {k : Key}
  {l : Sender}

theorem lastPinned_emitted (es : List PinEvent) (out : List Event) (i : Input) :
    lastPinned (es ++ out.map (.emitted · i)) = lastPinned es := by
  have none : lastPinned (out.map (.emitted · i)) = none := by
    simp [lastPinned, List.filterMap_map, PinEvent.pinned?]
  rw [lastPinned_append, none, Option.none_or]

/-- Events that accept nobody and answer no read. -/
theorem Pinning.aside (p : Pinning revm es h) {out : List PinEvent}
    (blockId : ∀ b, lastPinned (es ++ out) = some b → h'.blockId = some b)
    (listeners : h'.listeners = h.listeners)
    (pending : ∀ request ∈ h'.pendingRequests, ∀ k, request.key? = some k →
      request ∈ h.pendingRequests)
    (noAccept : ∀ k l i, .emitted (.accepted k l) i ∉ out)
    (noAnswer : ∀ k l v i, .emitted (.answered k l v) i ∉ out) :
    Pinning revm (es ++ out) h' where
  blockId := blockId
  waits k l b atBlock accepted listed request mem key :=
    p.waits k l b atBlock (accepted.of_append_notMem (noAccept k l)) (listeners ▸ listed) request
      (pending request mem k key) key
  respected := p.respected.append fun before k l v i after eq =>
    absurd (by simp [eq]) (noAnswer k l (.ok v) i)

/-- A listener that was not seen before joins its key, and finds only requests at the block
pinned now. -/
theorem Pinning.joins (p : Pinning revm es h) (joins : h.Joins k l h') {i : Input}
    (blockId : h'.blockId = h.blockId) {requests : List ProviderRequest}
    (created : h'.pendingRequests = h.pendingRequests ++ requests)
    (current : ∀ request ∈ requests, ∀ block, request.block? = some block →
      block = h.blockId.getD default)
    (fresh : ∀ b, ¬ AcceptedAt k l b es)
    (pinned : ∀ b, lastPinned es = some b → ∀ request ∈ h.pendingRequests,
      request.key? = some k → ∀ block, request.block? = some block → block = b) :
    Pinning revm (es ++ [PinEvent.emitted (.accepted k l) i]) h' := by
  have last : lastPinned (es ++ [PinEvent.emitted (.accepted k l) i]) = lastPinned es :=
    lastPinned_emitted es [.accepted k l] i
  obtain ⟨requests', pending, keys, -⟩ := joins.pending
  obtain rfl : requests' = requests := List.append_cancel_left (pending.symm.trans created)
  refine ⟨fun b eq => ?_, fun k' l' b atBlock accepted listed request mem key => ?_, ?_⟩
  · rw [blockId]
    exact p.blockId b (last ▸ eq)
  · have created_key : request ∈ requests' → k' = k ∧ h.listeners k = none := by
      intro new
      have key_mem := List.mem_filterMap.mpr ⟨request, new, key⟩
      rw [keys] at key_mem
      split_ifs at key_mem with listed
      · simp at key_mem
      · exact ⟨by simpa using key_mem, by simpa using listed⟩
    rw [joins.listeners] at listed
    rw [created, List.mem_append] at mem
    obtain old | ⟨before, i', after, eq, pin⟩ := accepted.of_append
    · -- an older listener still waits for the request it joined
      have waiting : l' ∈ (h.listeners k').getD [] := by
        split_ifs at listed with same
        · subst same
          rcases List.mem_append.mp listed with waiting | new
          · exact waiting
          · obtain rfl : l' = l := by simpa using new
            exact absurd old (fresh b)
        · exact listed
      rcases mem with there | new
      · exact p.waits k' l' b atBlock old waiting request there key
      · obtain ⟨rfl, none⟩ := created_key new
        simp [none] at waiting
    · obtain ⟨rfl, rfl, rfl⟩ : before = [] ∧ k' = k ∧ l' = l := by
        rcases List.append_eq_singleton_iff.mp eq.symm with ⟨empty, one⟩ | ⟨-, absurd⟩
        · simp at one
          grind
        · simp at absurd
      rw [List.append_nil] at pin
      obtain ⟨block, reads⟩ := ProviderRequest.block?_isSome key atBlock
      rw [reads]
      rcases mem with there | new
      · rw [pinned b pin request there key block reads]
      · rw [current request new block reads, p.blockId b pin, Option.getD_some]
  · refine p.respected.append fun before k' l' v i' after eq => ?_
    have mem : PinEvent.emitted (.answered k' l' (.ok v)) i' ∈ [.emitted (.accepted k l) i] := by
      simp [eq]
    simp at mem

/-- A listener that was not seen before is answered from the database. -/
theorem Pinning.answers_fresh (p : Pinning revm es h) {v : DatabaseResult Value} {i : Input}
    (fresh : ∀ b, ¬ AcceptedAt k l b es) :
    Pinning revm (es ++ [PinEvent.emitted (.answered k l v) i]) h where
  blockId b last := p.blockId b (by simpa [lastPinned, PinEvent.pinned?] using last)
  waits k l b atBlock accepted := p.waits k l b atBlock (accepted.of_append_notMem (by simp))
  respected := by
    refine p.respected.append fun before k' l' v' i' after eq b _ accepted => ?_
    rcases List.append_eq_singleton_iff.mp eq.symm with ⟨rfl, one⟩ | ⟨-, absurd⟩
    · obtain ⟨rfl, rfl⟩ : k' = k ∧ l' = l := by
        simp at one
        grind
      exact absurd (by simpa using accepted) (fresh b)
    · simp at absurd

/-- The request of a key completes. -/
theorem Pinning.completes (p : Pinning revm es h) {value : DatabaseResult Value}
    {request : ProviderRequest} {output : request.Output} (key : request.key? = some k)
    (mem : request ∈ h.pendingRequests)
    (brought : value.toOption = fetched revm request output) (blockId : h'.blockId = h.blockId)
    (listeners : ∀ k', h'.listeners k' = if k' = k then none else h.listeners k')
    (pending : ∀ request ∈ h'.pendingRequests, request ∈ h.pendingRequests) :
    Pinning revm
      (es ++ (notify k (h.listeners k) value).map (.emitted · (.response request output))) h' := by
  have noAccept : ∀ k' l i, PinEvent.emitted (.accepted k' l) i ∉
      (notify k (h.listeners k) value).map (.emitted · (.response request output)) := by
    intro k' l i mem
    obtain ⟨e, there, eq⟩ := List.mem_map.mp mem
    cases eq
    exact accepted_notMem_notify there
  refine ⟨fun b last => ?_, fun k' l b atBlock accepted listed request' mem' key' => ?_, ?_⟩
  · rw [lastPinned_emitted] at last
    rw [blockId]
    exact p.blockId b last
  · rw [listeners] at listed
    split_ifs at listed with same
    · simp at listed
    · exact p.waits k' l b atBlock (accepted.of_append_notMem (noAccept k' l)) listed request'
        (pending request' mem') key'
  · refine p.respected.append fun before k' l v i after eq b atBlock accepted => ?_
    have there : PinEvent.emitted (.answered k' l (.ok v)) i ∈
        (notify k (h.listeners k) value).map (.emitted · (.response request output)) := by
      simp [eq]
    obtain ⟨e, there, same⟩ := List.mem_map.mp there
    obtain ⟨rfl, rfl⟩ := PinEvent.emitted.inj same
    obtain ⟨rfl, listed, rfl⟩ : k = k' ∧ l ∈ (h.listeners k).getD [] ∧ value = .ok v := by
      simp only [notify, List.mem_cons, List.mem_map] at there
      grind
    have old := accepted.of_append_notMem fun i mem => noAccept k l i (by simp [eq, mem])
    exact ⟨request, output, rfl, key, p.waits k l b atBlock old listed request mem key,
      brought.symm⟩

end Step

theorem Input.pinned?_of_read {req : BackendRequest} {read : Key × Sender}
    (eq : req.read? = some read) : (Input.message req).pinned? = none := by
  cases req <;> simp_all [BackendRequest.read?, pinned?]

/-- A step that asks at the pinned block keeps the pins respected. -/
theorem pinning_step {revm : Revm} {es out : List PinEvent} {s s' : System}
    {a : Action}
    (held : System.Holds (es.filterMap PinEvent.event?) s) (p : Pinning revm es s.handler)
    (asks : AsksPinned es s a)
    (eq : (System.pinMachine revm).step s a = some (s', out)) :
    Pinning revm (es ++ out) s'.handler := by
  obtain ⟨⟨events, step⟩, rfl⟩ := Machine.observed_step.mp eq
  have takes := System.step_takes step
  rw [System.pinEvents_of_step step]
  unfold AsksPinned at asks
  generalize s.input a = input at takes asks
  cases takes with
  | nothing db blockId listeners pending =>
    refine p.aside (fun b last => ?_) listeners (fun request mem _ _ => pending.mem_iff.mp mem)
      (by simp [Input.pinned?]) (by simp [Input.pinned?])
    rw [blockId]
    exact p.blockId b (by simpa [Input.pinned?] using last)
  | message req rest events _ queue handler =>
    have heldNow : ∀ k l, req.read? = some (k, l) → l ∈ s.held := by
      intro k l read
      simp [System.held, System.unprocessed, queue, BackendRequest.sender?_of_read? read]
    have fresh : ∀ k l b, req.read? = some (k, l) → ∀ k', ¬ AcceptedAt k' l b es :=
      fun k l b read k' accepted => held.silent l (heldNow k l read) _ accepted.mem rfl
    have blockId := onRequest_blockId { s.handler with queuedRequests := rest } req
    obtain ⟨requests, created, current⟩ :=
      onRequest_pending { s.handler with queuedRequests := rest } req
    rw [handler] at blockId created
    have p' : Pinning revm es { s.handler with queuedRequests := rest } :=
      ⟨p.blockId, p.waits, p.respected⟩
    obtain ⟨k, l, v, read, -, eq⟩ | ⟨k, l, h', read, absent, joins, eq⟩ | ⟨aside, same, updates⟩ :=
      onRequest_cases { s.handler with queuedRequests := rest } req
    · obtain ⟨eq, rfl⟩ := Prod.mk.inj (handler.symm.trans eq)
      rw [Input.pinned?_of_read read, eq]
      exact p'.answers_fresh (fresh k l · read k)
    · obtain ⟨rfl, rfl⟩ := Prod.mk.inj (handler.symm.trans eq)
      rw [Input.pinned?_of_read read] at blockId ⊢
      refine p'.joins joins (by simpa using blockId) created current (fresh k l · read k) ?_
      intro b last
      exact asks req k l b rfl read absent last
    · rw [handler] at same updates
      have keyless : ∀ request ∈ requests, request.key? = none := by
        obtain ⟨requests', pending, keys, -⟩ := same.pending
        obtain rfl := List.append_cancel_left (pending.symm.trans created)
        exact List.filterMap_eq_nil_iff.mp keys
      refine p'.aside (fun b last => ?_) same.listeners (fun request mem k key => ?_)
        (fun k l i mem => ?_) fun k l v i mem => ?_
      · rw [blockId]
        rw [← List.append_assoc, lastPinned_emitted, lastPinned_append] at last
        cases pin : (Input.message req).pinned? with
        | none =>
          rw [pin] at last
          simpa using p.blockId b (by simpa [lastPinned] using last)
        | some block =>
          rw [pin] at last
          simpa [lastPinned, PinEvent.pinned?] using last
      · rw [created, List.mem_append] at mem
        rcases mem with old | new
        · exact old
        · rw [keyless request new] at key
          cases key
      · obtain ⟨emitted, -⟩ : .accepted k l ∈ events ∧ Input.message req = i := by simpa using mem
        obtain ⟨_, _, eq⟩ := updates _ emitted
        cases eq
      · obtain ⟨emitted, -⟩ : .answered k l v ∈ events ∧ Input.message req = i := by simpa using mem
        obtain ⟨_, _, eq⟩ := updates _ emitted
        cases eq
  | response request rest output events pending handler =>
    have p' : Pinning revm es { s.handler with pendingRequests := rest } :=
      ⟨p.blockId, fun k l b atBlock accepted listed request mem =>
        p.waits k l b atBlock accepted listed request (pending.mem_iff.mpr (.tail _ mem)),
        p.respected⟩
    have blockId := (onReady_frame handler).2.2
    obtain ⟨k, value, key, brought, done, rfl⟩ | ⟨-, sender, reply, -, eq, rfl⟩ :=
      onReady_cases handler
    · have kept : s'.handler.pendingRequests = rest := done.pending
      exact p.completes key (pending.mem_iff.mpr (.head _)) brought blockId done.listeners
        fun request' mem => pending.mem_iff.mpr (.tail _ (kept ▸ mem))
    · rw [eq]
      refine p'.aside (fun b last => ?_) rfl (fun _ mem _ _ => mem) (by simp [Input.pinned?])
        (by simp [Input.pinned?])
      exact p.blockId b (by simpa [Input.pinned?, lastPinned, PinEvent.pinned?] using last)
  | malformed request rest output pending _ _ handler =>
    rw [handler]
    refine p.aside (fun b last => ?_) rfl
      (fun _ mem _ _ => pending.mem_iff.mpr (.tail _ mem)) (by simp [Input.pinned?])
      (by simp [Input.pinned?])
    exact p.blockId b (by simpa [Input.pinned?] using last)

/-- In a run in which no read joins a request for another block than the one pinned, every read of
an account or a slot that the database did not hold is answered, if with a value, by what the
provider returned for the block pinned when the read was handled. -/
theorem pin_respected {revm : Revm} {db : MemDb} {pinned : Option BlockId}
    {es : List PinEvent} {s : System}
    (run : (System.pinMachine revm).Guarded AsksPinned (System.spawn db pinned) es s) :
    PinRespected revm es := by
  have initial : Pinning revm [] (System.spawn db pinned).handler := by
    refine ⟨by simp [lastPinned], ?_, ?_⟩
    · rintro k l b - ⟨before, i, after, eq, -⟩
      simp at eq
    · intro before k l v i after eq
      simp at eq
  have invariant := run.invariant
    (P := fun es s => (System.machine revm).Run (System.spawn db pinned)
      (es.filterMap PinEvent.event?) s ∧ Pinning revm es s.handler)
    ⟨.refl, initial⟩ fun es s a s' out ⟨run, pinning⟩ asks eq => by
      refine ⟨?_, pinning_step (reachable_sound run).2.1 pinning asks eq⟩
      obtain ⟨⟨events, step⟩, rfl⟩ := Machine.observed_step.mp eq
      rw [List.filterMap_append, System.pinEvents_event? step]
      exact run.step step
  exact invariant.2.respected

def block1 : BlockId := .number (.number 1)
def block2 : BlockId := .number (.number 2)

/-- The provider's storage at two blocks. -/
def storageAt : (request : ProviderRequest) → Option request.Output
  | .storage _ _ block => some (.ok (if block = block1 then 10 else 20))
  | _ => none

theorem asksPinned_of_empty {es : List PinEvent} {s : System} {a : Action}
    (empty : s.handler.pendingRequests = []) : AsksPinned es s a := by
  intro req k l b _ _ _ _ request mem
  simp [empty] at mem

/-- The message that is taken in. -/
def Input.message? : Input → Option BackendRequest
  | .message req => some req
  | .nothing | .response _ _ => none

theorem asksPinned_of_noMessage {es : List PinEvent} {s : System} {a : Action}
    (none : (s.input a).message? = none) : AsksPinned es s a := by
  intro req k l b input
  simp [input, Input.message?] at none

/-- A slot is read after block 2 was pinned, and the provider answers. -/
def fetchAfterPin : List Action :=
  [Action.call (.setPinnedBlock block2), .call (.storage 1 2)] ++
    List.replicate 11 (Action.poll storageAt)

theorem pin_respected_fetch : ∃ es s,
    (System.pinMachine .unhashed).exec fetchAfterPin (System.spawn {} (some block1)) =
      some (s, es) ∧
    (es.filterMap PinEvent.event?).getLast? =
      some (.answered (.storage 1 2) 1 (.ok (.slot 20))) ∧
    PinRespected .unhashed es := by
  have answered : ((System.pinMachine .unhashed).exec fetchAfterPin
      (System.spawn {} (some block1))).map
        (fun (_, es) => (es.filterMap PinEvent.event?).getLast?) =
      some (some (.answered (.storage 1 2) 1 (.ok (.slot 20)))) := by
    decide +kernel
  obtain ⟨⟨s, es⟩, eq, last⟩ := Option.map_eq_some_iff.mp answered
  have allowed : (System.pinMachine .unhashed).Allowed AsksPinned fetchAfterPin []
      (System.spawn {} (some block1)) := by
    exact ⟨asksPinned_of_empty rfl, asksPinned_of_empty rfl, asksPinned_of_empty rfl,
      asksPinned_of_empty rfl, asksPinned_of_empty rfl, asksPinned_of_empty rfl,
      asksPinned_of_empty rfl, asksPinned_of_empty rfl, asksPinned_of_empty rfl,
      asksPinned_of_empty rfl, asksPinned_of_noMessage rfl, asksPinned_of_noMessage rfl,
      asksPinned_of_noMessage rfl, trivial⟩
  exact ⟨es, s, eq, last, pin_respected (Machine.guarded_of_exec _ eq allowed)⟩

/-- The request whose response an input is. -/
def Input.request? : Input → Option ProviderRequest
  | .response request _ => some request
  | .nothing | .message _ => none

/-- The pin, the event and the request of a record. -/
def PinEvent.parts : PinEvent → Option BlockId × Option Event × Option ProviderRequest
  | .pinned block => (some block, none, none)
  | .emitted event i => (none, some event, i.request?)

theorem PinEvent.eq_of_parts {e : PinEvent} {event : Event} {block : Option BlockId}
    {request : Option ProviderRequest} (eq : e.parts = (block, some event, request)) :
    ∃ i, e = .emitted event i ∧ i.request? = request := by
  cases e with
  | pinned => simp [parts] at eq
  | emitted event' i =>
    obtain ⟨-, rfl, rfl⟩ := by simpa [parts] using eq
    exact ⟨i, rfl, rfl⟩

/-- A slot is read at block 1, block 2 is pinned while the fetch is in flight, and the slot is
read again. -/
def pinDuringFetch : List Action :=
  [Action.call (.storage 1 2)] ++ List.replicate 6 (Action.poll fun _ => none) ++
    [Action.call (.setPinnedBlock block2), .call (.storage 1 2)] ++
    List.replicate 9 (Action.poll fun _ => none) ++ List.replicate 3 (Action.poll storageAt)

/-- The second reader joins the request for block 1. -/
theorem pin_not_respected : ∃ es s,
    (System.pinMachine .unhashed).Run (System.spawn {} (some block1)) es s ∧
      ¬ PinRespected .unhashed es := by
  have joined : ((System.pinMachine .unhashed).exec pinDuringFetch
      (System.spawn {} (some block1))).map (fun (_, es) => es.map PinEvent.parts) = some
        [(none, some (.accepted (.storage 1 2) 0), none),
          (some block2, none, none),
          (none, some (.accepted (.storage 1 2) 2), none),
          (none, some (.completed (.storage 1 2)), some (.storage 1 2 block1)),
          (none, some (.answered (.storage 1 2) 0 (.ok (.slot 10))), some (.storage 1 2 block1)),
          (none, some (.answered (.storage 1 2) 2 (.ok (.slot 10))), some (.storage 1 2 block1))] :=
      by
    decide +kernel
  obtain ⟨⟨s, es⟩, eq, parts⟩ := Option.map_eq_some_iff.mp joined
  refine ⟨es, s, Machine.run_of_exec _ eq, fun respected => ?_⟩
  simp only [List.map_eq_cons_iff, List.map_eq_nil_iff] at parts
  obtain ⟨e₀, _, rfl, h₀, e₁, _, rfl, h₁, e₂, _, rfl, h₂, e₃, _, rfl, h₃, e₄, _, rfl, h₄,
    e₅, _, rfl, h₅, rfl⟩ := parts
  obtain ⟨i₀, rfl, -⟩ := PinEvent.eq_of_parts h₀
  obtain ⟨i₂, rfl, -⟩ := PinEvent.eq_of_parts h₂
  obtain ⟨i₅, rfl, source⟩ := PinEvent.eq_of_parts h₅
  have pinned : lastPinned [.emitted (.accepted (.storage 1 2) 0) i₀, e₁] = some block2 := by
    cases e₁ with
    | pinned block =>
      obtain rfl : block = block2 := by simpa [PinEvent.parts] using h₁
      rfl
    | emitted => simp [PinEvent.parts] at h₁
  obtain ⟨request, output, rfl, -, block, -⟩ := respected [_, e₁, _, e₃, e₄]
    (.storage 1 2) 2 (.slot 10) i₅ [] rfl block2 trivial ⟨_, i₂, [e₃, e₄], rfl, pinned⟩
  obtain rfl : request = .storage 1 2 block1 := by simpa [Input.request?] using source
  simp [ProviderRequest.block?, block1, block2] at block

end FoundryCore.ForkDb
