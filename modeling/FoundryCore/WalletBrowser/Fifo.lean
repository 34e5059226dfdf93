import FoundryCore.WalletBrowser.Pending

/-!
# The order in which the browser sees requests

The browser is shown the first pending request of a kind. That is the earliest of those that were
enqueued and are not settled: none of them has an accepted response, was failed by a disconnect or
gave up. So requests are neither reordered nor shown again, and none is dropped in silence.
-/

open Std

namespace FoundryCore.WalletBrowser

open Library

variable {N : Type} {scheme : KeyAuthorizationScheme}

/-- The requests of a kind in the order in which they were enqueued. -/
def Event.enqueues? (op : Operation) : Event N → Option (Request N)
  | .enqueued request => if request.operation = op then some request else none
  | .returned _ _ | .accepted _ _ | .connected | .disconnected _ | .failed _ _ _ => none

def enqueuedOf (op : Operation) (es : List (Event N)) : List (Request N) :=
  es.filterMap (Event.enqueues? op)

/-- The request with the id is off the queue of its kind: a response was accepted, a disconnect
failed it, or its call gave up. -/
def Event.settles (op : Operation) (id : Uuid) : Event N → Bool
  | .accepted op' body => op' = op ∧ body.id = id
  | .failed _ op' id' => op' = op ∧ id' = id
  | .returned request (.error (.timeout _)) => request.operation = op ∧ request.id = id
  | .returned _ _ | .enqueued _ | .connected | .disconnected _ => false

def settled (op : Operation) (es : List (Event N)) (id : Uuid) : Bool :=
  es.any (Event.settles op id)

theorem enqueuedOf_append (op : Operation) (es out : List (Event N)) :
    enqueuedOf op (es ++ out) = enqueuedOf op es ++ enqueuedOf op out :=
  List.filterMap_append

theorem settled_append (op : Operation) (es out : List (Event N)) (id : Uuid) :
    settled op (es ++ out) id = (settled op es id || settled op out id) :=
  List.any_append

theorem enqueuedOf_singleton (op : Operation) (e : Event N) :
    enqueuedOf op [e] = (e.enqueues? op).toList := by
  rw [enqueuedOf, List.filterMap_cons]
  split <;> simp_all

theorem settled_singleton (op : Operation) (e : Event N) (id : Uuid) :
    settled op [e] id = e.settles op id := by
  rw [settled, List.any_cons, List.any_nil, Bool.or_false]

theorem enqueuedOf_failed (op op' : Operation) (n : ℕ) (requests : List (Request N)) :
    enqueuedOf op (requests.map fun r => (.failed n op' r.id : Event N)) = [] := by
  refine List.filterMap_eq_nil_iff.mpr fun e mem => ?_
  obtain ⟨r, -, rfl⟩ := List.mem_map.mp mem
  rfl

theorem settled_failed (op op' : Operation) (n : ℕ) (requests : List (Request N)) (id : Uuid) :
    settled op (requests.map fun r => (.failed n op' r.id : Event N)) id = true ↔
      op' = op ∧ ∃ r ∈ requests, r.id = id := by
  simp only [settled, List.any_map, List.any_eq_true, Function.comp_apply, Event.settles,
    decide_eq_true_eq]
  constructor
  · rintro ⟨r, mem, same, rfl⟩
    exact ⟨same, r, mem, rfl⟩
  · rintro ⟨same, r, mem, rfl⟩
    exact ⟨r, mem, same, rfl⟩

/-- Removing an id that occurs at most once. -/
theorem eraseP_eq_filter {requests : List (Request N)} {id : Uuid}
    (distinct : (requests.map HasId.id).Nodup) :
    requests.eraseP (fun r => HasId.id r == id) = requests.filter fun r => !decide (id = r.id) := by
  induction requests with
  | nil => rfl
  | cons r rest ih =>
    obtain ⟨fresh, distinct⟩ := List.nodup_cons.mp distinct
    by_cases same : r.id = id
    · subst same
      have all : ∀ r' ∈ rest, (!decide (r.id = r'.id)) = true := by
        intro r' mem
        have other : r.id ≠ r'.id := by
          intro same
          exact fresh (List.mem_map.mpr ⟨r', mem, same.symm⟩)
        simpa using other
      rw [List.eraseP_cons_of_pos (by simp [HasId.id]), List.filter_cons_of_neg (by simp),
        List.filter_eq_self.mpr all]
    · rw [List.eraseP_cons_of_neg (by simpa [HasId.id] using same),
        List.filter_cons_of_pos (by simpa using Ne.symm same), ih distinct]

theorem settles_returned {request : Request N} {outcome : Outcome} {op : Operation} {id : Uuid}
    (answered : ∀ operation, outcome ≠ .error (.timeout operation)) :
    Event.settles op id (.returned request outcome) = false := by
  unfold Event.settles
  split <;> simp_all

section Step

variable {s s' : System N} {a : Action N} {out : List (Event N)} {op : Operation} {id : Uuid}

/-- A call that does not get as far as its queue settles nothing. -/
theorem settled_request {request : Request N}
    (eq : (machine scheme).step s (.request request) = some (s', out)) :
    settled op out id = false := by
  simp only [machine, System.request] at eq
  split at eq
  · cases eq
  · split at eq
    · obtain ⟨-, rfl⟩ := by simpa using eq
      simp [settled, settles_returned]
    · split at eq
      · next error refused =>
        obtain ⟨-, rfl⟩ := by simpa using eq
        have answered : ∀ operation, (.error error : Outcome) ≠ .error (.timeout operation) := by
          unfold Request.refused at refused
          split at refused
          · split_ifs at refused
            simp [← Option.some.inj refused]
          · cases refused
        simp [settled, settles_returned answered]
      · obtain ⟨-, rfl⟩ := by simpa using eq
        rfl

/-- What is settled was asked for. -/
theorem settled_asked (eq : (machine scheme).step s a = some (s', out)) (sound : s.Sound)
    (settles : settled op out id = true) : s.Asked op id := by
  cases Effect.of_step eq with
  | checked | rejected | slept | missed | admitted => simp [settled] at settles
  | connected | disconnected | enqueued => simp [settled_singleton, Event.settles] at settles
  | refused => simp [settled_request eq] at settles
  | found =>
    simp [settled_singleton, settles_returned fun _ => Request.outcome_ne_timeout] at settles
  | @stored n op' body post =>
    obtain ⟨rfl, rfl⟩ : op' = op ∧ body.id = id := by
      simpa [settled_singleton, Event.settles] using settles
    exact sound.checked n op' body post
  | @timedOut id' request caller =>
    obtain ⟨rfl, rfl⟩ : request.operation = op ∧ request.id = id := by
      simpa [settled_singleton, Event.settles] using settles
    have mine := sound.own id' _ _ caller rfl
    exact .inl ⟨request, rfl, rfl, .inr (by rw [mine, caller])⟩
  | @drained n op' rest task =>
    obtain ⟨rfl, r, mem, rfl⟩ := (settled_failed ..).mp settles
    obtain ⟨operation, waiting⟩ := sound.pending op' r mem
    exact .inl ⟨r, rfl, operation, waiting⟩

/-- What a step leaves in a queue: requests that are enqueued come last, those that are settled
go. -/
theorem requests_step (eq : (machine scheme).step s a = some (s', out)) (sound : s.Sound)
    (op : Operation) : (s'.queue op).requests =
      ((s.queue op).requests ++ enqueuedOf op out).filter fun r => !settled op out r.id := by
  cases Effect.of_step eq with
  | checked | rejected | slept | admitted => simp [enqueuedOf, settled]
  | connected | disconnected =>
    simp [enqueuedOf_singleton, Event.enqueues?, settled_singleton, Event.settles]
  | refused => simp [settled_request eq, enqueuedOf_singleton, Event.enqueues?]
  | @enqueued id request caller =>
    by_cases same : op = request.operation
    · subst same
      simp [enqueuedOf_singleton, Event.enqueues?, settled_singleton, Event.settles,
        RequestQueue.addRequest]
    · simp [enqueuedOf_singleton, Event.enqueues?, settled_singleton, Event.settles, same,
        Ne.symm same]
  | @found id request response caller here =>
    have unsettled : ∀ id,
        Event.settles op id (.returned request (request.outcome scheme response)) = false :=
      fun id => settles_returned fun _ => Request.outcome_ne_timeout
    by_cases same : op = request.operation
    · subst same
      simp [enqueuedOf_singleton, Event.enqueues?, settled_singleton, unsettled,
        RequestQueue.getResponse]
    · simp [enqueuedOf_singleton, Event.enqueues?, settled_singleton, unsettled, same]
  | @missed id request caller absent =>
    by_cases same : op = request.operation
    · subst same
      simp [enqueuedOf, settled, RequestQueue.getResponse]
    · simp [enqueuedOf, settled, same]
  | @timedOut id request caller =>
    have mine := sound.own id _ _ caller rfl
    by_cases same : op = request.operation
    · subst same
      simp [enqueuedOf_singleton, Event.enqueues?, settled_singleton, Event.settles,
        RequestQueue.removeRequest_requests, eraseP_eq_filter (sound.distinct _), mine]
    · simp [enqueuedOf_singleton, Event.enqueues?, settled_singleton, Event.settles, same,
        Ne.symm same]
  | @stored n op' body post =>
    by_cases same : op = op'
    · subst same
      simp [enqueuedOf_singleton, Event.enqueues?, settled_singleton, Event.settles,
        eraseP_eq_filter (sound.distinct _)]
    · simp [enqueuedOf_singleton, Event.enqueues?, settled_singleton, Event.settles, same,
        Ne.symm same]
  | @drained n op' rest task =>
    rw [enqueuedOf_failed, List.append_nil]
    by_cases same : op = op'
    · subst same
      have all : ∀ r ∈ (s.queue op).requests, ¬ (!settled op
          ((s.queue op).requests.map fun r => (.failed n op r.id : Event N)) r.id) = true := by
        intro r mem
        simpa using (settled_failed ..).mpr ⟨rfl, r, mem, rfl⟩
      simpa using (List.filter_eq_nil_iff.mpr all).symm
    · have all : ∀ r ∈ (s.queue op).requests, (!settled op
          ((s.queue op').requests.map fun r => (.failed n op' r.id : Event N)) r.id) = true := by
        intro r mem
        have unsettled := mt (settled_failed op op' n (s.queue op').requests r.id).mp fun both =>
          same both.1.symm
        simpa using unsettled
      simp [same, List.filter_eq_self.mpr all]

/-- Only a call that has not asked enqueues its request. -/
theorem enqueuedOf_not_asked {request : Request N} (effect : Effect scheme s a s' out)
    (sound : s.Sound) (mem : request ∈ enqueuedOf op out) :
    ¬ s.Asked op request.id ∧ s'.Asked op request.id ∧ out = [.enqueued request] := by
  cases effect with
  | checked | rejected | slept | missed | admitted => simp [enqueuedOf] at mem
  | connected | disconnected | refused | found | timedOut | stored =>
    simp [enqueuedOf_singleton, Event.enqueues?] at mem
  | drained => simp [enqueuedOf_failed] at mem
  | @enqueued id request' caller =>
    obtain ⟨operation, rfl⟩ : request'.operation = op ∧ request' = request := by
      simpa [enqueuedOf_singleton, Event.enqueues?, Option.mem_toList] using mem
    have mine := sound.own id _ _ caller rfl
    refine ⟨fun asked => asked.started.2 request' (mine ▸ caller), .inl ?_, rfl⟩
    exact ⟨request', rfl, operation, .inl (by simp [mine])⟩

theorem nodup_enqueuedOf (effect : Effect scheme s a s' out) (sound : s.Sound) :
    ((enqueuedOf op out).map Request.id).Nodup := by
  cases new : enqueuedOf op out with
  | nil => exact List.nodup_nil
  | cons r rest =>
    have mem : r ∈ enqueuedOf op out := by simp [new]
    rw [(enqueuedOf_not_asked effect sound mem).2.2, enqueuedOf_singleton] at new
    cases getEq : (Event.enqueued r).enqueues? op <;> simp [getEq] at new
    simp [new.2]

end Step

/-- The queues are what the history says. -/
structure InOrder (es : List (Event N)) (s : System N) : Prop where
  sound : s.Sound
  settled : ∀ op id, settled op es id = true → s.Asked op id
  enqueued : ∀ op, ∀ r ∈ enqueuedOf op es, s.Asked op r.id
  distinct : ∀ op, ((enqueuedOf op es).map Request.id).Nodup
  requests : ∀ op, (s.queue op).requests =
    (enqueuedOf op es).filter fun r => !WalletBrowser.settled op es r.id

theorem InOrder.step {s s' : System N} {a : Action N} {es out : List (Event N)}
    (h : InOrder es s) (eq : (machine scheme).step s a = some (s', out)) :
    InOrder (es ++ out) s' := by
  have effect := Effect.of_step eq
  refine ⟨h.sound.step effect, fun op id settles => ?_, fun op r mem => ?_, fun op => ?_,
    fun op => ?_⟩
  · rw [settled_append, Bool.or_eq_true] at settles
    exact effect.asked (settles.elim (h.settled op id) (settled_asked eq h.sound))
  · rw [enqueuedOf_append, List.mem_append] at mem
    rcases mem with old | new
    · exact effect.asked (h.enqueued op r old)
    · exact (enqueuedOf_not_asked effect h.sound new).2.1
  · rw [enqueuedOf_append, List.map_append]
    refine (h.distinct op).append ?_ fun id old new => ?_
    · exact nodup_enqueuedOf effect h.sound
    · obtain ⟨r, mem, rfl⟩ := List.mem_map.mp new
      obtain ⟨r', mem', same⟩ := List.mem_map.mp old
      exact (enqueuedOf_not_asked effect h.sound mem).1 (same ▸ h.enqueued op r' mem')
  · rw [requests_step eq h.sound, h.requests, enqueuedOf_append, List.filter_append,
      List.filter_append, List.filter_filter]
    congr 1
    · simp [settled_append, Bool.and_comm]
    · refine List.filter_congr fun r mem => ?_
      have unsettled := mt (h.settled op r.id) (enqueuedOf_not_asked effect h.sound mem).1
      simp [settled_append, unsettled]

theorem inOrder_new : InOrder ([] : List (Event N)) BrowserWalletState.new where
  sound := System.sound_new
  settled := by simp [WalletBrowser.settled]
  enqueued := by simp [enqueuedOf]
  distinct := by simp [enqueuedOf]
  requests := by simp [enqueuedOf, BrowserWalletState.new]

/-- The browser is always shown the earliest request of a kind that is not settled, and each
request is enqueued once. -/
theorem readRequest_earliest {es : List (Event N)} {s : System N}
    (run : (machine scheme).Run BrowserWalletState.new es s) (op : Operation) :
    (s.queue op).readRequest = (enqueuedOf op es).find? (fun r => !settled op es r.id) ∧
      (s.queue op).requests = (enqueuedOf op es).filter (fun r => !settled op es r.id) ∧
      ((enqueuedOf op es).map Request.id).Nodup := by
  have h := run.invariant inOrder_new fun _ _ _ _ _ h eq => h.step eq
  refine ⟨?_, h.requests op, h.distinct op⟩
  rw [RequestQueue.readRequest, h.requests op, List.head?_filter]

/-- The call that began second enqueues first and is rejected. -/
theorem readRequest_earliest_overtaken : ∃ (es : List (Event Unit)) (s : System Unit),
    (machine .refusing).Run BrowserWalletState.new es s ∧
      (s.queue .transaction).readRequest = some (.transaction 1 ()) ∧
      enqueuedOf .transaction es = [.transaction 2 (), .transaction 1 ()] := by
  have run : (machine (N := Unit) .refusing).Run BrowserWalletState.new _ _ :=
    Machine.run_of_exec [.update 0 (some ⟨7, 1⟩), .request (.transaction 1 ()),
      .request (.transaction 2 ()), .enqueue 2, .enqueue 1,
      .check 0 .transaction ⟨2, none, some "denied"⟩, .store 0] rfl
  exact ⟨_, _, run, (readRequest_earliest run .transaction).1, rfl⟩

end FoundryCore.WalletBrowser
