import FoundryCore.WalletBrowser.Fifo
import FoundryCore.WalletBrowser.SingleAnswer

/-!
# What callers are told

A call that succeeds returns what was posted for its own request, after it was enqueued and in a
form that the handler of its kind lets through; a key authorization is the one that was asked for,
signed by the account it was asked of. A disconnect never passes for an answer.
-/

open Std

namespace FoundryCore.WalletBrowser

open Library

variable {N : Type} {scheme : KeyAuthorizationScheme}

/-- What a successful answer says about the result that was posted. -/
def Request.Verified (scheme : KeyAuthorizationScheme) (result : Bytes) (answer : Answer) :
    Request N → Prop
  | transaction _ _ => answer = .bytes result ∧ result.length = 32 ∧ ∃ byte ∈ result, byte ≠ 0
  | signing _ _ _ _ => answer = .bytes result
  | keyAuthorization _ rootAccount authorization _ => ∃ bytes signed,
      answer = .signed signed ∧ scheme.hexDecode (trimStartMatches0x result) = .ok bytes ∧
        scheme.decode bytes = .ok signed ∧ signed.authorization = authorization ∧
        scheme.recoverSigner signed = .ok rootAccount ∧ authorization.unsupportedFields = []

/-! ## Checks -/

theorem PostHandler.check_eq_ok {handler : PostHandler} {pending : Bool} {body : Response} :
    handler.check pending body = .ok () ↔ pending = true ∧
      ((∃ result, body.result = some result ∧ body.error = none ∧
          handler.validate result = none) ∨
        ∃ error, body.result = none ∧ body.error = some error) := by
  cases pending <;> cases result : body.result <;> cases error : body.error <;>
    simp [PostHandler.check, result, error]
  split <;> simp_all

theorem verifyKeyAuthorization_eq_ok {rootAccount : Address} {authorization : KeyAuthorization}
    {signedHex : Bytes} {answer : Answer} :
    verifyKeyAuthorization scheme rootAccount authorization signedHex = .ok answer ↔
      ∃ bytes signed, answer = .signed signed ∧
        scheme.hexDecode (trimStartMatches0x signedHex) = .ok bytes ∧
        scheme.decode bytes = .ok signed ∧ signed.authorization = authorization ∧
        scheme.recoverSigner signed = .ok rootAccount := by
  unfold verifyKeyAuthorization
  constructor
  · intro ok
    split at ok
    · cases ok
    · next bytes hex =>
      split at ok
      · cases ok
      · next signed decoded =>
        split_ifs at ok with mutated
        split at ok
        · next recovered signer =>
          split_ifs at ok with root
          subst root
          exact ⟨bytes, signed, (Except.ok.inj ok).symm, hex, decoded, not_not.mp mutated, signer⟩
        · cases ok
  · rintro ⟨bytes, signed, rfl, hex, decoded, rfl, signer⟩
    simp [hex, decoded, signer]

/-- The wallet may not change what the browser does not show either. -/
example : verifyKeyAuthorization { KeyAuthorizationScheme.refusing with
      hexDecode := .ok
      decode := fun fields => .ok ⟨⟨none, none, false, fields⟩, []⟩
      recoverSigner := fun _ => .ok 5 } 5 ⟨none, none, false, [1]⟩ [2] =
    .error (.serverError
      "wallet returned a mutated KeyAuthorization payload: signed digest  but requested ") := rfl

theorem Request.refused_keyAuthorization {id : Uuid} {rootAccount : Address}
    {authorization : KeyAuthorization} {digest : BitVec 256}
    (admitted : (keyAuthorization id rootAccount authorization digest : Request N).refused = none) :
    authorization.unsupportedFields = [] := by
  by_contra someEq
  simp [refused, someEq] at admitted

/-- A success is made from a result; the checks before and after make it a verified one. -/
theorem Request.verified_of_outcome {request : Request N} {body : Response} {answer : Answer}
    (ok : request.outcome scheme body = .ok answer) (admitted : request.refused = none)
    (checked : request.operation.post.check true body = .ok ()) :
    ∃ result, body.result = some result ∧ body.error = none ∧
      request.Verified scheme result answer := by
  obtain ⟨-, ⟨result, found, noneEq, valid⟩ | ⟨error, noneEq, found⟩⟩ :=
    PostHandler.check_eq_ok.mp checked
  · refine ⟨result, found, noneEq, ?_⟩
    rw [Request.outcome, found] at ok
    cases request with
    | transaction id request =>
      obtain rfl := Except.ok.inj ok
      have valid : (if result.all (· == 0) then some "Invalid (zero) transaction hash"
          else if result.length ≠ 32 then some "Malformed transaction hash (expected 32 bytes)"
          else none) = none := valid
      split_ifs at valid with zero short
      refine ⟨rfl, not_not.mp short, ?_⟩
      simpa using zero
    | signing id signType message address => exact (Except.ok.inj ok).symm
    | keyAuthorization id rootAccount authorization digest =>
      obtain ⟨bytes, signed, answered, hex, decoded, same, signer⟩ :=
        verifyKeyAuthorization_eq_ok.mp ok
      exact ⟨bytes, signed, answered, hex, decoded, same, signer,
        Request.refused_keyAuthorization admitted⟩
  · rw [Request.outcome, noneEq, found] at ok
    cases ok

theorem Request.outcome_disconnected {request : Request N} {id : Uuid} {answer : Answer} :
    request.outcome scheme (disconnected id) ≠ .ok answer := by
  simp [outcome, disconnected]

/-! ## Steps -/

section Step

variable {s s' : System N} {a : Action N} {out : List (Event N)} {op : Operation} {id : Uuid}

/-- A call goes on with the request it was made with, which is not refused. -/
theorem works_step {caller : Caller N} {request : Request N}
    (eq : (machine scheme).step s a = some (s', out)) (here : s'.callers id = some caller)
    (works : caller.request? = some request) :
    (∃ before, s.callers id = some before ∧ before.request? = some request) ∨
      request.refused = none := by
  cases Effect.of_step eq with
  | checked | rejected | stored | connected | disconnected | drained =>
    exact .inl ⟨caller, here, works⟩
  | refused | found | timedOut =>
    simp only [System.setCaller_callers, System.setQueue_callers, Function.update_apply] at here
    split_ifs at here
    · cases here
      cases works
    · exact .inl ⟨caller, here, works⟩
  | @enqueued id' request' caller' | @missed id' request' caller' | @slept id' request' caller' =>
    simp only [System.setCaller_callers, System.setQueue_callers, Function.update_apply] at here
    split_ifs at here with same
    · cases here
      obtain rfl := Option.some.inj works
      exact .inl ⟨_, same ▸ caller', rfl⟩
    · exact .inl ⟨caller, here, works⟩
  | @admitted request' =>
    simp only [System.setCaller_callers, Function.update_apply] at here
    split_ifs at here with same
    · cases here
      obtain rfl := Option.some.inj works
      refine .inr ?_
      simp only [machine, System.request] at eq
      split at eq
      · cases eq
      · split at eq
        · simp at eq
        · split at eq
          · simp at eq
          · assumption
    · exact .inl ⟨caller, here, works⟩

/-- A call waits once its request is enqueued. -/
theorem waiting_step {request : Request N} (effect : Effect scheme s a s' out)
    (waiting : s'.Waiting request) :
    s.Waiting request ∨ .enqueued request ∈ out := by
  cases effect with
  | checked | rejected | stored | connected | disconnected | drained => exact .inl waiting
  | @refused request' | @admitted request' | @found id' request' | @timedOut id' request' =>
    refine .inl ?_
    simp only [System.Waiting, System.setCaller_callers, System.setQueue_callers,
      Function.update_apply] at waiting
    split_ifs at waiting with same
    · simp at waiting
    · exact waiting
  | @missed id' request' caller | @slept id' request' caller =>
    refine .inl ?_
    simp only [System.Waiting, System.setCaller_callers, System.setQueue_callers,
      Function.update_apply] at waiting
    split_ifs at waiting with same
    · obtain rfl : request' = request := by simpa using waiting
      simp [System.Waiting, same, caller]
    · exact waiting
  | @enqueued id' request' caller =>
    simp only [System.Waiting, System.setCaller_callers, System.setQueue_callers,
      Function.update_apply] at waiting
    split_ifs at waiting with same
    · obtain rfl : request' = request := by simpa using waiting
      exact .inr (List.mem_singleton_self _)
    · exact .inl waiting

/-- The posts that wait to be stored have passed the checks against a pending request. -/
theorem post_step {n : ℕ} {body : Response} (eq : (machine scheme).step s a = some (s', out))
    (post : s'.posts n = some (.checked op body)) :
    s.posts n = some (.checked op body) ∨
      op.post.check true body = .ok () ∧ ∃ r ∈ (s.queue op).requests, r.id = body.id := by
  cases Effect.of_step eq with
  | connected | disconnected | drained | refused | admitted | enqueued | found | missed | slept
  | timedOut => exact .inl post
  | rejected | stored =>
    simp only [Function.update_apply] at post
    split_ifs at post
    · cases post
    · exact .inl post
  | @checked n' op' body' fresh pending =>
    simp only [Function.update_apply] at post
    split_ifs at post
    · cases post
      refine .inr ⟨?_, RequestQueue.hasRequest_iff.mp pending⟩
      simp only [machine, System.check, fresh, pending] at eq
      split at eq
      · next ok => exact ok
      · simpa using congrArg (fun s' : System N × _ => s'.1.posts n') (Option.some.inj eq)
    · exact .inl post

/-- Where a response comes from. -/
theorem response_step {response : Response} (effect : Effect scheme s a s' out)
    (found : (s'.queue op).responses[id]? = some response) :
    (s.queue op).responses[id]? = some response ∨
      .accepted op response ∈ out ∧ response.id = id ∨ response = disconnected id := by
  cases effect with
  | checked | rejected | connected | disconnected | refused | admitted | slept => exact .inl found
  | @enqueued _ request =>
    refine .inl ?_
    by_cases same : op = request.operation
    · subst same
      simpa [RequestQueue.addRequest] using found
    · simpa [same] using found
  | @found id' request | @missed id' request =>
    refine .inl ?_
    by_cases same : op = request.operation
    · subst same
      simp only [System.setCaller_queue, System.setQueue_queue, Function.update_self,
        RequestQueue.getResponse_responses] at found
      exact (Option.ite_none_left_eq_some.mp found).2
    · simpa [same] using found
  | @timedOut _ request =>
    refine .inl ?_
    by_cases same : op = request.operation
    · subst same
      simpa using found
    · simpa [same] using found
  | @stored n op' body =>
    by_cases same : op = op'
    · subst same
      simp only [System.setQueue_queue, Function.update_self,
        RequestQueue.answer_responses] at found
      split_ifs at found with this
      · obtain rfl := Option.some.inj found
        exact .inr (.inl ⟨List.mem_singleton_self _, this.symm⟩)
      · exact .inl found
    · exact .inl (by simpa [same] using found)
  | @drained _ op' =>
    by_cases same : op = op'
    · subst same
      simp only [System.setQueue_queue, Function.update_self,
        RequestQueue.failPending_responses] at found
      split_ifs at found
      · exact .inr (.inr (Option.some.inj found).symm)
      · exact .inl found
    · exact .inl (by simpa [same] using found)

end Step

/-! ## Runs -/

/-- Calls, posts and responses with what the history says about where they come from. -/
structure Provenance (es : List (Event N)) (s : System N) : Prop where
  inOrder : InOrder es s
  admitted : ∀ id caller request, s.callers id = some caller → caller.request? = some request →
    request.refused = none
  enqueued : ∀ request, s.Waiting request → .enqueued request ∈ es
  posted : ∀ n op body, s.posts n = some (.checked op body) →
    op.post.check true body = .ok () ∧ ∃ r ∈ enqueuedOf op es, r.id = body.id
  accepted : ∀ op body, .accepted op body ∈ es →
    op.post.check true body = .ok () ∧ ∃ r ∈ enqueuedOf op es, r.id = body.id
  responses : ∀ op id response, (s.queue op).responses[id]? = some response →
    .accepted op response ∈ es ∧ response.id = id ∨ response = disconnected id

theorem mem_enqueuedOf {op : Operation} {es : List (Event N)} {request : Request N} :
    request ∈ enqueuedOf op es ↔ .enqueued request ∈ es ∧ request.operation = op := by
  simp only [enqueuedOf, List.mem_filterMap]
  constructor
  · rintro ⟨e, mem, enqueues⟩
    cases e <;> simp [Event.enqueues?] at enqueues
    obtain ⟨operation, rfl⟩ := enqueues
    exact ⟨mem, operation⟩
  · rintro ⟨mem, rfl⟩
    exact ⟨_, mem, by simp [Event.enqueues?]⟩

theorem Provenance.step {s s' : System N} {a : Action N} {es out : List (Event N)}
    (h : Provenance es s) (eq : (machine scheme).step s a = some (s', out)) :
    Provenance (es ++ out) s' := by
  have effect := Effect.of_step eq
  have kept : ∀ {op id}, (∃ r ∈ enqueuedOf op es, r.id = id) →
      ∃ r ∈ enqueuedOf op (es ++ out), r.id = id := by
    rintro op id ⟨r, mem, same⟩
    exact ⟨r, by simp [enqueuedOf_append, mem], same⟩
  refine ⟨h.inOrder.step eq, fun id caller request here works => ?_, fun request waiting => ?_,
    fun n op body post => ?_, fun op body mem => ?_, fun op id response found => ?_⟩
  · obtain ⟨before, here, works⟩ | admitted := works_step eq here works
    · exact h.admitted id before request here works
    · exact admitted
  · obtain before | new := waiting_step effect waiting
    · exact List.mem_append_left _ (h.enqueued request before)
    · exact List.mem_append_right _ new
  · obtain before | ⟨ok, r, mem, same⟩ := post_step eq post
    · exact ⟨(h.posted n op body before).1, kept (h.posted n op body before).2⟩
    · rw [h.inOrder.requests] at mem
      exact ⟨ok, kept ⟨r, List.mem_of_mem_filter mem, same⟩⟩
  · obtain old | new := List.mem_append.mp mem
    · exact ⟨(h.accepted op body old).1, kept (h.accepted op body old).2⟩
    · obtain ⟨⟨n, -, post, -⟩, -⟩ := effect.accepted new
      exact ⟨(h.posted n op body post).1, kept (h.posted n op body post).2⟩
  · obtain before | ⟨new, same⟩ | made_up := response_step effect found
    · obtain ⟨old, same⟩ | made_up := h.responses op id response before
      · exact .inl ⟨List.mem_append_left _ old, same⟩
      · exact .inr made_up
    · exact .inl ⟨List.mem_append_right _ new, same⟩
    · exact .inr made_up

theorem provenance_new : Provenance ([] : List (Event N)) BrowserWalletState.new where
  inOrder := inOrder_new
  admitted := by simp [BrowserWalletState.new]
  enqueued := by simp [BrowserWalletState.new, System.Waiting]
  posted := by simp [BrowserWalletState.new]
  accepted := by simp
  responses := by simp [BrowserWalletState.new]

/-- What the history knows of an event when it happens. -/
def Known (scheme : KeyAuthorizationScheme) (es : List (Event N)) : Event N → Prop
  | .returned request (.ok answer) => ∃ body result, .accepted request.operation body ∈ es ∧
      .enqueued request ∈ es ∧ body.id = request.id ∧ body.result = some result ∧
        body.error = none ∧ request.Verified scheme result answer
  | .accepted op body => ∃ r ∈ enqueuedOf op es, r.id = body.id
  | _ => True

theorem Known.append {es out : List (Event N)} {e : Event N} (known : Known scheme es e) :
    Known scheme (es ++ out) e := by
  unfold Known at known ⊢
  split
  · obtain ⟨body, result, accepted, enqueued, rest⟩ := known
    exact ⟨body, result, List.mem_append_left _ accepted, List.mem_append_left _ enqueued, rest⟩
  · obtain ⟨r, mem, same⟩ := known
    exact ⟨r, by simp [enqueuedOf_append, mem], same⟩
  · trivial

theorem Provenance.known {s s' : System N} {a : Action N} {es out : List (Event N)}
    (h : Provenance es s) (eq : (machine scheme).step s a = some (s', out)) (e : Event N)
    (mem : e ∈ out) : Known scheme es e := by
  cases Effect.of_step eq with
  | checked | rejected | slept | missed | admitted => simp at mem
  | connected | disconnected | enqueued | refused | timedOut =>
    obtain rfl := List.mem_singleton.mp mem
    trivial
  | drained =>
    obtain ⟨r, -, rfl⟩ := List.mem_map.mp mem
    trivial
  | @stored n op body post =>
    obtain rfl := List.mem_singleton.mp mem
    exact (h.posted n op body post).2
  | @found id request response caller here =>
    obtain rfl := List.mem_singleton.mp mem
    have mine := h.inOrder.sound.own id _ _ caller rfl
    cases outcome : request.outcome scheme response with
    | error => trivial
    | ok answer =>
      obtain ⟨accepted, same⟩ | rfl := h.responses _ id response here
      · obtain ⟨result, found, noneEq, verified⟩ := Request.verified_of_outcome outcome
          (h.admitted id _ request caller rfl) (h.accepted _ response accepted).1
        have enqueued := h.enqueued request (.inl (mine ▸ caller))
        exact ⟨response, result, accepted, enqueued, same.trans mine.symm, found, noneEq, verified⟩
      · exact absurd outcome Request.outcome_disconnected

/-- A call that succeeds returns what was posted for its request after it was enqueued: a hash
that is one, a signature, or the key authorization it asked for, signed by the root account. -/
theorem returned_verified {es before after : List (Event N)} {s : System N} {request : Request N}
    {answer : Answer} (run : (machine scheme).Run BrowserWalletState.new es s)
    (eq : es = before ++ .returned request (.ok answer) :: after) :
    ∃ earlier body later result, before = earlier ++ .accepted request.operation body :: later ∧
      .enqueued request ∈ earlier ∧ body.id = request.id ∧ body.result = some result ∧
      body.error = none ∧ request.Verified scheme result answer := by
  have known : ∀ {e before after}, es = before ++ e :: after → Known scheme before e :=
    run.before provenance_new (fun _ _ _ _ _ h eq => h.step eq) (fun _ _ _ _ _ h => h.known)
      fun _ _ _ known => known.append
  have once : ((enqueuedOf request.operation es).map Request.id).Nodup :=
    (run.invariant provenance_new fun _ _ _ _ _ h eq => h.step eq).inOrder.distinct _
  obtain ⟨body, result, accepted, enqueued, same, rest⟩ := known eq
  have asked : .enqueued request ∈ es := eq ▸ List.mem_append_left _ enqueued
  obtain ⟨earlier, later, rfl⟩ := List.append_of_mem accepted
  have stored : es = earlier ++ .accepted request.operation body ::
      (later ++ .returned request (.ok answer) :: after) := by simp [eq]
  obtain ⟨r, mem, same'⟩ := known stored
  -- ids are not used twice, so the request that was pending for the post is this one
  have mine : r = request := by
    refine List.inj_on_of_nodup_map once ?_ ?_ (same'.trans same)
    · simp [eq, enqueuedOf_append, mem]
    · exact mem_enqueuedOf.mpr ⟨asked, rfl⟩
  exact ⟨earlier, body, later, result, rfl, mine ▸ (mem_enqueuedOf.mp mem).1, same, rest⟩

/-- A disconnect comes between the check of the hash and its store. -/
theorem returned_verified_disconnected : ∃ (es before : List (Event Unit)) (s : System Unit),
    (machine .refusing).Run BrowserWalletState.new es s ∧
      es = before ++ [.returned (.transaction 1 ()) (.ok (.bytes (List.replicate 32 7)))] ∧
      .failed 1 .transaction 1 ∈ before ∧
      ∃ result, (.transaction 1 () : Request Unit).Verified .refusing result
        (.bytes (List.replicate 32 7)) := by
  have run : (machine (N := Unit) .refusing).Run BrowserWalletState.new
      ([.connected, .enqueued (.transaction 1 ()), .disconnected 1, .failed 1 .transaction 1,
        .accepted .transaction ⟨1, some (List.replicate 32 7), none⟩] ++
        [.returned (.transaction 1 ()) (.ok (.bytes (List.replicate 32 7)))]) _ :=
    Machine.run_of_exec [.update 0 (some ⟨7, 1⟩), .request (.transaction 1 ()), .enqueue 1,
      .check 0 .transaction ⟨1, some (List.replicate 32 7), none⟩, .update 1 none, .drain 1,
      .store 0, .poll 1] rfl
  obtain ⟨-, -, -, result, -, -, -, -, -, verified⟩ := returned_verified run rfl
  exact ⟨_, _, _, run, rfl, by simp, result, verified⟩

end FoundryCore.WalletBrowser
