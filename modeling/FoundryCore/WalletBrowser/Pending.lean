import FoundryCore.WalletBrowser.Server

/-!
# Requests and the calls that wait for them

A pending request belongs to exactly one call, which polls the queue the request is in, and it
has no response yet. Whatever is posted or answered concerns a call that has put its request
into that queue.
-/

open Std

namespace FoundryCore.WalletBrowser

open Library

variable {N : Type} {scheme : KeyAuthorizationScheme}

/-- The request a call still works on. -/
def Caller.request? : Caller N → Option (Request N)
  | connected request | polling request | missed request => some request
  | returned => none

namespace System

variable {s s' : System N} {a : Action N} {out : List (Event N)} {id : Uuid} {op : Operation}

/-- The call that made `request` is in its loop. -/
def Waiting (s : System N) (request : Request N) : Prop :=
  s.callers request.id = some (.polling request) ∨ s.callers request.id = some (.missed request)

/-- The call for `id` has put its request into the queue of `op`, or it is over. -/
def Asked (s : System N) (op : Operation) (id : Uuid) : Prop :=
  (∃ request, request.id = id ∧ request.operation = op ∧ s.Waiting request) ∨
    s.callers id = some .returned

/-- What holds between calls, handlers and queues. -/
structure Sound (s : System N) : Prop where
  own : ∀ id caller request, s.callers id = some caller → caller.request? = some request →
    request.id = id
  pending : ∀ op, ∀ request ∈ (s.queue op).requests, request.operation = op ∧ s.Waiting request
  notAnswered : ∀ op, ∀ request ∈ (s.queue op).requests, (s.queue op).responses[request.id]? = none
  distinct : ∀ op, ((s.queue op).requests.map HasId.id).Nodup
  answered : ∀ op id response, (s.queue op).responses[id]? = some response → s.Asked op id
  checked : ∀ n op body, s.posts n = some (.checked op body) → s.Asked op body.id

@[simp] theorem setCaller_callers {caller : Caller N} :
    (s.setCaller id caller).callers = Function.update s.callers id (some caller) := rfl

@[simp] theorem setCaller_queue {caller : Caller N} : (s.setCaller id caller).queue = s.queue :=
  rfl

@[simp] theorem setQueue_callers {q : RequestQueue (Request N) Response} :
    (s.setQueue op q).callers = s.callers := rfl

@[simp] theorem setQueue_queue {q : RequestQueue (Request N) Response} :
    (s.setQueue op q).queue = Function.update s.queue op q := rfl

@[simp] theorem setCaller_posts {caller : Caller N} : (s.setCaller id caller).posts = s.posts :=
  rfl

@[simp] theorem setQueue_posts {q : RequestQueue (Request N) Response} :
    (s.setQueue op q).posts = s.posts := rfl

/-! ## Calls -/

theorem Asked.started (asked : s.Asked op id) :
    s.callers id ≠ none ∧ ∀ request, s.callers id ≠ some (.connected request) := by
  rcases asked with ⟨request, rfl, -, caller | caller⟩ | caller <;> simp [caller]

/-- A call that is in its loop waits for the request that its id belongs to. -/
theorem Waiting.unique {request : Request N} (waiting : s.Waiting request)
    (request' : Request N) (caller : s.callers request.id = some (.polling request') ∨
      s.callers request.id = some (.missed request')) : request = request' := by
  rcases waiting with h | h <;> rcases caller with h' | h' <;> simp_all

theorem Waiting.congr {request : Request N} (waiting : s.Waiting request)
    (same : s'.callers request.id = s.callers request.id) : s'.Waiting request := by
  simpa [Waiting, same] using waiting

theorem Asked.congr (asked : s.Asked op id) (same : s'.callers id = s.callers id) :
    s'.Asked op id := by
  rcases asked with ⟨request, rfl, operation, waiting⟩ | ended
  · exact Or.inl ⟨request, rfl, operation, waiting.congr same⟩
  · exact Or.inr (same.trans ended)

end System

namespace Effect

variable {s s' : System N} {a : Action N} {out : List (Event N)} {id : Uuid} {op : Operation}

theorem own (effect : Effect scheme s a s' out) (sound : s.Sound) :
    ∀ id caller request, s'.callers id = some caller → caller.request? = some request →
      request.id = id := by
  have same := sound.own
  cases effect with
  | refused | admitted | enqueued | found | missed | slept | timedOut =>
    intro id caller request found works
    simp only [System.setCaller_callers, System.setQueue_callers, Function.update_apply] at found
    split_ifs at found with here
    · subst here
      cases found
      grind [Caller.request?]
    · exact same id caller request found works
  | checked | rejected | stored | connected | disconnected | drained => exact same

/-- Calls that wait go on waiting, or they return. -/
theorem asked (effect : Effect scheme s a s' out) (asked : s.Asked op id) :
    s'.Asked op id := by
  cases effect with
  | checked | rejected | stored | connected | disconnected | drained => exact asked
  | @refused request _ fresh | @admitted request fresh =>
    have other : id ≠ request.id := by
      rintro rfl
      exact asked.started.1 fresh
    exact asked.congr (by simp [other])
  | @enqueued id' _ caller =>
    have other : id ≠ id' := by
      rintro rfl
      exact asked.started.2 _ caller
    exact asked.congr (by simp [other])
  | @found id' | @timedOut id' =>
    by_cases same : id = id'
    · exact Or.inr (by simp [same])
    · exact asked.congr (by simp [same])
  | @missed id' request' caller | @slept id' request' caller =>
    by_cases same : id = id'
    · subst same
      rcases asked with ⟨request, rfl, operation, waiting⟩ | ended
      · obtain rfl := waiting.unique request' (by simp [caller])
        exact Or.inl ⟨request, rfl, operation, by simp [System.Waiting]⟩
      · simp [caller] at ended
    · exact asked.congr (by simp [same])

/-! ## Queues -/

/-- A request is pending after a step because it was before, or because the step adds it. -/
theorem mem_requests {request : Request N} (effect : Effect scheme s a s' out)
    (mem : request ∈ (s'.queue op).requests) :
    request ∈ (s.queue op).requests ∨ ∃ id, a = .enqueue id ∧
      s.callers id = some (.connected request) ∧ request.operation = op := by
  cases effect with
  | checked | rejected | connected | disconnected | refused | admitted | slept => exact Or.inl mem
  | @enqueued id request' caller =>
    by_cases same : op = request'.operation
    · subst same
      obtain before | rfl : request ∈ (s.queue request'.operation).requests ∨ request = request' :=
        by simpa [RequestQueue.addRequest] using mem
      · exact Or.inl before
      · exact Or.inr ⟨id, rfl, caller, rfl⟩
    · exact Or.inl (by simpa [same] using mem)
  | @found _ request' | @missed _ request' =>
    by_cases same : op = request'.operation
    · subst same
      exact Or.inl (by simpa [RequestQueue.getResponse] using mem)
    · exact Or.inl (by simpa [same] using mem)
  | @timedOut _ request' =>
    by_cases same : op = request'.operation
    · subst same
      exact Or.inl (List.mem_of_mem_eraseP (by
        simpa [RequestQueue.removeRequest_requests] using mem))
    · exact Or.inl (by simpa [same] using mem)
  | @stored _ op' =>
    by_cases same : op = op'
    · subst same
      exact Or.inl (List.mem_of_mem_eraseP (by simpa using mem))
    · exact Or.inl (by simpa [same] using mem)
  | @drained _ op' =>
    by_cases same : op = op'
    · subst same
      simp at mem
    · exact Or.inl (by simpa [same] using mem)

/-- A pending request stays with its call. -/
theorem pending (effect : Effect scheme s a s' out) (sound : s.Sound) :
    ∀ op, ∀ request ∈ (s'.queue op).requests, request.operation = op ∧ s'.Waiting request := by
  intro op request mem
  obtain before | ⟨id, rfl, caller, operation⟩ := effect.mem_requests mem
  · obtain ⟨operation, waiting⟩ := sound.pending op request before
    refine ⟨operation, ?_⟩
    cases effect with
    | checked | rejected | stored | connected | disconnected | drained => exact waiting
    | @refused request' _ fresh | @admitted request' fresh =>
      have other : request.id ≠ request'.id :=
        fun same => by simp [System.Waiting, same, fresh] at waiting
      exact waiting.congr (by simp [other])
    | @enqueued id _ caller =>
      have other : request.id ≠ id := fun same => by simp [System.Waiting, same, caller] at waiting
      exact waiting.congr (by simp [other])
    | @found id _ _ caller here =>
      -- the response for `id` would answer a request that is still open
      have other : request.id ≠ id := by
        rintro rfl
        obtain rfl := waiting.unique _ (Or.inl caller)
        simp [operation, sound.notAnswered op request before] at here
      exact waiting.congr (by simp [other])
    | @missed id request' caller | @slept id request' caller =>
      by_cases same : request.id = id
      · subst same
        obtain rfl := waiting.unique request' (by simp [caller])
        simp [System.Waiting]
      · exact waiting.congr (by simp [same])
    | @timedOut id _ caller =>
      have other : request.id ≠ id := by
        rintro rfl
        obtain rfl := waiting.unique _ (Or.inr caller)
        subst operation
        rw [System.setCaller_queue, System.setQueue_queue, Function.update_self,
          RequestQueue.removeRequest_requests] at mem
        exact ((RequestQueue.mem_eraseP (sound.distinct _)).mp mem).2 rfl
      exact waiting.congr (by simp [other])
  · have mine : request.id = id := sound.own id _ _ caller rfl
    cases effect with
    | enqueued caller' =>
      obtain rfl : request = _ := by simpa [caller] using caller'
      exact ⟨operation, by simp [System.Waiting, mine]⟩

/-- Each queue still holds every id once. -/
theorem distinct (effect : Effect scheme s a s' out) (sound : s.Sound) (op : Operation) :
    ((s'.queue op).requests.map HasId.id).Nodup := by
  have kept := sound.distinct
  cases effect with
  | checked | rejected | connected | disconnected | refused | admitted | slept => exact kept op
  | @enqueued id request caller =>
    by_cases same : op = request.operation
    · subst same
      have fresh : ∀ other ∈ (s.queue request.operation).requests, other.id ≠ request.id := by
        intro other mem same
        have waiting := (sound.pending _ other mem).2
        simp [System.Waiting, same, sound.own id _ _ caller rfl, caller] at waiting
      simpa [RequestQueue.addRequest, List.nodup_append, HasId.id] using ⟨kept _, fresh⟩
    · simpa [same] using kept op
  | @found _ request | @missed _ request =>
    by_cases same : op = request.operation
    · subst same
      simpa [RequestQueue.getResponse] using kept request.operation
    · simpa [same] using kept op
  | @timedOut _ request =>
    by_cases same : op = request.operation
    · subst same
      simpa [RequestQueue.removeRequest_requests] using
        RequestQueue.nodup_eraseP (kept request.operation)
    · simpa [same] using kept op
  | @stored _ op' =>
    by_cases same : op = op'
    · subst same
      simpa using RequestQueue.nodup_eraseP (kept op)
    · simpa [same] using kept op
  | @drained _ op' =>
    by_cases same : op = op'
    · subst same
      simp
    · simpa [same] using kept op

/-- A response is there after a step because it was before, because it is stored, or because a
disconnect makes it up. -/
theorem mem_responses {response : Response} (effect : Effect scheme s a s' out)
    (found : (s'.queue op).responses[id]? = some response) :
    (s.queue op).responses[id]? = some response ∨
      (∃ n, a = .store n ∧ s.posts n = some (.checked op response) ∧ response.id = id) ∨
      ∃ request ∈ (s.queue op).requests, request.id = id ∧ (s'.queue op).requests = [] := by
  cases effect with
  | checked | rejected | connected | disconnected | refused | admitted | slept =>
    exact Or.inl found
  | @enqueued _ request =>
    by_cases same : op = request.operation
    · subst same
      exact Or.inl (by simpa [RequestQueue.addRequest] using found)
    · exact Or.inl (by simpa [same] using found)
  | @found id' request | @missed id' request =>
    by_cases same : op = request.operation
    · subst same
      simp only [System.setCaller_queue, System.setQueue_queue, Function.update_self,
        RequestQueue.getResponse_responses] at found
      exact Or.inl (Option.ite_none_left_eq_some.mp found).2
    · exact Or.inl (by simpa [same] using found)
  | @timedOut _ request =>
    by_cases same : op = request.operation
    · subst same
      exact Or.inl (by simpa using found)
    · exact Or.inl (by simpa [same] using found)
  | @stored n op' body post =>
    by_cases same : op = op'
    · subst same
      simp only [System.setQueue_queue, Function.update_self,
        RequestQueue.answer_responses] at found
      split_ifs at found with this
      · obtain rfl := Option.some.inj found
        exact Or.inr (Or.inl ⟨n, rfl, post, this.symm⟩)
      · exact Or.inl found
    · exact Or.inl (by simpa [same] using found)
  | @drained _ op' =>
    by_cases same : op = op'
    · subst same
      simp only [System.setQueue_queue, Function.update_self,
        RequestQueue.failPending_responses] at found
      split_ifs at found with drained
      · obtain ⟨request, mem, this⟩ := List.mem_map.mp drained
        exact Or.inr (Or.inr ⟨request, mem, this, by simp⟩)
      · exact Or.inl found
    · exact Or.inl (by simpa [same] using found)

end Effect

namespace System

variable {s s' : System N} {a : Action N} {es out : List (Event N)}

/-- Every step of every task keeps the invariant. -/
theorem Sound.step (sound : s.Sound) (effect : Effect scheme s a s' out) : s'.Sound where
  own := effect.own sound
  pending := effect.pending sound
  distinct := effect.distinct sound
  notAnswered := by
    intro op request mem
    by_contra answered
    obtain ⟨response, found⟩ := Option.ne_none_iff_exists'.mp answered
    obtain before | ⟨n, rfl, post, same⟩ | ⟨_, -, -, empty⟩ := effect.mem_responses found
    · obtain pending | ⟨id, -, caller, -⟩ := effect.mem_requests mem
      · simp [sound.notAnswered op request pending] at before
      · exact (sound.answered _ _ _ before).started.2 request
          ((sound.own id _ _ caller rfl) ▸ caller)
    · cases effect with
      | @stored _ op' body post' =>
        obtain ⟨rfl, rfl⟩ : op' = op ∧ body = response := by simpa [post] using post'.symm
        rw [setQueue_queue, Function.update_self, RequestQueue.answer_requests] at mem
        exact ((RequestQueue.mem_eraseP (sound.distinct _)).mp mem).2 same.symm
    · simp [empty] at mem
  answered := by
    intro op id response found
    obtain before | ⟨n, rfl, post, rfl⟩ | ⟨request, mem, rfl, -⟩ := effect.mem_responses found
    · exact effect.asked (sound.answered op id response before)
    · exact effect.asked (sound.checked n op response post)
    · obtain ⟨operation, waiting⟩ := sound.pending op request mem
      exact effect.asked (Or.inl ⟨request, rfl, operation, waiting⟩)
  checked := by
    intro n op body post
    have kept := fun before => effect.asked (sound.checked n op body before)
    cases effect with
    | connected | disconnected | drained | refused | admitted | enqueued | found | missed | slept
    | timedOut => exact kept post
    | @checked n' op' body' fresh pending =>
      by_cases same : n = n'
      · subst same
        obtain ⟨rfl, rfl⟩ : op' = op ∧ body' = body := by simpa using post
        obtain ⟨request, mem, this⟩ := RequestQueue.hasRequest_iff.mp pending
        obtain ⟨operation, waiting⟩ := sound.pending op' request mem
        exact Or.inl ⟨request, this, operation, waiting⟩
      · exact kept (by simpa [same] using post)
    | @rejected n' | @stored n' =>
      by_cases same : n = n'
      · subst same
        simp at post
      · exact kept (by simpa [same] using post)

theorem sound_new : (BrowserWalletState.new : System N).Sound where
  own := by simp [BrowserWalletState.new]
  pending := by simp [BrowserWalletState.new]
  notAnswered := by simp [BrowserWalletState.new]
  distinct := by simp [BrowserWalletState.new]
  answered := by simp [BrowserWalletState.new]
  checked := by simp [BrowserWalletState.new]

/-- The invariant holds in every state that some interleaving reaches. -/
theorem sound_of_run (run : (machine scheme).Run BrowserWalletState.new es s) : s.Sound :=
  Machine.Run.invariant (P := fun _ s => s.Sound) sound_new
    (fun _ _ _ _ _ sound step => sound.step (.of_step step)) run

end System

end FoundryCore.WalletBrowser
