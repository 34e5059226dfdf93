import FoundryCore.WalletBrowser.Pending

/-!
# One answer for each request

A posted response is checked under one lock and stored under another. If the request has been
answered or given up in between, the server still accepts the response. Where no post and no
deadline overtakes another in this way, a request has at most one accepted response, and that
response is what its call returns.
-/

open Std

namespace FoundryCore.WalletBrowser

open Library

variable {N : Type} {scheme : KeyAuthorizationScheme}

/-- The event that a response to `id` is accepted. -/
def Event.accepts (id : Uuid) : Event N → Bool
  | accepted _ body => body.id == id
  | _ => false

/-- Each request has at most one accepted response, which waits in the queue for the call of the
request, or was there in time to be what the call returned. -/
structure SingleAnswer (scheme : KeyAuthorizationScheme) (es : List (Event N)) (s : System N) :
    Prop where
  once : ∀ id, es.countP (Event.accepts id) ≤ 1
  kept : ∀ op body, .accepted op body ∈ es →
    (∀ request outcome, .returned request outcome ∈ es → request.id ≠ body.id) →
    (s.queue op).responses[body.id]? = some body
  delivered : ∀ op body request outcome, .accepted op body ∈ es →
    .returned request outcome ∈ es → request.id = body.id →
    outcome = request.outcome scheme body ∧ Open (.accepted op body) (.returned request outcome) es

/-- No response to `id` has been accepted. -/
def Unanswered (es : List (Event N)) (id : Uuid) : Prop :=
  ∀ op body, .accepted op body ∈ es → body.id ≠ id

/-- A response is stored only while the call of its request goes on without an answer, and a
call gives up only while its request has no answer. -/
def InTime (es : List (Event N)) (s : System N) : Action N → Prop
  | .store n => ∀ op body, s.posts n = some (.checked op body) →
      Unanswered es body.id ∧ s.callers body.id ≠ some .returned
  | .timeOut id => Unanswered es id
  | _ => True

/-! ## Steps -/

namespace Effect

variable {s s' : System N} {a : Action N} {out : List (Event N)} {id : Uuid} {op : Operation}
  {body response : Response}

/-- Calls are over once they have returned. -/
theorem returned_iff (effect : Effect scheme s a s' out) (sound : s.Sound) :
    s'.callers id = some .returned ↔ s.callers id = some .returned ∨
      ∃ request outcome, .returned request outcome ∈ out ∧ request.id = id := by
  cases effect with
  | checked | rejected | stored | connected | disconnected | drained => simp
  | @refused request =>
    by_cases same : id = request.id
    · simp [same]
    · simp [same, eq_comm]
  | @admitted request fresh =>
    by_cases same : id = request.id
    · simp [same, fresh]
    · simp [same]
  | @enqueued id' _ caller | @missed id' _ caller | @slept id' _ caller =>
    by_cases same : id = id'
    · simp [same, caller]
    · simp [same]
  | @found id' request _ caller | @timedOut id' request caller =>
    have mine : request.id = id' := sound.own id' _ _ caller rfl
    by_cases same : id = id'
    · simp [same, mine]
    · simp [same, mine, eq_comm]

/-- What a step accepts is a response that had passed its checks, and it is stored. -/
theorem accepted (effect : Effect scheme s a s' out) (event : .accepted op body ∈ out) :
    (∃ n, a = .store n ∧ s.posts n = some (.checked op body) ∧ out = [.accepted op body]) ∧
      (s'.queue op).responses[body.id]? = some body := by
  cases effect with
  | checked | rejected | connected | disconnected | drained | refused | admitted | enqueued
  | found | missed | slept | timedOut => simp at event
  | stored post =>
    obtain ⟨rfl, rfl⟩ := by simpa using event
    exact ⟨⟨_, rfl, post, rfl⟩, by simp [RequestQueue.answer_responses]⟩

/-- A response that nothing overwrites stays in its queue until its call takes it. -/
theorem keeps (effect : Effect scheme s a s' out) (sound : s.Sound)
    (here : (s.queue op).responses[id]? = some response)
    (running : s'.callers id ≠ some .returned)
    (spared : ∀ n op' body, a = .store n → s.posts n = some (.checked op' body) → body.id ≠ id) :
    (s'.queue op).responses[id]? = some response := by
  cases effect with
  | checked | rejected | connected | disconnected | refused | admitted | slept => exact here
  | @enqueued _ request =>
    by_cases same : op = request.operation
    · subst same
      simpa [RequestQueue.addRequest] using here
    · simpa [same] using here
  | @found id' request =>
    have other : id ≠ id' := by
      rintro rfl
      simp at running
    by_cases same : op = request.operation
    · subst same
      simpa [RequestQueue.getResponse_responses, other] using here
    · simpa [same] using here
  | @missed id' request _ absent =>
    by_cases same : op = request.operation
    · subst same
      have other : id ≠ id' := by
        rintro rfl
        simp [absent] at here
      simpa [RequestQueue.getResponse_responses, other] using here
    · simpa [same] using here
  | @timedOut _ request =>
    by_cases same : op = request.operation
    · subst same
      simpa using here
    · simpa [same] using here
  | @stored n op' body post =>
    have other := (spared n op' body rfl post).symm
    by_cases same : op = op'
    · subst same
      simpa [RequestQueue.answer_responses, other] using here
    · simpa [same] using here
  | @drained _ op' =>
    by_cases same : op = op'
    · subst same
      have closed : id ∉ (s.queue op).requests.map HasId.id := by
        intro pending
        obtain ⟨request, mem, rfl⟩ := List.mem_map.mp pending
        exact absurd here (by simp [HasId.id, sound.notAnswered op request mem])
      simpa [RequestQueue.failPending_responses, closed] using here
    · simpa [same] using here

end Effect

/-! ## Runs -/

/-- The calls that are over are those that have returned. -/
def Ended (es : List (Event N)) (s : System N) : Prop :=
  ∀ id, s.callers id = some .returned ↔
    ∃ request outcome, .returned request outcome ∈ es ∧ request.id = id

theorem Ended.step {s s' : System N} {a : Action N} {es out : List (Event N)} (ended : Ended es s)
    (sound : s.Sound) (effect : Effect scheme s a s' out) : Ended (es ++ out) s' := by
  intro id
  rw [effect.returned_iff sound, ended]
  simp only [List.mem_append, or_and_right, exists_or]

theorem ended_new : Ended [] (BrowserWalletState.new : System N) := by
  simp [Ended, BrowserWalletState.new]

theorem ended_of_run {es : List (Event N)} {s : System N}
    (run : (machine scheme).Run BrowserWalletState.new es s) : Ended es s := by
  refine (Machine.Run.invariant (P := fun es s => s.Sound ∧ Ended es s)
    ⟨System.sound_new, ended_new⟩ ?_ run).2
  rintro es s a s' out ⟨sound, ended⟩ step
  exact ⟨sound.step (.of_step step), ended.step sound (.of_step step)⟩

/-- What the history says about calls and accepted responses. -/
structure Ledger (scheme : KeyAuthorizationScheme) (es : List (Event N)) (s : System N) :
    Prop where
  sound : s.Sound
  ended : Ended es s
  stored : ∀ op body, .accepted op body ∈ es → s.Asked op body.id ∧
    (s.callers body.id ≠ some .returned → (s.queue op).responses[body.id]? = some body)
  once : ∀ id, es.countP (Event.accepts id) ≤ 1
  delivered : ∀ op body request outcome, .accepted op body ∈ es →
    .returned request outcome ∈ es → request.id = body.id →
    outcome = request.outcome scheme body ∧ Open (.accepted op body) (.returned request outcome) es

namespace Ledger

variable {s s' : System N} {a : Action N} {es out : List (Event N)}

theorem singleAnswer (ledger : Ledger scheme es s) : SingleAnswer scheme es s where
  once := ledger.once
  delivered := ledger.delivered
  kept op body accepted unread := by
    apply (ledger.stored op body accepted).2
    intro returned
    obtain ⟨request, outcome, event, same⟩ := (ledger.ended _).mp returned
    exact unread request outcome event same

theorem countP_of_unanswered {id : Uuid} (unanswered : Unanswered es id) :
    es.countP (Event.accepts id) = 0 := by
  rw [List.countP_eq_zero]
  intro event mem accepts
  cases event with
  | accepted op body => exact unanswered op body mem (by simpa [Event.accepts] using accepts)
  | enqueued | returned | connected | disconnected | failed => cases accepts

/-- A call that returns in time returns what its accepted response says. -/
theorem delivers (ledger : Ledger scheme es s) (inTime : InTime es s a)
    (effect : Effect scheme s a s' out) {op : Operation} {body : Response} {request : Request N}
    {outcome : Outcome} (accepted : .accepted op body ∈ es)
    (returned : .returned request outcome ∈ out) (same : request.id = body.id) :
    outcome = request.outcome scheme body ∧ out = [.returned request outcome] := by
  obtain ⟨asked, stored⟩ := ledger.stored op body accepted
  cases effect with
  | checked | rejected | stored | connected | disconnected | drained | admitted | enqueued
  | missed | slept => simp at returned
  | refused fresh =>
    obtain ⟨rfl, rfl⟩ := by simpa using returned
    exact absurd (same ▸ fresh) asked.started.1
  | @found id request' response caller here =>
    obtain ⟨rfl, rfl⟩ := by simpa using returned
    obtain rfl : request.id = id := ledger.sound.own id _ _ caller rfl
    rw [same] at caller here
    -- the call polls the queue into which the response was put
    obtain ⟨asker, mine, rfl, waiting⟩ | ended := asked
    · obtain rfl := waiting.unique _ (Or.inl (mine ▸ caller))
      obtain rfl : response = body := by
        simpa [stored (by simp [caller])] using here.symm
      exact ⟨rfl, rfl⟩
    · simp [caller] at ended
  | @timedOut id request' caller =>
    obtain ⟨rfl, rfl⟩ := by simpa using returned
    obtain rfl : request.id = id := ledger.sound.own id _ _ caller rfl
    exact absurd same.symm (inTime op body accepted)

/-- Steps in time keep the account of accepted responses. -/
theorem step (ledger : Ledger scheme es s) (inTime : InTime es s a)
    (effect : Effect scheme s a s' out) : Ledger scheme (es ++ out) s' where
  sound := ledger.sound.step effect
  ended := ledger.ended.step ledger.sound effect
  stored op body accepted := by
    obtain before | now := List.mem_append.mp accepted
    · obtain ⟨asked, stored⟩ := ledger.stored op body before
      refine ⟨effect.asked asked, fun running => ?_⟩
      have ran : s.callers body.id ≠ some .returned := fun ended =>
        running ((effect.returned_iff ledger.sound).mpr (Or.inl ended))
      apply effect.keeps ledger.sound (stored ran) running
      rintro n op' body' rfl post same
      exact (inTime op' body' post).1 op body before same.symm
    · obtain ⟨⟨n, rfl, post, -⟩, here⟩ := effect.accepted now
      exact ⟨effect.asked (ledger.sound.checked n op body post), fun _ => here⟩
  once id := by
    rw [List.countP_append]
    by_cases accepts : out.countP (Event.accepts id) = 0
    · simpa [accepts] using ledger.once id
    · obtain ⟨event, mem, accepts⟩ := List.countP_pos_iff.mp (Nat.pos_of_ne_zero accepts)
      cases event with
      | enqueued | returned | connected | disconnected | failed => cases accepts
      | accepted op body =>
        obtain ⟨⟨n, rfl, post, rfl⟩, -⟩ := effect.accepted mem
        obtain rfl : body.id = id := by simpa [Event.accepts] using accepts
        simp [countP_of_unanswered (inTime op body post).1, Event.accepts]
  delivered op body request outcome accepted returned same := by
    obtain before | now := List.mem_append.mp accepted
    · obtain earlier | returns := List.mem_append.mp returned
      · obtain ⟨precisely, order⟩ := ledger.delivered op body request outcome before earlier same
        refine ⟨precisely, open_append.mpr (Or.inr ⟨order, fun again => ?_⟩)⟩
        obtain ⟨⟨n, rfl, post, -⟩, -⟩ := effect.accepted again
        exact (inTime op body post).1 op body before rfl
      · obtain ⟨precisely, rfl⟩ := ledger.delivers inTime effect before returns same
        exact ⟨precisely, open_append.mpr (Or.inl ((open_singleton (by simp)).mpr rfl))⟩
    · obtain ⟨⟨n, rfl, post, rfl⟩, -⟩ := effect.accepted now
      obtain earlier : .returned request outcome ∈ es := by simpa using returned
      exact absurd ((ledger.ended _).mpr ⟨request, outcome, earlier, same⟩) (inTime op body post).2

theorem new : Ledger scheme [] (BrowserWalletState.new : System N) where
  sound := System.sound_new
  ended := ended_new
  stored := by simp
  once := by simp
  delivered := by simp

end Ledger

theorem ledger_of_inTime {es : List (Event N)} {s : System N}
    (run : (machine scheme).Guarded InTime BrowserWalletState.new es s) : Ledger scheme es s :=
  Machine.Guarded.invariant (P := Ledger scheme) Ledger.new
    (fun _ _ _ _ _ ledger inTime step => ledger.step inTime (.of_step step)) run

/-- A step that is too late leaves a request with a second answer or with the wrong one. -/
theorem inTime_of_singleAnswer {s s' : System N} {a : Action N} {es out : List (Event N)}
    (sound : s.Sound) (ended : Ended es s) (effect : Effect scheme s a s' out)
    (single : SingleAnswer scheme (es ++ out) s') : InTime es s a := by
  cases effect with
  | checked | rejected | connected | disconnected | drained | refused | admitted | enqueued
  | found | missed | slept => trivial
  | @stored n op body post =>
    intro op' body' post'
    obtain ⟨rfl, rfl⟩ : op = op' ∧ body = body' := by simpa [post] using post'
    refine ⟨fun op₁ body₁ earlier same => ?_, fun returned => ?_⟩
    · have twice := single.once body.id
      have before : 0 < es.countP (Event.accepts body.id) :=
        List.countP_pos_iff.mpr ⟨_, earlier, by simpa [Event.accepts] using same⟩
      rw [List.countP_append] at twice
      simp only [List.countP_singleton, Event.accepts, BEq.rfl, if_true] at twice
      omega
    · obtain ⟨request, outcome, event, same⟩ := (ended _).mp returned
      obtain ⟨-, order⟩ := single.delivered op body request outcome (by simp) (by simp [event]) same
      obtain again | ⟨-, last⟩ := open_append.mp order
      · simpa using again.mem
      · simp at last
  | @timedOut id request caller =>
    intro op body accepted same
    have mine : request.id = id := sound.own id _ _ caller rfl
    obtain ⟨wrong, -⟩ := single.delivered op body request
      (.error (.timeout request.operation.name)) (by simp [accepted]) (by simp)
      (mine.trans same.symm)
    exact Request.outcome_ne_timeout wrong.symm

/-- Every request has a single answer throughout a run exactly when no post and no deadline
overtakes another answer. -/
theorem inTime_iff_singleAnswer {es : List (Event N)} {s : System N} :
    (machine scheme).Guarded InTime BrowserWalletState.new es s ↔
      (machine scheme).Guarded ((machine scheme).Reaching (SingleAnswer scheme))
        BrowserWalletState.new es s := by
  refine ⟨fun run => run.imp ?_, fun run => run.imp ?_⟩
  · intro es s a _ _ run inTime _ s' out step
    exact (ledger_of_inTime (run.step inTime step)).singleAnswer
  · intro es s a s' out run reaching step
    exact inTime_of_singleAnswer (System.sound_of_run run.run) (ended_of_run run.run)
      (.of_step step) (reaching s' out step)

/-! ## Overtaken posts -/

/-- Transaction 1 is requested, and two posts with different hashes both find it pending. -/
def twoPosts : List (Action Unit) :=
  [.update 0 (some ⟨7, 1⟩), .request (.transaction 1 ()), .enqueue 1,
    .check 0 .transaction ⟨1, some (List.replicate 32 1), none⟩,
    .check 1 .transaction ⟨1, some (List.replicate 32 2), none⟩, .store 0, .store 1]

/-- Both posts are answered with success. -/
theorem twoPosts_not_singleAnswer :
    ∃ es s, (machine (N := Unit) .refusing).Run BrowserWalletState.new es s ∧
      ¬ SingleAnswer .refusing es s := by
  refine ⟨[.connected, .enqueued (.transaction 1 ()),
    .accepted .transaction ⟨1, some (List.replicate 32 1), none⟩,
    .accepted .transaction ⟨1, some (List.replicate 32 2), none⟩], _,
    Machine.run_of_exec twoPosts rfl, fun single => ?_⟩
  exact absurd (single.once 1) (by decide)

end FoundryCore.WalletBrowser
