import FoundryCore.WalletBrowser.Pending

/-!
# Disconnects

A disconnect clears the connection and then drains one queue after the other. A call that has
seen the connection may enqueue its request when the queue is drained already, and a request
made under the next connection may come before an old disconnect drains its queue. Where
requests are enqueued under a connection, or before the disconnects under way get to their
queue, and no wallet has connected since these began, disconnects are atomic.
-/

open Std

namespace FoundryCore.WalletBrowser

open Library

variable {N : Type} {scheme : KeyAuthorizationScheme}

namespace System

/-- The disconnect `n` has yet to drain the queue of `op`. -/
def Draining (s : System N) (op : Operation) (n : ℕ) : Prop :=
  ∃ rest, s.updates n = some rest ∧ op ∈ rest

/-- No call is between its look at the connection and its queue, and no disconnect is under
way. -/
def Settled (s : System N) : Prop :=
  (∀ id request, s.callers id ≠ some (.connected request)) ∧ ∀ op n, ¬ s.Draining op n

end System

/-- Nothing is left pending without a wallet, and what a disconnect fails was enqueued before it
or before any wallet connected after it. -/
structure AtomicDisconnect (es : List (Event N)) (s : System N) : Prop where
  drained : s.connection = none → s.Settled → ∀ op, (s.queue op).requests = []
  earlier : ∀ n op id, .failed n op id ∈ es → ∃ before request after,
    es = before ++ Event.enqueued request :: after ∧ request.id = id ∧ request.operation = op ∧
    (.disconnected n ∈ before → Open .connected (.disconnected n) before)

/-- A request is enqueued under a connection, or while a disconnect has yet to drain its queue;
and no wallet has connected since the disconnects began that have yet to drain it. -/
def Connected (es : List (Event N)) (s : System N) : Action N → Prop
  | .enqueue id => ∀ request, s.callers id = some (.connected request) →
      (s.connection ≠ none ∨ ∃ n, s.Draining request.operation n) ∧
      ∀ n, s.Draining request.operation n → Open .connected (.disconnected n) es
  | _ => True

namespace Effect

variable {s s' : System N} {a : Action N} {out : List (Event N)} {op : Operation} {n : ℕ}

/-- A disconnect has a queue to drain until it is empty. -/
theorem keeps_draining (effect : Effect scheme s a s' out) (draining : s.Draining op n) :
    s'.Draining op n ∨ (s'.queue op).requests = [] := by
  cases effect with
  | checked | rejected | stored | refused | admitted | enqueued | found | missed | slept
  | timedOut => exact Or.inl draining
  | @connected n' _ fresh | @disconnected n' fresh =>
    obtain ⟨rest, task, mem⟩ := draining
    have other : n ≠ n' := by
      rintro rfl
      simp [fresh] at task
    exact Or.inl ⟨rest, by simpa [other] using task, mem⟩
  | @drained n' op' rest' task' =>
    obtain ⟨rest, task, mem⟩ := draining
    by_cases this : n = n'
    · subst this
      obtain rfl : op' :: rest' = rest := by simpa [task'] using task
      obtain rfl | later := List.mem_cons.mp mem
      · exact Or.inr (by simp)
      · exact Or.inl ⟨rest', by simp, later⟩
    · exact Or.inl ⟨rest, by simpa [this] using task, mem⟩

/-- A disconnect that has yet to drain a queue had to before, or has just begun. -/
theorem draining_of_step (effect : Effect scheme s a s' out) (draining : s'.Draining op n) :
    s.Draining op n ∨ s.updates n = none := by
  obtain ⟨rest, task, mem⟩ := draining
  cases effect with
  | checked | rejected | stored | refused | admitted | enqueued | found | missed | slept
  | timedOut => exact Or.inl ⟨rest, task, mem⟩
  | @connected n' _ fresh | @disconnected n' fresh =>
    by_cases this : n = n'
    · exact Or.inr (this ▸ fresh)
    · exact Or.inl ⟨rest, by simpa [this] using task, mem⟩
  | @drained n' op' rest' task' =>
    by_cases this : n = n'
    · subst this
      obtain rfl : rest' = rest := by simpa using task
      exact Or.inl ⟨_, task', List.mem_cons_of_mem _ mem⟩
    · exact Or.inl ⟨rest, by simpa [this] using task, mem⟩

/-- The connection is missing because it was, or because a disconnect has begun. -/
theorem connection_of_step (effect : Effect scheme s a s' out) (gone : s'.connection = none) :
    s.connection = none ∨ ∃ n, ∀ op, s'.Draining op n := by
  cases effect with
  | checked | rejected | stored | refused | admitted | enqueued | found | missed | slept
  | timedOut | drained => exact Or.inl gone
  | connected => cases gone
  | @disconnected n =>
    refine Or.inr ⟨n, fun op => ⟨_, Function.update_self .., ?_⟩⟩
    cases op <;> simp

/-- The updates of the connection that have not been started have no events. -/
theorem fresh_of_step (effect : Effect scheme s a s' out) (fresh : s'.updates n = none) :
    s.updates n = none ∧ .disconnected n ∉ out := by
  cases effect with
  | checked | rejected | stored | refused | admitted | enqueued | found | missed | slept
  | timedOut => exact ⟨fresh, by simp⟩
  | @connected n' =>
    by_cases this : n = n'
    · simp [this] at fresh
    · exact ⟨by simpa [this] using fresh, by simp⟩
  | @disconnected n' =>
    by_cases this : n = n'
    · simp [this] at fresh
    · exact ⟨by simpa [this] using fresh, by simp [this]⟩
  | @drained n' =>
    by_cases this : n = n'
    · simp [this] at fresh
    · exact ⟨by simpa [this] using fresh, by simp⟩

/-- What a step fails is pending in a queue that a disconnect drains. -/
theorem failed {id : Uuid} (effect : Effect scheme s a s' out) (event : .failed n op id ∈ out) :
    s.Draining op n ∧ ∃ request ∈ (s.queue op).requests, request.id = id := by
  cases effect with
  | checked | rejected | stored | refused | admitted | enqueued | found | missed | slept
  | timedOut | connected | disconnected => simp at event
  | drained task =>
    obtain ⟨request, mem, same⟩ := List.mem_map.mp event
    obtain ⟨rfl, rfl, rfl⟩ := by simpa using same
    exact ⟨⟨_, task, List.mem_cons_self⟩, request, mem, rfl⟩

end Effect

/-! ## Runs -/

/-- What the history says about pending requests and the disconnects under way. -/
structure Timeline (es : List (Event N)) (s : System N) : Prop where
  sound : s.Sound
  covered : s.connection = none → ∀ op, (s.queue op).requests ≠ [] → ∃ n, s.Draining op n
  fresh : ∀ n, s.updates n = none → .disconnected n ∉ es
  pending : ∀ op, ∀ request ∈ (s.queue op).requests, ∃ before after,
    es = before ++ Event.enqueued request :: after ∧ ∀ n, s.Draining op n →
    .disconnected n ∈ before → Open .connected (.disconnected n) before
  earlier : ∀ n op id, .failed n op id ∈ es → ∃ before request after,
    es = before ++ Event.enqueued request :: after ∧ request.id = id ∧ request.operation = op ∧
    (.disconnected n ∈ before → Open .connected (.disconnected n) before)

namespace Timeline

variable {s s' : System N} {a : Action N} {es out : List (Event N)}

theorem atomicDisconnect (timeline : Timeline es s) : AtomicDisconnect es s where
  earlier := timeline.earlier
  drained gone settled op := by
    by_contra nonempty
    obtain ⟨n, draining⟩ := timeline.covered gone op nonempty
    exact settled.2 op n draining

/-- Steps under a connection keep the account of pending requests. -/
theorem step (timeline : Timeline es s) (connected : Connected es s a)
    (effect : Effect scheme s a s' out) : Timeline (es ++ out) s' where
  sound := timeline.sound.step effect
  covered gone op nonempty := by
    obtain ⟨request, mem⟩ := List.exists_mem_of_ne_nil _ nonempty
    obtain before | ⟨n, draining⟩ := effect.connection_of_step gone
    · have draining : ∃ n, s.Draining op n := by
        obtain pending | ⟨id, rfl, caller, rfl⟩ := effect.mem_requests mem
        · exact timeline.covered before op (List.ne_nil_of_mem pending)
        · exact (connected request caller).1.resolve_left (not_not.mpr before)
      obtain ⟨n, draining⟩ := draining
      exact ⟨n, (effect.keeps_draining draining).resolve_right nonempty⟩
    · exact ⟨n, draining op⟩
  fresh n unused := by
    obtain ⟨unused, silent⟩ := effect.fresh_of_step unused
    simp [timeline.fresh n unused, silent]
  pending op request mem := by
    obtain pending | ⟨id, rfl, caller, rfl⟩ := effect.mem_requests mem
    · obtain ⟨before, after, rfl, order⟩ := timeline.pending op request pending
      refine ⟨before, after ++ out, by simp, fun n draining seen => ?_⟩
      obtain draining | unused := effect.draining_of_step draining
      · exact order n draining seen
      · exact absurd (List.mem_append_left _ seen) (timeline.fresh n unused)
    · cases effect with
      | enqueued caller' =>
        obtain rfl : request = _ := by simpa [caller] using caller'
        exact ⟨es, [], rfl, fun n draining _ => (connected request caller).2 n draining⟩
  earlier n op id event := by
    obtain old | now := List.mem_append.mp event
    · obtain ⟨before, request, after, rfl, same, operation, order⟩ := timeline.earlier n op id old
      exact ⟨before, request, after ++ out, by simp, same, operation, order⟩
    · obtain ⟨draining, request, mem, same⟩ := effect.failed now
      obtain ⟨before, after, rfl, order⟩ := timeline.pending op request mem
      obtain ⟨operation, -⟩ := timeline.sound.pending op request mem
      exact ⟨before, request, after ++ out, by simp, same, operation, order n draining⟩

theorem new : Timeline [] (BrowserWalletState.new : System N) where
  sound := System.sound_new
  covered := by simp [BrowserWalletState.new]
  fresh := by simp
  pending := by simp [BrowserWalletState.new]
  earlier := by simp

end Timeline

/-- As long as requests are enqueued under a connection, disconnects are atomic. -/
theorem atomicDisconnect_of_connected {es : List (Event N)} {s : System N}
    (run : (machine scheme).Guarded Connected BrowserWalletState.new es s) :
    AtomicDisconnect es s :=
  (Machine.Guarded.invariant (P := Timeline) Timeline.new
    (fun _ _ _ _ _ timeline connected step => timeline.step connected (.of_step step))
    run).atomicDisconnect

/-- A wallet disconnects while its transaction is pending. -/
theorem atomicDisconnect_pending :
    ∃ s, s.connection = none ∧ AtomicDisconnect [.connected, .enqueued (.transaction 1 ()),
      .disconnected 1, .failed 1 .transaction 1] s := by
  have run : (machine .refusing).Guarded Connected BrowserWalletState.new _ _ :=
    Machine.guarded_of_exec [.update 0 (some ⟨7, 1⟩), .request (.transaction 1 ()), .enqueue 1,
      .update 1 none, .drain 1, .drain 1, .drain 1] rfl
      ⟨trivial, trivial, fun _ _ => ⟨Or.inl (by simp [System.setCaller]), ?_⟩, trivial, trivial,
        trivial, trivial, trivial⟩
  · exact ⟨_, rfl, atomicDisconnect_of_connected run⟩
  · rintro n ⟨rest, task, mem⟩
    obtain ⟨-, rfl⟩ : n = 0 ∧ [] = rest := by
      simpa [System.setCaller, Function.update_apply, BrowserWalletState.new] using task
    cases mem

/-- The wallet disconnects between a call's look at the connection and its queue. -/
def leakedRequest : List (Action Unit) :=
  [.update 0 (some ⟨7, 1⟩), .request (.transaction 1 ()), .update 1 none, .drain 1, .drain 1,
    .drain 1, .enqueue 1]

/-- The request is pending with no wallet connected, for the next wallet to see. -/
theorem leakedRequest_not_atomicDisconnect :
    ∃ es s, (machine (N := Unit) .refusing).Run BrowserWalletState.new es s ∧
      ¬ AtomicDisconnect es s := by
  refine ⟨[.connected, .disconnected 1, .enqueued (.transaction 1 ())], _,
    Machine.run_of_exec leakedRequest rfl, fun atomic => ?_⟩
  have settled_callers : ∀ id request, Function.update (Function.update (fun _ => none) (1 : Uuid)
      (some (Caller.connected (Request.transaction 1 ())))) 1
      (some (Caller.polling (.transaction 1 ()))) id ≠ some (.connected request) := by
    intro id request
    by_cases asks : id = 1
    · simp [asks]
    · rw [Function.update_of_ne asks, Function.update_of_ne asks]
      simp
  have settled_updates : ∀ n rest, Function.update (Function.update (Function.update
      (Function.update (Function.update (fun _ : ℕ => none) 0 (some []))
        1 (some [Operation.transaction, .signing, .keyAuthorization]))
        1 (some [.signing, .keyAuthorization])) 1 (some [.keyAuthorization])) 1 (some []) n =
      some rest → rest = [] := by
    intro n rest task
    by_cases disconnects : n = 1
    · simpa [disconnects] using task.symm
    · by_cases connects : n = 0
      · simpa [connects] using task.symm
      · simp [connects, disconnects] at task
  have none_pending := atomic.drained rfl ⟨settled_callers, ?_⟩ .transaction
  · cases none_pending
  · rintro op n ⟨rest, task, mem⟩
    obtain rfl := settled_updates n rest task
    cases mem

end FoundryCore.WalletBrowser
