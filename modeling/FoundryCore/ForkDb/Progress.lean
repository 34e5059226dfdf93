import FoundryCore.ForkDb.Listeners

/-!
# Everything that was asked is answered

Callers block until the handler answers them. As long as some `SharedBackend` is alive and the
provider answers what it is asked with what the handler can read, `poll` gets through all messages
and all requests: each of its steps handles a message, takes in a response, or brings the handler
closer to doing so.
-/

namespace FoundryCore.ForkDb

open Library

namespace System

variable {revm : Revm} {s s' : System} {es out : List Event} {a : Action}

/-- The handler polls requests that are there, and still runs. -/
structure Running (s : System) : Prop where
  connected : s.connected
  unfinished : s.pc ≠ .finished
  unpanicked : s.pc ≠ .panicked
  bound : ∀ n, s.pc = .polling n → n ≤ s.handler.pendingRequests.length

/-- Nothing is left to do. -/
structure Drained (s : System) : Prop where
  unprocessed : s.unprocessed = []
  pending : s.handler.pendingRequests = []

/-- A step of `poll` in which the provider answers whatever is polled, and accounts with code that
can be read. -/
def Answering (revm : Revm) : Action → Prop
  | .poll ready => ∀ request, ∃ output, ready request = some output ∧
      BackendHandler.malformed revm request output = false
  | .call _ | .dropLast => False

/-- How many steps `poll` may take before it handles a message or takes in a response. -/
def detour (s : System) : ℕ :=
  match s.pc with
  | .drain => if s.handler.queuedRequests = [] then 3 else 0
  | .receive => if s.incoming = [] then 2 else 0
  | .polling 0 => if s.handler.queuedRequests = [] then 5 else 1
  | .polling (_ + 1) => 0
  | .idle => 4
  | .finished | .panicked => 0

/-- What there is to do: a message is received, handled, and may start a request. -/
def work (s : System) : ℕ :=
  3 * s.incoming.length + 2 * s.handler.queuedRequests.length + s.handler.pendingRequests.length

def rank (s : System) : ℕ := 6 * s.work + s.detour

theorem detour_le (s : System) : s.detour ≤ 5 := by
  unfold detour
  split <;> (try split_ifs) <;> omega

theorem rank_lt (less : s'.work < s.work) : s'.rank < s.rank := by
  have := s'.detour_le
  unfold rank
  omega

theorem rank_lt_of_detour (same : s'.work = s.work) (less : s'.detour < s.detour) :
    s'.rank < s.rank := by
  unfold rank
  omega

theorem drained_of_rank (zero : s.rank = 0) : s.Drained := by
  obtain ⟨incoming, queued, pending⟩ : s.incoming.length = 0 ∧
      s.handler.queuedRequests.length = 0 ∧ s.handler.pendingRequests.length = 0 := by
    unfold rank work at zero
    omega
  rw [List.length_eq_zero_iff] at incoming queued pending
  exact ⟨by simp [System.unprocessed, incoming, queued], pending⟩

theorem onRequest_counts (h : BackendHandler) (req : BackendRequest) :
    (h.onRequest req).1.queuedRequests = h.queuedRequests ∧
      (h.onRequest req).1.pendingRequests.length ≤ h.pendingRequests.length + 1 := by
  cases req <;> simp only [BackendHandler.onRequest, BackendHandler.requestAccount,
    BackendHandler.requestAccountStorage, BackendHandler.requestHash,
    BackendHandler.requestFullBlock, BackendHandler.requestTransaction] <;>
    (repeat' split) <;> simp

/-- While something is left, a step of `poll` lowers the rank. -/
theorem Running.lower (running : s.Running) (undrained : ¬ s.Drained)
    (answering : Answering revm a) :
    ∃ s' out, (machine revm).step s a = some (s', out) ∧ s'.Running ∧ s'.rank < s.rank := by
  obtain ⟨ready⟩ | _ | ⟨ready⟩ := a
  · exact answering.elim
  · exact answering.elim
  cases pc : s.pc with
  | idle =>
    refine ⟨{ s with pc := .drain }, [], by simp [machine, poll, pc],
      ⟨running.connected, by simp, by simp, by simp⟩, rank_lt_of_detour rfl ?_⟩
    simp only [detour, pc]
    split_ifs <;> omega
  | drain =>
    cases queue : s.handler.queuedRequests with
    | nil =>
      refine ⟨{ s with pc := .receive }, [], by simp [machine, poll, pc, queue],
        ⟨running.connected, by simp, by simp, by simp⟩, rank_lt_of_detour rfl ?_⟩
      simp only [detour, pc, queue, if_true]
      split_ifs <;> omega
    | cons req rest =>
      refine ⟨_, _, step_of_drain pc queue, ⟨running.connected, by simp [pc], by simp [pc],
        by simp [pc]⟩, rank_lt ?_⟩
      obtain ⟨queued, pending⟩ := onRequest_counts { s.handler with queuedRequests := rest } req
      simp only [work, queued, queue, List.length_cons]
      simp only at pending
      omega
  | receive =>
    cases incoming : s.incoming with
    | nil =>
      refine ⟨{ s with pc := .polling s.handler.pendingRequests.length }, [],
        by simp [machine, poll, pc, incoming, running.connected],
        ⟨running.connected, by simp, by simp, by simp⟩, rank_lt_of_detour rfl ?_⟩
      cases length : s.handler.pendingRequests.length with
      | succ n => simp [detour, pc, incoming]
      | zero =>
        have queue : s.handler.queuedRequests ≠ [] := fun queue => undrained
          ⟨by simp [System.unprocessed, queue, incoming], List.length_eq_zero_iff.mp length⟩
        simp [detour, pc, incoming, queue]
    | cons req rest =>
      refine ⟨{ s with
          handler := { s.handler with queuedRequests := s.handler.queuedRequests ++ [req] }
          incoming := rest }, [], by simp [machine, poll, pc, incoming],
        ⟨running.connected, by simp [pc], by simp [pc], by simp [pc]⟩, rank_lt ?_⟩
      simp only [work, incoming, List.length_append, List.length_cons, List.length_nil]
      omega
  | polling n =>
    cases n with
    | zero =>
      by_cases queue : s.handler.queuedRequests = []
      · refine ⟨{ s with pc := .idle }, [], by simp [machine, poll, pc, queue],
          ⟨running.connected, by simp, by simp, by simp⟩, rank_lt_of_detour rfl ?_⟩
        simp [detour, pc, queue]
      · refine ⟨{ s with pc := .drain }, [], by simp [machine, poll, pc, queue],
          ⟨running.connected, by simp, by simp, by simp⟩, rank_lt_of_detour rfl ?_⟩
        simp [detour, pc, queue]
    | succ n =>
      have bound := running.bound _ pc
      obtain ⟨⟨request, rest⟩, removed⟩ :
          ∃ removed, swapRemove s.handler.pendingRequests n = some removed := by
        have inside : n < s.handler.pendingRequests.length := by omega
        simp [swapRemove, inside]
      obtain ⟨output, answer, fine⟩ := answering request
      obtain ⟨h', out, took⟩ :=
        BackendHandler.exists_onReady { s.handler with pendingRequests := rest } fine
      have length := (swapRemove_perm removed).length_eq
      obtain ⟨queued, pending, -⟩ := BackendHandler.onReady_frame took
      simp only [List.length_cons] at length
      refine ⟨_, _, step_of_ready pc removed answer took,
        ⟨running.connected, by simp, by simp, ?_⟩, rank_lt ?_⟩
      · intro m at_m
        obtain rfl : n = m := by simpa using at_m
        simp only [pending]
        omega
      · simp only [work, queued, pending]
        omega
  | finished => exact absurd pc running.unfinished
  | panicked => exact absurd pc running.unpanicked

/-! ## Who is answered -/

/-- An index into the pending requests is never out of range. -/
def InRange (s : System) : Prop := ∀ n, s.pc = .polling n → n ≤ s.handler.pendingRequests.length

theorem InRange.step (inRange : s.InRange) (eq : (machine revm).step s a = some (s', out)) :
    s'.InRange := by
  obtain ⟨request⟩ | _ | ⟨ready⟩ := a
  · simp only [machine, call, Option.ite_none_right_eq_some, Option.some.injEq,
      Prod.mk.injEq] at eq
    obtain ⟨-, rfl, -⟩ := eq
    exact inRange
  · simp only [machine, Option.ite_none_right_eq_some, Option.some.injEq, Prod.mk.injEq] at eq
    obtain ⟨-, rfl, -⟩ := eq
    exact inRange
  · simp only [machine, poll] at eq
    split at eq
    · obtain ⟨rfl, -⟩ := by simpa using eq
      simp [InRange]
    · next pc =>
      split at eq <;>
      · obtain ⟨rfl, -⟩ := by simpa using eq
        simp [InRange, pc]
    · next pc =>
      split at eq <;>
      · obtain ⟨rfl, -⟩ := by simpa using eq
        simp [InRange, pc]
    · split at eq <;>
      · obtain ⟨rfl, -⟩ := by simpa using eq
        simp [InRange]
    · next n pc =>
      have bound := inRange _ pc
      simp only [pollRequest] at eq
      split at eq
      · next absent =>
        have inside : n < s.handler.pendingRequests.length := by omega
        simp [swapRemove, inside] at absent
      · next request rest removed =>
        have length := (swapRemove_perm removed).length_eq
        simp only [List.length_cons] at length
        split at eq
        · next output answer =>
          split at eq
          · next handler out took =>
            obtain ⟨rfl, -⟩ := by simpa using eq
            intro m at_m
            obtain rfl : n = m := by simpa using at_m
            rw [(BackendHandler.onReady_frame took).2.1]
            simp only
            omega
          · obtain ⟨rfl, -⟩ := by simpa using eq
            simp [InRange]
        · obtain ⟨rfl, -⟩ := by simpa using eq
          intro m at_m
          obtain rfl : n = m := by simpa using at_m
          simp only [List.length_append, List.length_singleton]
          omega
    all_goals simp at eq

/-- A channel that waits in a message or with a request stays there, is accepted for a key, or is
answered. -/
theorem Effect.held (effect : Effect revm s s' a out) {l : Sender} (mem : l ∈ s.held) :
    l ∈ s'.held ∨ (∃ k, out = [.accepted k l]) ∨ ∃ e, out = [e] ∧ e.answers? = some l := by
  cases effect with
  | quiet _ queue listeners pending _ _ =>
    left
    rw [System.held, queue]
    rwa [System.held, List.mem_append, ← (pending.filterMap ProviderRequest.sender?).mem_iff,
      ← List.mem_append] at mem
  | sends call sent queue _ handler _ =>
    left
    simp only [System.held, queue, handler, List.filterMap_append, List.mem_append] at mem ⊢
    tauto
  | handles _ _ req rest _ queue handler incoming _ =>
    have before : l ∈ req.sender?.toList ∨ l ∈ (rest ++ s.incoming).filterMap
        BackendRequest.sender? ++ s.handler.pendingRequests.filterMap ProviderRequest.sender? := by
      simp only [System.held, unprocessed, queue, List.cons_append, List.filterMap_cons] at mem
      cases sender : req.sender? <;> simp_all
    obtain ⟨k, l', v, read, -, eq⟩ | ⟨k, l', h', read, -, joins, eq⟩ | ⟨-, aside, -⟩ :=
      BackendHandler.onRequest_cases { s.handler with queuedRequests := rest } req
    · obtain ⟨eq, rfl⟩ := Prod.mk.inj (handler.symm.trans eq)
      rw [BackendRequest.sender?_of_read? read, Option.toList_some, List.mem_singleton] at before
      rcases before with rfl | kept
      · exact .inr (.inr ⟨_, rfl, rfl⟩)
      · exact .inl (by simpa [System.held, unprocessed, eq, incoming] using kept)
    · obtain ⟨rfl, rfl⟩ := Prod.mk.inj (handler.symm.trans eq)
      obtain ⟨requests, pending, -, none⟩ := joins.pending
      rw [BackendRequest.sender?_of_read? read, Option.toList_some, List.mem_singleton] at before
      rcases before with rfl | kept
      · exact .inr (.inl ⟨k, rfl⟩)
      · exact .inl (by
          simpa [System.held, unprocessed, joins.queued, pending, none, incoming] using kept)
    · rw [handler] at aside
      obtain ⟨requests, pending, -, moved⟩ := aside.pending
      have queued : s'.handler.queuedRequests = rest := aside.queued
      have pending : s'.handler.pendingRequests = s.handler.pendingRequests ++ requests := pending
      left
      simp only [System.held, unprocessed, queued, pending, incoming, List.filterMap_append, moved,
        List.mem_append] at before ⊢
      tauto
  | readies _ _ _ request rest output _ removed _ handler incoming _ =>
    have moved := (swapRemove_perm removed).filterMap ProviderRequest.sender?
    have before : l ∈ s.unprocessed.filterMap BackendRequest.sender? ∨
        l ∈ (request :: rest).filterMap ProviderRequest.sender? := by
      rwa [System.held, List.mem_append, moved.mem_iff] at mem
    obtain ⟨k, v, key, -, done, -⟩ | ⟨-, sender, reply, own, eq, rfl⟩ :=
      BackendHandler.onReady_cases handler
    · rw [List.filterMap_cons, ProviderRequest.sender?_of_key? key] at before
      have queued : s'.handler.queuedRequests = s.handler.queuedRequests := done.queued
      have pending : s'.handler.pendingRequests = rest := done.pending
      left
      rwa [System.held, unprocessed, queued, pending, incoming, List.mem_append]
    · rw [List.filterMap_cons, own, List.mem_cons] at before
      have queued : s'.unprocessed = s.unprocessed := by rw [unprocessed, eq, incoming, unprocessed]
      have pending : s'.handler.pendingRequests = rest := by rw [eq]
      rw [System.held, queued, pending, List.mem_append]
      rcases before with message | rfl | request
      · exact .inl (.inl message)
      · exact .inr (.inr ⟨_, rfl, rfl⟩)
      · exact .inl (.inr request)
  | panics _ _ request rest _ _ removed _ bad _ handler incoming _ =>
    obtain ⟨⟨k, key⟩, -⟩ := BackendHandler.fetched_of_malformed bad
    have moved := (swapRemove_perm removed).filterMap ProviderRequest.sender?
    rw [List.filterMap_cons, ProviderRequest.sender?_of_key? key] at moved
    left
    rw [System.held, List.mem_append, moved.mem_iff] at mem
    rwa [System.held, unprocessed, handler, incoming, List.mem_append]

/-- Whoever is answered was waiting. -/
theorem Effect.answers {l : Sender} (effect : Effect revm s s' a out)
    (answers : Answers es s.handler) {e : Event} (mem : e ∈ out) (about : e.answers? = some l) :
    l ∈ s.held ∨ ∃ k, .accepted k l ∈ es := by
  cases effect with
  | quiet | sends | panics => simp at mem
  | handles _ _ req rest _ queue handler incoming _ =>
    obtain ⟨k, l', v, read, -, eq⟩ | ⟨k, l', h', read, -, joins, eq⟩ | ⟨-, -, updates⟩ :=
      BackendHandler.onRequest_cases { s.handler with queuedRequests := rest } req
    · obtain ⟨-, rfl⟩ := Prod.mk.inj (handler.symm.trans eq)
      obtain rfl := List.mem_singleton.mp mem
      obtain rfl : l' = l := by simpa [Event.answers?] using about
      have sender := BackendRequest.sender?_of_read? read
      exact .inl (by simp [System.held, unprocessed, queue, sender])
    · obtain ⟨-, rfl⟩ := Prod.mk.inj (handler.symm.trans eq)
      obtain rfl := List.mem_singleton.mp mem
      simp [Event.answers?] at about
    · rw [handler] at updates
      obtain ⟨k, v, rfl⟩ := updates e mem
      simp [Event.answers?] at about
  | readies _ _ _ request rest output _ removed _ handler incoming _ =>
    obtain ⟨k, v, key, -, done, rfl⟩ | ⟨-, sender, reply, own, eq, rfl⟩ :=
      BackendHandler.onReady_cases handler
    · rcases List.mem_cons.mp mem with rfl | mem
      · simp [Event.answers?] at about
      · obtain ⟨l', listed, rfl⟩ := List.mem_map.mp mem
        obtain rfl : l' = l := by simpa [Event.answers?] using about
        exact .inr ⟨k, ((answers.waits k l').mp listed).mem⟩
    · obtain rfl := List.mem_singleton.mp mem
      obtain rfl : sender = l := by simpa [Event.answers?] using about
      have moved := (swapRemove_perm removed).filterMap ProviderRequest.sender?
      rw [List.filterMap_cons, own] at moved
      exact .inl (by simp [System.held, moved.mem_iff])

/-- Nobody is forgotten: the channel waits in a message or with a request, was accepted for a
key, or was answered, once. -/
def Remembered (l : Sender) (es : List Event) (s : System) : Prop :=
  l ∈ s.held ∨ (∃ k, .accepted k l ∈ es) ∨ answersTo l es = 1

theorem Remembered.step {l : Sender} (remembered : Remembered l es s) (held : Holds es s)
    (answers : Answers es s.handler) (effect : Effect revm s s' a out) :
    Remembered l (es ++ out) s' := by
  by_cases accepted : ∃ k, .accepted k l ∈ es
  · obtain ⟨k, mem⟩ := accepted
    exact .inr (.inl ⟨k, by simp [mem]⟩)
  rcases remembered with mem | mem | answered
  · have unanswered := answersTo_eq_zero (held.silent l mem)
    rcases effect.held mem with kept | ⟨k, rfl⟩ | ⟨e, rfl, about⟩
    · exact .inl kept
    · exact .inr (.inl ⟨k, by simp⟩)
    · have once : answersTo l [e] = 1 := by simp [answersTo, about]
      exact .inr (.inr (by rw [answersTo_append, unanswered, once]))
  · exact absurd mem accepted
  · refine .inr (.inr ?_)
    have silent : answersTo l out = 0 := by
      simp only [answersTo, List.countP_eq_zero, decide_eq_true_eq]
      intro e mem about
      rcases effect.answers answers mem about with mem | before
      · exact absurd (answersTo_eq_zero (held.silent l mem)) (by omega)
      · exact accepted before
    rw [answersTo_append, answered, silent]

/-! ## The result -/

/-- From every state that some `SharedBackend` still holds on to, a number of steps of `poll`
that is known beforehand is enough to deal with everything, when the provider answers what is
polled and no code is malformed: then no message, no request and no listener is left, and each
channel that waited in a message, with a request or for a key has exactly one answer. -/
theorem everyone_answered {db : MemDb} {pinned : Option BlockId}
    (run : (machine revm).Run (spawn db pinned) es s) (connected : s.connected)
    (unfinished : s.pc ≠ .finished) (unpanicked : s.pc ≠ .panicked) {polls : List Action}
    (answering : ∀ a ∈ polls, Answering revm a) (enough : s.rank ≤ polls.length) :
    ∃ taken rest s' out, polls = taken ++ rest ∧
      (machine revm).exec taken s = some (s', out) ∧ s'.Drained ∧
      (∀ k, s'.handler.listeners k = none) ∧
      ∀ l, l ∈ s.held ∨ (∃ k, .accepted k l ∈ es) → answersTo l (es ++ out) = 1 := by
  have inRange : s.InRange := Machine.Run.invariant (P := fun _ s => s.InRange)
    (by simp [InRange, spawn]) (fun _ _ _ _ _ inRange eq => inRange.step eq) run
  obtain ⟨taken, rest, s', out, split, exec, running, drained⟩ := Machine.exec_of_rank
    (M := machine revm) (P := Running) (D := Drained) (A := Answering revm) rank
    (fun _ _ zero => drained_of_rank zero)
    (fun _ _ running undrained answering => running.lower undrained answering) answering enough
    ⟨connected, unfinished, unpanicked, inRange⟩
  have whole : (machine revm).Run (spawn db pinned) (es ++ out) s' :=
    run.append (Machine.run_of_exec taken exec)
  obtain ⟨consistent, -, answers⟩ := reachable_sound whole
  have nobody : ∀ k, s'.handler.listeners k = none := by
    intro k
    have notFlying : k ∉ s'.handler.inFlight := by simp [BackendHandler.inFlight, drained.pending]
    simpa using mt ((consistent running.unpanicked).listed k).mp notFlying
  refine ⟨taken, rest, s', out, split, exec, drained, nobody, fun l waits => ?_⟩
  obtain ⟨-, held, waited⟩ := reachable_sound run
  have remembered : Remembered l (es ++ out) s' := by
    refine (Machine.Run.invariant (M := machine revm) (P := fun out s =>
      Remembered l (es ++ out) s ∧ Holds (es ++ out) s ∧ Answers (es ++ out) s.handler)
      ?_ ?_ (Machine.run_of_exec taken exec)).1
    · rw [List.append_nil]
      exact ⟨waits.imp_right .inl, held, waited⟩
    · rintro before s a s' out ⟨remembered, held, answers⟩ eq
      have effect := step_effect eq
      rw [← List.append_assoc]
      exact ⟨remembered.step held answers effect, effect.accounted held answers⟩
  rcases remembered with mem | ⟨k, accepted⟩ | answered
  · simp [System.held, drained.unprocessed, drained.pending] at mem
  · refine answers.answered k l accepted fun waiting => ?_
    simpa [nobody k] using (answers.waits k l).mpr waiting
  · exact answered

/-- A backend that two callers wait on. -/
def twoWaiting : System := { incoming := [.anyRequest 0, .basic 7 1], created := 2 }

def provider : (request : ProviderRequest) → Option request.Output
  | .account _ _ => some (.ok (5, 0, []))
  | .storage _ _ _ => some (.ok 0)
  | .blockHash _ => some (.ok 0)
  | .fullBlock _ _ => some (.ok none)
  | .transaction _ _ => some (.error "unknown")
  | .anyRequest _ => some (.ok [])

theorem everyone_answered_two :
    ∃ taken rest s' out, List.replicate 40 (.poll provider) = taken ++ rest ∧
      (machine .unhashed).exec taken twoWaiting = some (s', out) ∧ s'.Drained ∧
      (∀ k, s'.handler.listeners k = none) ∧ answersTo 0 out = 1 ∧ answersTo 1 out = 1 := by
  have run : (machine .unhashed).Run (spawn {} none) [] twoWaiting :=
    Machine.run_of_exec [.call .anyRequest, .call (.basic 7)] rfl
  have answering : ∀ a ∈ List.replicate 40 (.poll provider), Answering .unhashed a := by
    intro a mem
    obtain rfl := List.eq_of_mem_replicate mem
    intro request
    cases request <;> exact ⟨_, rfl, rfl⟩
  obtain ⟨taken, rest, s', out, split, exec, drained, nobody, answered⟩ :=
    everyone_answered run rfl (by decide) (by decide) answering (by decide)
  exact ⟨taken, rest, s', out, split, exec, drained, nobody,
    answered 0 (.inl (by decide)), answered 1 (.inl (by decide))⟩

end System

end FoundryCore.ForkDb
