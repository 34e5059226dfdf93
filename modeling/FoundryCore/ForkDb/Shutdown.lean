import FoundryCore.ForkDb.Inputs

/-!
# Shutting the backend down

A message passes through two queues, the channel and the handler's own queue, before it is
handled. The poll that finds the channel closed returns at once, so whatever it received on
the way stays in the handler's queue. What is lost is decided when the last `SharedBackend`
is dropped: the updates that are in the channel, or in the queue of a poll that is already
receiving. A message that is handled is in the database from then on, together with what is
fetched.
-/

open Std

namespace FoundryCore.ForkDb

open Library

/-- The messages that write to the database. -/
def BackendRequest.isUpdate : BackendRequest → Bool
  | .updateAddress _ | .updateStorage _ | .updateBlockHash _ => true
  | _ => false

/-- What a message leaves in the database for a key that held `old`. -/
def BackendRequest.leaves (k : Key) (old : Option Value) : BackendRequest → Option Value
  | .updateAddress data =>
    match k with
    | .account address => (data[address]?.map .account).or old
    | .storage _ _ | .blockHash _ => old
  | .updateStorage data =>
    match k with
    | .storage address idx =>
      match data[address]? with
      -- the slots of the account are replaced, whether they are named or not
      | some slots => slots[idx]?.map .slot
      | none => old
    | .account _ | .blockHash _ => old
  | .updateBlockHash data =>
    match k with
    | .blockHash number => (data[number]?.map .hash).or old
    | .account _ | .storage _ _ => old
  | _ => old

/-- A message enters the channel, the handler handles it, or takes in a value for a key. -/
inductive Passage
  | sent (req : BackendRequest)
  | handled (req : BackendRequest)
  | fetched (key : Key) (value : Value)

namespace Passage

def sent? : Passage → Option BackendRequest
  | .sent req => some req
  | .handled _ | .fetched _ _ => none

def handled? : Passage → Option BackendRequest
  | .handled req => some req
  | .sent _ | .fetched _ _ => none

/-- What is left in the database for a key that held `old`. -/
def leaves (k : Key) (old : Option Value) : Passage → Option Value
  | .sent _ => old
  | .handled req => req.leaves k old
  | .fetched k' v => if k' = k then some v else old

/-- Every update that was sent has been handled, in the order of sending. -/
def Lossless (es : List Passage) : Prop :=
  (es.filterMap handled?).filter (·.isUpdate) = (es.filterMap sent?).filter (·.isUpdate)

end Passage

/-- Every update that was sent has been applied: it was handled, in the order of sending, and the
database holds what the handled messages and the fetches left. -/
structure Applied (db₀ : MemDb) (es : List Passage) (db : MemDb) : Prop where
  lossless : Passage.Lossless es
  content : ∀ k, db.get? k = es.foldl (Passage.leaves k) (db₀.get? k)

namespace System

variable {revm : Revm} {s s' : System} {a : Action} {es seen : List Passage}

/-- The messages that enter the channel or are handled when `a` is taken in `s`, and the value
that is taken in. -/
def passages (revm : Revm) (s : System) : Action → List Passage
  | .call call => if s.pc = .panicked then [] else [.sent (call.request s.created)]
  | .dropLast => []
  | .poll ready =>
    match s.input (.poll ready) with
    | .nothing => []
    | .message req => [.handled req]
    | .response request output =>
      match request.key?, BackendHandler.fetched revm request output with
      | some k, some v => [.fetched k v]
      | _, _ => []

/-- The fork backend with its message passages for events. -/
abbrev shutdown (revm : Revm) : Library.Machine System Action Passage :=
  (machine revm).observed (passages revm)

theorem passages_poll (ready : (request : ProviderRequest) → Option request.Output) :
    (s.passages revm (.poll ready)).filterMap Passage.sent? = [] ∧
      (s.passages revm (.poll ready)).filterMap Passage.handled? =
        if s.pc = .drain then s.handler.queuedRequests.head?.toList else [] := by
  by_cases pc : s.pc = .drain
  · cases queue : s.handler.queuedRequests <;>
      simp [passages, input, pc, queue, Passage.sent?, Passage.handled?]
  · rw [if_neg pc, passages]
    split
    · exact ⟨rfl, rfl⟩
    · next message => exact absurd (queue_of_input message).1 pc
    · split <;> exact ⟨rfl, rfl⟩

/-! ## What reaches the database -/

theorem onRequest_leaves (h : BackendHandler) (req : BackendRequest) (k : Key) :
    (h.onRequest req).1.db.get? k = req.leaves k (h.db.get? k) := by
  cases req with
  | updateAddress data =>
    cases k with
    | account address =>
      cases entry : data[address]? <;>
        simp [BackendHandler.onRequest, BackendRequest.leaves, MemDb.get?,
          getElem?_insertMany_toList, entry]
    | _ => rfl
  | updateStorage data =>
    cases k with
    | storage address idx =>
      cases entry : data[address]? <;>
        simp [BackendHandler.onRequest, BackendRequest.leaves, MemDb.get?,
          getElem?_insertMany_toList, entry]
    | _ => rfl
  | updateBlockHash data =>
    cases k with
    | blockHash number =>
      cases entry : data[number]? <;>
        simp [BackendHandler.onRequest, BackendRequest.leaves, MemDb.get?,
          getElem?_insertMany_toList, entry]
    | _ => rfl
  | basic | storage | blockHash =>
    obtain ⟨_, _, _, -, -, eq⟩ | ⟨_, _, _, -, -, joins, eq⟩ | ⟨none, -⟩ := h.onRequest_cases _
    · rw [eq]
      rfl
    · rw [eq, joins.db]
      rfl
    · cases none
  | _ => rfl

/-- A step leaves in the database what passes. -/
theorem step_leaves {out : List Event} (step : (machine revm).step s a = some (s', out)) (k : Key) :
    s'.handler.db.get? k =
      (s.passages revm a).foldl (Passage.leaves k) (s.handler.db.get? k) := by
  have takes := step_takes step
  cases a with
  | call request =>
    cases takes with
    | nothing db =>
      rw [db, passages]
      split_ifs <;> rfl
  | dropLast =>
    cases takes with
    | nothing db =>
      rw [db]
      rfl
  | poll ready =>
    rw [passages]
    generalize s.input (.poll ready) = input at takes
    cases takes with
    | nothing db =>
      rw [db]
      rfl
    | message req rest _ _ _ handler =>
      have leaves := onRequest_leaves { s.handler with queuedRequests := rest } req k
      rw [handler] at leaves
      exact leaves
    | response request rest output _ _ handler =>
      obtain ⟨k', v, key, brought, done, -⟩ | ⟨key, _, _, -, eq, -⟩ :=
        BackendHandler.onReady_cases handler
      · rw [done.db]
        dsimp only
        rw [key, ← brought]
        cases v with
        | error => rfl
        | ok v => simp [Passage.leaves, Except.toOption, eq_comm]
      · rw [eq]
        dsimp only
        rw [key]
        rfl
    | malformed request rest output _ bad _ handler =>
      obtain ⟨⟨k', key⟩, none⟩ := BackendHandler.fetched_of_malformed bad
      rw [handler]
      dsimp only
      rw [key, none]
      rfl

/-! ## Messages in transit -/

theorem onRequest_queuedRequests (h : BackendHandler) (req : BackendRequest) :
    (h.onRequest req).1.queuedRequests = h.queuedRequests := by
  cases req <;> simp only [BackendHandler.onRequest] <;> (try split) <;>
    simp only [BackendHandler.requestAccount, BackendHandler.requestAccountStorage,
      BackendHandler.requestHash, BackendHandler.requestFullBlock,
      BackendHandler.requestTransaction] <;> (try split) <;> rfl

theorem pollRequest_frame {ready : (request : ProviderRequest) → Option request.Output} {n : ℕ}
    {out : List Event} (polled : s.pollRequest revm ready n = (s', out)) :
    (s'.pc = .polling n ∨ s'.pc = .panicked) ∧ s'.incoming = s.incoming ∧
    s'.handler.queuedRequests = s.handler.queuedRequests ∧ s'.connected = s.connected := by
  unfold pollRequest at polled
  split at polled
  · obtain ⟨rfl, -⟩ := Prod.mk.inj polled
    exact ⟨Or.inr rfl, rfl, rfl, rfl⟩
  · split at polled
    · dsimp only at polled
      split at polled
      · next took =>
        obtain ⟨rfl, -⟩ := Prod.mk.inj polled
        exact ⟨Or.inl rfl, rfl, (BackendHandler.onReady_frame took).1, rfl⟩
      · obtain ⟨rfl, -⟩ := Prod.mk.inj polled
        exact ⟨Or.inr rfl, rfl, rfl, rfl⟩
    · obtain ⟨rfl, -⟩ := Prod.mk.inj polled
      exact ⟨Or.inl rfl, rfl, rfl, rfl⟩

/-- A step of `poll` handles the front of the queue, moves the front of the channel to the end
of the queue, finishes, or leaves both alone. -/
theorem poll_cases {ready : (request : ProviderRequest) → Option request.Output}
    {out : List Event} (step : s.poll revm ready = some (s', out)) :
    s.pc ≠ .finished ∧ s'.connected = s.connected ∧
    ((∃ req, s.pc = .drain ∧ s'.pc = .drain ∧ s'.incoming = s.incoming ∧
        s.handler.queuedRequests = req :: s'.handler.queuedRequests) ∨
      (∃ req, s.pc = .receive ∧ s'.pc = .receive ∧ s.incoming = req :: s'.incoming ∧
        s'.handler.queuedRequests = s.handler.queuedRequests ++ [req]) ∨
      (s.pc = .receive ∧ s'.pc = .finished ∧ s.connected = false ∧ s.incoming = [] ∧
        s'.incoming = [] ∧ s'.handler.queuedRequests = s.handler.queuedRequests) ∨
      ((s.pc = .drain ∨ s'.pc = .receive → s.handler.queuedRequests = []) ∧
        (s.pc = .receive → s.connected = true) ∧ s'.pc ≠ .finished ∧
        s'.incoming = s.incoming ∧ s'.handler.queuedRequests = s.handler.queuedRequests)) := by
  unfold poll at step
  split at step
  case h_1 pc =>
    obtain ⟨rfl, -⟩ := by simpa using step
    simp [pc]
  case h_2 pc =>
    split at step
    case h_1 empty =>
      obtain ⟨rfl, -⟩ := by simpa using step
      simp [pc, empty]
    case h_2 req rest front =>
      obtain ⟨rfl, -⟩ := by simpa using step
      simp [pc, front, onRequest_queuedRequests]
  case h_3 pc =>
    split at step
    case h_1 req rest front =>
      obtain ⟨rfl, -⟩ := by simpa using step
      simp [pc, front]
    case h_2 empty connected =>
      obtain ⟨rfl, -⟩ := by simpa using step
      simp [pc, connected]
    case h_3 empty closed =>
      obtain ⟨rfl, -⟩ := by simpa using step
      simp [pc, empty, closed]
  case h_4 pc =>
    split at step
    · obtain ⟨rfl, -⟩ := by simpa using step
      simp [pc]
    · obtain ⟨rfl, -⟩ := by simpa using step
      simp [pc]
  case h_5 n pc =>
    obtain ⟨moved | moved, incoming, queue, connected⟩ :=
      pollRequest_frame (Option.some.inj step)
    · simp [pc, moved, queue, incoming, connected]
    · simp [pc, moved, queue, incoming, connected]
  case h_6 => cases step
  case h_7 => cases step

/-- The handler returns only once the channel is closed and empty. -/
def Closed (s : System) : Prop := s.pc = .finished → s.connected = false ∧ s.incoming = []

/-- No update is in the channel, nor in the queue of a poll that has passed the drain loop. -/
def Quiet (s : System) : Prop :=
  s.incoming.filter (·.isUpdate) = [] ∧
    (s.pc = .receive ∨ s.pc = .finished → s.handler.queuedRequests.filter (·.isUpdate) = [])

/-- Messages leave the two queues in the order in which they enter. -/
theorem step_transit (closed : s.Closed)
    (taken : (shutdown revm).step s a = some (s', seen)) :
    s.handler.queuedRequests ++ s.incoming ++ seen.filterMap Passage.sent? =
      seen.filterMap Passage.handled? ++ (s'.handler.queuedRequests ++ s'.incoming) ∧
    s'.Closed := by
  obtain ⟨⟨out, step⟩, rfl⟩ := Machine.observed_step.mp taken
  cases a with
  | call request =>
    simp only [machine, call, Option.ite_none_right_eq_some, Option.some.injEq,
      Prod.mk.injEq] at step
    obtain ⟨connected, rfl, -⟩ := step
    have running : s.pc ≠ .finished := fun finished => by simp [(closed finished).1] at connected
    by_cases panicked : s.pc = .panicked
    · simp [passages, Closed, panicked]
    · simp [passages, Passage.sent?, Passage.handled?, Closed, running, panicked]
  | dropLast =>
    simp only [machine, Option.ite_none_right_eq_some, Option.some.injEq, Prod.mk.injEq] at step
    obtain ⟨connected, rfl, -⟩ := step
    have running : s.pc ≠ .finished := fun finished => by simp [(closed finished).1] at connected
    simp [passages, Closed, running]
  | poll ready =>
    obtain ⟨running, kept, ⟨req, pc, pc', incoming, queue⟩ | ⟨req, pc, pc', incoming, queue⟩ |
      ⟨pc, pc', gone, empty, incoming, queue⟩ | ⟨drained, -, running', incoming, queue⟩⟩ :=
      poll_cases step
    all_goals rw [(passages_poll ready).1, (passages_poll ready).2]
    · simp [pc, pc', incoming, queue, Closed]
    · simp [pc, pc', incoming, queue, Closed]
    · simp [pc, gone, empty, incoming, queue, kept, Closed]
    · have none : (if s.pc = .drain then s.handler.queuedRequests.head?.toList else []) = [] := by
        split_ifs with pc
        · simp [drained (Or.inl pc)]
        · rfl
      simp [none, incoming, queue, Closed, running']

/-- Once the last `SharedBackend` is gone no step changes what will be lost. -/
theorem quiet_step (gone : s.connected = false)
    (taken : (shutdown revm).step s a = some (s', seen)) :
    s'.connected = false ∧ (s'.Quiet ↔ s.Quiet) := by
  obtain ⟨⟨out, step⟩, rfl⟩ := Machine.observed_step.mp taken
  cases a with
  | call request => simp [machine, call, gone] at step
  | dropLast => simp [machine, gone] at step
  | poll ready =>
    obtain ⟨running, kept, ⟨req, pc, pc', incoming, queue⟩ | ⟨req, pc, pc', incoming, queue⟩ |
      ⟨pc, pc', -, empty, incoming, queue⟩ | ⟨drained, receiving, running', incoming, queue⟩⟩ :=
      poll_cases step
    · simp [Quiet, pc, pc', incoming, kept, gone]
    · refine ⟨kept.trans gone, ?_⟩
      simp only [Quiet, pc, pc', incoming, queue, List.filter_append, List.append_eq_nil_iff]
      cases update : req.isUpdate <;> simp [update]
    · simp [Quiet, pc, pc', empty, incoming, queue, kept, gone]
    · have passed : s.pc ≠ .receive := fun pc => by simp [receiving pc] at gone
      refine ⟨kept.trans gone, ?_⟩
      simp only [Quiet, incoming, queue, passed, running, running', or_false,
        or_self, false_implies, and_true]
      exact and_iff_left_of_imp fun _ pc' => by simp [drained (Or.inr pc')]

/-! ## Finished runs -/

theorem run_transit {db : MemDb} {pinned : Option BlockId}
    (run : (shutdown revm).Run (spawn db pinned) es s) :
    es.filterMap Passage.sent? =
      es.filterMap Passage.handled? ++ (s.handler.queuedRequests ++ s.incoming) ∧ s.Closed := by
  refine Machine.Run.invariant (P := fun es s => es.filterMap Passage.sent? =
    es.filterMap Passage.handled? ++ (s.handler.queuedRequests ++ s.incoming) ∧ s.Closed)
    ⟨rfl, fun finished => by simp [spawn] at finished⟩ ?_ run
  intro es s a s' seen ⟨transit, closed⟩ taken
  obtain ⟨moved, closed'⟩ := step_transit closed taken
  refine ⟨?_, closed'⟩
  rw [List.filterMap_append, List.filterMap_append, transit, List.append_assoc, moved,
    List.append_assoc]

/-- The database holds what passed. -/
theorem run_leaves {db : MemDb} {pinned : Option BlockId}
    (run : (shutdown revm).Run (spawn db pinned) es s) (k : Key) :
    s.handler.db.get? k = es.foldl (Passage.leaves k) (db.get? k) := by
  refine Machine.Run.invariant (P := fun es s =>
    s.handler.db.get? k = es.foldl (Passage.leaves k) (db.get? k)) rfl ?_ run
  intro es s a s' seen holds taken
  obtain ⟨⟨out, step⟩, rfl⟩ := Machine.observed_step.mp taken
  rw [step_leaves step k, List.foldl_append, holds]

/-- What a finished run has lost is what its queue still holds. -/
theorem applied_iff_of_finished {db : MemDb} {pinned : Option BlockId}
    (run : (shutdown revm).Run (spawn db pinned) es s) (finished : s.pc = .finished) :
    Applied db es s.handler.db ↔ s.Quiet := by
  obtain ⟨transit, closed⟩ := run_transit run
  obtain ⟨-, empty⟩ := closed finished
  have lossless : Passage.Lossless es ↔ s.Quiet := by
    rw [Passage.Lossless, transit]
    simp [Quiet, finished, empty]
  exact ⟨fun applied => lossless.mp applied.lossless,
    fun quiet => ⟨lossless.mpr quiet, run_leaves run⟩⟩

/-- The last `SharedBackend` is dropped while no update is on its way. -/
def QuietDrop (_ : List Passage) (s : System) : Action → Prop
  | .dropLast => s.Quiet
  | .call _ | .poll _ => True

/-- A backend whose last handle is dropped while no update is on its way finishes with every
update applied. -/
theorem shutdown_lossless {db : MemDb} {pinned : Option BlockId}
    (run : (shutdown revm).Guarded QuietDrop (spawn db pinned) es s)
    (finished : s.pc = .finished) : Applied db es s.handler.db := by
  have quiet : s.connected = false → s.Quiet := by
    refine Machine.Guarded.invariant (P := fun _ s => s.connected = false → s.Quiet)
      (fun gone => by simp [spawn] at gone) ?_ run
    intro _ s a s' _ quiet guard taken gone'
    by_cases gone : s.connected = false
    · exact (quiet_step gone taken).2.mpr (quiet gone)
    · obtain ⟨⟨out, step⟩, -⟩ := Machine.observed_step.mp taken
      cases a with
      | call request =>
        simp only [machine, call, Option.ite_none_right_eq_some, Option.some.injEq,
          Prod.mk.injEq] at step
        obtain ⟨-, rfl, -⟩ := step
        exact absurd gone' gone
      | dropLast =>
        simp only [machine, Option.ite_none_right_eq_some, Option.some.injEq,
          Prod.mk.injEq] at step
        obtain ⟨-, rfl, -⟩ := step
        exact guard
      | poll ready =>
        obtain ⟨-, kept, -⟩ := poll_cases step
        exact absurd (kept.symm.trans gone') gone
  have gone := ((run_transit run.run).2 finished).1
  exact (applied_iff_of_finished run.run finished).mpr (quiet gone)

/-- Sets the hash of block 3. -/
def setHash : Call := .insertOrUpdateBlockHashes (ExtTreeMap.empty.insert 3 7)

/-- A poll that takes an update from the channel goes on to handle it when the last handle is
still alive. -/
theorem shutdown_lossless_handled : ∃ es s, (shutdown .unhashed).Run (spawn {} none) es s ∧
    s.pc = .finished ∧ Applied {} es s.handler.db ∧
      s.handler.db.get? (.blockHash 3) = some (.hash 7) := by
  let poll : Action := .poll fun _ => none
  have finishes : ((shutdown .unhashed).exec [.call setHash, poll, poll, poll, poll, poll, poll,
      .dropLast, poll, poll] (spawn {} none)).map
        (fun (s, _) => (s.pc, s.handler.db.get? (.blockHash 3))) =
      some (.finished, some (.hash 7)) := by
    decide +kernel
  obtain ⟨⟨s, es⟩, eq, result⟩ := Option.map_eq_some_iff.mp finishes
  obtain ⟨finished, stored⟩ := Prod.mk.inj result
  have run : (shutdown .unhashed).Guarded QuietDrop (spawn {} none) es s :=
    Machine.guarded_of_exec _ eq ⟨trivial, trivial, trivial, trivial, trivial, trivial, trivial,
      ⟨rfl, fun _ => rfl⟩, trivial, trivial, trivial⟩
  exact ⟨es, s, run.run, finished, shutdown_lossless run finished, stored⟩

/-- The update is still in the channel when the last handle is dropped; the poll that receives
it finds the channel closed and returns. -/
theorem shutdown_not_lossless :
    ∃ es s, (shutdown .unhashed).Run (spawn {} none) es s ∧ s.pc = .finished ∧
      s.handler.db.get? (.blockHash 3) = none ∧ ¬ Applied {} es s.handler.db := by
  refine ⟨[.sent (setHash.request 0)],
    ⟨{ queuedRequests := [setHash.request 0] }, .finished, [], false, 1⟩,
    Machine.run_of_exec [.call setHash, .dropLast,
      .poll fun _ => none, .poll fun _ => none, .poll fun _ => none, .poll fun _ => none] rfl,
    rfl, by decide, fun applied => ?_⟩
  exact List.cons_ne_nil _ _ applied.lossless.symm

/-- A finished run has applied every update exactly when the drop was quiet, whatever came before
and after. -/
theorem lossless_iff_quiet {db : MemDb} {pinned : Option BlockId} {t t' : System}
    {before after : List Passage}
    (run : (shutdown revm).Run (spawn db pinned) before t)
    (drop : (shutdown revm).step t .dropLast = some (t', seen))
    (rest : (shutdown revm).Run t' after s) (finished : s.pc = .finished) :
    Applied db (before ++ seen ++ after) s.handler.db ↔ t.Quiet := by
  have after_drop : t'.connected = false ∧ (t'.Quiet ↔ t.Quiet) := by
    obtain ⟨⟨out, step⟩, -⟩ := Machine.observed_step.mp drop
    simp only [machine, Option.ite_none_right_eq_some, Option.some.injEq, Prod.mk.injEq] at step
    obtain ⟨-, rfl, -⟩ := step
    exact ⟨rfl, Iff.rfl⟩
  have quiet : s.connected = false ∧ (s.Quiet ↔ t.Quiet) := by
    refine Machine.Run.invariant (P := fun _ s => s.connected = false ∧ (s.Quiet ↔ t.Quiet))
      after_drop ?_ rest
    rintro _ s a s' _ ⟨gone, same⟩ taken
    obtain ⟨gone', same'⟩ := quiet_step gone taken
    exact ⟨gone', same'.trans same⟩
  rw [← quiet.2]
  exact applied_iff_of_finished (Machine.Run.append (Machine.Run.step run drop) rest) finished

end System

end FoundryCore.ForkDb
