import FoundryCore.ForkDb.Inputs

/-!
# Listeners and requests in flight

Each key has at most one request in flight, and has one exactly when it has listeners. A
listener joins the list of its key once and leaves it with one answer, when the request for
the key completes. A malformed response ends this: the request is gone, and nobody is answered.
-/

open Std

namespace FoundryCore.ForkDb

open Library

/-! ## One request in flight for each key with listeners -/

namespace BackendHandler

variable {h h' : BackendHandler} {k : Key} {l : Sender} {v : DatabaseResult Value}

/-- The listener lists and the requests in flight agree. -/
structure Consistent (h : BackendHandler) : Prop where
  nodup : h.inFlight.Nodup
  listed : ∀ k, (h.listeners k).isSome ↔ k ∈ h.inFlight
  nonempty : ∀ k, h.listeners k ≠ some []

theorem Consistent.initial (db : MemDb) (blockId : Option BlockId) :
    Consistent { db, blockId } := by
  refine ⟨by simp [inFlight], fun k => ?_, fun k => ?_⟩ <;> cases k <;> simp [listeners, inFlight]

theorem Consistent.congr (c : h.Consistent) (listeners : h'.listeners = h.listeners)
    (pending : h'.inFlight.Perm h.inFlight) : h'.Consistent where
  nodup := pending.nodup_iff.mpr c.nodup
  listed k := by rw [listeners, c.listed, pending.mem_iff]
  nonempty k := by rw [listeners]; exact c.nonempty k

theorem Joins.inFlight (j : h.Joins k l h') :
    h'.inFlight = h.inFlight ++ if (h.listeners k).isSome then [] else [k] := by
  obtain ⟨requests, pending, keys, -⟩ := j.pending
  rw [BackendHandler.inFlight, pending, List.filterMap_append, keys, BackendHandler.inFlight]

theorem Consistent.joins (c : h.Consistent) (j : h.Joins k l h') : h'.Consistent := by
  refine ⟨?_, fun k' => ?_, fun k' => ?_⟩
  · rw [j.inFlight]
    split_ifs with listed
    · simpa using c.nodup
    · have absent : k ∉ h.inFlight := fun mem => listed ((c.listed k).mpr mem)
      simpa [List.nodup_append, c.nodup] using fun a mem (same : a = k) => absent (same ▸ mem)
  · rw [j.listeners, j.inFlight]
    by_cases same : k' = k
    · subst same
      by_cases listed : (h.listeners k').isSome
      · simpa [listed] using (c.listed k').mp listed
      · simp [listed]
    · rw [if_neg same, c.listed]
      split_ifs <;> simp [same]
  · rw [j.listeners]
    split_ifs
    · simp
    · exact c.nonempty k'

theorem Aside.inFlight {req : BackendRequest} (a : h.Aside req h') : h'.inFlight = h.inFlight := by
  obtain ⟨requests, pending, keys, -⟩ := a.pending
  rw [BackendHandler.inFlight, pending, List.filterMap_append, keys, List.append_nil,
    BackendHandler.inFlight]

/-- A request's key leaves the listener map with the request. -/
theorem Consistent.completes {g : BackendHandler} (c : h.Consistent)
    (listeners : g.listeners = h.listeners) (pending : h.inFlight.Perm (k :: g.inFlight))
    (done : g.Completes k v h') : h'.Consistent := by
  have keys : h'.inFlight = g.inFlight := by
    rw [BackendHandler.inFlight, done.pending, BackendHandler.inFlight]
  have distinct : k ∉ g.inFlight ∧ g.inFlight.Nodup :=
    List.nodup_cons.mp (pending.nodup_iff.mp c.nodup)
  refine ⟨keys ▸ distinct.2, fun k' => ?_, fun k' => ?_⟩
  · rw [done.listeners, keys, listeners]
    split_ifs with same
    · simpa [same] using distinct.1
    · rw [c.listed, pending.mem_iff]
      simp [same]
  · rw [done.listeners, listeners]
    split_ifs
    · simp
    · exact c.nonempty k'

end BackendHandler

/-- Every step without a malformed response keeps the lists and the requests in flight in
agreement. -/
theorem System.Effect.consistent {revm : Revm} {s s' : System} {a : Action}
    {out : List Event} (effect : System.Effect revm s s' a out) (fine : WellFormed revm s a)
    (c : s.handler.Consistent) : s'.handler.Consistent := by
  cases effect with
  | quiet _ _ listeners pending _ _ => exact c.congr listeners (pending.filterMap _)
  | sends _ _ _ _ handler _ => exact handler ▸ c
  | handles _ _ req rest _ _ handler _ _ =>
    have c' : BackendHandler.Consistent { s.handler with queuedRequests := rest } :=
      c.congr rfl .rfl
    obtain ⟨k, l, v, -, -, eq⟩ | ⟨k, l, h', -, -, joins, eq⟩ | ⟨-, aside, -⟩ :=
      BackendHandler.onRequest_cases { s.handler with queuedRequests := rest } req
    · rw [handler, Prod.mk.injEq] at eq
      exact eq.1 ▸ c'
    · rw [handler, Prod.mk.injEq] at eq
      exact eq.1 ▸ c'.joins joins
    · rw [handler] at aside
      exact c'.congr aside.listeners (List.Perm.of_eq aside.inFlight)
  | readies _ _ _ request rest output _ removed _ handler _ _ =>
    have pending := swapRemove_perm removed
    have keys := pending.filterMap ProviderRequest.key?
    obtain ⟨k, v, key, -, done, -⟩ | ⟨key, sender, reply, -, eq, -⟩ :=
      BackendHandler.onReady_cases handler
    · exact c.completes (g := { s.handler with pendingRequests := rest }) rfl
        (by simpa [BackendHandler.inFlight, key] using keys) done
    · refine eq ▸ c.congr rfl ?_
      simpa [BackendHandler.inFlight, key] using keys.symm
  | panics _ _ _ _ _ pc removed answer bad =>
    simp [fine _ _ (input_of_ready pc removed answer)] at bad

theorem System.consistent_of_step {revm : Revm} {s s' : System} {a : Action} {out : List Event}
    (eq : (System.machine revm).step s a = some (s', out))
    (c : s.pc ≠ .panicked → s.handler.Consistent) (calm : s'.pc ≠ .panicked) :
    s'.handler.Consistent :=
  (System.step_effect eq).consistent (System.wellFormed_of_step eq calm)
    (c fun pc => calm (System.panicked_of_step eq pc))

/-! ## Every accepted listener gets one answer -/

/-- The channel an event answers. -/
def Event.answers? : Event → Option Sender
  | .answered _ listener _ | .replied listener _ => some listener
  | .accepted _ _ | .completed _ | .updated _ _ => none

/-- The channel an event is about. -/
def Event.channel? : Event → Option Sender
  | .accepted _ listener | .answered _ listener _ | .replied listener _ => some listener
  | .completed _ | .updated _ _ => none

/-- The number of answers sent on a channel. -/
def answersTo (l : Sender) (es : List Event) : Nat := es.countP (·.answers? = some l)

/-- The listener was accepted for the key and the request for the key has not completed since. -/
abbrev Waits (k : Key) (l : Sender) (es : List Event) : Prop :=
  Open (.completed k) (.accepted k l) es

namespace System

/-- The channels that the handler has not dealt with. -/
def held (s : System) : List Sender :=
  s.unprocessed.filterMap BackendRequest.sender? ++
    s.handler.pendingRequests.filterMap ProviderRequest.sender?

/-- A channel is held in one place, and nothing was recorded about a channel that is held. -/
structure Holds (es : List Event) (s : System) : Prop where
  nodup : s.held.Nodup
  silent : ∀ l ∈ s.held, ∀ e ∈ es, e.channel? ≠ some l
  heldCreated : ∀ l ∈ s.held, l < s.created
  eventCreated : ∀ e ∈ es, ∀ l, e.channel? = some l → l < s.created

/-- The history and the listener lists agree on who waits, and a listener is answered once,
when it stops waiting. -/
structure Answers (es : List Event) (h : BackendHandler) : Prop where
  waits : ∀ k l, l ∈ (h.listeners k).getD [] ↔ Waits k l es
  nodup : ∀ k, ((h.listeners k).getD []).Nodup
  once : ∀ k l, es.count (.accepted k l) ≤ 1
  oneKey : ∀ k k' l, .accepted k l ∈ es → .accepted k' l ∈ es → k = k'
  unanswered : ∀ k l, Waits k l es → answersTo l es = 0
  answered : ∀ k l, .accepted k l ∈ es → ¬ Waits k l es → answersTo l es = 1

end System

@[simp] theorem answersTo_append (l : Sender) (es out : List Event) :
    answersTo l (es ++ out) = answersTo l es + answersTo l out := by
  simp [answersTo]

theorem answersTo_eq_zero {l : Sender} {es : List Event} (silent : ∀ e ∈ es, e.channel? ≠ some l) :
    answersTo l es = 0 := by
  simp only [answersTo, List.countP_eq_zero, decide_eq_true_eq]
  intro e mem answers
  apply silent e mem
  cases e <;> simp_all [Event.answers?, Event.channel?]

namespace System

variable {es out : List Event} {s s' : System} {h h' : BackendHandler} {u : List Sender}
  {k : Key} {l : Sender} {v : DatabaseResult Value}

/-- A step may record events about channels it takes out of the held ones and about channels
with a record. -/
theorem Holds.step (a : Holds es s) (held : s.held.Perm (u ++ s'.held))
    (created : s'.created = s.created)
    (about : ∀ e ∈ out, ∀ l, e.channel? = some l → l ∈ u ∨ ∃ e ∈ es, e.channel? = some l) :
    Holds (es ++ out) s' := by
  have split := List.nodup_append.mp (held.nodup_iff.mp a.nodup)
  have kept : ∀ l ∈ s'.held, l ∈ s.held := fun l mem => held.mem_iff.mpr (by simp [mem])
  refine ⟨split.2.1, fun l mem e he eq => ?_, fun l mem => created ▸ a.heldCreated l (kept l mem),
    fun e he l eq => ?_⟩
  · rcases List.mem_append.mp he with old | new
    · exact a.silent l (kept l mem) e old eq
    · rcases about e new l eq with taken | ⟨e', old, eq'⟩
      · exact split.2.2 l taken l mem rfl
      · exact a.silent l (kept l mem) e' old eq'
  · rw [created]
    rcases List.mem_append.mp he with old | new
    · exact a.eventCreated e old l eq
    · rcases about e new l eq with taken | ⟨e', old, eq'⟩
      · exact a.heldCreated l (held.mem_iff.mpr (by simp [taken]))
      · exact a.eventCreated e' old l eq'

/-- A message is sent with a channel that was not created before. -/
theorem Holds.sends (a : Holds es s) {call : Call} {sent : List BackendRequest}
    (queue : s'.unprocessed = s.unprocessed ++ sent)
    (fresh : sent = [] ∨ sent = [call.request s.created])
    (handler : s'.handler = s.handler) (created : s'.created = s.created + 1) :
    Holds es s' := by
  have held : s'.held.Perm (sent.filterMap BackendRequest.sender? ++ s.held) := by
    simp only [System.held, queue, handler, List.filterMap_append, ← List.append_assoc]
    exact List.perm_append_comm.append_right _
  have new : sent.filterMap BackendRequest.sender? = [] ∨
      sent.filterMap BackendRequest.sender? = [s.created] := by
    rcases fresh with rfl | rfl
    · simp
    · cases call <;> simp [Call.request, BackendRequest.sender?]
  have unused : s.created ∉ s.held := fun mem => lt_irrefl _ (a.heldCreated _ mem)
  have mem_held : ∀ l ∈ s'.held, l = s.created ∨ l ∈ s.held := by
    intro l mem
    have := held.mem_iff.mp mem
    rcases new with new | new <;> simp_all
  refine ⟨held.nodup_iff.mpr ?_, fun l mem e he eq => ?_, fun l mem => ?_, fun e he l eq => ?_⟩
  · rcases new with new | new
    · simpa [new] using a.nodup
    · simpa [new, unused] using a.nodup
  · rcases mem_held l mem with rfl | old
    · exact lt_irrefl _ (a.eventCreated e he _ eq)
    · exact a.silent l old e he eq
  · rw [created]
    rcases mem_held l mem with rfl | old
    · exact Nat.lt_succ_self _
    · exact (a.heldCreated l old).trans (Nat.lt_succ_self _)
  · exact created ▸ (a.eventCreated e he l eq).trans (Nat.lt_succ_self _)

/-- Events that accept nobody, complete nothing and answer only channels without a record. -/
theorem Answers.aside (a : Answers es h) (listeners : h'.listeners = h.listeners)
    (noAccept : ∀ k l, .accepted k l ∉ out) (noComplete : ∀ k, .completed k ∉ out)
    (fresh : ∀ e ∈ out, ∀ l, e.channel? = some l → ∀ e ∈ es, e.channel? ≠ some l) :
    Answers (es ++ out) h' := by
  have waits : ∀ k l, Waits k l (es ++ out) ↔ Waits k l es := by
    intro k l
    have : ¬ Waits k l out := fun h => noAccept k l h.mem
    simp [Waits, open_append, this, noComplete]
  have accepted : ∀ k l, .accepted k l ∈ es ++ out → .accepted k l ∈ es := by
    intro k l mem
    simpa [noAccept] using mem
  have silent : ∀ k l, .accepted k l ∈ es → answersTo l out = 0 := by
    intro k l mem
    exact answersTo_eq_zero fun e he eq => fresh e he l eq _ mem rfl
  refine ⟨fun k l => ?_, fun k => listeners ▸ a.nodup k, fun k l => ?_,
    fun k k' l mem mem' => a.oneKey k k' l (accepted k l mem) (accepted k' l mem'),
    fun k l waiting => ?_, fun k l mem waiting => ?_⟩
  · rw [waits, listeners, a.waits]
  · rw [List.count_append, List.count_eq_zero.mpr (noAccept k l)]
    exact a.once k l
  · rw [waits] at waiting
    rw [answersTo_append, a.unanswered k l waiting, silent k l waiting.mem]
  · rw [waits] at waiting
    rw [answersTo_append, a.answered k l (accepted k l mem) waiting, silent k l (accepted k l mem)]

/-- A channel without a record joins the listeners of a key. -/
theorem Answers.accepts (a : Answers es h)
    (listeners : ∀ k', h'.listeners k' =
      if k' = k then some ((h.listeners k).getD [] ++ [l]) else h.listeners k')
    (silent : ∀ e ∈ es, e.channel? ≠ some l) : Answers (es ++ [Event.accepted k l]) h' := by
  have waits : ∀ k' l', Waits k' l' (es ++ [Event.accepted k l]) ↔
      (k' = k ∧ l' = l) ∨ Waits k' l' es := by
    intro k' l'
    simp [Waits, open_append, open_singleton, eq_comm]
  have unwaiting : ∀ k', ¬ Waits k' l es := fun k' h => silent _ h.mem rfl
  have unaccepted : ∀ k', .accepted k' l ∉ es := fun k' h => silent _ h rfl
  have no_answer : ∀ l', answersTo l' [.accepted k l] = 0 := fun l' => by
    simp [answersTo, Event.answers?]
  refine ⟨fun k' l' => ?_, fun k' => ?_, fun k' l' => ?_, fun k₁ k₂ l' mem₁ mem₂ => ?_,
    fun k' l' waiting => ?_, fun k' l' mem waiting => ?_⟩
  · rw [listeners, waits, ← a.waits]
    by_cases same : k' = k
    · subst same
      simp [or_comm]
    · simp [same]
  · rw [listeners]
    split_ifs
    · have : l ∉ (h.listeners k).getD [] := fun mem => unwaiting k ((a.waits k l).mp mem)
      simpa [List.nodup_append, a.nodup k] using fun x mem (same : x = l) => this (same ▸ mem)
    · exact a.nodup k'
  · rw [List.count_append, List.count_singleton]
    split_ifs with same
    · obtain ⟨-, rfl⟩ : k = k' ∧ l = l' := by simpa using same
      rw [List.count_eq_zero.mpr (unaccepted k')]
    · exact a.once k' l'
  · have : ∀ k', .accepted k' l' ∈ es ++ [Event.accepted k l] →
        (k' = k ∧ l' = l) ∨ .accepted k' l' ∈ es := by
      intro k' mem
      simpa [or_comm] using mem
    rcases this k₁ mem₁ with ⟨rfl, rfl⟩ | old₁ <;> rcases this k₂ mem₂ with ⟨rfl, eq⟩ | old₂
    · rfl
    · exact absurd old₂ (unaccepted k₂)
    · exact absurd (eq ▸ old₁) (unaccepted k₁)
    · exact a.oneKey k₁ k₂ l' old₁ old₂
  · rw [answersTo_append, no_answer]
    rcases (waits k' l').mp waiting with ⟨rfl, rfl⟩ | old
    · rw [answersTo_eq_zero silent]
    · rw [a.unanswered k' l' old]
  · rw [waits, not_or] at waiting
    have old : .accepted k' l' ∈ es := by simpa [waiting.1] using mem
    rw [answersTo_append, no_answer, a.answered k' l' old waiting.2]

end System

namespace BackendHandler

variable {k k' : Key} {l : Sender} {ls : Option (List Sender)} {v : DatabaseResult Value}

theorem answersTo_notify : answersTo l (notify k ls v) = (ls.getD []).count l := by
  simp only [answersTo, notify, List.countP_cons, List.countP_map, List.count]
  simp [Event.answers?, Function.comp_def]
  rfl

theorem accepted_notMem_notify : .accepted k' l ∉ notify k ls v := by simp [notify]

theorem completed_mem_notify : .completed k' ∈ notify k ls v ↔ k' = k := by simp [notify]

end BackendHandler

namespace System

variable {es : List Event} {g h h' : BackendHandler} {k : Key} {v : DatabaseResult Value}

open BackendHandler in
/-- A completed request answers each listener of its key, and only those. -/
theorem Answers.completes (a : Answers es h)
    (listeners : ∀ k', h'.listeners k' = if k' = k then none else h.listeners k') :
    Answers (es ++ notify k (h.listeners k) v) h' := by
  have waits : ∀ k' l, Waits k' l (es ++ notify k (h.listeners k) v) ↔
      k' ≠ k ∧ Waits k' l es := by
    intro k' l
    have : ¬ Waits k' l (notify k (h.listeners k) v) := fun h => accepted_notMem_notify h.mem
    simp [Waits, open_append, this, completed_mem_notify, and_comm]
  have accepted : ∀ k' l, .accepted k' l ∈ es ++ notify k (h.listeners k) v →
      .accepted k' l ∈ es := by
    intro k' l mem
    simpa [accepted_notMem_notify] using mem
  -- who waits for another key, or waits no more, is not among the listeners of `k`
  have others : ∀ k' l, .accepted k' l ∈ es → ¬ (k' = k ∧ Waits k' l es) →
      answersTo l (notify k (h.listeners k) v) = 0 := by
    intro k' l mem other
    rw [answersTo_notify, List.count_eq_zero, a.waits]
    intro waiting
    have same := a.oneKey k k' l waiting.mem mem
    exact other ⟨same.symm, same ▸ waiting⟩
  refine ⟨fun k' l => ?_, fun k' => ?_, fun k' l => ?_,
    fun k₁ k₂ l mem₁ mem₂ => a.oneKey k₁ k₂ l (accepted k₁ l mem₁) (accepted k₂ l mem₂),
    fun k' l waiting => ?_, fun k' l mem waiting => ?_⟩
  · rw [listeners, waits, ← a.waits]
    by_cases same : k' = k <;> simp [same]
  · rw [listeners]
    split_ifs
    · simp
    · exact a.nodup k'
  · rw [List.count_append, List.count_eq_zero.mpr accepted_notMem_notify]
    exact a.once k' l
  · obtain ⟨other, old⟩ := (waits k' l).mp waiting
    rw [answersTo_append, a.unanswered k' l old, others k' l old.mem fun both => other both.1]
  · have old := accepted k' l mem
    rw [waits, not_and] at waiting
    by_cases now : k' = k ∧ Waits k' l es
    · obtain ⟨rfl, now⟩ := now
      rw [answersTo_append, a.unanswered k' l now, answersTo_notify,
        List.count_eq_one_of_mem (a.nodup k') ((a.waits k' l).mpr now)]
    · have done : ¬ Waits k' l es := by
        intro still
        by_cases same : k' = k
        · exact now ⟨same, still⟩
        · exact waiting same still
      rw [answersTo_append, a.answered k' l old done, others k' l old now]

/-- Every step keeps the account of channels and answers. -/
theorem Effect.accounted {revm : Revm} {s s' : System} {a : Action}
    {out : List Event} (effect : Effect revm s s' a out) (held : Holds es s)
    (a : Answers es s.handler) :
    Holds (es ++ out) s' ∧ Answers (es ++ out) s'.handler := by
  cases effect with
  | quiet _ queue listeners pending _ created =>
    refine ⟨held.step (u := []) ?_ created (by simp), a.aside listeners ?_ ?_ ?_⟩ <;> try simp
    rw [System.held, System.held, queue]
    exact (pending.symm.filterMap _).append_left _
  | sends call sent queue fresh handler created =>
    rw [List.append_nil]
    exact ⟨held.sends queue fresh handler created, handler ▸ a⟩
  | handles _ _ req rest _ queue handler incoming created =>
    have before : s.held = req.sender?.toList ++ ((rest ++ s.incoming).filterMap
        BackendRequest.sender? ++ s.handler.pendingRequests.filterMap ProviderRequest.sender?) := by
      simp only [System.held, unprocessed, queue, List.cons_append, List.filterMap_cons]
      cases req.sender? <;> simp
    obtain ⟨k, l, v, read, -, eq⟩ | ⟨k, l, h', read, -, joins, eq⟩ | ⟨-, aside, updates⟩ :=
      BackendHandler.onRequest_cases { s.handler with queuedRequests := rest } req
    · obtain ⟨eq, rfl⟩ := Prod.mk.inj (handler.symm.trans eq)
      have now : s.held = l :: s'.held := by
        rw [before, BackendRequest.sender?_of_read? read]
        simp [System.held, unprocessed, eq, incoming]
      refine ⟨held.step (u := [l]) (by simp [now]) created ?_,
        a.aside (by rw [eq]; rfl) (by simp) (by simp) ?_⟩
      · simp [Event.channel?]
      · simp only [List.mem_singleton, forall_eq, Event.channel?, Option.some.injEq]
        rintro _ rfl
        exact held.silent l (by simp [now])
    · obtain ⟨rfl, rfl⟩ := Prod.mk.inj (handler.symm.trans eq)
      obtain ⟨requests, pending, -, none⟩ := joins.pending
      have now : s.held = l :: s'.held := by
        rw [before, BackendRequest.sender?_of_read? read]
        simp [System.held, unprocessed, joins.queued, pending, none, incoming]
      refine ⟨held.step (u := [l]) (by simp [now]) created ?_, a.accepts ?_ ?_⟩
      · simp [Event.channel?]
      · exact joins.listeners
      · exact held.silent l (by simp [now])
    · rw [handler] at aside updates
      obtain ⟨requests, pending, -, moved⟩ := aside.pending
      have channel : ∀ e ∈ out, e.channel? = none := by
        intro e mem
        obtain ⟨k, v, rfl⟩ := updates e mem
        rfl
      refine ⟨held.step (u := []) ?_ created fun e mem l eq => ?_,
        a.aside aside.listeners (fun k l mem => ?_) (fun k mem => ?_) fun e mem l eq => ?_⟩
      · have grown : s'.handler.pendingRequests.filterMap ProviderRequest.sender? =
            s.handler.pendingRequests.filterMap ProviderRequest.sender? ++ req.sender?.toList := by
          rw [pending, List.filterMap_append, moved]
        rw [before, System.held, unprocessed, aside.queued, grown, incoming, List.nil_append,
          ← List.append_assoc _ _ req.sender?.toList]
        exact List.perm_append_comm
      · simp [channel e mem] at eq
      · obtain ⟨_, _, eq⟩ := updates _ mem
        simp at eq
      · obtain ⟨_, _, eq⟩ := updates _ mem
        simp at eq
      · simp [channel e mem] at eq
  | readies _ _ _ request rest output _ removed _ handler incoming created =>
    have pending := swapRemove_perm removed
    have moved := pending.filterMap ProviderRequest.sender?
    obtain ⟨k, v, key, -, done, rfl⟩ | ⟨-, sender, reply, own, eq, rfl⟩ :=
      BackendHandler.onReady_cases handler
    · have now : s.held.Perm s'.held := by
        rw [List.filterMap_cons, ProviderRequest.sender?_of_key? key] at moved
        rw [System.held, System.held, unprocessed, unprocessed, done.queued, done.pending, incoming]
        exact moved.append_left _
      refine ⟨held.step (u := []) now created fun e mem l eq => .inr ?_,
        a.completes done.listeners⟩
      have listed : l ∈ (s.handler.listeners k).getD [] := by
        rcases List.mem_cons.mp mem with rfl | mem
        · simp [Event.channel?] at eq
        · obtain ⟨l', listed, rfl⟩ := List.mem_map.mp mem
          cases eq
          exact listed
      exact ⟨_, ((a.waits k l).mp listed).mem, rfl⟩
    · have now : s.held.Perm ([sender] ++ s'.held) := by
        rw [List.filterMap_cons, own] at moved
        rw [System.held, System.held, unprocessed, unprocessed, eq, incoming]
        exact (moved.append_left _).trans List.perm_middle
      refine ⟨held.step now created ?_, a.aside (by rw [eq]; rfl) (by simp) (by simp) ?_⟩
      · simp [Event.channel?]
      · simp only [List.mem_singleton, forall_eq, Event.channel?, Option.some.injEq]
        rintro _ rfl
        exact held.silent sender (now.mem_iff.mpr (by simp))
  | panics _ _ request rest _ _ removed _ bad _ handler incoming created =>
    -- the request that is lost is one for a key, so it holds no channel itself
    obtain ⟨⟨k, key⟩, -⟩ := BackendHandler.fetched_of_malformed bad
    have moved := (swapRemove_perm removed).filterMap ProviderRequest.sender?
    rw [List.filterMap_cons, ProviderRequest.sender?_of_key? key] at moved
    have now : s.held.Perm s'.held := by
      rw [System.held, System.held, unprocessed, unprocessed, handler, incoming]
      exact moved.append_left _
    exact ⟨held.step (u := []) now created (by simp),
      a.aside (by rw [handler]; rfl) (by simp) (by simp) (by simp)⟩

end System

theorem Holds_spawn (db : MemDb) (pinned : Option BlockId) :
    System.Holds [] (System.spawn db pinned) := by
  refine ⟨?_, ?_, ?_, ?_⟩ <;> simp [System.held, System.unprocessed, System.spawn]

theorem Answers_spawn (db : MemDb) (pinned : Option BlockId) :
    System.Answers [] (System.spawn db pinned).handler := by
  refine ⟨fun k l => ?_, fun k => ?_, ?_, ?_, fun k l waiting => ?_, ?_⟩
  · have : ¬ Waits k l [] := not_open_nil
    cases k <;> simp [BackendHandler.listeners, System.spawn, this]
  · cases k <;> simp [BackendHandler.listeners, System.spawn]
  · simp
  · simp
  · exact absurd waiting not_open_nil
  · simp

/-- The invariants of the handler hold in every reachable state, the agreement of lists and
requests as long as it has not panicked. -/
theorem reachable_sound {revm : Revm} {db : MemDb} {pinned : Option BlockId}
    {es : List Event} {s : System}
    (run : (System.machine revm).Run (System.spawn db pinned) es s) :
    (s.pc ≠ .panicked → s.handler.Consistent) ∧ System.Holds es s ∧
      System.Answers es s.handler := by
  refine Machine.Run.invariant
    (P := fun es s => (s.pc ≠ .panicked → s.handler.Consistent) ∧ System.Holds es s ∧
      System.Answers es s.handler)
    ⟨fun _ => .initial db pinned, Holds_spawn db pinned, Answers_spawn db pinned⟩ ?_ run
  rintro es s a s' out ⟨consistent, held, answers⟩ eq
  exact ⟨System.consistent_of_step eq consistent, (System.step_effect eq).accounted held answers⟩

/-- A key has listeners exactly when one request for it is in flight, it never has two, and its
listener list is nonempty. In the history each listener that was accepted for a key has no answer
while the request for the key is in flight and exactly one after it completed. A read of a key is
answered if the database holds the key, and accepted if not. -/
structure ListenersSound (revm : Revm) (es : List Event) (s : System) : Prop where
  listed : ∀ k, (s.handler.listeners k).isSome ↔ s.handler.inFlight.count k = 1
  once : ∀ k, s.handler.inFlight.count k ≤ 1
  nonempty : ∀ k ls, s.handler.listeners k = some ls → ls ≠ []
  waiting : ∀ k l before after, es = before ++ Event.accepted k l :: after → .completed k ∉ after →
    answersTo l es = 0 ∧ ∃ ls, s.handler.listeners k = some ls ∧ l ∈ ls
  answered : ∀ k l before after, es = before ++ Event.accepted k l :: after → .completed k ∈ after →
    answersTo l es = 1
  reads : ∀ a s' out req k l, (System.machine revm).step s a = some (s', out) →
    s.input a = .message req → req.read? = some (k, l) →
    out = [match s.handler.db.get? k with
      | some v => .answered k l (.ok v)
      | none => .accepted k l]

theorem listenersSound_of_consistent {revm : Revm} {es : List Event} {s : System}
    (consistent : s.handler.Consistent) (answers : System.Answers es s.handler) :
    ListenersSound revm es s where
  listed k := by
    rw [consistent.listed]
    exact ⟨List.count_eq_one_of_mem consistent.nodup, fun one => List.count_pos_iff.mp (by omega)⟩
  once k := List.nodup_iff_count_le_one.mp consistent.nodup k
  nonempty k ls eq empty := consistent.nonempty k (empty ▸ eq)
  waiting k l before after split flying := by
    have waiting : Waits k l es := ⟨before, after, split, flying⟩
    refine ⟨answers.unanswered k l waiting, ?_⟩
    have listed := (answers.waits k l).mpr waiting
    cases eq : s.handler.listeners k with
    | none => simp [eq] at listed
    | some ls => exact ⟨ls, rfl, by simpa [eq] using listed⟩
  answered k l before after split completed := by
    subst split
    refine answers.answered k l (by simp) (not_open_of_closed (fun again => ?_) completed)
    have twice := answers.once k l
    have := List.count_pos_iff.mpr again
    simp only [List.count_append, List.count_cons_self] at twice
    omega
  reads a s' out req k l step input read := by
    have takes := System.step_takes step
    rw [input] at takes
    cases takes with
    | message _ rest _ _ _ handler =>
      obtain ⟨k', l', v, read', known, eq⟩ | ⟨k', l', h', read', unknown, -, eq⟩ | ⟨none, -⟩ :=
        BackendHandler.onRequest_cases { s.handler with queuedRequests := rest } req
      · obtain ⟨rfl, rfl⟩ : k' = k ∧ l' = l := by simpa [read'] using read
        obtain ⟨-, rfl⟩ := Prod.mk.inj (handler.symm.trans eq)
        rw [show s.handler.db.get? k' = some v from known]
      · obtain ⟨rfl, rfl⟩ : k' = k ∧ l' = l := by simpa [read'] using read
        obtain ⟨-, rfl⟩ := Prod.mk.inj (handler.symm.trans eq)
        rw [show s.handler.db.get? k' = none from unknown]
      · simp [none] at read

theorem listenersSound_spawn (revm : Revm) (db : MemDb) (pinned : Option BlockId) :
    ListenersSound revm [] (System.spawn db pinned) :=
  listenersSound_of_consistent (.initial db pinned) (Answers_spawn db pinned)

/-- As long as no malformed response is taken in, listeners and requests in flight agree, and
every listener gets its answer. -/
theorem listeners_sound {revm : Revm} {db : MemDb} {pinned : Option BlockId} {es : List Event}
    {s : System}
    (run : (System.machine revm).Guarded (fun _ => System.WellFormed revm)
      (System.spawn db pinned) es s) : ListenersSound revm es s := by
  refine listenersSound_of_consistent ?_ (reachable_sound run.run).2.2
  exact run.invariant (P := fun _ s => s.handler.Consistent) (.initial db pinned)
    fun _ _ _ _ _ consistent fine eq => (System.step_effect eq).consistent fine consistent

/-- A malformed response leaves the listeners of its key without a request. -/
theorem wellFormed_of_listenersSound {revm : Revm} {es : List Event} {s : System} {a : Action}
    (sound : ListenersSound revm es s)
    (reaching : (System.machine revm).Reaching (ListenersSound revm) es s a) :
    System.WellFormed revm s a := by
  intro request output input
  refine Bool.eq_false_iff.mpr fun bad => ?_
  obtain ⟨⟨k, key⟩, -⟩ := BackendHandler.fetched_of_malformed bad
  obtain ⟨ready, n, rest, rfl, pc, removed, answer⟩ := System.ready_of_input input
  have after := reaching _ _ (System.step_of_malformed pc removed answer bad)
  -- one request for the key was in flight, and none is after the step
  have keys := ((swapRemove_perm removed).filterMap ProviderRequest.key?).count_eq k
  rw [List.filterMap_cons, key, List.count_cons_self] at keys
  have before := (sound.listed k).mpr (Nat.le_antisymm (sound.once k) (by
    rw [BackendHandler.inFlight, keys]
    omega))
  have now := (after.listed k).mp before
  have most := sound.once k
  simp only [BackendHandler.inFlight] at now most keys
  omega

/-- The runs without a malformed response are those that keep the listeners sound all along. -/
theorem listeners_sound_iff {revm : Revm} {db : MemDb} {pinned : Option BlockId}
    {es : List Event} {s : System} :
    (System.machine revm).Guarded (fun _ => System.WellFormed revm) (System.spawn db pinned) es s ↔
      (System.machine revm).Guarded ((System.machine revm).Reaching (ListenersSound revm))
        (System.spawn db pinned) es s := by
  refine ⟨fun run => run.imp ?_, fun run => run.imp ?_⟩
  · intro es s a _ _ run fine _ s' out eq
    exact listeners_sound (run.step fine eq)
  · intro es s a _ _ run reaching _
    exact wellFormed_of_listenersSound
      (run.of_reaching (listenersSound_spawn revm db pinned)) reaching

/-- A slot, a block hash and an account are read, the account by two callers. -/
def reads : List Action :=
  [.call (.storage 1 2), .call (.blockHash 3), .call (.basic 1), .call (.basic 1)]

/-- The provider answers the requests, the one for the account with this code. -/
def answering (code : Bytes) : (request : ProviderRequest) → Option request.Output
  | .account _ _ => some (.ok (5, 0, code))
  | .storage _ _ _ => some (.error "unavailable")
  | .blockHash _ => some (.ok 7)
  | _ => none

theorem listeners_sound_iff_reads : ∃ es s, ListenersSound .unhashed es s ∧
    answersTo 0 es = 1 ∧ answersTo 1 es = 1 ∧ answersTo 2 es = 1 ∧ answersTo 3 es = 1 := by
  have history : ((System.machine .unhashed).exec
      (reads ++ List.replicate 17 (Action.poll (answering [1])))
        (System.spawn {} none)).map Prod.snd =
      some [.accepted (.storage 1 2) 0, .accepted (.blockHash 3) 1, .accepted (.account 1) 2,
        .accepted (.account 1) 3, .completed (.account 1),
        .answered (.account 1) 2 (.ok (.account ⟨5, 0, 0, none, some ⟨[1]⟩⟩)),
        .answered (.account 1) 3 (.ok (.account ⟨5, 0, 0, none, some ⟨[1]⟩⟩)),
        .completed (.blockHash 3), .answered (.blockHash 3) 1 (.ok (.hash 7)),
        .completed (.storage 1 2),
        .answered (.storage 1 2) 0 (.error (.getStorage 1 2 "unavailable"))] := by
    decide +kernel
  obtain ⟨⟨s, es⟩, eq, rfl⟩ := Option.map_eq_some_iff.mp history
  have allowed : (System.machine .unhashed).Allowed (fun _ => System.WellFormed .unhashed)
      (reads ++ List.replicate 17 (Action.poll (answering [1]))) [] (System.spawn {} none) := by
    refine Machine.allowed_of_forall fun a mem _ s => ?_
    rcases List.mem_append.mp mem with mem | mem
    · obtain ⟨call, rfl⟩ : ∃ call, a = .call call := by
        simp only [reads, List.mem_cons, List.not_mem_nil, or_false] at mem
        rcases mem with rfl | rfl | rfl | rfl <;> exact ⟨_, rfl⟩
      exact nofun
    · obtain rfl := List.eq_of_mem_replicate mem
      refine System.wellFormed_of_ready fun request output eq => ?_
      cases request <;> cases eq <;> rfl
  have run := Machine.guarded_of_exec _ eq allowed
  have sound := (listeners_sound_iff.mp run).of_reaching (listenersSound_spawn _ _ _)
  exact ⟨_, s, sound, sound.answered (.storage 1 2) 0 [] _ rfl (by simp),
    sound.answered (.blockHash 3) 1 [_] _ rfl (by simp),
    sound.answered (.account 1) 2 [_, _] _ rfl (by simp),
    sound.answered (.account 1) 3 [_, _, _] _ rfl (by simp)⟩

/-- The code of the account cannot be read: the handler panics, and all who wait are left without
an answer and without a request. -/
theorem listeners_unsound : ∃ es s,
    (System.machine .unhashed).Run (System.spawn {} none) es s ∧ s.pc = .panicked ∧
      s.handler.listeners (.account 1) = some [2, 3] ∧
      s.handler.inFlight.count (.account 1) = 0 ∧
      answersTo 2 es = 0 ∧ answersTo 3 es = 0 ∧ ¬ ListenersSound .unhashed es s := by
  have reached : ((System.machine .unhashed).exec
      (reads ++ List.replicate 15 (Action.poll (answering [0xef, 0x01])))
        (System.spawn {} none)).map
        (fun (s, es) => (s.pc, s.handler.listeners (.account 1),
          s.handler.inFlight.count (.account 1), answersTo 2 es, answersTo 3 es)) =
      some (.panicked, some [2, 3], 0, 0, 0) := by
    decide +kernel
  obtain ⟨⟨s, es⟩, eq, result⟩ := Option.map_eq_some_iff.mp reached
  simp only [Prod.mk.injEq] at result
  obtain ⟨pc, listed, flying, two, three⟩ := result
  refine ⟨es, s, Machine.run_of_exec _ eq, pc, listed, flying, two, three, fun sound => ?_⟩
  have one := (sound.listed (.account 1)).mp (by rw [listed]; rfl)
  omega

end FoundryCore.ForkDb
