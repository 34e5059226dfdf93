import FoundryCore.ForkDb.Handler

/-!
# What a step takes in

A step of the handler handles one message, takes in one response, or does neither. Runs can
then be observed through the inputs of the steps instead of the events they emit, and restricted
to the steps that take in no malformed response.
-/

namespace FoundryCore.ForkDb

open Library

/-- What a step takes in. -/
inductive Input
  | nothing
  | message (req : BackendRequest)
  | response (request : ProviderRequest) (output : request.Output)

namespace System

/-- What the next step takes in. -/
def input (s : System) : Action → Input
  | .call _ | .dropLast => .nothing
  | .poll ready =>
    match s.pc with
    | .drain =>
      match s.handler.queuedRequests with
      | [] => .nothing
      | req :: _ => .message req
    | .polling (n + 1) =>
      match swapRemove s.handler.pendingRequests n with
      | none => .nothing
      | some (request, _) =>
        match ready request with
        | none => .nothing
        | some output => .response request output
    | _ => .nothing

/-- What a step does with what it takes in. -/
inductive Takes (revm : Revm) (s s' : System) : Input → List Event → Prop
  | nothing (db : s'.handler.db = s.handler.db) (blockId : s'.handler.blockId = s.handler.blockId)
      (listeners : s'.handler.listeners = s.handler.listeners)
      (pending : s'.handler.pendingRequests.Perm s.handler.pendingRequests) :
      Takes revm s s' .nothing []
  | message (req : BackendRequest) (rest : List BackendRequest) (out : List Event)
      (pc : s.pc = .drain) (queue : s.handler.queuedRequests = req :: rest)
      (handler : { s.handler with queuedRequests := rest }.onRequest req = (s'.handler, out)) :
      Takes revm s s' (.message req) out
  | response (request : ProviderRequest) (rest : List ProviderRequest) (output : request.Output)
      (out : List Event) (pending : s.handler.pendingRequests.Perm (request :: rest))
      (handler : { s.handler with pendingRequests := rest }.onReady revm request output =
        some (s'.handler, out)) :
      Takes revm s s' (.response request output) out
  | malformed (request : ProviderRequest) (rest : List ProviderRequest) (output : request.Output)
      (pending : s.handler.pendingRequests.Perm (request :: rest))
      (bad : BackendHandler.malformed revm request output = true) (panicked : s'.pc = .panicked)
      (handler : s'.handler = { s.handler with pendingRequests := rest }) :
      Takes revm s s' (.response request output) []

variable {revm : Revm} {s s' : System} {a : Action} {out : List Event}

theorem step_takes (eq : (machine revm).step s a = some (s', out)) :
    Takes revm s s' (s.input a) out := by
  cases a with
  | call request =>
    simp only [machine, call] at eq
    split_ifs at eq
    all_goals
      obtain ⟨rfl, rfl⟩ := by simpa using eq
      exact .nothing rfl rfl rfl .rfl
  | dropLast =>
    simp only [machine] at eq
    split_ifs at eq
    obtain ⟨rfl, rfl⟩ := by simpa using eq
    exact .nothing rfl rfl rfl .rfl
  | poll ready =>
    simp only [machine, poll] at eq
    cases pc : s.pc with
    | idle =>
      obtain ⟨rfl, rfl⟩ := by simpa [pc] using eq
      simpa only [input, pc] using .nothing rfl rfl rfl .rfl
    | drain =>
      cases queue : s.handler.queuedRequests with
      | nil =>
        obtain ⟨rfl, rfl⟩ := by simpa [pc, queue] using eq
        simpa only [input, pc, queue] using .nothing rfl rfl rfl .rfl
      | cons req rest =>
        obtain ⟨rfl, rfl⟩ := by simpa [pc, queue] using eq
        simpa only [input, pc, queue] using .message req rest _ pc queue rfl
    | receive =>
      simp only [pc] at eq
      split at eq <;>
      · obtain ⟨rfl, rfl⟩ := by simpa using eq
        simpa only [input, pc] using .nothing rfl rfl rfl .rfl
    | finished | panicked => simp [pc] at eq
    | polling n =>
      cases n with
      | zero =>
        simp only [pc] at eq
        split at eq <;>
        · obtain ⟨rfl, rfl⟩ := by simpa using eq
          simpa only [input, pc] using .nothing rfl rfl rfl .rfl
      | succ n =>
        simp only [pc, pollRequest] at eq
        cases removed : swapRemove s.handler.pendingRequests n with
        | none =>
          obtain ⟨rfl, rfl⟩ := by simpa [removed] using eq
          simpa only [input, pc, removed] using .nothing rfl rfl rfl .rfl
        | some taken =>
          obtain ⟨request, rest⟩ := taken
          have pending := swapRemove_perm removed
          simp only [removed] at eq
          cases answer : ready request with
          | none =>
            obtain ⟨rfl, rfl⟩ := by simpa [answer] using eq
            simpa only [input, pc, removed, answer] using .nothing rfl rfl rfl
              ((List.perm_append_singleton request rest).trans pending.symm)
          | some output =>
            simp only [answer] at eq
            simp only [input, pc, removed, answer]
            split at eq
            · next handler out took =>
              obtain ⟨rfl, rfl⟩ := by simpa using eq
              exact .response request rest output _ pending took
            · next failed =>
              obtain ⟨rfl, rfl⟩ := by simpa using eq
              exact .malformed request rest output pending
                (BackendHandler.onReady_eq_none_iff.mp failed) rfl rfl

/-- Where a message comes from. -/
theorem queue_of_input {req : BackendRequest} (eq : s.input a = .message req) :
    s.pc = .drain ∧ ∃ rest, s.handler.queuedRequests = req :: rest := by
  cases a with
  | call | dropLast => cases eq
  | poll ready =>
    simp only [input] at eq
    split at eq
    · next pc =>
      split at eq
      · cases eq
      · next rest queue =>
        cases eq
        exact ⟨pc, rest, queue⟩
    · split at eq
      · cases eq
      · split at eq <;> cases eq
    · cases eq

/-! ## Well-formed responses -/

/-- No malformed response is about to be taken in. -/
def WellFormed (revm : Revm) (s : System) (a : Action) : Prop :=
  ∀ request output, s.input a = .response request output →
    BackendHandler.malformed revm request output = false

/-- A step without a malformed response is one that need not panic. -/
theorem wellFormed_of_step (eq : (machine revm).step s a = some (s', out))
    (calm : s'.pc ≠ .panicked) : WellFormed revm s a := by
  intro request output input
  have takes := step_takes eq
  rw [input] at takes
  cases takes with
  | response _ _ _ _ _ handler =>
    refine Bool.eq_false_iff.mpr fun bad => ?_
    simp [BackendHandler.onReady_eq_none_iff.mpr bad] at handler
  | malformed _ _ _ _ _ panicked => exact absurd panicked calm

/-- What the step takes in that polls a request which is ready. -/
theorem input_of_ready {ready} {n : Nat} {request : ProviderRequest} {rest : List ProviderRequest}
    {output : request.Output} (pc : s.pc = .polling (n + 1))
    (removed : swapRemove s.handler.pendingRequests n = some (request, rest))
    (answer : ready request = some output) :
    s.input (.poll ready) = .response request output := by
  simp only [input, pc, removed, answer]

/-- Where a response comes from. -/
theorem ready_of_input {request : ProviderRequest} {output : request.Output}
    (eq : s.input a = .response request output) :
    ∃ ready n rest, a = .poll ready ∧ s.pc = .polling (n + 1) ∧
      swapRemove s.handler.pendingRequests n = some (request, rest) ∧
      ready request = some output := by
  cases a with
  | call | dropLast => cases eq
  | poll ready =>
    simp only [input] at eq
    split at eq
    · split at eq <;> cases eq
    · next n pc =>
      split at eq
      · cases eq
      · next removed =>
        split at eq
        · cases eq
        · next answer =>
          cases eq
          exact ⟨ready, n, _, rfl, pc, removed, answer⟩
    · cases eq

/-- A provider whose responses are well-formed. -/
theorem wellFormed_of_ready {ready : (request : ProviderRequest) → Option request.Output}
    (fine : ∀ request output, ready request = some output →
      BackendHandler.malformed revm request output = false) : WellFormed revm s (.poll ready) := by
  intro request output eq
  obtain ⟨_, _, _, same, -, -, answer⟩ := ready_of_input eq
  cases same
  exact fine request output answer

end System

end FoundryCore.ForkDb
