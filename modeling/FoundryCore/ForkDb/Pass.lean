import FoundryCore.ForkDb.Inputs
import Mathlib.Data.List.Perm.Basic

/-!
# A pass over the pending requests

`poll` goes down the pending requests by their index. It takes the request at the index out with
`swap_remove`, and puts it back at the end unless it is ready. So below the index there is always
what was there when the pass began, and the requests that were polled already are behind it.

Requests may look alike, so here each carries the place that it had when the pass began. A
malformed response ends the pass: what is below the index is not polled any more.
-/

namespace FoundryCore.ForkDb

open Library

theorem swapRemove_map {α β : Type*} (f : α → β) (xs : List α) (n : Nat) :
    swapRemove (xs.map f) n = (swapRemove xs n).map (Prod.map f (List.map f)) := by
  cases at_n : xs[n]? with
  | none => simp [swapRemove, at_n]
  | some x => simp [swapRemove, at_n, List.map_dropLast, List.map_set]

/-- The request from a place is polled. -/
structure Polled where
  place : Nat
  ready : Bool

namespace System

variable {revm : Revm} {s s' : System} {places places' : List Nat} {a : Action}
  {xs : List ProviderRequest} {es seen : List Polled} {n : Nat}

/-- Moves the places along with the pending requests when `a` is taken in `s`. -/
def follow (s : System) : Action → List Nat → List Nat × List Polled
  | .call _, places | .dropLast, places => (places, [])
  | .poll ready, places =>
    match s.pc with
    | .polling (n + 1) =>
      match s.handler.pendingRequests[n]?, swapRemove places n with
      | some request, some (place, rest) =>
        if (ready request).isSome then (rest, [⟨place, true⟩])
        else (rest ++ [place], [⟨place, false⟩])
      | _, _ => (places, [])
    | _ => (places, [])

/-- The fork backend beside the places of the pending requests. -/
abbrev placed (revm : Revm) : Library.Machine (System × List Nat) Action Polled :=
  (machine revm).recorded follow

/-- The pass goes on, the step is not the one after the last request, and takes in no malformed
response. -/
def FinePass (revm : Revm) (_ : List Polled) (t : System × List Nat) (a : Action) : Prop :=
  t.1.pc ≠ .polling 0 ∧ WellFormed revm t.1 a

/-- How a pass over the requests `xs` stands when those below `n` remain to be polled. -/
structure Passing (xs : List ProviderRequest) (n : Nat) (es : List Polled) (s : System)
    (places : List Nat) : Prop where
  pc : s.pc = .polling n
  bound : n ≤ xs.length
  holds : s.handler.pendingRequests.map some = places.map (xs[·]?)
  polled : es.map Polled.place = ((List.range xs.length).drop n).reverse
  kept : ∃ rest, places = List.range n ++ rest ∧
    rest.Perm ((es.filter (!·.ready)).map Polled.place)

/-- The request below the index is there, it is the one with that place, and taking it out leaves
what is below. -/
theorem Passing.removed (passing : Passing xs (n + 1) es s places) :
    ∃ request rest moved, s.handler.pendingRequests[n]? = some request ∧
      swapRemove s.handler.pendingRequests n = some (request, rest) ∧ xs[n]? = some request ∧
      swapRemove places n = some (n, List.range n ++ moved) ∧
      rest.map some = (List.range n ++ moved).map (xs[·]?) ∧
      moved.Perm ((es.filter (!·.ready)).map Polled.place) := by
  obtain ⟨before, rfl, perm⟩ := passing.kept
  obtain ⟨moved, removed, swapped⟩ := swapRemove_append (List.range n) before n
  rw [List.length_range, ← List.singleton_append, ← List.append_assoc,
    ← List.range_succ] at removed
  have both := swapRemove_map some s.handler.pendingRequests n
  rw [passing.holds, swapRemove_map, removed] at both
  obtain ⟨⟨request, rest⟩, taken, same⟩ := Option.map_eq_some_iff.mp both.symm
  obtain ⟨place, rest_eq⟩ := Prod.mk.inj same
  have at_n : s.handler.pendingRequests[n]? = some request := by
    obtain ⟨_, at_n, eq⟩ := Option.map_eq_some_iff.mp taken
    rw [at_n, (Prod.mk.inj eq).1]
  exact ⟨request, rest, moved, at_n, taken, place.symm, removed, rest_eq, swapped.trans perm⟩

/-- Polling the request below the index moves it behind the index, unless it is ready. -/
theorem Passing.poll (passing : Passing xs (n + 1) es s places)
    {ready : (request : ProviderRequest) → Option request.Output}
    (fine : WellFormed revm s (.poll ready)) :
    ∃ s' places' seen, (placed revm).step (s, places) (.poll ready) =
      some ((s', places'), seen) ∧ Passing xs n (es ++ seen) s' places' := by
  obtain ⟨request, rest, moved, at_n, taken, place, removed, holds, perm⟩ := passing.removed
  have bound := passing.bound
  have polled : es.map Polled.place ++ [n] = ((List.range xs.length).drop n).reverse := by
    have inside : n < (List.range xs.length).length := by rw [List.length_range]; omega
    rw [passing.polled, List.drop_eq_getElem_cons inside]
    simp
  cases answer : ready request with
  | some output =>
    obtain ⟨h', out, took⟩ := BackendHandler.exists_onReady
      { s.handler with pendingRequests := rest }
        (fine request output (input_of_ready passing.pc taken answer))
    refine ⟨_, List.range n ++ moved, [⟨n, true⟩], Machine.recorded_step.mpr
      ⟨⟨_, step_of_ready passing.pc taken answer took⟩, ?_⟩, ?_⟩
    · simp [follow, passing.pc, at_n, removed, answer]
    · exact ⟨rfl, by omega, by rw [(BackendHandler.onReady_frame took).2.1]; exact holds,
        by simpa using polled, moved, rfl, by simpa using perm⟩
  | none =>
    refine ⟨_, List.range n ++ moved ++ [n], [⟨n, false⟩], Machine.recorded_step.mpr
      ⟨⟨_, step_of_pending passing.pc taken answer⟩, ?_⟩, ?_⟩
    · simp [follow, passing.pc, at_n, removed, answer]
    · exact ⟨rfl, by omega, by simp [holds, place], by simpa using polled,
        moved ++ [n], by simp, by simpa using perm.append_right [n]⟩

theorem Passing.step (passing : Passing xs n es s places) (fine : FinePass revm es (s, places) a)
    (taken : (placed revm).step (s, places) a = some ((s', places'), seen)) :
    ∃ m, Passing xs m (es ++ seen) s' places' := by
  cases a with
  | call request =>
    obtain ⟨⟨out, step⟩, followed⟩ := Machine.recorded_step.mp taken
    obtain ⟨rfl, rfl⟩ : places = places' ∧ [] = seen := by simpa [follow] using followed
    simp only [machine, call, Option.ite_none_right_eq_some, Option.some.injEq,
      Prod.mk.injEq] at step
    obtain ⟨-, rfl, -⟩ := step
    exact ⟨n, passing.pc, passing.bound, passing.holds, by simpa using passing.polled,
      by simpa using passing.kept⟩
  | dropLast =>
    obtain ⟨⟨out, step⟩, followed⟩ := Machine.recorded_step.mp taken
    obtain ⟨rfl, rfl⟩ : places = places' ∧ [] = seen := by simpa [follow] using followed
    simp only [machine, Option.ite_none_right_eq_some, Option.some.injEq, Prod.mk.injEq] at step
    obtain ⟨-, rfl, -⟩ := step
    exact ⟨n, passing.pc, passing.bound, passing.holds, by simpa using passing.polled,
      by simpa using passing.kept⟩
  | poll ready =>
    cases n with
    | zero => exact absurd passing.pc fine.1
    | succ n =>
      obtain ⟨t, moved, out, step, after⟩ := passing.poll fine.2
      obtain ⟨⟨rfl, rfl⟩, rfl⟩ : (t = s' ∧ moved = places') ∧ out = seen := by
        simpa [step] using taken
      exact ⟨n, after⟩

/-! ## The whole pass -/

/-- What holds in every state of a pass over the requests `xs`, given what has been polled and the
places of what is pending: the index is never out of range and goes down with each poll, whatever
is ready. In the end every place has been polled once, and what was not ready is pending, once. -/
structure PollsOnce (revm : Revm) (xs : List ProviderRequest) (es : List Polled)
    (s : System) (places : List Nat) : Prop where
  counts : ∃ n, s.pc = .polling n ∧ n + es.length = xs.length
  inRange : ∀ n, s.pc = .polling (n + 1) → n < s.handler.pendingRequests.length
  advances : ∀ n ready, s.pc = .polling (n + 1) → WellFormed revm s (.poll ready) →
    ∃ s' out, (machine revm).step s (.poll ready) = some (s', out) ∧ s'.pc = .polling n
  holds : s.handler.pendingRequests.map some = places.map (xs[·]?)
  polled : s.pc = .polling 0 → es.map Polled.place = (List.range xs.length).reverse
  left : s.pc = .polling 0 → places.Perm ((es.filter (!·.ready)).map Polled.place)

theorem Passing.pollsOnce (passing : Passing xs n es s places) : PollsOnce revm xs es s places where
  counts := by
    have bound := passing.bound
    have length := congrArg List.length passing.polled
    simp only [List.length_map, List.length_reverse, List.length_drop, List.length_range] at length
    exact ⟨n, passing.pc, by omega⟩
  inRange m pc := by
    obtain rfl : n = m + 1 := by simpa [passing.pc] using pc
    obtain ⟨request, -, -, at_m, -⟩ := passing.removed
    exact (List.getElem?_eq_some_iff.mp at_m).1
  advances m ready pc fine := by
    obtain rfl : n = m + 1 := by simpa [passing.pc] using pc
    obtain ⟨s', places', seen, taken, after⟩ := passing.poll fine
    obtain ⟨⟨out, step⟩, -⟩ := Machine.recorded_step.mp taken
    exact ⟨s', out, step, after.pc⟩
  holds := passing.holds
  polled pc := by
    obtain rfl : n = 0 := by simpa [passing.pc] using pc
    simpa using passing.polled
  left pc := by
    obtain rfl : n = 0 := by simpa [passing.pc] using pc
    obtain ⟨rest, rfl, perm⟩ := passing.kept
    simpa using perm

theorem Passing.start (start : s.pc = .polling s.handler.pendingRequests.length) :
    Passing s.handler.pendingRequests s.handler.pendingRequests.length [] s
      (List.range s.handler.pendingRequests.length) := by
  refine ⟨start, le_rfl, ?_, by simp, [], by simp, .refl _⟩
  exact List.ext_getElem (by simp) (by simp)

theorem pass_pollsOnce {s₀ : System}
    (start : s₀.pc = .polling s₀.handler.pendingRequests.length)
    (run : (placed revm).Guarded (FinePass revm)
      (s₀, List.range s₀.handler.pendingRequests.length) es (s, places)) :
    PollsOnce revm s₀.handler.pendingRequests es s places := by
  have passing : ∃ n, Passing s₀.handler.pendingRequests n es s places := by
    refine run.invariant (P := fun es t =>
      ∃ n, Passing s₀.handler.pendingRequests n es t.1 t.2) ⟨_, .start start⟩ ?_
    rintro es ⟨s, places⟩ a ⟨s', places'⟩ seen ⟨n, passing⟩ fine taken
    exact passing.step fine taken
  obtain ⟨n, passing⟩ := passing
  exact passing.pollsOnce

/-- The pass goes on, and after the step it stands as a pass should. -/
def SoundPass (revm : Revm) (xs : List ProviderRequest) (es : List Polled)
    (t : System × List Nat) (a : Action) : Prop :=
  t.1.pc ≠ .polling 0 ∧
    (placed revm).Reaching (fun es t => PollsOnce revm xs es t.1 t.2) es t a

/-- The passes without a malformed response are those that poll every request once. -/
theorem pass_pollsOnce_iff {s₀ : System}
    (start : s₀.pc = .polling s₀.handler.pendingRequests.length) :
    (placed revm).Guarded (FinePass revm) (s₀, List.range s₀.handler.pendingRequests.length) es
        (s, places) ↔
      (placed revm).Guarded (SoundPass revm s₀.handler.pendingRequests)
        (s₀, List.range s₀.handler.pendingRequests.length) es (s, places) := by
  refine ⟨fun run => run.imp ?_, fun run => run.imp ?_⟩
  · rintro es t a - - run fine -
    exact ⟨fine.1, fun t' seen taken => pass_pollsOnce start (run.step fine taken)⟩
  · rintro es ⟨s, places⟩ a - - - ⟨within, reaching⟩ -
    refine ⟨within, fun request output input => Bool.eq_false_iff.mpr fun bad => ?_⟩
    -- a malformed response leads out of the pass
    obtain ⟨ready, n, rest, rfl, pc, removed, answer⟩ := ready_of_input input
    obtain ⟨m, polling, -⟩ := (reaching _ _ (Machine.recorded_step.mpr
      ⟨⟨_, step_of_malformed pc removed answer bad⟩, rfl⟩)).counts
    cases polling

def answers : (request : ProviderRequest) → Option request.Output
  | .anyRequest _ => some (.ok [])
  | .account _ _ => some (.ok (5, 0, [0xef, 0x01]))
  | _ => none

/-- A pass over three requests that look alike, and its end when the one in the middle is not
ready. -/
def alike : System :=
  { handler := { pendingRequests := [.anyRequest 0, .anyRequest 0, .anyRequest 0] }
    pc := .polling 3 }

def alikeEnd : System :=
  { handler := { pendingRequests := [.anyRequest 0] }, pc := .polling 0, incoming := [.basic 7 0]
    created := 1 }

theorem pass_pollsOnce_iff_alike :
    PollsOnce .unhashed alike.handler.pendingRequests [⟨2, true⟩, ⟨1, false⟩, ⟨0, true⟩] alikeEnd
      [1] := by
  have fine : ∀ {es : List Polled} {n : Nat} {t : System × List Nat} {a : Action},
      t.1.pc = .polling (n + 1) →
        t.1.input a = .nothing ∨ t.1.input a = .response (.anyRequest 0) (.ok []) →
          FinePass .unhashed es t a := by
    rintro es n t a pc input
    refine ⟨by simp [pc], fun request output eq => ?_⟩
    rcases input with none | some
    · cases none.symm.trans eq
    · cases some.symm.trans eq
      rfl
  have run : (placed .unhashed).Guarded (FinePass .unhashed) (alike, [0, 1, 2])
      [⟨2, true⟩, ⟨1, false⟩, ⟨0, true⟩] (alikeEnd, [1]) :=
    Machine.guarded_of_exec [.poll answers, .call (.basic 7), .poll fun _ => none, .poll answers]
      rfl ⟨fine rfl (.inr rfl), fine rfl (.inl rfl), fine rfl (.inl rfl), fine rfl (.inr rfl),
        trivial⟩
  exact ((pass_pollsOnce_iff rfl).mp run).invariant
    (P := fun es t => PollsOnce .unhashed alike.handler.pendingRequests es t.1 t.2)
    (Passing.start rfl).pollsOnce fun _ _ _ _ _ _ sound taken => sound.2 _ _ taken

/-- The code of the account that is polled first cannot be read, and the request below it is never
polled. -/
theorem pass_stops : ∃ es s places,
    (placed .unhashed).Guarded (fun _ t _ => t.1.pc ≠ .polling 0)
      ({ handler := { pendingRequests := [.anyRequest 0, .account 1 default] }, pc := .polling 2 },
        [0, 1]) es (s, places) ∧
      es = [⟨1, true⟩] ∧ s.pc = .panicked ∧ s.handler.pendingRequests = [.anyRequest 0] ∧
      ¬ PollsOnce .unhashed [.anyRequest 0, .account 1 default] es s places := by
  refine ⟨_, _, _, Machine.guarded_of_exec [.poll answers] rfl ⟨nofun, trivial⟩, rfl, rfl, rfl,
    fun once => ?_⟩
  obtain ⟨n, polling, -⟩ := once.counts
  cases polling

end System

end FoundryCore.ForkDb
