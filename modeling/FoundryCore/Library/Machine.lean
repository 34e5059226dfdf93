import Mathlib.Logic.Function.Basic

/-!
# Machines that emit events

A machine answers an action with a next state and the events it emits, or refuses the
action. Runs collect the events in order, so a property of a run can speak about both the
state reached and the history that led there. A guard restricts the steps a run may take;
it sees the history, the state and the action.
-/

namespace FoundryCore.Library

/-- A transition function with events; `none` when the action is not enabled. -/
structure Machine (σ α ε : Type*) where
  step : σ → α → Option (σ × List ε)

namespace Machine

variable {σ α ε : Type*} {M : Machine σ α ε} {G : List ε → σ → α → Prop} {s₀ s s' : σ}
  {es out : List ε} {a : α}

/-- Runs from `s₀` all of whose steps meet the guard `G`. -/
inductive Guarded (M : Machine σ α ε) (G : List ε → σ → α → Prop) (s₀ : σ) :
    List ε → σ → Prop
  | refl : Guarded M G s₀ [] s₀
  | step {es out : List ε} {s s' : σ} {a : α} (run : Guarded M G s₀ es s) (guard : G es s a)
      (eq : M.step s a = some (s', out)) : Guarded M G s₀ (es ++ out) s'

/-- Runs whose steps are not restricted. -/
abbrev Run (M : Machine σ α ε) (s₀ : σ) : List ε → σ → Prop :=
  Guarded M (fun _ _ _ => True) s₀

theorem Run.step (run : M.Run s₀ es s) (eq : M.step s a = some (s', out)) :
    M.Run s₀ (es ++ out) s' :=
  Guarded.step run trivial eq

theorem Run.append {s₁ : σ} (run : M.Run s₀ es s₁) (rest : M.Run s₁ out s) :
    M.Run s₀ (es ++ out) s := by
  induction rest with
  | refl => simpa using run
  | step _ _ eq ih =>
    rw [← List.append_assoc]
    exact ih.step eq

/-- A property of histories and states that every guarded step preserves holds after every
guarded run. -/
theorem Guarded.invariant {P : List ε → σ → Prop} (initial : P [] s₀)
    (preserved : ∀ es s a s' out, P es s → G es s a → M.step s a = some (s', out) →
      P (es ++ out) s') (run : Guarded M G s₀ es s) : P es s := by
  induction run with
  | refl => exact initial
  | step _ guard eq ih => exact preserved _ _ _ _ _ ih guard eq

theorem Run.invariant {P : List ε → σ → Prop} (initial : P [] s₀)
    (preserved : ∀ es s a s' out, P es s → M.step s a = some (s', out) → P (es ++ out) s')
    (run : M.Run s₀ es s) : P es s :=
  Guarded.invariant initial (fun es s a s' out h _ => preserved es s a s' out h) run

/-- What every step knows of the events it emits, given an invariant, was known of the history
before each event of a run. -/
theorem Run.before {P : List ε → σ → Prop} {Q : List ε → ε → Prop} (initial : P [] s₀)
    (preserved : ∀ es s a s' out, P es s → M.step s a = some (s', out) → P (es ++ out) s')
    (known : ∀ es s a s' out, P es s → M.step s a = some (s', out) → ∀ e ∈ out, Q es e)
    (later : ∀ es out e, Q es e → Q (es ++ out) e) (run : M.Run s₀ es s) {before after : List ε}
    {e : ε} (eq : es = before ++ e :: after) : Q before e := by
  have both := Run.invariant (P := fun es s => P es s ∧
    ∀ before e after, es = before ++ e :: after → Q before e)
    ⟨initial, fun before _ _ eq => by cases before <;> cases eq⟩ ?_ run
  · exact both.2 before e after eq
  rintro es s a s' out ⟨holds, all⟩ step
  refine ⟨preserved es s a s' out holds step, fun before e after eq => ?_⟩
  obtain ⟨mid, rfl, split⟩ | ⟨mid, rfl, split⟩ := List.append_eq_append_iff.mp eq
  · have mem : e ∈ out := by simp [split]
    exact later es mid e (known es s a s' out holds step e mem)
  · cases mid with
    | nil =>
      obtain rfl : e :: after = out := split
      simpa using known _ s a s' _ holds step e List.mem_cons_self
    | cons e' rest =>
      obtain ⟨rfl, -⟩ := by simpa using split
      exact all before e rest rfl

/-- Forgetting the guard. -/
theorem Guarded.run (run : Guarded M G s₀ es s) : M.Run s₀ es s := by
  induction run with
  | refl => exact .refl
  | step _ _ eq ih => exact Run.step ih eq

/-- The guard may be replaced by one that each step of such a run meets. -/
theorem Guarded.imp {G' : List ε → σ → α → Prop}
    (imp : ∀ es s a s' out, Guarded M G s₀ es s → G es s a → M.step s a = some (s', out) →
      G' es s a) (run : Guarded M G s₀ es s) : Guarded M G' s₀ es s := by
  induction run with
  | refl => exact .refl
  | step run guard eq ih => exact .step ih (imp _ _ _ _ _ run guard eq) eq

/-- The guard that lets through the steps after which `P` holds. -/
def Reaching (M : Machine σ α ε) (P : List ε → σ → Prop) (es : List ε) (s : σ) (a : α) : Prop :=
  ∀ s' out, M.step s a = some (s', out) → P (es ++ out) s'

/-- What every step of a run reaches holds in the end. -/
theorem Guarded.of_reaching {P : List ε → σ → Prop} (initial : P [] s₀)
    (run : M.Guarded (M.Reaching P) s₀ es s) : P es s :=
  run.invariant initial fun _ _ _ _ _ _ reaching eq => reaching _ _ eq

/-- Where a step keeps `P` exactly if it meets the guard, the guarded runs are the runs all of
whose steps reach `P`. -/
theorem guarded_iff_reaching {P : List ε → σ → Prop} (initial : P [] s₀)
    (step_iff : ∀ es s a s' out, P es s → M.step s a = some (s', out) →
      (P (es ++ out) s' ↔ G es s a)) :
    M.Guarded G s₀ es s ↔ M.Guarded (M.Reaching P) s₀ es s := by
  constructor
  · intro run
    refine run.imp fun es s a _ _ run guard _ s' out eq => ?_
    have holds := run.invariant initial fun _ _ _ _ _ holds guard eq =>
      (step_iff _ _ _ _ _ holds eq).mpr guard
    exact (step_iff es s a s' out holds eq).mpr guard
  · intro run
    refine run.imp fun es s a s' out run reaching eq => ?_
    exact (step_iff es s a s' out (run.of_reaching initial) eq).mp (reaching s' out eq)

/-- The same transitions with the events that an observer of their sources records. -/
def observed {ο : Type*} (M : Machine σ α ε) (observe : σ → α → List ο) : Machine σ α ο where
  step s a := (M.step s a).map fun (s', _) => (s', observe s a)

theorem observed_step {ο : Type*} {observe : σ → α → List ο} {seen : List ο} :
    (M.observed observe).step s a = some (s', seen) ↔
      (∃ out, M.step s a = some (s', out)) ∧ seen = observe s a := by
  simp only [observed, Option.map_eq_some_iff, Prod.mk.injEq, Prod.exists]
  constructor
  · rintro ⟨_, out, step, rfl, rfl⟩
    exact ⟨⟨out, step⟩, rfl⟩
  · rintro ⟨⟨out, step⟩, rfl⟩
    exact ⟨s', out, step, rfl, rfl⟩

/-- The same transitions beside a record that is kept of them; the events are what enters it. -/
def recorded {τ ο : Type*} (M : Machine σ α ε) (record : σ → α → τ → τ × List ο) :
    Machine (σ × τ) α ο where
  step st a := (M.step st.1 a).map fun (s', _) =>
    ((s', (record st.1 a st.2).1), (record st.1 a st.2).2)

theorem recorded_step {τ ο : Type*} {record : σ → α → τ → τ × List ο} {t t' : τ}
    {seen : List ο} :
    (M.recorded record).step (s, t) a = some ((s', t'), seen) ↔
      (∃ out, M.step s a = some (s', out)) ∧ record s a t = (t', seen) := by
  simp only [recorded, Option.map_eq_some_iff, Prod.mk.injEq, Prod.exists]
  constructor
  · rintro ⟨_, out, step, ⟨rfl, rfl⟩, rfl⟩
    exact ⟨⟨out, step⟩, rfl⟩
  · rintro ⟨⟨out, step⟩, kept⟩
    exact ⟨s', out, step, ⟨rfl, congrArg Prod.fst kept⟩, congrArg Prod.snd kept⟩

/-- Takes the actions in turn, if each of them is enabled. -/
def exec (M : Machine σ α ε) : List α → σ → Option (σ × List ε)
  | [], s => some (s, [])
  | a :: rest, s =>
    match M.step s a with
    | none => none
    | some (s', out) => (exec M rest s').map fun (s'', es) => (s'', out ++ es)

theorem exec_cons_eq_some {rest : List α} {s'' : σ} (step : M.step s a = some (s', out)) :
    M.exec (a :: rest) s = some (s'', es) ↔
      ∃ later, M.exec rest s' = some (s'', later) ∧ es = out ++ later := by
  simp only [exec, step, Option.map_eq_some_iff, Prod.exists, Prod.mk.injEq]
  constructor
  · rintro ⟨_, later, run, rfl, rfl⟩
    exact ⟨later, run, rfl⟩
  · rintro ⟨later, run, rfl⟩
    exact ⟨s'', later, run, rfl, rfl⟩

/-- The guard lets all actions through, as far as they are enabled. -/
def Allowed (M : Machine σ α ε) (G : List ε → σ → α → Prop) : List α → List ε → σ → Prop
  | [], _, _ => True
  | a :: rest, es, s => G es s a ∧
    match M.step s a with
    | none => True
    | some (s', out) => Allowed M G rest (es ++ out) s'

theorem Guarded.exec {actions : List α} (run : M.Guarded G s₀ es s)
    (allowed : M.Allowed G actions es s) (eq : M.exec actions s = some (s', out)) :
    M.Guarded G s₀ (es ++ out) s' := by
  induction actions generalizing es s out with
  | nil =>
    obtain ⟨rfl, rfl⟩ := by simpa [Machine.exec] using eq
    simpa using run
  | cons a rest ih =>
    simp only [Machine.exec] at eq
    split at eq
    · cases eq
    · next s₁ out₁ step =>
      obtain ⟨⟨s₂, es₂⟩, tail, done⟩ := Option.map_eq_some_iff.mp eq
      obtain ⟨rfl, rfl⟩ := by simpa using done
      obtain ⟨guard, allowed⟩ := allowed
      rw [step] at allowed
      simpa using ih (Guarded.step run guard step) allowed tail

/-- What the machine executes under the guard is a guarded run. -/
theorem guarded_of_exec (actions : List α) (eq : M.exec actions s₀ = some (s, es))
    (allowed : M.Allowed G actions [] s₀) : M.Guarded G s₀ es s := by
  simpa using Guarded.exec .refl allowed eq

theorem allowed_of_forall {actions : List α} (all : ∀ a ∈ actions, ∀ es s, G es s a) :
    M.Allowed G actions es s := by
  induction actions generalizing es s with
  | nil => trivial
  | cons a rest ih =>
    refine ⟨all a (by simp) es s, ?_⟩
    split
    · trivial
    · exact ih fun b mem => all b (by simp [mem])

theorem allowed_true {actions : List α} : M.Allowed (fun _ _ _ => True) actions es s :=
  allowed_of_forall fun _ _ _ _ => trivial

/-- What the machine executes is a run. -/
theorem run_of_exec (actions : List α) (eq : M.exec actions s₀ = some (s, es)) :
    M.Run s₀ es s :=
  guarded_of_exec actions eq allowed_true

/-- Where every action of a kind is enabled and lowers a rank until the goal is reached, as many
such actions as the rank says are enough to reach it. -/
theorem exec_of_rank {P D : σ → Prop} {A : α → Prop} (rank : σ → Nat)
    (lowest : ∀ s, P s → rank s = 0 → D s)
    (lower : ∀ s a, P s → ¬ D s → A a →
      ∃ s' out, M.step s a = some (s', out) ∧ P s' ∧ rank s' < rank s)
    {actions : List α} (kind : ∀ a ∈ actions, A a) (enough : rank s ≤ actions.length)
    (holds : P s) :
    ∃ taken rest s' out, actions = taken ++ rest ∧ M.exec taken s = some (s', out) ∧ P s' ∧
      D s' := by
  induction actions generalizing s with
  | nil => exact ⟨[], [], s, [], rfl, rfl, holds, lowest s holds (by simpa using enough)⟩
  | cons a rest ih =>
    by_cases done : D s
    · exact ⟨[], a :: rest, s, [], rfl, rfl, holds, done⟩
    · obtain ⟨s₁, out₁, step, holds₁, less⟩ := lower s a holds done (kind a (by simp))
      obtain ⟨taken, left, s', out, rfl, run, holds', done'⟩ :=
        ih (fun b mem => kind b (by simp [mem])) (by simp at enough; omega) holds₁
      exact ⟨a :: taken, left, s', out₁ ++ out, rfl,
        (exec_cons_eq_some step).mpr ⟨out, run, rfl⟩, holds', done'⟩

end Machine

/-! ## Open events

An event is open in a history when it was emitted and no closing event came later. -/

section Open

variable {ε : Type*} {p x : ε} {es out : List ε}

/-- `x` occurs in `es` with no later `p`. -/
def Open (p x : ε) (es : List ε) : Prop :=
  ∃ before after, es = before ++ x :: after ∧ p ∉ after

theorem not_open_nil : ¬ Open p x [] := by
  rintro ⟨before, after, h, -⟩
  simp at h

theorem Open.mem (h : Open p x es) : x ∈ es := by
  obtain ⟨before, after, rfl, -⟩ := h
  simp

/-- Appending events keeps `x` open unless they close it, and opens it if it is open in them. -/
theorem open_append : Open p x (es ++ out) ↔ Open p x out ∨ (Open p x es ∧ p ∉ out) := by
  constructor
  · rintro ⟨before, after, h, fresh⟩
    obtain ⟨mid, rfl, rfl⟩ | ⟨mid, rfl, split⟩ := List.append_eq_append_iff.mp h
    · exact Or.inl ⟨mid, after, rfl, fresh⟩
    · cases mid with
      | nil => exact Or.inl ⟨[], after, by simpa using split.symm, fresh⟩
      | cons y rest =>
        obtain ⟨rfl, rfl⟩ : x = y ∧ after = rest ++ out := by simpa using split
        exact Or.inr ⟨⟨before, rest, rfl, fun h => fresh (by simp [h])⟩,
          fun h => fresh (by simp [h])⟩
  · rintro (⟨before, after, rfl, fresh⟩ | ⟨⟨before, after, rfl, fresh⟩, closed⟩)
    · exact ⟨es ++ before, after, by simp, fresh⟩
    · exact ⟨before, after ++ out, by simp, by simp [fresh, closed]⟩

theorem open_singleton {e : ε} (ne : p ≠ x) : Open p x [e] ↔ e = x := by
  constructor
  · intro h
    simpa [eq_comm] using h.mem
  · rintro rfl
    exact ⟨[], [], rfl, by simp⟩

/-- A later `p` closes the last occurrence of `x`. -/
theorem not_open_of_closed {before after : List ε} (last : x ∉ after) (closed : p ∈ after) :
    ¬ Open p x (before ++ x :: after) := by
  rw [← List.singleton_append, ← List.append_assoc, open_append]
  rintro (again | ⟨-, unclosed⟩)
  · exact last again.mem
  · exact unclosed closed

end Open

end FoundryCore.Library
