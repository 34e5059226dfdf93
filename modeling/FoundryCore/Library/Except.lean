import FoundryCore.Library.Map

/-!
# Computations that may fail, over lists and maps
-/

open Std

namespace FoundryCore.Library

@[simp] theorem ok_bind {ε α β : Type} (x : α) (f : α → Except ε β) :
    (Except.ok x >>= f) = f x := rfl

@[simp] theorem error_bind {ε α β : Type} (e : ε) (f : α → Except ε β) :
    (Except.error e >>= f) = .error e := rfl

theorem bind_eq_ok {ε α β : Type} {x : Except ε α} {f : α → Except ε β} {y : β} :
    x >>= f = .ok y ↔ ∃ a, x = .ok a ∧ f a = .ok y := by
  cases x <;> simp

theorem ok_of_toOption {ο ε : Type} {result : Except ε ο} {x : ο}
    (someEq : result.toOption = some x) : result = .ok x := by
  cases result with
  | error err => cases someEq
  | ok y => exact congrArg _ (Option.some.inj someEq)

/-- If all elements have a result, the list has theirs. -/
theorem mapM_eq_some_map {ι ο : Type} {f : ι → Option ο} {g : ι → ο} {l : List ι}
    (each : ∀ x ∈ l, f x = some (g x)) : l.mapM f = some (l.map g) := by
  induction l with
  | nil => rfl
  | cons x l ih =>
    rw [List.forall_mem_cons] at each
    rw [List.mapM_cons, each.1, ih each.2]
    rfl

/-- If all elements have a result with a property, so has the list. -/
theorem exists_mapM {ι ο ε : Type} {f : ι → Except ε ο} {Q : ι → ο → Prop} {l : List ι}
    (each : ∀ x ∈ l, ∃ y, f x = .ok y ∧ Q x y) : ∃ ys, l.mapM f = .ok ys ∧ List.Forall₂ Q l ys := by
  induction l with
  | nil => exact ⟨[], rfl, .nil⟩
  | cons x l ih =>
    obtain ⟨y, eq, holds⟩ := each x List.mem_cons_self
    obtain ⟨ys, eqs, all⟩ := ih fun z mem => each z (List.mem_cons_of_mem _ mem)
    exact ⟨y :: ys, by rw [List.mapM_cons, eq, eqs]; rfl, .cons holds all⟩

/-- If a list has results, what is made of an element and its result is so. -/
theorem exists_of_mem_zipWith {ι ο ω ε : Type} {f : ι → Except ε ο} {g : ι → ο → ω} {l : List ι}
    {ys : List ο} (eq : l.mapM f = .ok ys) {z : ω} (mem : z ∈ List.zipWith g l ys) :
    ∃ x ∈ l, ∃ y, f x = .ok y ∧ z = g x y := by
  induction l generalizing ys with
  | nil => simp at mem
  | cons x l ih =>
    rw [List.mapM_cons] at eq
    cases first : f x with
    | error err => simp [first] at eq
    | ok y =>
      cases rest : l.mapM f with
      | error err => simp [first, rest] at eq
      | ok ys' =>
        obtain rfl : y :: ys' = ys := by simpa [first, rest, pure, Except.pure] using eq
        rcases List.mem_cons.mp mem with rfl | later
        · exact ⟨x, List.mem_cons_self, y, first, rfl⟩
        · obtain ⟨x', mem', found⟩ := ih rest later
          exact ⟨x', List.mem_cons_of_mem _ mem', found⟩

/-- Every result of a list is that of one of its elements. -/
theorem exists_of_mem_mapM {ι ο ε : Type} {f : ι → Except ε ο} {l : List ι} {ys : List ο}
    (eq : l.mapM f = .ok ys) {y : ο} (mem : y ∈ ys) : ∃ x ∈ l, f x = .ok y := by
  induction l generalizing ys with
  | nil =>
    cases eq
    simp at mem
  | cons x l ih =>
    rw [List.mapM_cons] at eq
    obtain ⟨y', first, eq⟩ := bind_eq_ok.mp eq
    obtain ⟨ys', rest, eq⟩ := bind_eq_ok.mp eq
    cases eq
    rcases List.mem_cons.mp mem with rfl | later
    · exact ⟨x, List.mem_cons_self, first⟩
    · obtain ⟨x', mem', found⟩ := ih rest later
      exact ⟨x', List.mem_cons_of_mem _ mem', found⟩

/-- A walk that succeeds keeps what each of its steps keeps. -/
theorem of_foldlM {σ ι ε : Type} {f : σ → ι → Except ε σ} {P : σ → Prop} {l : List ι} {s s' : σ}
    (eq : l.foldlM f s = .ok s') (initial : P s)
    (step : ∀ x ∈ l, ∀ s s', P s → f s x = .ok s' → P s') : P s' := by
  induction l generalizing s with
  | nil =>
    cases eq
    exact initial
  | cons x l ih =>
    rw [List.foldlM_cons] at eq
    cases first : f s x with
    | error err => simp [first] at eq
    | ok s₁ =>
      rw [first, ok_bind] at eq
      exact ih eq (step x List.mem_cons_self s s₁ initial first)
        fun y mem => step y (List.mem_cons_of_mem _ mem)

/-- A walk fails only where one of its steps does, after steps that keep what each step keeps. -/
theorem error_of_foldlM {σ ι ε : Type} {f : σ → ι → Except ε σ} {P : σ → Prop} {l : List ι} {s : σ}
    {err : ε} (eq : l.foldlM f s = .error err) (initial : P s)
    (step : ∀ x ∈ l, ∀ s s', P s → f s x = .ok s' → P s') :
    ∃ x ∈ l, ∃ s', P s' ∧ f s' x = .error err := by
  induction l generalizing s with
  | nil => cases eq
  | cons x l ih =>
    rw [List.foldlM_cons] at eq
    cases first : f s x with
    | error err' =>
      rw [first, error_bind] at eq
      exact ⟨x, List.mem_cons_self, s, initial, first.trans eq⟩
    | ok s₁ =>
      rw [first, ok_bind] at eq
      obtain ⟨y, mem, s', holds, failed⟩ := ih eq
        (step x List.mem_cons_self s s₁ initial first)
        fun y mem => step y (List.mem_cons_of_mem _ mem)
      exact ⟨y, List.mem_cons_of_mem _ mem, s', holds, failed⟩

variable {κ β β' ε : Type} {cmp : κ → κ → Ordering} [TransCmp cmp] [LawfulEqCmp cmp] [DecidableEq κ]
  {o : ExtTreeMap κ β' cmp} {m : ExtTreeMap κ β cmp} {a : κ} {f : κ → β' → Except ε β}

/-- A computation for every entry of a map that succeeds did so for each of them, and its results
are those of the entries. -/
theorem getElem?_foldlM_insert
    (ok : o.toList.foldlM (fun m (k, x) => do return m.insert k (← f k x))
      (∅ : ExtTreeMap κ β cmp) = .ok m) :
    (∀ x, o[a]? = some x → ∃ y, f a x = .ok y ∧ m[a]? = some y) ∧
      (o[a]? = none → m[a]? = none) := by
  have loop : ∀ (l : List (κ × β')) (start : ExtTreeMap κ β cmp), (l.map Prod.fst).Nodup →
      l.foldlM (fun m (k, x) => do return m.insert k (← f k x)) start = .ok m →
      (∀ x, (a, x) ∈ l → ∃ y, f a x = .ok y ∧ m[a]? = some y) ∧
        (a ∉ l.map Prod.fst → m[a]? = start[a]?) := by
    intro l
    induction l with
    | nil =>
      intro start _ ok
      obtain rfl := Except.ok.inj ok
      simp
    | cons entry l ih =>
      intro start distinct ok
      obtain ⟨k, x⟩ := entry
      obtain ⟨fresh, distinct⟩ := List.nodup_cons.mp distinct
      rw [List.foldlM_cons] at ok
      cases result : f k x with
      | error err => simp [result, bind, Except.bind] at ok
      | ok y =>
        simp only [result, bind, Except.bind, pure, Except.pure] at ok
        obtain ⟨here, absent⟩ := ih _ distinct ok
        constructor
        · intro x' mem
          rcases List.mem_cons.mp mem with eq | later
          · obtain ⟨rfl, rfl⟩ := Prod.mk.inj eq
            exact ⟨y, result, by rw [absent fresh, getElem?_insert_eq, if_pos rfl]⟩
          · exact here x' later
        · intro out
          rw [List.map_cons, List.mem_cons, not_or] at out
          rw [absent out.2, getElem?_insert_eq, if_neg out.1]
  obtain ⟨here, absent⟩ := loop o.toList ∅
    (by rw [ExtTreeMap.map_fst_toList_eq_keys]; exact ExtTreeMap.nodup_keys) ok
  refine ⟨fun x getEq => here x (ExtTreeMap.mem_toList_iff_getElem?_eq_some.mpr getEq),
    fun getEq => ?_⟩
  rw [absent]
  · simp
  · rw [ExtTreeMap.map_fst_toList_eq_keys, ExtTreeMap.mem_keys, ExtTreeMap.mem_iff_isSome_getElem?,
      getEq]
    simp

omit [DecidableEq κ] in
/-- A computation for every entry of a map succeeds if each of them does. -/
theorem exists_foldlM_insert (each : ∀ k x, o[k]? = some x → ∃ y, f k x = .ok y) :
    ∃ m, o.toList.foldlM (fun m (k, x) => do return m.insert k (← f k x))
      (∅ : ExtTreeMap κ β cmp) = .ok m := by
  have loop : ∀ (l : List (κ × β')) (start : ExtTreeMap κ β cmp),
      (∀ entry ∈ l, ∃ y, f entry.1 entry.2 = .ok y) →
      ∃ m, l.foldlM (fun m (k, x) => do return m.insert k (← f k x)) start = .ok m := by
    intro l
    induction l with
    | nil => exact fun start _ => ⟨start, rfl⟩
    | cons entry l ih =>
      intro start each
      obtain ⟨y, eq⟩ := each entry List.mem_cons_self
      obtain ⟨m, eqs⟩ := ih (start.insert entry.1 y) fun e mem =>
        each e (List.mem_cons_of_mem _ mem)
      refine ⟨m, ?_⟩
      rw [List.foldlM_cons]
      simp only [eq, bind, Except.bind, pure, Except.pure]
      exact eqs
  exact loop _ _ fun entry mem =>
    each entry.1 entry.2 (ExtTreeMap.mem_toList_iff_getElem?_eq_some.mp mem)

end FoundryCore.Library
