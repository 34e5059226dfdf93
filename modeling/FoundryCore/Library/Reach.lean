import Mathlib.Algebra.GroupWithZero.Nat
import Mathlib.Algebra.BigOperators.Group.Finset.Basic
import Mathlib.Data.Finset.Card
import Mathlib.Logic.Relation

/-!
# Marking what a relation reaches

The depth-first search that marks a node before it visits it, and stops at nodes marked by
anyone before. It is started several times over one set of marks, so a run from `x` is
described relative to the marks it starts with: it adds the least set that has the successors
of `x` and of each of its own members.

The successors may come in any order, and in another order at each visit.
-/

open Relation

namespace FoundryCore.Library

variable {κ : Type*} [DecidableEq κ]

/-- Marks the successors of `x` and visits those it has marked. `next seen x` lists the
successors of `x` in the order in which they are met when `seen` is marked. -/
def mark (next : List κ → κ → List κ) : Nat → κ → List κ → List κ
  | 0, _, seen => seen
  | fuel + 1, x, seen => (next seen x).foldl
      (fun seen y => if y ∈ seen then seen else mark next fuel y (y :: seen)) seen

/-- Visits the nodes in turn over one set of marks. -/
def markAll (next : List κ → κ → List κ) (fuel : Nat) (nodes seen : List κ) : List κ :=
  nodes.foldl (fun seen x => mark next fuel x seen) seen

/-- What a visit of `x` makes of the marks. -/
structure IsMark (R : κ → κ → Prop) (x : κ) (seen seen' : List κ) : Prop where
  subset : ∀ y ∈ seen, y ∈ seen'
  next : ∀ y, R x y → y ∈ seen'
  closed : ∀ y ∈ seen', y ∉ seen → ∀ z, R y z → z ∈ seen'
  least : ∀ P : κ → Prop, (∀ y ∈ seen, P y) → (∀ y, R x y → P y) →
    (∀ y, P y → y ∉ seen → ∀ z, R y z → P z) → ∀ y ∈ seen', P y

namespace IsMark

variable {R : κ → κ → Prop} {x : κ} {seen seen' : List κ}

omit [DecidableEq κ] in
/-- New marks are on nodes that `x` reaches. -/
theorem reach (h : IsMark R x seen seen') {y : κ} (mem : y ∈ seen') :
    y ∈ seen ∨ TransGen R x y :=
  h.least (fun y => y ∈ seen ∨ TransGen R x y) (fun _ => Or.inl)
    (fun _ edge => Or.inr (.single edge))
    (fun _ reached fresh _ edge => Or.inr ((reached.resolve_left fresh).tail edge)) y mem

end IsMark

section Spec

variable {R : κ → κ → Prop} {next : List κ → κ → List κ} {U : Finset κ}

/-- The nodes that are left to mark. -/
def unmarked (U : Finset κ) (seen : List κ) : Finset κ := U.filter (· ∉ seen)

theorem unmarked_subset {seen seen' : List κ} (sub : ∀ y ∈ seen, y ∈ seen') :
    (unmarked U seen').card ≤ (unmarked U seen).card := by
  refine Finset.card_le_card fun y mem => ?_
  simp only [unmarked, Finset.mem_filter] at mem ⊢
  exact ⟨mem.1, fun h => mem.2 (sub y h)⟩

theorem unmarked_cons {seen : List κ} {y : κ} (inside : y ∈ U) (fresh : y ∉ seen) :
    (unmarked U (y :: seen)).card < (unmarked U seen).card := by
  refine Finset.card_lt_card ⟨fun z mem => ?_, fun sub => ?_⟩
  · simp only [unmarked, Finset.mem_filter, List.mem_cons, not_or] at mem ⊢
    exact ⟨mem.1, mem.2.2⟩
  · have := sub (Finset.mem_filter.mpr ⟨inside, fresh⟩)
    simp [unmarked] at this

/-- A visit marks what it should, given enough fuel for the nodes that are left. -/
theorem isMark_mark (mem_next : ∀ seen x y, y ∈ next seen x ↔ R x y)
    (inside : ∀ x y, R x y → y ∈ U) {fuel : Nat} {x : κ} {seen : List κ}
    (enough : (unmarked U seen).card < fuel) : IsMark R x seen (mark next fuel x seen) := by
  induction fuel generalizing x seen with
  | zero => exact absurd enough (Nat.not_lt_zero _)
  | succ fuel visit =>
    -- the marks after some of the successors, `rest` being still ahead
    suffices loop : ∀ (rest acc : List κ), (∀ y ∈ rest, R x y) → (∀ y ∈ seen, y ∈ acc) →
        (∀ y ∈ acc, y ∉ seen → ∀ z, R y z → z ∈ acc) →
        let acc' := rest.foldl
          (fun seen y => if y ∈ seen then seen else mark next fuel y (y :: seen)) acc
        (∀ y ∈ acc, y ∈ acc') ∧ (∀ y ∈ rest, y ∈ acc') ∧
        (∀ y ∈ acc', y ∉ seen → ∀ z, R y z → z ∈ acc') ∧
        ∀ P : κ → Prop, (∀ y ∈ acc, P y) → (∀ y, R x y → P y) →
          (∀ y, P y → y ∉ seen → ∀ z, R y z → P z) → ∀ y ∈ acc', P y by
      obtain ⟨grown, all, closed, least⟩ := loop (next seen x) seen
        (fun y => (mem_next seen x y).mp) (fun _ h => h) (fun y mem fresh => absurd mem fresh)
      exact ⟨grown, fun y edge => all y ((mem_next seen x y).mpr edge), closed, least⟩
    intro rest
    induction rest with
    | nil => exact fun acc _ _ closed => ⟨fun _ h => h, by simp, closed, fun P h _ _ => h⟩
    | cons w rest ih =>
      intro acc edges sub closed
      simp only [List.forall_mem_cons] at edges
      rw [List.foldl_cons]
      by_cases known : w ∈ acc
      · obtain ⟨grown, all, closed', least⟩ := ih acc edges.2 sub closed
        simp only [if_pos known, List.forall_mem_cons]
        exact ⟨grown, ⟨grown w known, all⟩, closed', least⟩
      · have left : (unmarked U (w :: acc)).card < fuel := by
          have less := unmarked_cons (inside x w edges.1) known
          have := unmarked_subset (U := U) sub
          omega
        have marked := visit (x := w) left
        have sub' : ∀ y ∈ acc, y ∈ mark next fuel w (w :: acc) := fun y mem =>
          marked.subset y (List.mem_cons_of_mem _ mem)
        have self : w ∈ mark next fuel w (w :: acc) := marked.subset w (by simp)
        obtain ⟨grown, all, closed', least⟩ := ih (mark next fuel w (w :: acc)) edges.2
          (fun y mem => sub' y (sub y mem)) fun y mem fresh z edge => by
            by_cases old : y ∈ acc
            · exact sub' z (closed y old fresh z edge)
            · by_cases same : y = w
              · exact marked.next z (same ▸ edge)
              · exact marked.closed y mem (by simp [old, same]) z edge
        simp only [if_neg known, List.forall_mem_cons]
        refine ⟨fun y mem => grown y (sub' y mem), ⟨grown w self, all⟩, closed', ?_⟩
        intro P start direct step
        refine least P (marked.least P ?_ ?_ ?_) direct step
        · simpa using ⟨direct w edges.1, start⟩
        · exact step w (direct w edges.1) fun old => known (sub w old)
        · exact fun y holds fresh => step y holds fun old => fresh (by simp [sub y old])

/-- Visiting every node marked at first marks exactly what these nodes reach. -/
theorem mem_markAll (mem_next : ∀ seen x y, y ∈ next seen x ↔ R x y)
    (inside : ∀ x y, R x y → y ∈ U) {fuel : Nat} {nodes seen : List κ}
    (enough : U.card < fuel) (same : ∀ x, x ∈ nodes ↔ x ∈ seen) (y : κ) :
    y ∈ markAll next fuel nodes seen ↔ ∃ x ∈ seen, ReflTransGen R x y := by
  suffices loop : ∀ (rest acc : List κ), (∀ x ∈ rest, x ∈ seen) → (∀ x ∈ seen, x ∈ acc) →
      (∀ x ∈ acc, x ∉ rest → ∀ z, R x z → z ∈ acc) →
      (∀ x ∈ acc, ∃ w ∈ seen, ReflTransGen R w x) →
      let acc' := markAll next fuel rest acc
      (∀ x ∈ seen, x ∈ acc') ∧ (∀ x ∈ acc', ∀ z, R x z → z ∈ acc') ∧
        ∀ x ∈ acc', ∃ w ∈ seen, ReflTransGen R w x by
    obtain ⟨start, closed, reached⟩ := loop nodes seen (fun x => (same x).mp) (fun _ h => h)
      (fun x mem out => absurd ((same x).mpr mem) out) fun x mem => ⟨x, mem, .refl⟩
    refine ⟨reached y, ?_⟩
    rintro ⟨x, mem, path⟩
    induction path with
    | refl => exact start x mem
    | tail _ edge ih => exact closed _ ih _ edge
  intro rest
  induction rest with
  | nil => exact fun acc _ start closed reached =>
      ⟨start, fun x mem => closed x mem (by simp), reached⟩
  | cons w rest ih =>
    intro acc ahead start closed reached
    simp only [List.forall_mem_cons] at ahead
    have marked : IsMark R w acc (mark next fuel w acc) :=
      isMark_mark mem_next inside (lt_of_le_of_lt (Finset.card_filter_le _ _) enough)
    refine ih (mark next fuel w acc) ahead.2 (fun x mem => marked.subset x (start x mem)) ?_ ?_
    · intro x mem out z edge
      by_cases old : x ∈ acc
      · by_cases eq : x = w
        · exact marked.next z (eq ▸ edge)
        · exact marked.subset z (closed x old (by simp [eq, out]) z edge)
      · exact marked.closed x mem old z edge
    · intro x mem
      obtain old | path := marked.reach mem
      · exact reached x old
      · exact ⟨w, ahead.1, path.to_reflTransGen⟩

end Spec

/-- A visit removes no mark. -/
theorem subset_mark {next : List κ → κ → List κ} {fuel : Nat} {x y : κ} {seen : List κ}
    (mem : y ∈ seen) : y ∈ mark next fuel x seen := by
  induction fuel generalizing x seen with
  | zero => exact mem
  | succ fuel visit =>
    rw [mark]
    generalize next seen x = rest
    induction rest generalizing seen with
    | nil => exact mem
    | cons w rest ih =>
      rw [List.foldl_cons]
      split_ifs with known
      · exact ih mem
      · exact ih (visit (List.mem_cons_of_mem w mem))

/-- A visit marks no node twice. -/
theorem nodup_mark {next : List κ → κ → List κ} {fuel : Nat} {x : κ} {seen : List κ}
    (distinct : seen.Nodup) : (mark next fuel x seen).Nodup := by
  induction fuel generalizing x seen with
  | zero => exact distinct
  | succ fuel visit =>
    rw [mark]
    generalize next seen x = rest
    induction rest generalizing seen with
    | nil => exact distinct
    | cons w rest ih =>
      rw [List.foldl_cons]
      split_ifs with known
      · exact ih distinct
      · exact ih (visit (List.nodup_cons.mpr ⟨known, distinct⟩))

/-- Visiting a marked node marks what it reaches. -/
theorem mem_mark_singleton {R : κ → κ → Prop} {next : List κ → κ → List κ} {U : Finset κ}
    (mem_next : ∀ seen x y, y ∈ next seen x ↔ R x y) (inside : ∀ x y, R x y → y ∈ U) {fuel : Nat}
    (enough : U.card < fuel) (x y : κ) : y ∈ mark next fuel x [x] ↔ ReflTransGen R x y := by
  have marked : IsMark R x [x] (mark next fuel x [x]) :=
    isMark_mark mem_next inside (lt_of_le_of_lt (Finset.card_filter_le _ _) enough)
  constructor
  · intro mem
    rcases marked.reach mem with old | path
    · rw [List.mem_singleton.mp old]
    · exact path.to_reflTransGen
  · intro path
    induction path with
    | refl => exact marked.subset x (by simp)
    | @tail y z _ edge mem =>
      by_cases same : y = x
      · exact marked.next z (same ▸ edge)
      · exact marked.closed y mem (by simpa using same) z edge

/-! ## Listing what a node reaches -/

/-- The nodes in the order in which a queue yields them. A node is put on the queue once for
each edge that leads to it, and its own row only when it comes up for the first time. -/
def walk (row : κ → List κ) : Nat → List κ → List κ → List κ
  | 0, _, _ => []
  | _ + 1, [], _ => []
  | fuel + 1, x :: queue, visited =>
    if x ∈ visited then x :: walk row fuel queue visited
    else x :: walk row fuel (queue ++ row x) (x :: visited)

section Walk

variable {r : κ → List κ} {U : Finset κ} {q v : List κ} {n : Nat}

/-- How many nodes are still to come out of the queue, at most. -/
def ahead (r : κ → List κ) (U : Finset κ) (q v : List κ) : Nat :=
  q.length + ∑ x ∈ unmarked U v, (r x).length

theorem ahead_expand {x : κ} (inside : x ∈ U) (fresh : x ∉ v) :
    ahead r U (q ++ r x) (x :: v) + 1 = ahead r U (x :: q) v := by
  have split : unmarked U v = insert x (unmarked U (x :: v)) := by
    ext y
    simp only [unmarked, Finset.mem_filter, Finset.mem_insert, List.mem_cons, not_or]
    constructor
    · rintro ⟨mem, out⟩
      by_cases eq : y = x
      · exact Or.inl eq
      · exact Or.inr ⟨mem, eq, out⟩
    · rintro (rfl | ⟨mem, -, out⟩)
      · exact ⟨inside, fresh⟩
      · exact ⟨mem, out⟩
  have apart : x ∉ unmarked U (x :: v) := by simp [unmarked]
  rw [ahead, ahead, split, Finset.sum_insert apart]
  simp only [List.length_append, List.length_cons]
  omega

theorem walk_cons (x : κ) (enough : ahead r U (x :: q) v ≤ n) :
    ∃ n', walk r n (x :: q) v = x :: (if x ∈ v
      then walk r n' q v
      else walk r n' (q ++ r x) (x :: v)) ∧ n = n' + 1 := by
  cases n with
  | zero => simp [ahead] at enough
  | succ n => exact ⟨n, by simp only [walk]; split_ifs <;> rfl, rfl⟩

/-- Everything on the queue comes out, and so does the row of whatever comes out and was not
visited before. -/
theorem walk_complete (closed : ∀ x ∈ U, ∀ y ∈ r x, y ∈ U) (inside : ∀ x ∈ q, x ∈ U)
    (enough : ahead r U q v ≤ n) :
    (∀ x ∈ q, x ∈ walk r n q v) ∧
      ∀ x ∈ walk r n q v, x ∉ v →
        ∀ y ∈ r x, y ∈ walk r n q v := by
  induction n generalizing q v with
  | zero =>
    have : q = [] := List.length_eq_zero_iff.mp (by simp only [ahead] at enough; omega)
    simp [this, walk]
  | succ n ih =>
    cases q with
    | nil => simp [walk]
    | cons x q =>
      simp only [List.forall_mem_cons] at inside
      simp only [walk]
      split_ifs with known
      · obtain ⟨queued, rows⟩ := ih (v := v) inside.2
          (by simp only [ahead, List.length_cons] at enough ⊢; omega)
        refine ⟨fun y mem => ?_, fun y mem fresh z edge => ?_⟩
        · obtain rfl | mem := List.mem_cons.mp mem
          · exact List.mem_cons_self
          · exact List.mem_cons_of_mem _ (queued y mem)
        · obtain rfl | mem := List.mem_cons.mp mem
          · exact absurd known fresh
          · exact List.mem_cons_of_mem _ (rows y mem fresh z edge)
      · obtain ⟨queued, rows⟩ := ih (q := q ++ r x) (v := x :: v)
          (fun y mem => (List.mem_append.mp mem).elim (inside.2 y) (closed x inside.1 y))
          (by have := ahead_expand (r := r) (q := q) inside.1 known; omega)
        refine ⟨fun y mem => ?_, fun y mem fresh z edge => ?_⟩
        · obtain rfl | mem := List.mem_cons.mp mem
          · exact List.mem_cons_self
          · exact List.mem_cons_of_mem _ (queued y (List.mem_append_left _ mem))
        · refine List.mem_cons_of_mem _ ?_
          by_cases same : y = x
          · exact queued z (List.mem_append_right _ (same ▸ edge))
          · exact rows y ((List.mem_cons.mp mem).resolve_left same) (by simp [fresh, same]) z edge

theorem walk_sound :
    ∀ y ∈ walk r n q v, ∃ x ∈ q, ReflTransGen (fun a b => b ∈ r a) x y := by
  induction n generalizing q v with
  | zero => simp [walk]
  | succ n ih =>
    cases q with
    | nil => simp [walk]
    | cons x q =>
      simp only [walk]
      split_ifs with known <;> simp only [List.forall_mem_cons] <;>
        refine ⟨⟨x, List.mem_cons_self, .refl⟩, fun y mem => ?_⟩
      · obtain ⟨w, mem, path⟩ := ih y mem
        exact ⟨w, List.mem_cons_of_mem _ mem, path⟩
      · obtain ⟨w, mem, path⟩ := ih y mem
        obtain mem | mem := List.mem_append.mp mem
        · exact ⟨w, List.mem_cons_of_mem _ mem, path⟩
        · exact ⟨x, List.mem_cons_self, .head mem path⟩

/-- The walk from a node yields the node, and then what it reaches by one or more steps. -/
theorem walk_start {start : κ} (closed : ∀ x ∈ U, ∀ y ∈ r x, y ∈ U) (inside : start ∈ U)
    (enough : 1 + ∑ x ∈ U, (r x).length ≤ n) :
    ∃ rest, walk r n [start] [] = start :: rest ∧
      ∀ y, y ∈ rest ↔ TransGen (fun a b => b ∈ r a) start y := by
  have measure : ahead r U [start] [] = 1 + ∑ x ∈ U, (r x).length := by
    simp [ahead, unmarked]
  obtain ⟨n, eq, rfl⟩ := walk_cons (r := r) (U := U) (q := []) (v := [])
    (n := n) start (by omega)
  simp only [List.not_mem_nil, if_false, List.nil_append] at eq
  refine ⟨_, eq, fun y => ⟨fun mem => ?_, fun path => ?_⟩⟩
  · obtain ⟨x, first, path⟩ := walk_sound y mem
    exact .head' first path
  · have left := ahead_expand (r := r) (q := []) (v := []) inside (by simp)
    obtain ⟨queued, rows⟩ := walk_complete (v := [start]) closed
      (closed start inside) (n := n) (by simp only [List.nil_append] at left; omega)
    induction path with
    | single edge => exact queued _ edge
    | @tail y z _ edge ih =>
      by_cases same : y = start
      · exact queued z (same ▸ edge)
      · exact rows y ih (by simpa using same) z edge

end Walk

end FoundryCore.Library
