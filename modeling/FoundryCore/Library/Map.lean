import Mathlib.Data.Finset.Basic

/-!
# Ordered maps under lawful comparisons

`Std.ExtTreeMap` states its lookup lemmas with `cmp`. Where the comparison is lawful they
read with `=`, which is the form the models use.
-/

open Std

namespace FoundryCore.Library

variable {κ β : Type*} {cmp : κ → κ → Ordering} [TransCmp cmp] [LawfulEqCmp cmp] [DecidableEq κ]
  {m m' : ExtTreeMap κ β cmp} {k a : κ} {v : β}

theorem getElem?_insert_eq : (m.insert k v)[a]? = if a = k then some v else m[a]? := by
  simp only [ExtTreeMap.getElem?_insert, LawfulEqCmp.compare_eq_iff_eq, eq_comm (a := a)]

theorem getElem?_erase_eq : (m.erase k)[a]? = if a = k then none else m[a]? := by
  simp only [ExtTreeMap.getElem?_erase, LawfulEqCmp.compare_eq_iff_eq, eq_comm (a := a)]

omit [DecidableEq κ] in
theorem exists_getElem?_of_isEmpty (someEq : m.isEmpty = false) :
    ∃ (k : κ) (v : β), m[k]? = some v := by
  by_contra noneEq
  have empty : m = ∅ := by
    apply ExtTreeMap.ext_getElem?
    intro k
    cases getEq : m[k]? with
    | none => simp
    | some v => exact absurd ⟨k, v, getEq⟩ noneEq
  simp [empty] at someEq

theorem getElem?_foldl_erase (keys : List κ) :
    (keys.foldl ExtTreeMap.erase m)[a]? = if a ∈ keys then none else m[a]? := by
  induction keys generalizing m with
  | nil => simp
  | cons k keys ih =>
    rw [List.foldl_cons, ih, getElem?_erase_eq]
    by_cases same : a = k <;> by_cases later : a ∈ keys <;> simp [same, later]

omit [LawfulEqCmp cmp] [DecidableEq κ] in
theorem eraseMany_eq_foldl (keys : List κ) : m.eraseMany keys = keys.foldl ExtTreeMap.erase m := by
  have inner : (keys.foldl ExtTreeMap.erase m).inner = keys.foldl ExtDTreeMap.erase m.inner :=
    (List.foldl_hom ExtTreeMap.inner fun _ _ => rfl).symm
  refine congrArg ExtTreeMap.mk (Eq.trans ?_ inner.symm)
  unfold ExtDTreeMap.eraseMany
  simp only [List.forIn_pure_yield_eq_foldl]
  exact (List.foldl_hom Subtype.val fun _ _ => rfl).symm

theorem mem_eraseMany {set : ExtTreeSet κ cmp} {keys : List κ} :
    k ∈ set.eraseMany keys ↔ k ∈ set ∧ k ∉ keys := by
  change k ∈ set.inner.eraseMany keys ↔ k ∈ set.inner ∧ k ∉ keys
  rw [eraseMany_eq_foldl, ExtTreeMap.mem_iff_isSome_getElem?, getElem?_foldl_erase,
    ExtTreeMap.mem_iff_isSome_getElem?]
  split_ifs with erased <;> simp [erased]

omit [DecidableEq κ] in
/-- Mapping the values to others and back. -/
theorem map_map_eq_self {β' : Type*} {f : κ → β → β'} {g : κ → β' → β}
    (back : ∀ k v, m[k]? = some v → g k (f k v) = v) :
    (m.map f).map g = m := by
  apply ExtTreeMap.ext_getElem?
  intro k
  rw [ExtTreeMap.getElem?_map, ExtTreeMap.getElem?_map, Option.map_map]
  cases getEq : m[k]? with
  | none => rfl
  | some v => exact congrArg some (back k v getEq)

/-- Inserting every entry of a map one by one overrides with that map. -/
theorem getElem?_insertMany_toList : (m.insertMany m'.toList)[a]? = m'[a]?.or m[a]? := by
  cases h : m'[a]? with
  | none =>
    have absent : (m'.toList.map Prod.fst).contains a = false := by
      rw [ExtTreeMap.map_fst_toList_eq_keys]
      simpa using h
    simpa using ExtTreeMap.getElem?_insertMany_list_of_contains_eq_false absent
  | some v =>
    have entry : (a, v) ∈ m'.toList := ExtTreeMap.mem_toList_iff_getElem?_eq_some.mpr h
    simpa using ExtTreeMap.getElem?_insertMany_list_of_mem (t := m) ReflCmp.compare_self
      ExtTreeMap.distinct_keys_toList entry

omit [TransCmp cmp] [DecidableEq κ] in
theorem pairwise_of_nodup {l : List (κ × β)} (distinct : (l.map Prod.fst).Nodup) :
    l.Pairwise fun a b => ¬ cmp a.1 b.1 = .eq := by
  simpa [LawfulEqCmp.compare_eq_iff_eq, List.Nodup, List.pairwise_map] using distinct

/-- A map made of a list with distinct keys has the entries of the list. -/
theorem getElem?_ofList_eq_some {l : List (κ × β)} (distinct : (l.map Prod.fst).Nodup) :
    (ExtTreeMap.ofList l cmp)[k]? = some v ↔ (k, v) ∈ l := by
  have apart : l.Pairwise fun a b => ¬ cmp a.1 b.1 = .eq := pairwise_of_nodup distinct
  constructor
  · intro found
    have mem : k ∈ ExtTreeMap.ofList l cmp :=
      ExtTreeMap.mem_iff_isSome_getElem?.mpr (Option.isSome_of_eq_some found)
    rw [ExtTreeMap.mem_ofList, List.contains_iff_mem, List.mem_map] at mem
    obtain ⟨⟨k', v'⟩, entry, rfl⟩ := mem
    rw [ExtTreeMap.getElem?_ofList_of_mem ReflCmp.compare_self apart entry] at found
    rwa [← Option.some.inj found]
  · exact fun entry => ExtTreeMap.getElem?_ofList_of_mem ReflCmp.compare_self apart entry

omit [DecidableEq κ] in
/-- The entries of a map made of a list are entries of the list. -/
theorem mem_of_getElem?_ofList {l : List (κ × β)} (getEq : (ExtTreeMap.ofList l cmp)[k]? = some v) :
    (k, v) ∈ l := by
  classical
  suffices ∀ (l : List (κ × β)) (m : ExtTreeMap κ β cmp), (m.insertMany l)[k]? = some v →
      (k, v) ∈ l ∨ m[k]? = some v by
    rw [ExtTreeMap.ofList_eq_insertMany_empty] at getEq
    simpa using this l ∅ getEq
  intro l
  induction l with
  | nil => exact fun m getEq => .inr (by simpa using getEq)
  | cons entry l ih =>
    intro m getEq
    rw [ExtTreeMap.insertMany_cons] at getEq
    rcases ih _ getEq with later | now
    · exact .inl (List.mem_cons_of_mem _ later)
    · rw [getElem?_insert_eq] at now
      split_ifs at now with same
      · exact .inl (by rw [same, ← Option.some.inj now]; exact List.mem_cons_self)
      · exact .inr now

omit [TransCmp cmp] [LawfulEqCmp cmp] in
/-- Going over elements with distinct keys, where what is observed at a key changes at the element
with this key only. -/
theorem foldl_distinct {ι σ ω : Type*} (key : ι → κ) (observe : σ → ω) (step : σ → ι → σ)
    (update : ι → ω → ω) {l : List ι} (distinct : (l.map key).Nodup)
    (spec : ∀ x ∈ l, ∀ s,
      observe (step s x) = if a = key x then update x (observe s) else observe s) (s : σ) :
    (∀ x ∈ l, key x = a → observe (l.foldl step s) = update x (observe s)) ∧
      (a ∉ l.map key → observe (l.foldl step s) = observe s) := by
  induction l generalizing s with
  | nil => simp
  | cons head l ih =>
    rw [List.map_cons] at distinct
    obtain ⟨fresh, distinct⟩ := List.nodup_cons.mp distinct
    obtain ⟨here, absent⟩ := ih distinct (fun x mem => spec x (List.mem_cons_of_mem _ mem))
      (step s head)
    have first := spec head List.mem_cons_self s
    rw [List.foldl_cons]
    constructor
    · intro x mem same
      rcases List.mem_cons.mp mem with rfl | later
      · rw [absent (same ▸ fresh), first, if_pos same.symm]
      · have other : a ≠ key head := by
          rintro rfl
          exact fresh (same ▸ List.mem_map_of_mem later)
        rw [here x later same, first, if_neg other]
    · intro out
      rw [List.map_cons, List.mem_cons, not_or] at out
      rw [absent out.2, first, if_neg out.1]

omit [TransCmp cmp] [LawfulEqCmp cmp] in
/-- What is observed at a key does not depend on the order of the elements. -/
theorem foldl_perm {ι σ ω : Type*} (key : ι → κ) (observe : σ → ω) (step : σ → ι → σ)
    (update : ι → ω → ω) {l l' : List ι} (perm : l.Perm l') (distinct : (l.map key).Nodup)
    (spec : ∀ x ∈ l, ∀ s,
      observe (step s x) = if a = key x then update x (observe s) else observe s) (s : σ) :
    observe (l.foldl step s) = observe (l'.foldl step s) := by
  obtain ⟨here, absent⟩ := foldl_distinct key observe step update distinct spec s
  obtain ⟨here', absent'⟩ := foldl_distinct key observe step update
    ((perm.map key).nodup_iff.mp distinct) (fun x mem => spec x (perm.mem_iff.mpr mem)) s
  by_cases found : ∃ x ∈ l, key x = a
  · obtain ⟨x, mem, same⟩ := found
    rw [here x mem same, here' x (perm.mem_iff.mp mem) same]
  · have out : a ∉ l.map key := by simpa using found
    rw [absent out, absent' (mt (perm.map key).mem_iff.mpr out)]

/-- Going over the entries of a map, where what is observed at a key changes at its own entry
only. -/
theorem foldl_toList {σ ω β' : Type*} (other : ExtTreeMap κ β' cmp) (observe : σ → ω)
    (step : σ → κ → β' → σ) (update : β' → ω → ω)
    (spec : ∀ s k x, observe (step s k x) = if a = k then update x (observe s) else observe s)
    (s : σ) : observe (other.toList.foldl (fun s (k, x) => step s k x) s) =
      match other[a]? with
      | some x => update x (observe s)
      | none => observe s := by
  obtain ⟨here, absent⟩ := foldl_distinct Prod.fst observe (fun s (k, x) => step s k x)
    (fun x => update x.2) (l := other.toList)
    (by rw [ExtTreeMap.map_fst_toList_eq_keys]; exact ExtTreeMap.nodup_keys)
    (fun x _ s => spec s x.1 x.2) s
  cases getEq : other[a]? with
  | some x => exact here (a, x) (ExtTreeMap.mem_toList_iff_getElem?_eq_some.mpr getEq) rfl
  | none =>
    refine absent ?_
    rw [ExtTreeMap.map_fst_toList_eq_keys, ExtTreeMap.mem_keys,
      ExtTreeMap.mem_iff_isSome_getElem?, getEq]
    simp

/-- Updating a map by every entry of another one updates each key by its own entry. -/
theorem getElem?_foldl_update {β' : Type*} {other : ExtTreeMap κ β' cmp}
    (update : β' → Option β → β) :
    (other.toList.foldl (fun m (k, x) => m.insert k (update x m[k]?)) m)[a]? =
      (other[a]?.map fun x => update x m[a]?).or m[a]? := by
  rw [foldl_toList other (fun m : ExtTreeMap κ β cmp => m[a]?)
    (fun m k x => m.insert k (update x m[k]?)) (fun x old => some (update x old))]
  · cases other[a]? <;> rfl
  · intro m k x
    rw [getElem?_insert_eq]
    split_ifs with same
    · rw [same]
    · rfl

omit [DecidableEq κ] in
/-- Renaming the keys with a function that tells them apart moves the entries. -/
theorem getElem?_ofList_map {κ' : Type*} {cmp' : κ' → κ' → Ordering} [TransCmp cmp']
    [LawfulEqCmp cmp'] [DecidableEq κ'] {name : κ → κ'}
    (inj : ∀ k ∈ m, ∀ k' ∈ m, name k = name k' → k = k') {a : κ'} :
    (ExtTreeMap.ofList (m.toList.map fun (k, v) => (name k, v)) cmp')[a]? = some v ↔
      ∃ k, name k = a ∧ m[k]? = some v := by
  have keys : (m.toList.map fun (k, v) => (name k, v)).map Prod.fst = m.keys.map name := by
    rw [← ExtTreeMap.map_fst_toList_eq_keys, List.map_map, List.map_map]
    rfl
  rw [getElem?_ofList_eq_some]
  · simp only [List.mem_map, Prod.mk.injEq, Prod.exists,
      ExtTreeMap.mem_toList_iff_getElem?_eq_some]
    grind
  · rw [keys]
    exact ExtTreeMap.nodup_keys.map_on fun k mem k' mem' eq =>
      inj k (ExtTreeMap.mem_keys.mp mem) k' (ExtTreeMap.mem_keys.mp mem') eq

end FoundryCore.Library
