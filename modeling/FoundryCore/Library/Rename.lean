import FoundryCore.Library.Map

/-!
# Renaming the keys of a map

Two keys may get the same name. The entries are inserted in the order of their old keys, so the
entry of the last of these keys stays.
-/

open Std

namespace FoundryCore.Library

variable {κ κ' β ι : Type*} {cmp : κ → κ → Ordering} {cmp' : κ' → κ' → Ordering}

/-- The entries under new names. -/
def renameKeys [TransCmp cmp] [TransCmp cmp'] (name : κ → κ') (m : ExtTreeMap κ β cmp) :
    ExtTreeMap κ' β cmp' :=
  m.toList.foldl (fun renamed (k, v) => renamed.insert (name k) v) ∅

/-- The entry of the last key with a property. -/
def lastEntry [TransCmp cmp] (p : κ → Bool) (m : ExtTreeMap κ β cmp) : Option (κ × β) :=
  m.toList.reverse.find? fun entry => p entry.1

theorem getElem?_foldl_insert [TransCmp cmp'] [LawfulEqCmp cmp'] [DecidableEq κ']
    (start : ExtTreeMap κ' β cmp') (key : ι → κ') (value : ι → β) (l : List ι) {a : κ'} :
    (l.foldl (fun m x => m.insert (key x) (value x)) start)[a]? =
      ((l.reverse.find? (key · = a)).map value).or start[a]? := by
  induction l using List.reverseRecOn with
  | nil => simp
  | append_singleton l x ih =>
    rw [List.foldl_append, List.foldl_cons, List.foldl_nil, getElem?_insert_eq,
      List.reverse_append, List.reverse_singleton, List.singleton_append, List.find?_cons]
    by_cases same : a = key x
    · simp [same]
    · simp [same, Ne.symm same, ih]

theorem getElem?_renameKeys [TransCmp cmp] [TransCmp cmp'] [LawfulEqCmp cmp'] [DecidableEq κ']
    {name : κ → κ'} {m : ExtTreeMap κ β cmp} {a : κ'} :
    (renameKeys name m : ExtTreeMap κ' β cmp')[a]? =
      (lastEntry (name · = a) m).map Prod.snd := by
  have last := getElem?_foldl_insert (∅ : ExtTreeMap κ' β cmp') (fun e : κ × β => name e.1)
    Prod.snd m.toList (a := a)
  simpa [renameKeys, lastEntry] using last

section Last

variable [TransCmp cmp] [LawfulEqCmp cmp] {p : κ → Bool} {m : ExtTreeMap κ β cmp} {k : κ} {v : β}

theorem lastEntry_eq_none : lastEntry p m = none ↔ ∀ k ∈ m, p k = false := by
  simp only [lastEntry, List.find?_eq_none, List.mem_reverse, Bool.not_eq_true, Prod.forall,
    ExtTreeMap.mem_toList_iff_getElem?_eq_some, ExtTreeMap.mem_iff_isSome_getElem?,
    Option.isSome_iff_exists, forall_exists_index]

theorem last_of_lastEntry (found : lastEntry p m = some (k, v)) :
    m[k]? = some v ∧ p k = true ∧ ∀ k' ∈ m, p k' = true → (cmp k' k).isLE = true := by
  obtain ⟨holds, after, before, reversed, none⟩ := List.find?_eq_some_iff_append.mp found
  have split : m.toList = before.reverse ++ (k, v) :: after.reverse := by
    have := congrArg List.reverse reversed
    simpa using this
  refine ⟨ExtTreeMap.mem_toList_iff_getElem?_eq_some.mp (by simp [split]), holds, ?_⟩
  intro k' mem holds'
  obtain ⟨v', getEq⟩ := Option.isSome_iff_exists.mp (ExtTreeMap.mem_iff_isSome_getElem?.mp mem)
  have listed := ExtTreeMap.mem_toList_iff_getElem?_eq_some.mpr getEq
  have ordered : m.toList.Pairwise fun a b => cmp a.1 b.1 = .lt := ExtTreeMap.ordered_keys_toList
  rw [split] at ordered listed
  rcases List.mem_append.mp listed with first | later
  · have less := (List.pairwise_append.mp ordered).2.2 _ first _ List.mem_cons_self
    simp only at less
    rw [less]
    rfl
  · rcases List.mem_cons.mp later with same | last
    · have self : cmp k k = .eq := ReflCmp.compare_self
      rw [(Prod.mk.inj same).1, self]
      rfl
    · have out := none _ (List.mem_reverse.mp last)
      simp [holds'] at out

theorem lastEntry_eq_some : lastEntry p m = some (k, v) ↔
    m[k]? = some v ∧ p k = true ∧ ∀ k' ∈ m, p k' = true → (cmp k' k).isLE = true := by
  refine ⟨last_of_lastEntry, fun ⟨getEq, holds, last⟩ => ?_⟩
  have mem : k ∈ m := ExtTreeMap.mem_iff_isSome_getElem?.mpr (by rw [getEq]; rfl)
  cases found : lastEntry p m with
  | none => simp [lastEntry_eq_none.mp found k mem] at holds
  | some entry =>
    obtain ⟨k', v'⟩ := entry
    obtain ⟨getEq', holds', last'⟩ := last_of_lastEntry found
    have mem' : k' ∈ m := ExtTreeMap.mem_iff_isSome_getElem?.mpr (by rw [getEq']; rfl)
    obtain rfl : k = k' := LawfulEqCmp.eq_of_compare
      (OrientedCmp.isLE_antisymm (last' k mem holds) (last k' mem' holds'))
    rw [Option.some.inj (getEq.symm.trans getEq')]

/-- Only the entries with the property count. -/
theorem lastEntry_congr {m' : ExtTreeMap κ β cmp}
    (same : ∀ k, p k = true → m[k]? = m'[k]?) : lastEntry p m = lastEntry p m' := by
  have mem : ∀ k, p k = true → (k ∈ m ↔ k ∈ m') := fun k holds => by
    simp only [ExtTreeMap.mem_iff_isSome_getElem?, same k holds]
  refine Option.ext fun ⟨k, v⟩ => ?_
  rw [lastEntry_eq_some, lastEntry_eq_some]
  constructor
  · rintro ⟨getEq, holds, last⟩
    exact ⟨same k holds ▸ getEq, holds,
      fun k' mem' holds' => last k' ((mem k' holds').mpr mem') holds'⟩
  · rintro ⟨getEq, holds, last⟩
    exact ⟨(same k holds).symm ▸ getEq, holds,
      fun k' mem' holds' => last k' ((mem k' holds').mp mem') holds'⟩

end Last

end FoundryCore.Library
