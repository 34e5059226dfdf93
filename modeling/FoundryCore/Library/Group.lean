import FoundryCore.Library.Map

/-!
# Grouping a list by keys

Each element of a list is appended to the entry of a key chosen for it, in a choice that may
look at the groups made so far. The groups are the fibres of a function on the list.
-/

open Std

namespace FoundryCore.Library

variable {κ ι : Type*} {cmp : κ → κ → Ordering}

/-- Appends to the list of a key. -/
def pushAt (m : ExtTreeMap κ (List ι) cmp) [TransCmp cmp] (k : κ) (x : ι) :
    ExtTreeMap κ (List ι) cmp :=
  m.insert k (m[k]?.getD [] ++ [x])

/-- Appends each element to the list of the key chosen for it, if there is one. -/
def groupBy [TransCmp cmp] (choose : ExtTreeMap κ (List ι) cmp → ι → Option κ) (l : List ι) :
    ExtTreeMap κ (List ι) cmp :=
  l.foldl (fun m x =>
    match choose m x with
    | some k => pushAt m k x
    | none => m) ∅

variable [TransCmp cmp] [LawfulEqCmp cmp] {m : ExtTreeMap κ (List ι) cmp} {k k' : κ} {x : ι}
  {l : List ι} {f g : ι → Option κ}

theorem mem_pushAt : k' ∈ pushAt m k x ↔ k' = k ∨ k' ∈ m := by
  rw [pushAt, ExtTreeMap.mem_insert, LawfulEqCmp.compare_eq_iff_eq, eq_comm]

variable [DecidableEq κ]

theorem getD_pushAt :
    (pushAt m k x)[k']?.getD [] = m[k']?.getD [] ++ if k' = k then [x] else [] := by
  rw [pushAt, getElem?_insert_eq]
  by_cases same : k' = k <;> simp [same]

/-- The lists of the map are the fibres of `f` on `l`, the empty ones left out. -/
structure Groups (m : ExtTreeMap κ (List ι) cmp) (l : List ι) (f : ι → Option κ) : Prop where
  fibre : ∀ k, m[k]?.getD [] = l.filter (f · = some k)
  mem_iff : ∀ k, k ∈ m ↔ ∃ x ∈ l, f x = some k

namespace Groups

omit [LawfulEqCmp cmp] in
theorem getElem? (h : Groups m l f) (mem : x ∈ l) (eq : f x = some k) :
    m[k]? = some (l.filter (f · = some k)) := by
  obtain ⟨members, found⟩ := Option.isSome_iff_exists.mp
    (ExtTreeMap.mem_iff_isSome_getElem?.mp ((h.mem_iff k).mpr ⟨x, mem, eq⟩))
  rw [← h.fibre, found, Option.getD_some]

omit [LawfulEqCmp cmp] in
theorem congr (h : Groups m l f) (same : ∀ x ∈ l, f x = g x) : Groups m l g where
  fibre k := (h.fibre k).trans (List.filter_congr fun x mem => by rw [same x mem])
  mem_iff k := (h.mem_iff k).trans
    (exists_congr fun x => and_congr_right fun mem => by rw [same x mem])

omit [LawfulEqCmp cmp] in
theorem nil : Groups (∅ : ExtTreeMap κ (List ι) cmp) [] f := ⟨by simp, by simp⟩

theorem push (h : Groups m l f) (eq : f x = some k) : Groups (pushAt m k x) (l ++ [x]) f where
  fibre k' := by
    rw [getD_pushAt, h.fibre, List.filter_append]
    by_cases same : k' = k
    · simp [same, eq]
    · simp [same, eq, Ne.symm same]
  mem_iff k' := by
    rw [mem_pushAt, h.mem_iff]
    simp only [List.mem_append, List.mem_singleton, or_and_right, exists_or, exists_eq_left, eq,
      Option.some.injEq]
    rw [or_comm, eq_comm]

omit [LawfulEqCmp cmp] in
theorem skip (h : Groups m l f) (eq : f x = none) : Groups m (l ++ [x]) f where
  fibre k' := by simp [h.fibre, eq]
  mem_iff k' := by
    rw [h.mem_iff]
    simp [or_and_right, exists_or, eq]

/-- The groups of a list without duplicates, put together, are the list again. -/
theorem flatMap_perm (h : Groups m l f) (distinct : l.Nodup) (assigned : ∀ x ∈ l, (f x).isSome) :
    (m.toList.flatMap Prod.snd).Perm l := by
  have entry : ∀ e ∈ m.toList, e.2 = l.filter (f · = some e.1) := fun e mem => by
    rw [← h.fibre, ExtTreeMap.mem_toList_iff_getElem?_eq_some.mp mem, Option.getD_some]
  refine (List.perm_ext_iff_of_nodup ?_ distinct).mpr fun x => ?_
  · rw [List.nodup_flatMap]
    refine ⟨fun e mem => entry e mem ▸ distinct.filter _, ?_⟩
    have keys : m.toList.Pairwise fun e e' => e.1 ≠ e'.1 := by
      rw [← List.pairwise_map (R := (· ≠ ·)), ExtTreeMap.map_fst_toList_eq_keys]
      exact ExtTreeMap.nodup_keys
    refine keys.imp_of_mem fun {e e'} mem mem' apart x getEq getEq' => apart ?_
    rw [entry e mem, List.mem_filter, decide_eq_true_eq] at getEq
    rw [entry e' mem', List.mem_filter, decide_eq_true_eq] at getEq'
    exact Option.some.inj (getEq.2.symm.trans getEq'.2)
  · rw [List.mem_flatMap]
    constructor
    · rintro ⟨e, mem, getEq⟩
      rw [entry e mem] at getEq
      exact (List.mem_filter.mp getEq).1
    · intro mem
      obtain ⟨k, eq⟩ := Option.isSome_iff_exists.mp (assigned x mem)
      exact ⟨(k, _), ExtTreeMap.mem_toList_iff_getElem?_eq_some.mpr (h.getElem? mem eq),
        List.mem_filter.mpr ⟨mem, by simpa using eq⟩⟩

/-- Renaming the keys, no two to the same name, groups by the names. -/
theorem mapKeys {κ' : Type*} {cmp' : κ' → κ' → Ordering} [TransCmp cmp'] [LawfulEqCmp cmp']
    [DecidableEq κ'] {φ : κ → κ'} (h : Groups m l f)
    (inj : ∀ k k', k ∈ m → k' ∈ m → φ k = φ k' → k = k') :
    Groups (ExtTreeMap.ofList (m.toList.map fun (k, xs) => (φ k, xs)) cmp') l
      fun x => (f x).map φ := by
  set renamed := ExtTreeMap.ofList (m.toList.map fun (k, xs) => (φ k, xs)) cmp'
  have distinct : ((m.toList.map fun (k, xs) => (φ k, xs)).map Prod.fst).Nodup := by
    have keys : (m.toList.map fun (k, xs) => (φ k, xs)).map Prod.fst = m.keys.map φ := by
      rw [← ExtTreeMap.map_fst_toList_eq_keys, List.map_map, List.map_map]
      rfl
    rw [keys]
    exact ExtTreeMap.nodup_keys.map_on fun k mem k' mem' eq =>
      inj k k' (ExtTreeMap.mem_keys.mp mem) (ExtTreeMap.mem_keys.mp mem') eq
  have entry : ∀ name xs, renamed[name]? = some xs ↔ ∃ k, φ k = name ∧ m[k]? = some xs := by
    intro name xs
    rw [getElem?_ofList_eq_some distinct, List.mem_map]
    constructor
    · rintro ⟨⟨k, xs'⟩, mem, eq⟩
      obtain ⟨rfl, rfl⟩ := Prod.mk.inj eq
      exact ⟨k, rfl, ExtTreeMap.mem_toList_iff_getElem?_eq_some.mp mem⟩
    · rintro ⟨k, rfl, getEq⟩
      exact ⟨(k, xs), ExtTreeMap.mem_toList_iff_getElem?_eq_some.mpr getEq, rfl⟩
  have mem_iff : ∀ name, name ∈ renamed ↔ ∃ x ∈ l, (f x).map φ = some name := by
    intro name
    rw [ExtTreeMap.mem_iff_isSome_getElem?, Option.isSome_iff_exists]
    simp only [entry, Option.map_eq_some_iff]
    constructor
    · rintro ⟨xs, k, eq, getEq⟩
      obtain ⟨x, mem, chosen⟩ := (h.mem_iff k).mp
        (ExtTreeMap.mem_iff_isSome_getElem?.mpr (by rw [getEq]; rfl))
      exact ⟨x, mem, k, chosen, eq⟩
    · rintro ⟨x, mem, k, chosen, eq⟩
      exact ⟨_, k, eq, h.getElem? mem chosen⟩
  refine ⟨fun name => ?_, mem_iff⟩
  cases getEq : renamed[name]? with
  | none =>
    symm
    simp only [Option.getD_none, List.filter_eq_nil_iff, decide_eq_true_eq]
    intro x mem eq
    have listed := (mem_iff name).mpr ⟨x, mem, eq⟩
    simp [ExtTreeMap.mem_iff_isSome_getElem?, getEq] at listed
  | some xs =>
    obtain ⟨k, rfl, group⟩ := (entry name xs).mp getEq
    have fibre := h.fibre k
    rw [group, Option.getD_some] at fibre
    rw [Option.getD_some, fibre]
    refine List.filter_congr fun x mem => ?_
    rw [decide_eq_decide, Option.map_eq_some_iff]
    constructor
    · intro eq
      exact ⟨k, eq, rfl⟩
    · rintro ⟨k', chosen, eq⟩
      rw [chosen, inj k' k ((h.mem_iff k').mpr ⟨x, mem, chosen⟩)
        (ExtTreeMap.mem_iff_isSome_getElem?.mpr (by rw [group]; rfl)) eq]

end Groups

/-- A choice that does not look at the groups. -/
theorem groups_groupBy {choose : ExtTreeMap κ (List ι) cmp → ι → Option κ}
    (chosen : ∀ m, ∀ x ∈ l, choose m x = f x) : Groups (groupBy choose l) l f := by
  induction l using List.reverseRecOn with
  | nil => exact .nil
  | append_singleton l x ih =>
    have groups := ih fun m y mem => chosen m y (by simp [mem])
    rw [groupBy, List.foldl_append]
    simp only [List.foldl_cons, List.foldl_nil]
    rw [← groupBy, chosen _ x (by simp)]
    cases eq : f x with
    | some k => exact groups.push eq
    | none => exact groups.skip eq

/-- If every element gets a key that suits it, the groups are the fibres of a suitable function. -/
theorem exists_groups (choose : ExtTreeMap κ (List ι) cmp → ι → Option κ) {P : ι → κ → Prop}
    (distinct : l.Nodup) (chosen : ∀ m, ∀ x ∈ l, ∃ k, choose m x = some k ∧ P x k) :
    ∃ f : ι → Option κ, (∀ x ∈ l, ∃ k, f x = some k ∧ P x k) ∧ Groups (groupBy choose l) l f := by
  classical
  induction l using List.reverseRecOn with
  | nil => exact ⟨fun _ => none, by simp, .nil⟩
  | append_singleton l x ih =>
    obtain ⟨distinct, fresh⟩ : l.Nodup ∧ x ∉ l := by
      simpa [List.nodup_append, imp_not_comm] using distinct
    obtain ⟨f, suits, groups⟩ := ih distinct fun m y mem => chosen m y (by simp [mem])
    obtain ⟨k, eq, suits'⟩ := chosen (groupBy choose l) x (by simp)
    have step : groupBy choose (l ++ [x]) = pushAt (groupBy choose l) k x := by
      rw [groupBy, List.foldl_append]
      simp only [List.foldl_cons, List.foldl_nil]
      rw [← groupBy, eq]
    have others : ∀ y ∈ l, f y = Function.update f x (some k) y := fun y mem =>
      (Function.update_of_ne (by rintro rfl; exact fresh mem) _ _).symm
    refine ⟨Function.update f x (some k), fun y mem => ?_, ?_⟩
    · rcases List.mem_append.mp mem with mem | mem
      · rw [← others y mem]
        exact suits y mem
      · rw [List.mem_singleton.mp mem]
        exact ⟨k, Function.update_self _ _ _, suits'⟩
    · rw [step]
      exact (groups.congr others).push (Function.update_self _ _ _)

end FoundryCore.Library
