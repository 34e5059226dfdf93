import FoundryCore.Library.Map
import Mathlib.Data.List.Forall2
import Mathlib.Data.List.Nodup
import Mathlib.Data.List.Perm.Basic
import Mathlib.Logic.Function.Basic

/-!
# Writes that may fail

Contents are written to places in turn, until a place cannot be written. If all of them can, the
order of the writes to different places does not matter.
-/

open Std

namespace FoundryCore.Library

variable {κ β ι ι' : Type*} [DecidableEq κ]

def write (stored : κ → Option β) (entry : κ × β) : κ → Option β :=
  Function.update stored entry.1 (some entry.2)

/-- Writes the entries in turn, up to the first place that cannot be written. -/
def writeAll (writable : κ → Bool) (stored : κ → Option β) :
    List (κ × β) → Except κ (κ → Option β)
  | [] => .ok stored
  | entry :: rest =>
    if writable entry.1 then writeAll writable (write stored entry) rest else .error entry.1

variable {writable : κ → Bool} {stored : κ → Option β} {l l' : List (κ × β)}

theorem writeAll_toOption : (writeAll writable stored l).toOption =
    if ∀ entry ∈ l, writable entry.1 = true then some (l.foldl write stored) else none := by
  induction l generalizing stored with
  | nil => simp [writeAll, Except.toOption]
  | cons entry rest ih =>
    rw [writeAll, List.foldl_cons]
    by_cases here : writable entry.1 = true
    · rw [if_pos here, ih]
      simp only [List.forall_mem_cons, here, true_and]
    · rw [if_neg here, if_neg fun all => here (all entry List.mem_cons_self)]
      rfl

theorem writeAll_append (l k : List (κ × β)) :
    (writeAll writable stored (l ++ k)).toOption =
      (writeAll writable stored l).toOption.bind fun stored =>
        (writeAll writable stored k).toOption := by
  induction l generalizing stored with
  | nil => rfl
  | cons entry rest ih =>
    rw [List.cons_append, writeAll, writeAll]
    split_ifs
    · exact ih
    · rfl

/-- Writes to different places can change places. -/
theorem foldl_write_perm (perm : l.Perm l') (distinct : (l.map Prod.fst).Nodup) :
    l.foldl write stored = l'.foldl write stored := by
  refine perm.foldl_eq' (fun x memX y memY stored => ?_) stored
  rcases eq_or_ne x.1 y.1 with same | apart
  · rw [List.inj_on_of_nodup_map distinct memX memY same]
  · exact Function.update_comm apart _ _ _

/-- Both lists can be written or neither can, and then they leave the same. -/
def Interchangeable (writable : κ → Bool) (l l' : List (κ × β)) : Prop :=
  ∀ stored, (writeAll writable stored l).toOption = (writeAll writable stored l').toOption

theorem interchangeable_of_perm (perm : l.Perm l') (distinct : (l.map Prod.fst).Nodup) :
    Interchangeable writable l l' := by
  intro stored
  rw [writeAll_toOption, writeAll_toOption, foldl_write_perm perm distinct]
  exact if_congr (forall_congr' fun entry => by rw [perm.mem_iff]) rfl rfl

theorem Interchangeable.append {k k' : List (κ × β)} (first : Interchangeable writable l l')
    (second : Interchangeable writable k k') :
    Interchangeable writable (l ++ k) (l' ++ k') := by
  intro stored
  rw [writeAll_append, writeAll_append, first stored]
  exact congrArg _ (funext second)

theorem Interchangeable.flatMap {xs : List ι} {ys : List ι'} {f : ι → List (κ × β)}
    {g : ι' → List (κ × β)}
    (each : List.Forall₂ (fun x y => Interchangeable writable (f x) (g y)) xs ys) :
    Interchangeable writable (xs.flatMap f) (ys.flatMap g) := by
  induction each with
  | nil => exact fun _ => rfl
  | cons here _ ih => exact here.append ih

/-- What gives nothing can be left out. -/
theorem flatMap_filter {p : ι → Bool} {f : ι → List ι'} {l : List ι}
    (nothing : ∀ x, p x = false → f x = []) : (l.filter p).flatMap f = l.flatMap f := by
  induction l with
  | nil => rfl
  | cons x l ih =>
    rw [List.flatMap_cons, ← ih]
    cases kept : p x with
    | true => rw [List.filter_cons_of_pos kept, List.flatMap_cons]
    | false => rw [List.filter_cons_of_neg (by simp [kept]), nothing x kept, List.nil_append]

section Maps

variable {ρ σ τ : Type*} {cmp : ρ → ρ → Ordering} [TransCmp cmp] [LawfulEqCmp cmp]
  {m : ExtTreeMap ρ σ cmp} {m' : ExtTreeMap ρ τ cmp}

theorem flatMap_toList_keys (f : ρ × σ → List ι) :
    m.toList.flatMap f = m.keys.flatMap fun k => (m[k]?.map fun v => f (k, v)).getD [] := by
  rw [← ExtTreeMap.map_fst_toList_eq_keys, List.flatMap_map]
  refine List.flatMap_congr fun entry mem => ?_
  rw [ExtTreeMap.mem_toList_iff_getElem?_eq_some.mp mem]
  rfl

/-- Going over the entries of a map is going over any sorted list with all its keys. -/
theorem flatMap_toList {keys : List ρ} (sorted : keys.Pairwise fun a b => cmp a b = .lt)
    (all : ∀ k ∈ m, k ∈ keys) (f : ρ × σ → List ι) :
    m.toList.flatMap f = keys.flatMap fun k => (m[k]?.map fun v => f (k, v)).getD [] := by
  have distinct : keys.Nodup := sorted.imp fun before same => by
    simp [same, ReflCmp.compare_self] at before
  have asymm : ∀ a b : ρ, cmp a b = .lt → cmp b a = .lt → a = b := fun a b lt gt =>
    absurd (TransCmp.lt_trans lt gt) (by simp [ReflCmp.compare_self])
  have there : keys.filter (m.contains ·) = m.keys := by
    refine List.Perm.eq_of_pairwise (fun a b _ _ => asymm a b) (sorted.filter _)
      ExtTreeMap.ordered_keys ?_
    rw [List.perm_ext_iff_of_nodup (distinct.filter _) ExtTreeMap.nodup_keys]
    intro k
    simpa using all k
  rw [flatMap_toList_keys, ← there]
  exact flatMap_filter fun k missing => by
    rw [ExtTreeMap.getElem?_eq_none_of_contains_eq_false missing]
    rfl

variable {f : ρ × σ → List (κ × β)} {g : ρ × τ → List (κ × β)}

/-- The entries of two maps are written in the same order. -/
theorem Interchangeable.flatMap_toList
    (each : ∀ k, Interchangeable writable ((m[k]?.map fun v => f (k, v)).getD [])
      ((m'[k]?.map fun v => g (k, v)).getD [])) :
    Interchangeable writable (m.toList.flatMap f) (m'.toList.flatMap g) := by
  let both : ExtTreeMap ρ Unit cmp := .ofList ((m.keys ++ m'.keys).map fun k => (k, ())) cmp
  have all : ∀ k, k ∈ both.keys ↔ k ∈ m ∨ k ∈ m' := by
    classical
    intro k
    rw [ExtTreeMap.mem_keys, ExtTreeMap.mem_ofList, List.contains_iff_mem]
    simp
  rw [Library.flatMap_toList ExtTreeMap.ordered_keys (fun k mem => (all k).mpr (.inl mem)),
    Library.flatMap_toList ExtTreeMap.ordered_keys (fun k mem => (all k).mpr (.inr mem))]
  exact .flatMap (List.forall₂_same.mpr fun k _ => each k)

theorem flatMap_toList_getD (o : Option (ExtTreeMap ρ σ cmp)) (f : ρ × σ → List ι) :
    (o.map fun m => m.toList.flatMap f).getD [] = (o.getD ∅).toList.flatMap f ∧
      ∀ k : ρ, o.bind (·[k]?) = (o.getD ∅)[k]? := by
  cases o <;> simp

/-- A map that is missing has no entries. -/
theorem Interchangeable.flatMap_getD {o : Option (ExtTreeMap ρ σ cmp)}
    {o' : Option (ExtTreeMap ρ τ cmp)}
    (each : ∀ k, Interchangeable writable (((o.bind (·[k]?)).map fun v => f (k, v)).getD [])
      (((o'.bind (·[k]?)).map fun v => g (k, v)).getD [])) :
    Interchangeable writable ((o.map fun m => m.toList.flatMap f).getD [])
      ((o'.map fun m => m.toList.flatMap g).getD []) := by
  obtain ⟨entries, getEq⟩ := flatMap_toList_getD o f
  obtain ⟨entries', getEq'⟩ := flatMap_toList_getD o' g
  rw [entries, entries']
  refine .flatMap_toList fun k => ?_
  rw [← getEq, ← getEq']
  exact each k

end Maps

end FoundryCore.Library
