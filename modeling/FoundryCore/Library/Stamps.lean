import Mathlib.Logic.Relation

/-!
# Stamped items

Items have stamps, and the stamp of an item says which other items it needs. What was made of an
item is still good as long as everything that the item needs, directly or not, has the stamp that
it had.
-/

namespace FoundryCore.Library

open Relation

variable {ν η : Type*} {I : ν → η → ν → Prop} {stamp stamp' stamp'' : ν → Option η}
  {recorded : ν → Option η} {x y : ν}

/-- The item needs the other one by the stamp that it has. -/
def Needs (I : ν → η → ν → Prop) (stamp : ν → Option η) (x y : ν) : Prop :=
  ∃ h, stamp x = some h ∧ I x h y

/-- The item, and everything that it needs, directly or not, has the stamp that it had. -/
def Unchanged (I : ν → η → ν → Prop) (stamp stamp' : ν → Option η) (x : ν) : Prop :=
  ∀ y, ReflTransGen (Needs I stamp) x y → ∃ h, stamp y = some h ∧ stamp' y = some h

/-- Some items have their stamps recorded, with everything that they need. -/
structure Settled (I : ν → η → ν → Prop) (now recorded : ν → Option η) : Prop where
  current : ∀ x h, recorded x = some h → now x = some h
  closed : ∀ x, (recorded x).isSome → ∀ y, Needs I now x y → (recorded y).isSome

theorem Settled.unchanged (settled : Settled I stamp stamp') (mem : (stamp' x).isSome) :
    Unchanged I stamp stamp' x := by
  intro y path
  have reached : (stamp' y).isSome := by
    induction path with
    | refl => exact mem
    | tail _ needs ih => exact settled.closed _ ih _ needs
  obtain ⟨h, recorded⟩ := Option.isSome_iff_exists.mp reached
  exact ⟨h, settled.current y h recorded, recorded⟩

/-- An item stays unchanged if what is left of the recorded stamps, its own among them, is
settled. -/
theorem Settled.unchanged_of_subset (settled : Settled I stamp stamp')
    (unchanged : Unchanged I stamp'' recorded x)
    (subset : ∀ y h, stamp' y = some h → recorded y = some h) (mem : (stamp' x).isSome) :
    Unchanged I stamp'' stamp' x := by
  have same : ∀ y, ReflTransGen (Needs I stamp'') x y → (stamp' y).isSome →
      ∃ h, stamp'' y = some h ∧ stamp' y = some h := by
    intro y path kept
    obtain ⟨h, here⟩ := Option.isSome_iff_exists.mp kept
    obtain ⟨h', getEq, recorded⟩ := unchanged y path
    obtain rfl := Option.some.inj ((subset y h here).symm.trans recorded)
    exact ⟨h, getEq, here⟩
  intro y path
  refine same y path ?_
  induction path with
  | refl => exact mem
  | @tail m n path needs ih =>
    obtain ⟨h, getEq, needs⟩ := needs
    obtain ⟨h', getEq', here⟩ := same m path ih
    obtain rfl := Option.some.inj (getEq.symm.trans getEq')
    exact settled.closed m ih n ⟨h, settled.current m h here, needs⟩

namespace Unchanged

/-- What is needed for the old stamps is needed for the new ones. -/
theorem reaches (unchanged : Unchanged I stamp stamp' x) (path : ReflTransGen (Needs I stamp) x y) :
    ReflTransGen (Needs I stamp') x y := by
  induction path with
  | refl => exact .refl
  | @tail m n path needs ih =>
    obtain ⟨h, getEq, needs⟩ := needs
    obtain ⟨h', getEq', now⟩ := unchanged m path
    obtain rfl := Option.some.inj (getEq.symm.trans getEq')
    exact ih.tail ⟨h, now, needs⟩

theorem mono (unchanged : Unchanged I stamp stamp' x)
    (more : ∀ y h, stamp' y = some h → stamp'' y = some h) : Unchanged I stamp stamp'' x := by
  intro y path
  obtain ⟨h, getEq, now⟩ := unchanged y path
  exact ⟨h, getEq, more y h now⟩

end Unchanged

end FoundryCore.Library
