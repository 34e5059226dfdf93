import FoundryCore.EvmVersion

/-!
# Merging restrictions

A file can be restricted from several sides, and its restrictions are merged into one. What meets
the merged restriction is what meets both of them, and if there is none, nothing can meet both.
-/

open Std

namespace FoundryCore

open Library

/-! ## Bounds -/

namespace Restriction

variable {ν : Type} [Ord ν]

/-- Combines two restrictions into a new one. -/
def merge (self other : Restriction ν) : Option (Restriction ν) :=
  let min := Option.merge ordMax self.min other.min
  let max := Option.merge ordMin self.max other.max
  if min.any fun min => max.any fun max => compare min max = .gt then none
  else some { min, max }

/-- Moves a value to the nearest bound. -/
def apply (self : Restriction ν) (value : Option ν) : Option ν :=
  match value, self.min, self.max with
  | none, some min, _ => some min
  | none, none, some max => some max
  | none, none, none => none
  | some cur, min, max =>
    if min.any fun min => compare cur min = .lt then min
    else if max.any fun max => compare cur max = .gt then max
    else some cur

/-- The bounds leave room for a value. -/
def Proper (self : Restriction ν) : Prop :=
  ∀ min ∈ self.min, ∀ max ∈ self.max, (compare min max).isLE = true

variable {r a b m : Restriction ν}

theorem satisfies_none : r.satisfies none = true ↔ r.min = none ∧ r.max = none := by
  cases r with
  | mk min max => cases min <;> cases max <;> simp [satisfies]

theorem satisfies_some {v : ν} : r.satisfies (some v) = true ↔
    (∀ min ∈ r.min, (compare min v).isLE = true) ∧
      ∀ max ∈ r.max, (compare v max).isLE = true := by
  simp [satisfies, Option.all_eq_true]

theorem min_merge (merged : a.merge b = some m) : m.min = Option.merge ordMax a.min b.min := by
  unfold merge at merged
  grind

theorem max_merge (merged : a.merge b = some m) : m.max = Option.merge ordMin a.max b.max := by
  unfold merge at merged
  grind

variable [TransOrd ν]

/-- The greater of two lower bounds is the bound of what is above both. -/
theorem forall_merge_ordMax {a b : Option ν} {v : ν} :
    (∀ min ∈ Option.merge ordMax a b, (compare min v).isLE = true) ↔
      (∀ min ∈ a, (compare min v).isLE = true) ∧ ∀ min ∈ b, (compare min v).isLE = true := by
  cases a <;> cases b <;> simp [Option.merge, ordMax_isLE]

theorem forall_merge_ordMin {a b : Option ν} {v : ν} :
    (∀ max ∈ Option.merge ordMin a b, (compare v max).isLE = true) ↔
      (∀ max ∈ a, (compare v max).isLE = true) ∧ ∀ max ∈ b, (compare v max).isLE = true := by
  cases a <;> cases b <;> simp [Option.merge, isLE_ordMin]

/-- What meets the merged restriction is what meets both. -/
theorem satisfies_merge (merged : a.merge b = some m) (value : Option ν) :
    m.satisfies value = true ↔ a.satisfies value = true ∧ b.satisfies value = true := by
  cases value with
  | none =>
    simp only [satisfies_none, min_merge merged, max_merge merged, Option.merge_eq_none_iff]
    tauto
  | some v =>
    simp only [satisfies_some, min_merge merged, max_merge merged, forall_merge_ordMax,
      forall_merge_ordMin]
    tauto

/-- Restrictions that do not merge exclude each other. -/
theorem not_satisfies_of_merge_eq_none (excluded : a.merge b = none) (value : Option ν) :
    ¬ (a.satisfies value = true ∧ b.satisfies value = true) := by
  obtain ⟨min, minMem, max, maxMem, greater⟩ : ∃ min ∈ Option.merge ordMax a.min b.min,
      ∃ max ∈ Option.merge ordMin a.max b.max, compare min max = .gt := by
    unfold merge at excluded
    simpa [Option.any_eq_true] using excluded
  rintro ⟨meets, meets'⟩
  cases value with
  | none =>
    rw [satisfies_none] at meets meets'
    simp [meets, meets'] at minMem
  | some v =>
    rw [satisfies_some] at meets meets'
    have above := forall_merge_ordMax.mpr ⟨meets.1, meets'.1⟩ min minMem
    have below := forall_merge_ordMin.mpr ⟨meets.2, meets'.2⟩ max maxMem
    exact compare_eq_gt_iff.mp greater (TransCmp.isLE_trans above below)

/-- A value satisfies the bounds it is moved to. -/
theorem satisfies_apply (proper : r.Proper) (value : Option ν) :
    r.satisfies (r.apply value) = true := by
  obtain ⟨min, max⟩ := r
  have refl : ∀ v : ν, (compare v v).isLE = true := fun v => by simp [ReflOrd.compare_self]
  cases value with
  | none =>
    cases min <;> cases max <;> simp_all [apply, satisfies, Proper]
  | some cur =>
    simp only [apply]
    split_ifs with below above
    · obtain ⟨bound, rfl, less⟩ := (Option.any_eq_true _ _).mp below
      exact satisfies_some.mpr ⟨fun b mem => by simp_all, fun b mem => proper _ rfl b mem⟩
    · obtain ⟨bound, rfl, greater⟩ := (Option.any_eq_true _ _).mp above
      exact satisfies_some.mpr ⟨fun b mem => proper b mem _ rfl, fun b mem => by simp_all⟩
    · simp only [Option.any_eq_true, decide_eq_true_eq, not_exists, not_and,
        compare_eq_lt_iff, compare_eq_gt_iff, not_not] at below above
      exact satisfies_some.mpr ⟨below, above⟩

/-- A value that satisfies the bounds is not moved. -/
theorem apply_eq_self {value : Option ν} (meets : r.satisfies value = true) :
    r.apply value = value := by
  obtain ⟨min, max⟩ := r
  cases value with
  | none =>
    obtain ⟨rfl, rfl⟩ := satisfies_none.mp meets
    rfl
  | some cur =>
    obtain ⟨above, below⟩ := satisfies_some.mp meets
    have notLess : ¬ min.any (fun min => compare cur min = .lt) = true := by
      simpa only [Option.any_eq_true, decide_eq_true_eq, not_exists, not_and, compare_eq_lt_iff,
        not_not, Option.mem_def] using above
    have notGreater : ¬ max.any (fun max => compare cur max = .gt) = true := by
      simpa only [Option.any_eq_true, decide_eq_true_eq, not_exists, not_and, compare_eq_gt_iff,
        not_not, Option.mem_def] using below
    simp only [apply, if_neg notLess, if_neg notGreater]

end Restriction

/-! ## Restrictions on settings -/

namespace SolcRestrictions

/-- Combines the restrictions field by field. Values that have to be equal must not differ. -/
def merge (self other : SolcRestrictions) : Option SolcRestrictions :=
  if self.viaIr.any fun viaIr => other.viaIr.any fun otherViaIr => viaIr != otherViaIr then none
  else if self.bytecodeHash.any fun bytecodeHash =>
      other.bytecodeHash.any fun otherBytecodeHash => bytecodeHash != otherBytecodeHash then none
  else do
    let evmVersion ← self.evmVersion.merge other.evmVersion
    let optimizerRuns ← self.optimizerRuns.merge other.optimizerRuns
    return {
      evmVersion
      viaIr := self.viaIr.or other.viaIr
      optimizerRuns
      bytecodeHash := self.bytecodeHash.or other.bytecodeHash }

variable {a b m : SolcRestrictions}

/-- Two values that have to be equal to one and the same value are not different. -/
theorem all_or {κ : Type} [DecidableEq κ] {x y : Option κ} {p : κ → Bool}
    (agree : ¬ (x.any fun v => y.any fun w => v != w) = true) :
    (x.or y).all p = true ↔ x.all p = true ∧ y.all p = true := by
  cases x <;> cases y <;> simp_all

theorem not_all_of_any_ne {κ : Type} [DecidableEq κ] {x y : Option κ} {p : κ → Bool}
    (single : ∀ v w, p v = true → p w = true → v = w)
    (differ : (x.any fun v => y.any fun w => v != w) = true) :
    ¬ (x.all p = true ∧ y.all p = true) := by
  cases x <;> cases y <;> grind

/-- What is merged, if nothing is excluded. -/
theorem merge_eq_some (merged : a.merge b = some m) :
    a.evmVersion.merge b.evmVersion = some m.evmVersion ∧
      a.optimizerRuns.merge b.optimizerRuns = some m.optimizerRuns ∧
      (¬ (a.viaIr.any fun v => b.viaIr.any fun w => v != w) = true ∧
        m.viaIr = a.viaIr.or b.viaIr) ∧
      ¬ (a.bytecodeHash.any fun v => b.bytecodeHash.any fun w => v != w) = true ∧
        m.bytecodeHash = a.bytecodeHash.or b.bytecodeHash := by
  unfold merge at merged
  split_ifs at merged with viaIr hash
  obtain ⟨evmVersion, evmVersionEq, rest⟩ := Option.bind_eq_some_iff.mp merged
  obtain ⟨runs, runsEq, rest⟩ := Option.bind_eq_some_iff.mp rest
  cases rest
  exact ⟨evmVersionEq, runsEq, ⟨viaIr, rfl⟩, hash, rfl⟩

/-- Whatever excludes the merge is a field of its own. -/
theorem merge_eq_none (excluded : a.merge b = none) :
    a.evmVersion.merge b.evmVersion = none ∨ a.optimizerRuns.merge b.optimizerRuns = none ∨
      (a.viaIr.any fun v => b.viaIr.any fun w => v != w) = true ∨
      (a.bytecodeHash.any fun v => b.bytecodeHash.any fun w => v != w) = true := by
  unfold merge at excluded
  split_ifs at excluded with viaIr hash
  · exact .inr (.inr (.inl viaIr))
  · exact .inr (.inr (.inr hash))
  · cases evmVersionEq : a.evmVersion.merge b.evmVersion with
    | none => exact .inl rfl
    | some evmVersion =>
      cases runsEq : a.optimizerRuns.merge b.optimizerRuns with
      | none => exact .inr (.inl rfl)
      | some runs => simp [evmVersionEq, runsEq] at excluded

/-- The optimizer has to be enabled for the merged bound if it has to be for one of the bounds. -/
theorem enabled_of_merge {a b m : Restriction Nat} (merged : a.merge b = some m) (enabled : Bool) :
    m.min.all (fun min => min == 0 || enabled) = true ↔
      a.min.all (fun min => min == 0 || enabled) = true ∧
        b.min.all (fun min => min == 0 || enabled) = true := by
  rw [Restriction.min_merge merged]
  have zero : ∀ x y : Nat, ordMax x y = 0 ↔ x = 0 ∧ y = 0 := by
    intro x y
    simp only [ordMax, Nat.compare_eq_gt]
    grind
  cases a.min <;> cases b.min <;> cases enabled <;> simp [Option.merge, zero]

theorem satisfies_merge (merged : a.merge b = some m) (s : SolcSettings) :
    s.satisfiesRestrictions m = true ↔
      s.satisfiesRestrictions a = true ∧ s.satisfiesRestrictions b = true := by
  obtain ⟨evmVersion, runs, ⟨viaIr, viaIrEq⟩, hash, hashEq⟩ := merge_eq_some merged
  simp only [SolcSettings.satisfiesRestrictions, Bool.and_eq_true, viaIrEq, hashEq, all_or viaIr,
    all_or hash, Restriction.satisfies_merge evmVersion, Restriction.satisfies_merge runs,
    enabled_of_merge runs]
  tauto

theorem not_satisfies_of_merge_eq_none (excluded : a.merge b = none) (s : SolcSettings) :
    ¬ (s.satisfiesRestrictions a = true ∧ s.satisfiesRestrictions b = true) := by
  simp only [SolcSettings.satisfiesRestrictions, Bool.and_eq_true]
  rintro ⟨⟨⟨⟨⟨evm, ir⟩, hash⟩, runs⟩, -⟩, ⟨⟨⟨⟨evm', ir'⟩, hash'⟩, runs'⟩, -⟩⟩
  rcases merge_eq_none excluded with noneEq | noneEq | differ | differ
  · exact Restriction.not_satisfies_of_merge_eq_none noneEq _ ⟨evm, evm'⟩
  · exact Restriction.not_satisfies_of_merge_eq_none noneEq _ ⟨runs, runs'⟩
  · exact not_all_of_any_ne (by grind) differ ⟨ir, ir'⟩
  · exact not_all_of_any_ne (by grind) differ ⟨hash, hash'⟩

/-- Merging is a meet, and applying a restriction moves a value no farther than it has to. -/
theorem merge_meet (a b : SolcRestrictions) :
    (∀ m, a.merge b = some m → ∀ s : SolcSettings, s.satisfiesRestrictions m = true ↔
      s.satisfiesRestrictions a = true ∧ s.satisfiesRestrictions b = true) ∧
    (a.merge b = none → ∀ s : SolcSettings,
      ¬ (s.satisfiesRestrictions a = true ∧ s.satisfiesRestrictions b = true)) ∧
    ∀ {ν : Type} [Ord ν] [TransOrd ν] (r : Restriction ν), r.Proper → ∀ value,
      r.satisfies (r.apply value) = true ∧ (r.satisfies value = true → r.apply value = value) :=
  ⟨fun _ merged => satisfies_merge merged, not_satisfies_of_merge_eq_none,
    fun _ proper value => ⟨Restriction.satisfies_apply proper value, Restriction.apply_eq_self⟩⟩

/-- At least London and at most Cancun merge, at least Cancun and at most London do not. -/
theorem merge_meet_london :
    (∃ m, merge { evmVersion := { min := some .london } }
        { evmVersion := { max := some .cancun } } = some m ∧
      ∀ s : SolcSettings, s.satisfiesRestrictions m = true ↔
        s.satisfiesRestrictions { evmVersion := { min := some .london } } = true ∧
          s.satisfiesRestrictions { evmVersion := { max := some .cancun } } = true) ∧
      (∀ s : SolcSettings,
        ¬ (s.satisfiesRestrictions { evmVersion := { min := some .cancun } } = true ∧
          s.satisfiesRestrictions { evmVersion := { max := some .london } } = true)) ∧
      Restriction.apply ⟨some EvmVersion.london, some .cancun⟩ (some .paris) = some .paris := by
  refine ⟨⟨_, rfl, (merge_meet _ _).1 _ rfl⟩, (merge_meet _ _).2.1 rfl, ?_⟩
  have proper : Restriction.Proper ⟨some EvmVersion.london, some .cancun⟩ := by
    rintro min ⟨⟩ max ⟨⟩
    rfl
  exact ((merge_meet {} {}).2.2 _ proper (some .paris)).2 rfl

end SolcRestrictions

end FoundryCore
