import Mathlib.Data.List.Find
import FoundryCore.Library.Ordering
import FoundryCore.Resolver.Profiles

/-!
# EVM versions of compilers

A compiler supports the EVM versions up to the newest one of its time, and a newer one is replaced
by that. Which one it is depends on thresholds among the compiler versions.
-/

open Std

namespace FoundryCore

open Library

theorem EvmVersion.compare_eq (a b : EvmVersion) : compare a b = compare a.ctorIdx b.ctorIdx := by
  cases a <;> cases b <;> rfl

instance : TransOrd EvmVersion where
  eq_swap {a b} := by
    simp only [EvmVersion.compare_eq]
    exact OrientedCmp.eq_swap
  isLE_trans {a b c} := by
    simp only [EvmVersion.compare_eq]
    exact TransCmp.isLE_trans

namespace Version

/-- `Version::new`, a release. -/
def new (major minor patch : Nat) : Version := { major, minor, patch }

/-- The version is at least the other one. -/
def atLeast (version since : Version) : Bool := (compare since version).isLE

theorem atLeast_trans {version since since' : Version} (h : version.atLeast since = true)
    (older : (compare since' since).isLE = true) : version.atLeast since' = true :=
  TransCmp.isLE_trans older h

theorem atLeast_mono {version version' since : Version} (h : version.atLeast since = true)
    (le : (compare version version').isLE = true) : version'.atLeast since = true :=
  TransCmp.isLE_trans h le

end Version

/-! ## Thresholds -/

def byzantiumSolc : Version := .new 0 4 21
def constantinopleSolc : Version := .new 0 4 22
def petersburgSolc : Version := .new 0 5 5
def istanbulSolc : Version := .new 0 5 14
def berlinSolc : Version := .new 0 8 5
def londonSolc : Version := .new 0 8 7
def parisSolc : Version := .new 0 8 18
def shanghaiSolc : Version := .new 0 8 20
def cancunSolc : Version := .new 0 8 24
def pragueSolc : Version := .new 0 8 27
def osakaSolc : Version := .new 0 8 29

namespace EvmVersion

def atLeast (self other : EvmVersion) : Bool := (compare other self).isLE

/-- Normalizes this EVM version by checking against the given Solc version. -/
def normalizeVersionSolc (self : EvmVersion) (version : Version) : Option EvmVersion :=
  -- the EVM version flag was only added in 0.4.21
  if version.atLeast byzantiumSolc then some (
    if version.atLeast osakaSolc then ordMin self osaka
    else if self.atLeast prague && version.atLeast pragueSolc then prague
    else if self.atLeast cancun && version.atLeast cancunSolc then cancun
    else if self.atLeast shanghai && version.atLeast shanghaiSolc then shanghai
    else if self.atLeast paris && version.atLeast parisSolc then paris
    else if self.atLeast london && version.atLeast londonSolc then london
    else if self.atLeast berlin && version.atLeast berlinSolc then berlin
    else if self.atLeast istanbul && version.atLeast istanbulSolc then istanbul
    else if self.atLeast petersburg && version.atLeast petersburgSolc then petersburg
    else if self.atLeast constantinople && version.atLeast constantinopleSolc then constantinople
    else if self.atLeast byzantium then byzantium
    else self)
  else none

/-- Finds the default EVM version for the given compiler version. -/
def defaultVersionSolc (version : Version) : Option EvmVersion :=
  (prague.normalizeVersionSolc version).map fun default =>
    match default with
    | constantinople => byzantium
    | cancun => if version = .new 0 8 24 then shanghai else cancun
    | prague => if version = .new 0 8 27 then cancun else prague
    | default => default

/-! ## The newest version of a compiler -/

/-- The EVM versions by the compilers that support them, from the newest on. -/
def supported : List (EvmVersion × Version) :=
  [(osaka, osakaSolc), (prague, pragueSolc), (cancun, cancunSolc), (shanghai, shanghaiSolc),
    (paris, parisSolc), (london, londonSolc), (berlin, berlinSolc), (istanbul, istanbulSolc),
    (petersburg, petersburgSolc), (constantinople, constantinopleSolc),
    (byzantium, byzantiumSolc)]

def newest (version : Version) : Option EvmVersion :=
  (supported.find? fun (_, since) => version.atLeast since).map Prod.fst

theorem ctorIdx_injective {a b : EvmVersion} (same : a.ctorIdx = b.ctorIdx) : a = b := by
  cases a <;> cases b <;> first | rfl | cases same

theorem atLeast_iff {a b : EvmVersion} : a.atLeast b = true ↔ b.ctorIdx ≤ a.ctorIdx := by
  rw [atLeast, compare_eq, Nat.isLE_compare]

theorem ordMin_of_le {a b : EvmVersion} (le : a.ctorIdx ≤ b.ctorIdx) : ordMin a b = a := by
  refine if_neg fun greater => ?_
  rw [compare_eq, Nat.compare_eq_gt] at greater
  omega

theorem ordMin_of_ge {a b : EvmVersion} (le : b.ctorIdx ≤ a.ctorIdx) : ordMin a b = b := by
  unfold ordMin
  split_ifs with greater
  · rfl
  · rw [compare_eq, Nat.compare_eq_gt] at greater
    exact ctorIdx_injective (by omega)

/-- Takes the first version that is not newer than the requested one and that the compiler
supports. -/
def cascade (self : EvmVersion) (version : Version) : List (EvmVersion × Version) → EvmVersion
  | [] => self
  | (evm, since) :: rest =>
    if self.atLeast evm && version.atLeast since then evm else cascade self version rest

/-- Each version follows the next one of the list, whose compilers are older. -/
def Falling (table : List (EvmVersion × Version)) : Prop :=
  table.IsChain fun x y => x.1.ctorIdx = y.1.ctorIdx + 1 ∧ (compare y.2 x.2).isLE = true

theorem falling_supported : Falling supported := by
  unfold Falling
  decide +kernel

/-- What the cascade takes is the lesser of the requested version and the first supported one. -/
theorem cascade_eq {table : List (EvmVersion × Version)} (falling : Falling table)
    {self : EvmVersion} {version : Version} {first : EvmVersion × Version}
    (found : table.find? (fun x => version.atLeast x.2) = some first) :
    cascade self version table = ordMin self first.1 := by
  induction table generalizing first with
  | nil => cases found
  | cons x rest ih =>
    rw [List.find?_cons] at found
    rw [cascade]
    cases supports : version.atLeast x.2 with
    | false =>
      rw [supports] at found
      rw [Bool.and_false, if_neg Bool.false_ne_true]
      exact ih (List.IsChain.tail falling) found
    | true =>
      obtain rfl : x = first := by simpa [supports] using found
      rw [Bool.and_true]
      split_ifs with requested <;> rw [atLeast_iff] at requested
      · exact (ordMin_of_ge requested).symm
      · -- the next version is supported as well, and it is not older than the requested one
        rw [ordMin_of_le (by omega)]
        cases rest with
        | nil => rfl
        | cons y rest =>
          obtain ⟨⟨next, older⟩, tail⟩ := List.isChain_cons_cons.mp falling
          have supports' : version.atLeast y.2 = true := Version.atLeast_trans supports older
          rw [ih tail (by rw [List.find?_cons, supports']), ordMin_of_le (by omega)]

/-- A version is normalized to the lesser of itself and the newest version of the compiler. -/
theorem normalizeVersionSolc_eq (self : EvmVersion) (version : Version) :
    self.normalizeVersionSolc version = (newest version).map (ordMin self) := by
  unfold normalizeVersionSolc newest
  cases found : supported.find? fun (_, since) => version.atLeast since with
  | none =>
    have unsupported := List.find?_eq_none.mp found (byzantium, byzantiumSolc) (by decide)
    rw [if_neg unsupported]
    rfl
  | some first =>
    have lowest : version.atLeast byzantiumSolc = true := by
      have mem := List.mem_of_find?_eq_some found
      have oldest : ∀ x ∈ supported, (compare byzantiumSolc x.2).isLE = true := by decide +kernel
      have supports := List.find?_some found
      exact Version.atLeast_trans supports (oldest first mem)
    have takes : cascade self version supported = ordMin self first.1 :=
      cascade_eq falling_supported found
    rw [if_pos lowest, Option.map_some, Option.map_some]
    by_cases latest : version.atLeast osakaSolc = true
    · have here : supported.find? (fun x => version.atLeast x.2) = some (osaka, osakaSolc) :=
        List.find?_cons_of_pos latest
      obtain rfl := Option.some.inj (here.symm.trans found)
      rw [if_pos latest]
    · rw [Bool.not_eq_true] at latest
      rw [← takes, latest]
      simp only [supported, cascade, latest, lowest, Bool.and_false, Bool.and_true,
        Bool.false_eq_true, if_false]

/-- A newer compiler supports as much. -/
theorem newest_mono {version version' : Version} (le : (compare version version').isLE = true)
    {evm : EvmVersion} (found : newest version = some evm) :
    ∃ evm', newest version' = some evm' ∧ (compare evm evm').isLE = true := by
  obtain ⟨x, first, rfl⟩ := Option.map_eq_some_iff.mp found
  have falling : supported.Pairwise fun x y => (compare y.1 x.1).isLE = true := by decide +kernel
  obtain ⟨y, found', le'⟩ := exists_find?_of_imp falling
    (p := fun x => version.atLeast x.2) (q := fun x => version'.atLeast x.2)
    (fun _ _ supports => Version.atLeast_mono supports le) first
  exact ⟨y.1, by rw [newest, found', Option.map_some], le'⟩

/-- What is normalized stays as it is. -/
theorem normalizeVersionSolc_idem {self normalized : EvmVersion} {version : Version}
    (eq : self.normalizeVersionSolc version = some normalized) :
    normalized.normalizeVersionSolc version = some normalized := by
  rw [normalizeVersionSolc_eq] at eq ⊢
  obtain ⟨evm, newestEq, rfl⟩ := Option.map_eq_some_iff.mp eq
  rw [newestEq, Option.map_some, ordMin_ordMin]

/-- Newer requests and newer compilers do not lead to older versions. -/
theorem normalizeVersionSolc_mono {self self' normalized : EvmVersion}
    {version version' : Version} (le : (compare self self').isLE = true)
    (le' : (compare version version').isLE = true)
    (eq : self.normalizeVersionSolc version = some normalized) :
    ∃ normalized', self'.normalizeVersionSolc version' = some normalized' ∧
      (compare normalized normalized').isLE = true := by
  rw [normalizeVersionSolc_eq] at eq
  obtain ⟨evm, newestEq, rfl⟩ := Option.map_eq_some_iff.mp eq
  obtain ⟨evm', newestEq', le''⟩ := newest_mono le' newestEq
  exact ⟨ordMin self' evm', by rw [normalizeVersionSolc_eq, newestEq', Option.map_some],
    ordMin_mono le le''⟩

end EvmVersion

/-! ## Build metadata -/

namespace Version

attribute [local instance] lexOrd

theorem isLE_then {first second : Ordering} (le : first.isLE = true) (le' : second.isLE = true) :
    (first.then second).isLE = true := by
  cases first <;> cases second <;> simp_all

theorem isLE_empty (text : String) : (compare "" text).isLE = true := by
  change (compareOfLessAndEq "" text).isLE = true
  unfold compareOfLessAndEq
  split_ifs with less eq
  · rfl
  · rfl
  · have least : ∃ c cs, text.toList = c :: cs :=
      List.exists_cons_of_ne_nil fun nil => eq (String.toList_eq_nil_iff.mp nil).symm
    obtain ⟨c, cs, textEq⟩ := least
    refine absurd ?_ less
    rw [String.lt_iff, textEq]
    exact List.Lex.nil

theorem isLE_zero (n : Nat) : (compare 0 n).isLE = true := by
  rw [Nat.isLE_compare]
  exact Nat.zero_le n

/-- No metadata comes before any metadata. -/
theorem isLE_identifiers (build : String) :
    (compare (identifiers "") (identifiers build)).isLE = true := by
  have none : identifiers "" = [(0, 0, 0, "")] := by decide +kernel
  have least : ∀ x : Nat × Nat × Nat × String, (compare (0, 0, 0, "") x).isLE = true :=
    fun x => isLE_then (isLE_zero _) (isLE_then (isLE_zero _)
      (isLE_then (isLE_zero _) (isLE_empty _)))
  have nonempty : identifiers build ≠ [] := by
    simp [identifiers, List.splitOn_ne_nil]
  obtain ⟨x, xs, identifiersEq⟩ := List.exists_cons_of_ne_nil nonempty
  rw [none, identifiersEq, List.compare_cons_cons]
  refine isLE_then (least _) ?_
  cases xs <;> rfl

/-- Releases compare by their numbers, and by metadata only if the numbers are the same. -/
theorem compare_release (major minor patch major' minor' patch' : Nat) (build : String) :
    compare (new major minor patch) { new major' minor' patch' with build } =
      (compare (major, minor, patch) (major', minor', patch')).then
        (compare (identifiers "", "") (identifiers build, build)) := by
  have fields : compare (new major minor patch) { new major' minor' patch' with build } =
      (compare major major').then ((compare minor minor').then ((compare patch patch').then
        ((compare 1 1).then ((compare (identifiers "") (identifiers "")).then
          ((compare "" "").then (compare (identifiers "", "") (identifiers build, build))))))) :=
    rfl
  have numbers : compare (major, minor, patch) (major', minor', patch') =
      (compare major major').then ((compare minor minor').then (compare patch patch')) := rfl
  have one : compare 1 1 = Ordering.eq := rfl
  have empty : compare "" "" = Ordering.eq := rfl
  rw [fields, numbers, one, empty, ReflOrd.compare_self (a := identifiers "")]
  simp only [Ordering.then_assoc, Ordering.eq_then]

/-- Metadata does not change which releases a version is at least. -/
theorem atLeast_build (major minor patch major' minor' patch' : Nat) (build : String) :
    Version.atLeast { new major' minor' patch' with build } (new major minor patch) =
      (new major' minor' patch').atLeast (new major minor patch) := by
  have numbers : ∀ build,
      Version.atLeast { new major' minor' patch' with build } (new major minor patch) =
        (compare (major, minor, patch) (major', minor', patch')).isLE := by
    intro build
    have rest : (compare (identifiers "", "") (identifiers build, build)).isLE = true :=
      isLE_then (isLE_identifiers build) (isLE_empty build)
    rw [atLeast, compare_release]
    cases compare (major, minor, patch) (major', minor', patch') <;> simp [rest]
  exact (numbers build).trans (numbers "").symm

end Version

namespace EvmVersion

/-- Metadata does not change what the compiler supports. -/
theorem newest_build (major minor patch : Nat) (build : String) :
    newest { Version.new major minor patch with build } = newest (.new major minor patch) := by
  have releases : ∀ x ∈ supported, x.2 = .new x.2.major x.2.minor x.2.patch := by
    decide +kernel
  unfold newest
  congr 1
  refine List.find?_congr fun x mem => ?_
  change Version.atLeast _ x.2 = Version.atLeast _ x.2
  rw [releases x mem, Version.atLeast_build]

theorem normalizeVersionSolc_build (self : EvmVersion) (major minor patch : Nat)
    (build : String) : self.normalizeVersionSolc { Version.new major minor patch with build } =
      self.normalizeVersionSolc (.new major minor patch) := by
  rw [normalizeVersionSolc_eq, normalizeVersionSolc_eq, newest_build]

/-- The releases whose default is older than the newest version they support. -/
def exceptions : List Version := [.new 0 8 24, .new 0 8 27]

/-- Other releases have the default of what they are normalized to. -/
theorem defaultVersionSolc_of_notMem {version : Version} (regular : version ∉ exceptions) :
    defaultVersionSolc version = (prague.normalizeVersionSolc version).map fun default =>
      if default = constantinople then byzantium else default := by
  simp only [exceptions, List.mem_cons, List.not_mem_nil, or_false, not_or] at regular
  unfold defaultVersionSolc
  congr 1
  funext default
  cases default <;> simp [regular]

/-- What selects the EVM version takes no notice of metadata, does not change what it selected,
and selects newer versions for newer requests and newer compilers. -/
structure Selects (version : Version) (build : String) : Prop where
  default_build : defaultVersionSolc { version with build } = defaultVersionSolc version
  normalize_build : ∀ self : EvmVersion,
    self.normalizeVersionSolc { version with build } = self.normalizeVersionSolc version
  idem : ∀ (self normalized : EvmVersion) (version : Version),
    self.normalizeVersionSolc version = some normalized →
      normalized.normalizeVersionSolc version = some normalized
  mono : ∀ (self self' normalized : EvmVersion) (version version' : Version),
    (compare self self').isLE = true → (compare version version').isLE = true →
      self.normalizeVersionSolc version = some normalized →
        ∃ normalized', self'.normalizeVersionSolc version' = some normalized' ∧
          (compare normalized normalized').isLE = true

/-- Metadata makes a difference for the releases that are compared as a whole, and only there. -/
theorem selects_iff (major minor patch : Nat) (build : String) :
    Selects (.new major minor patch) build ↔
      (build = "" ∨ Version.new major minor patch ∉ exceptions) := by
  constructor
  · intro selects
    by_contra! ⟨attached, exceptional⟩
    have same := selects.default_build
    have whole : { Version.new major minor patch with build } ∉ exceptions := by
      simp [exceptions, Version.new, attached]
    rw [defaultVersionSolc_of_notMem whole, normalizeVersionSolc_build] at same
    simp only [exceptions, List.mem_cons, List.not_mem_nil, or_false] at exceptional
    rcases exceptional with exceptional | exceptional <;> rw [exceptional] at same <;>
      revert same <;> decide +kernel
  · intro condition
    refine ⟨?_, fun self => normalizeVersionSolc_build self major minor patch build,
      fun _ _ _ => normalizeVersionSolc_idem, fun _ _ _ _ _ => normalizeVersionSolc_mono⟩
    rcases condition with rfl | regular
    · rfl
    · have whole : { Version.new major minor patch with build } ∉ exceptions := by
        simp only [exceptions, List.mem_cons, List.not_mem_nil, or_false, not_or] at regular ⊢
        simp_all [Version.new]
      rw [defaultVersionSolc_of_notMem whole, defaultVersionSolc_of_notMem regular,
        normalizeVersionSolc_build]

/-- The default of 0.8.24 is Shanghai, but with the commit of its build it is Cancun. -/
theorem not_selects :
    defaultVersionSolc (.new 0 8 24) = some shanghai ∧
      defaultVersionSolc { Version.new 0 8 24 with build := "commit.e11b9ed9" } = some cancun ∧
      ¬ Selects (.new 0 8 24) "commit.e11b9ed9" := by
  have differ : defaultVersionSolc { Version.new 0 8 24 with build := "commit.e11b9ed9" } ≠
      defaultVersionSolc (.new 0 8 24) := by decide +kernel
  exact ⟨by decide +kernel, by decide +kernel, fun selects => differ selects.default_build⟩

end EvmVersion

end FoundryCore
