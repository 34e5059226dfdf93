import FoundryCore.Library.Except
import FoundryCore.Resolver.Versions

/-!
# The choice of compiler versions

The version of an input file meets the requirements of all files it imports; if some candidate
meets those of all inputs of a language, the best of such candidates is used for all of them.
-/

open Std Relation

namespace FoundryCore

/-! ## Picking a candidate -/

/-- Sorted in the order of compiler versions: the installed ones first, each kind by number. -/
def SortedVersions (versions : List CompilerVersion) : Prop :=
  versions.Pairwise fun v w => (compare v w).isLE = true

/-- The highest installed one of some versions, or the highest one if none is installed. -/
structure Best (P : CompilerVersion → Prop) (best : CompilerVersion) : Prop where
  holds : P best
  installed : (∃ v, P v ∧ v.isInstalled = true) → best.isInstalled = true
  highest : ∀ v, P v → v.isInstalled = best.isInstalled →
    (compare v.version best.version).isLE = true

variable {versions : List CompilerVersion} {v best : CompilerVersion}

theorem isLE_version_self (v : CompilerVersion) : (compare v.version v.version).isLE = true := by
  rw [ReflOrd.compare_self]
  rfl

/-- Before a place of a sorted list stand versions that are not higher. -/
theorem isLE_of_mem_before {before after : List CompilerVersion}
    (sorted : SortedVersions (before ++ best :: after)) (mem : v ∈ before)
    (same : v.isInstalled = best.isInstalled) : (compare v.version best.version).isLE = true := by
  have le := (List.pairwise_append.mp sorted).2.2 v mem best (by simp)
  rcases CompilerVersion.compare_isLE.mp le with ⟨installed, remote⟩ | ⟨-, le⟩
  · simp [same, remote] at installed
  · exact le

theorem pickCandidate_eq_none : pickCandidate versions = none ↔ versions = [] := by
  unfold pickCandidate
  constructor
  · intro none
    split at none
    · cases none
    · simpa using none
  · rintro rfl
    rfl

theorem best_of_pickCandidate (sorted : SortedVersions versions)
    (pick : pickCandidate versions = some best) : Best (· ∈ versions) best := by
  unfold pickCandidate at pick
  split at pick
  · next v found =>
    obtain rfl := Option.some.inj pick
    obtain ⟨installed, after, before, reversed, none⟩ := List.find?_eq_some_iff_append.mp found
    obtain rfl : versions = before.reverse ++ v :: after.reverse := by
      have := congrArg List.reverse reversed
      simpa using this
    refine ⟨by simp, fun _ => installed, fun w mem same => ?_⟩
    rcases List.mem_append.mp mem with mem | mem
    · exact isLE_of_mem_before sorted mem same
    · rcases List.mem_cons.mp mem with rfl | mem
      · exact isLE_version_self w
      · have remote := none w (by simpa using mem)
        simp [same, installed] at remote
  · next remote =>
    obtain ⟨before, rfl⟩ := List.getLast?_eq_some_iff.mp pick
    have noneInstalled : ∀ w ∈ before ++ [best], w.isInstalled = false := fun w mem => by
      simpa using List.find?_eq_none.mp remote w (List.mem_reverse.mpr mem)
    refine ⟨by simp, ?_, fun w mem same => ?_⟩
    · rintro ⟨w, mem, installed⟩
      simp [noneInstalled w mem] at installed
    · rcases List.mem_append.mp mem with mem | mem
      · exact isLE_of_mem_before sorted mem same
      · rw [List.mem_singleton.mp mem]
        exact isLE_version_self best

theorem Best.of_imp {P Q : CompilerVersion → Prop} (h : Best P best) (imp : ∀ v, Q v → P v)
    (holds : Q best) : Best Q best where
  holds := holds
  installed := fun ⟨v, suits, installed⟩ => h.installed ⟨v, imp v suits, installed⟩
  highest v suits := h.highest v (imp v suits)

theorem mem_sortVersions : v ∈ sortVersions versions ↔ v ∈ versions :=
  (List.perm_insertionSort _ _).mem_iff

theorem sorted_sortVersions (versions : List CompilerVersion) :
    SortedVersions (sortVersions versions) := by
  have total : Std.Total fun v w : CompilerVersion => (compare v w).isLE = true :=
    ⟨fun v w => by
      rw [OrientedOrd.eq_swap (a := w), Ordering.isLE_swap]
      cases compare v w <;> simp⟩
  have trans : IsTrans CompilerVersion fun v w => (compare v w).isLE = true :=
    ⟨fun _ _ _ => TransOrd.isLE_trans⟩
  exact List.pairwise_insertionSort _ _

theorem mem_intersection {sets : List (List CompilerVersion)} :
    v ∈ intersection sets ↔ sets ≠ [] ∧ ∀ set ∈ sets, v ∈ set := by
  unfold intersection
  cases last : sets.getLast? with
  | none => simp [List.getLast?_eq_none_iff.mp last]
  | some set =>
    obtain ⟨before, rfl⟩ := List.getLast?_eq_some_iff.mp last
    simp only [List.dropLast_concat, mem_sortVersions, List.mem_filter, List.all_eq_true,
      decide_eq_true_eq, List.mem_append, List.mem_singleton]
    grind

theorem sorted_intersection (sets : List (List CompilerVersion)) :
    SortedVersions (intersection sets) := by
  unfold intersection
  split
  · exact .nil
  · exact sorted_sortVersions _

theorem exists_reuseVersion (versionedNodes : ExtTreeMap CompilerVersion (List Nat))
    (inhabited : versions ≠ []) (sorted : SortedVersions versions) :
    ∃ v, reuseVersion versionedNodes versions = some v ∧ v ∈ versions := by
  unfold reuseVersion
  cases used : versions.reverse.find? (· ∈ versionedNodes) with
  | some v => exact ⟨v, rfl, List.mem_reverse.mp (List.mem_of_find?_eq_some used)⟩
  | none =>
    cases pick : pickCandidate versions with
    | some v => exact ⟨v, rfl, (best_of_pickCandidate sorted pick).holds⟩
    | none => exact absurd (pickCandidate_eq_none.mp pick) inhabited

/-! ## The versions of the inputs of a language -/

/-- Each node has one of its own candidates, and all have the best common one if there is any. -/
structure Chosen (candidates : Nat → List CompilerVersion) (nodes : List Nat)
    (f : Nat → Option CompilerVersion) : Prop where
  own : ∀ idx ∈ nodes, ∃ v, f idx = some v ∧ v ∈ candidates idx
  common : ∀ v, (∀ idx ∈ nodes, v ∈ candidates idx) →
    ∃ best, Best (fun v => ∀ idx ∈ nodes, v ∈ candidates idx) best ∧
      ∀ idx ∈ nodes, f idx = some best

section Choice

variable {candidates : Nat → List CompilerVersion} {nodes : List Nat}

theorem resolveMultipleVersions_chosen (distinct : nodes.Nodup) (inhabited : nodes ≠ [])
    (nonempty : ∀ idx ∈ nodes, candidates idx ≠ []) :
    ∃ f, Library.Groups (resolveMultipleVersions (nodes.map fun idx => (idx, candidates idx)))
        nodes f ∧ Chosen candidates nodes f := by
  have common : ∀ v, v ∈ intersection (nodes.map candidates) ↔
      ∀ idx ∈ nodes, v ∈ candidates idx := fun v => by
    simp [mem_intersection, inhabited]
  have sets : (nodes.map fun idx => (idx, candidates idx)).map Prod.snd = nodes.map candidates := by
    simp
  unfold resolveMultipleVersions
  rw [sets]
  cases pick : pickCandidate (intersection (nodes.map candidates)) with
  | some best =>
    have isBest := best_of_pickCandidate (sorted_intersection _) pick
    have suits := (common best).mp isBest.holds
    refine ⟨fun _ => some best, ⟨fun k => ?_, fun k => ?_⟩,
      ⟨fun idx mem => ⟨best, rfl, suits idx mem⟩, fun v _ =>
        ⟨best, isBest.of_imp (fun v => (common v).mpr) suits, fun _ _ => rfl⟩⟩⟩
    · simp only [ExtTreeMap.empty_eq_emptyc, Library.getElem?_insert_eq]
      by_cases same : k = best
      · simp [same, Function.comp_def]
      · simp [same, Ne.symm same]
    · obtain ⟨idx, mem⟩ := List.exists_mem_of_ne_nil _ inhabited
      simp only [ExtTreeMap.empty_eq_emptyc, ExtTreeMap.mem_insert,
        LawfulEqCmp.compare_eq_iff_eq, ExtTreeMap.not_mem_empty, or_false, Option.some.injEq]
      exact ⟨fun eq => ⟨idx, mem, eq⟩, fun ⟨_, _, eq⟩ => eq⟩
  | none =>
    have empty := pickCandidate_eq_none.mp pick
    have groups := Library.exists_groups (P := fun idx v => v ∈ candidates idx) (l := nodes)
      (fun (versionedNodes : ExtTreeMap CompilerVersion (List Nat)) idx =>
        reuseVersion versionedNodes (sortVersions (candidates idx))) distinct ?_
    · obtain ⟨f, own, groups⟩ := groups
      refine ⟨f, ?_, ⟨own, fun v suits => ?_⟩⟩
      · convert groups using 1
        simp only [List.foldl_map, Library.groupBy]
        congr 1
        funext versionedNodes idx
        cases reuseVersion versionedNodes (sortVersions (candidates idx)) <;> rfl
      · have listed := (common v).mpr suits
        rw [empty] at listed
        cases listed
    · intro versionedNodes idx mem
      obtain ⟨v, listed⟩ := List.exists_mem_of_ne_nil _ (nonempty idx mem)
      obtain ⟨v, eq, listed⟩ := exists_reuseVersion versionedNodes
        (List.ne_nil_of_mem (mem_sortVersions.mpr listed)) (sorted_sortVersions _)
      exact ⟨v, eq, mem_sortVersions.mp listed⟩

/-- A choice of one version for all nodes is the best common candidate. -/
theorem chosen_of_size_le_one (inhabited : nodes ≠ [])
    (sorted : ∀ idx ∈ nodes, SortedVersions (candidates idx))
    (nonempty : ∀ idx ∈ nodes, candidates idx ≠ [])
    {versionedNodes : ExtTreeMap CompilerVersion (List Nat)}
    (groups : Library.Groups versionedNodes nodes fun idx => pickCandidate (candidates idx))
    (one : versionedNodes.size ≤ 1) :
    Chosen candidates nodes fun idx => pickCandidate (candidates idx) := by
  have pick : ∀ idx ∈ nodes, ∃ best, pickCandidate (candidates idx) = some best ∧
      Best (· ∈ candidates idx) best := by
    intro idx mem
    cases pick : pickCandidate (candidates idx) with
    | none => exact absurd (pickCandidate_eq_none.mp pick) (nonempty idx mem)
    | some best => exact ⟨best, rfl, best_of_pickCandidate (sorted idx mem) pick⟩
  obtain ⟨first, mem⟩ := List.exists_mem_of_ne_nil _ inhabited
  obtain ⟨best, eq, isBest⟩ := pick first mem
  have same : ∀ idx ∈ nodes, pickCandidate (candidates idx) = some best := by
    intro idx mem'
    obtain ⟨v, eq', -⟩ := pick idx mem'
    have keys : versionedNodes.keys.length ≤ 1 := by simpa using one
    have here : best ∈ versionedNodes.keys :=
      ExtTreeMap.mem_keys.mpr ((groups.mem_iff _).mpr ⟨first, mem, eq⟩)
    have there : v ∈ versionedNodes.keys :=
      ExtTreeMap.mem_keys.mpr ((groups.mem_iff _).mpr ⟨idx, mem', eq'⟩)
    obtain rfl : v = best := by
      match versionedNodes.keys, keys, here, there with
      | [k], _, here, there => rw [List.mem_singleton.mp here, List.mem_singleton.mp there]
    exact eq'
  refine ⟨fun idx mem => ?_, fun v suits =>
    ⟨best, isBest.of_imp (fun v suits => suits first mem) fun idx mem => ?_, same⟩⟩
  · obtain ⟨best, eq, isBest⟩ := pick idx mem
    exact ⟨best, eq, isBest.holds⟩
  · obtain ⟨best', eq', isBest'⟩ := pick idx mem
    obtain rfl := Option.some.inj (eq'.symm.trans (same idx mem))
    exact isBest'.holds

end Choice

namespace Graph

variable {S R Λ γ α δ : Type} (versionMatches : VersionReq → Version → Bool)
  (parser : SourceParser δ) (languageOf : δ → Λ) (project : CompilerProject S R Λ γ α)
  (g : Graph δ)

/-! ## Candidates of a file -/

/-- The version meets the requirements of the file and of all files it imports. -/
def Compatible (idx : Nat) (v : CompilerVersion) : Prop :=
  ∀ node, ReflTransGen (fun m n => n ∈ g.edges.importedNodes m) idx node →
    ∀ req, g.versionRequirement parser project node = some req → versionMatches req v.version = true

/-- The versions that are compatible with a file. -/
def compatibleVersions (allVersions : List CompilerVersion) (idx : Nat) : List CompilerVersion :=
  Library.meetingAll (g.versionRequirement parser project)
    (fun req v => versionMatches req v.version) (g.edges.nodesIter idx) allVersions

variable {versionMatches parser languageOf project g} {idx : Nat} {nodes : List Nat}
  {candidates allVersions : List CompilerVersion} {v : CompilerVersion}

theorem mem_compatibleVersions :
    v ∈ g.compatibleVersions versionMatches parser project allVersions idx ↔
      v ∈ allVersions ∧ g.Compatible versionMatches parser project idx v := by
  simp only [compatibleVersions, Library.mem_meetingAll, GraphEdges.mem_nodesIter]
  rfl

variable (versionMatches parser project g) in
/-- The candidates of a file are the versions compatible with it, and there has to be one. -/
theorem retainCompatibleVersions_spec (idx : Nat) (inhabited : candidates ≠ []) :
    let rest := g.compatibleVersions versionMatches parser project candidates idx
    (rest ≠ [] ∧
      g.retainCompatibleVersions versionMatches parser project idx candidates = .ok rest) ∨
      (rest = [] ∧ ∃ err,
        g.retainCompatibleVersions versionMatches parser project idx candidates = .error err) := by
  have along := Library.retainAlong_spec (g.versionRequirement parser project)
    (fun req v => versionMatches req v.version) (g.edges.nodesIter idx) inhabited
  rcases along with ⟨left, ok⟩ | ⟨none, failed, error⟩
  · exact .inl ⟨left, by rw [retainCompatibleVersions, ok]; rfl⟩
  · refine .inr ⟨none, ?_⟩
    simp only [retainCompatibleVersions, error]
    split
    · exact ⟨_, rfl⟩
    · split <;> exact ⟨_, rfl⟩

/-! ## The inputs of a language -/

/-- What the walk over the inputs knows while no file failed. -/
theorem foldl_visitInput (inhabited : allVersions ≠ []) :
    let own := g.compatibleVersions versionMatches parser project allVersions
    let walk := nodes.foldl (g.visitInput versionMatches parser project allVersions) {}
    (walk.errors = [] ↔ ∀ idx ∈ nodes, own idx ≠ []) ∧
      (walk.errors = [] → walk.allCandidates = nodes.map (fun idx => (idx, own idx)) ∧
        Library.Groups walk.versionedNodes nodes fun idx => pickCandidate (own idx)) := by
  induction nodes using List.reverseRecOn with
  | nil => exact ⟨by simp, fun _ => ⟨rfl, .nil⟩⟩
  | append_singleton nodes idx ih =>
    obtain ⟨noErrors, known⟩ := ih
    simp only [List.foldl_append, List.foldl_cons, List.foldl_nil]
    set walk := nodes.foldl (g.visitInput versionMatches parser project allVersions) {}
    set own := g.compatibleVersions versionMatches parser project allVersions with own_eq
    rcases g.retainCompatibleVersions_spec versionMatches parser project idx inhabited with
      ⟨left, ok⟩ | ⟨none, err, error⟩
    · cases pick : pickCandidate (own idx) with
      | none => exact absurd (pickCandidate_eq_none.mp pick) left
      | some candidate =>
        have visited : g.visitInput versionMatches parser project allVersions walk idx =
            { walk with
              allCandidates := walk.allCandidates ++ [(idx, own idx)]
              versionedNodes := Library.pushAt walk.versionedNodes candidate idx } := by
          simp only [visitInput, ok, ← own_eq, pick]
        rw [visited]
        dsimp only
        refine ⟨?_, fun empty => ?_⟩
        · rw [noErrors]
          simp only [List.mem_append, List.mem_singleton]
          exact ⟨fun all i mem => mem.elim (all i) fun eq => eq ▸ left,
            fun all i mem => all i (.inl mem)⟩
        · obtain ⟨listed, groups⟩ := known empty
          exact ⟨by simp [listed], groups.push pick⟩
    · have visited :
          (g.visitInput versionMatches parser project allVersions walk idx).errors ≠ [] := by
        simp [visitInput, error]
      refine ⟨⟨fun empty => absurd empty visited, fun all => ?_⟩, fun empty => absurd empty visited⟩
      exact absurd none (all idx (by simp))

/-- The versions of the inputs of one language, if all of them have one. -/
theorem resolveVersions_chosen {language : Λ} {versions : ExtTreeMap Version (List Nat)}
    (sorted : SortedVersions (project.allVersions language))
    (distinct : ((project.allVersions language).map (·.version)).Nodup)
    (nodup : nodes.Nodup) (inhabited : nodes ≠ [])
    (ok : g.resolveVersions versionMatches parser project language nodes = .ok versions) :
    ∃ f, Library.Groups versions nodes (fun idx => (f idx).map (·.version)) ∧
      Chosen (g.compatibleVersions versionMatches parser project (project.allVersions language))
        nodes f := by
  set own := g.compatibleVersions versionMatches parser project (project.allVersions language)
    with own_eq
  set walk := nodes.foldl
    (g.visitInput versionMatches parser project (project.allVersions language)) {} with walk_eq
  have available : project.allVersions language ≠ [] := by
    intro empty
    simp [resolveVersions, empty, inhabited] at ok
  obtain ⟨errors, known⟩ : (walk.errors = [] ↔ ∀ idx ∈ nodes, own idx ≠ []) ∧ (walk.errors = [] →
      walk.allCandidates = nodes.map (fun idx => (idx, own idx)) ∧
        Library.Groups walk.versionedNodes nodes fun idx => pickCandidate (own idx)) :=
    foldl_visitInput available
  simp only [resolveVersions, List.isEmpty_eq_false_iff.mpr available, Bool.false_and,
    Bool.false_eq_true, if_false, ← walk_eq] at ok
  by_cases noErrors : walk.errors.isEmpty = true
  swap
  · rw [if_neg noErrors] at ok
    cases ok
  rw [if_pos noErrors] at ok
  obtain rfl := Except.ok.inj ok
  rw [List.isEmpty_iff] at noErrors
  obtain ⟨listed, groups⟩ := known noErrors
  have nonempty := errors.mp noErrors
  obtain ⟨f, groups, chosen⟩ : ∃ f, Library.Groups (if 1 < walk.versionedNodes.size then
      resolveMultipleVersions walk.allCandidates else walk.versionedNodes) nodes f ∧
      Chosen own nodes f := by
    split_ifs with multiple
    · rw [listed]
      exact resolveMultipleVersions_chosen nodup inhabited nonempty
    · refine ⟨_, groups, chosen_of_size_le_one inhabited (fun idx _ => ?_) nonempty groups
        (Nat.not_lt.mp multiple)⟩
      exact sorted.filter _
  refine ⟨f, groups.mapKeys fun v w mem mem' same => ?_, chosen⟩
  have listed : ∀ v, v ∈ (if 1 < walk.versionedNodes.size then
      resolveMultipleVersions walk.allCandidates else walk.versionedNodes) →
      v ∈ project.allVersions language := by
    intro v mem
    obtain ⟨idx, input, eq⟩ := (groups.mem_iff v).mp mem
    obtain ⟨v', eq', mem⟩ := chosen.own idx input
    obtain rfl := Option.some.inj (eq.symm.trans eq')
    exact (mem_compatibleVersions.mp mem).1
  exact List.inj_on_of_nodup_map distinct (listed v mem) (listed w mem') same

/-- The inputs in a language. -/
def inputsOf [DecidableEq Λ] (languageOf : δ → Λ) (g : Graph δ) (language : Λ) : List Nat :=
  (List.range g.edges.numInputFiles).filter (g.language languageOf · = some language)

/-- A version of the compiler for a language that is compatible with all its inputs. -/
def Common [DecidableEq Λ] (versionMatches : VersionReq → Version → Bool) (parser : SourceParser δ)
    (languageOf : δ → Λ) (project : CompilerProject S R Λ γ α) (g : Graph δ) (language : Λ)
    (v : CompilerVersion) : Prop :=
  v ∈ project.allVersions language ∧
    ∀ idx ∈ g.inputsOf languageOf language, g.Compatible versionMatches parser project idx v

/-- The inputs in a language are compiled with the versions they are assigned, which suit all the
files they import; if some version suits all of them, only the best such version is used. -/
structure Assigned [DecidableEq Λ] (versionMatches : VersionReq → Version → Bool)
    (parser : SourceParser δ) (languageOf : δ → Λ) (project : CompilerProject S R Λ γ α)
    (g : Graph δ) (language : Λ) (versions : ExtTreeMap Version (List Nat))
    (assigned : Nat → CompilerVersion) : Prop where
  groups : Library.Groups versions (g.inputsOf languageOf language)
    fun idx => some (assigned idx).version
  available : ∀ idx ∈ g.inputsOf languageOf language,
    assigned idx ∈ project.allVersions language
  compatible : ∀ idx ∈ g.inputsOf languageOf language,
    g.Compatible versionMatches parser project idx (assigned idx)
  common : (∃ v, g.Common versionMatches parser languageOf project language v) →
    ∃ best, Best (g.Common versionMatches parser languageOf project language) best ∧
      versions.toList = [(best.version, g.inputsOf languageOf language)]

theorem sorted_allVersions {language : Λ}
    (sorted : SortedVersions (project.availableVersions language)) :
    SortedVersions (project.allVersions language) := by
  unfold CompilerProject.allVersions
  split_ifs
  · exact sorted.filter _
  · exact sorted

theorem distinct_allVersions {language : Λ}
    (distinct : ((project.availableVersions language).map (·.version)).Nodup) :
    ((project.allVersions language).map (·.version)).Nodup := by
  unfold CompilerProject.allVersions
  split_ifs
  · exact distinct.sublist (List.filter_sublist.map _)
  · exact distinct

/-- If all inputs have the same version, there is one group. -/
theorem toList_eq_of_groups {versions : ExtTreeMap Version (List Nat)} {f : Nat → Option Version}
    {v : Version} (groups : Library.Groups versions nodes f) (inhabited : nodes ≠ [])
    (same : ∀ idx ∈ nodes, f idx = some v) : versions.toList = [(v, nodes)] := by
  have single : versions = ExtTreeMap.empty.insert v nodes := by
    refine ExtTreeMap.ext_getElem? fun w => ?_
    rw [ExtTreeMap.empty_eq_emptyc, Library.getElem?_insert_eq]
    split_ifs with eq
    · obtain ⟨idx, mem⟩ := List.exists_mem_of_ne_nil _ inhabited
      rw [eq, groups.getElem? mem (same idx mem), List.filter_eq_self.mpr]
      simpa using same
    · have absent : w ∉ versions := by
        rw [groups.mem_iff]
        rintro ⟨idx, mem, eq'⟩
        exact eq (Option.some.inj (eq'.symm.trans (same idx mem)))
      simp [ExtTreeMap.getElem?_eq_none absent]
  rw [single]
  rfl

theorem assigned_of_chosen [DecidableEq Λ] {language : Λ}
    {versions : ExtTreeMap Version (List Nat)} {f : Nat → Option CompilerVersion}
    (inhabited : g.inputsOf languageOf language ≠ [])
    (groups : Library.Groups versions (g.inputsOf languageOf language)
      fun idx => (f idx).map (·.version))
    (chosen : Chosen (g.compatibleVersions versionMatches parser project
      (project.allVersions language)) (g.inputsOf languageOf language) f) :
    ∃ assigned, g.Assigned versionMatches parser languageOf project language versions assigned := by
  have eq : ∀ idx ∈ g.inputsOf languageOf language, ∃ v, f idx = some v ∧
      v ∈ project.allVersions language ∧ g.Compatible versionMatches parser project idx v := by
    intro idx mem
    obtain ⟨v, eq, own⟩ := chosen.own idx mem
    exact ⟨v, eq, mem_compatibleVersions.mp own⟩
  refine ⟨fun idx => (f idx).getD (.remote ⟨0, 0, 0, "", ""⟩), ?_, ?_, ?_, ?_⟩
  · refine groups.congr fun idx mem => ?_
    obtain ⟨v, eq, -⟩ := eq idx mem
    simp [eq]
  · intro idx mem
    obtain ⟨v, eq, listed, -⟩ := eq idx mem
    simpa [eq] using listed
  · intro idx mem
    obtain ⟨v, eq, -, compatible⟩ := eq idx mem
    simpa [eq] using compatible
  · have common : ∀ v, g.Common versionMatches parser languageOf project language v ↔
        ∀ idx ∈ g.inputsOf languageOf language, v ∈ g.compatibleVersions versionMatches parser
          project (project.allVersions language) idx := by
      intro v
      obtain ⟨first, mem⟩ := List.exists_mem_of_ne_nil _ inhabited
      simp only [mem_compatibleVersions, Common]
      exact ⟨fun ⟨listed, all⟩ idx mem => ⟨listed, all idx mem⟩,
        fun all => ⟨(all first mem).1, fun idx mem => (all idx mem).2⟩⟩
    rintro ⟨v, suits⟩
    obtain ⟨best, isBest, same⟩ := chosen.common v ((common v).mp suits)
    refine ⟨best, isBest.of_imp (fun v => (common v).mp) ((common best).mpr isBest.holds), ?_⟩
    exact toList_eq_of_groups groups inhabited fun idx mem => by rw [same idx mem]; rfl

section Languages

variable [DecidableEq Λ] [Ord Λ] [TransOrd Λ] [LawfulEqOrd Λ]

/-- The inputs of each language have versions that suit them. -/
theorem assigned_of_getInputNodeVersions
    (sorted : ∀ language, SortedVersions (project.availableVersions language))
    (distinct : ∀ language, ((project.availableVersions language).map (·.version)).Nodup)
    {resulted : ExtTreeMap Λ (ExtTreeMap Version (List Nat))}
    (ok : g.getInputNodeVersions versionMatches parser languageOf project = .ok resulted)
    (language : Λ) : (g.inputsOf languageOf language = [] → resulted[language]? = none) ∧
      (g.inputsOf languageOf language ≠ [] → ∃ versions, resulted[language]? = some versions ∧
        ∃ assigned, g.Assigned versionMatches parser languageOf project language versions
          assigned) := by
  have byLanguage : Library.Groups (g.inputNodesByLanguage languageOf)
      (List.range g.edges.numInputFiles) (g.language languageOf) :=
    Library.groups_groupBy fun _ _ _ => rfl
  obtain ⟨here, absent⟩ := Library.getElem?_foldlM_insert (a := language) ok
  constructor
  · intro none
    refine absent (ExtTreeMap.getElem?_eq_none fun mem => ?_)
    obtain ⟨idx, input, eq⟩ := (byLanguage.mem_iff language).mp mem
    have mem : idx ∈ g.inputsOf languageOf language :=
      List.mem_filter.mpr ⟨input, by simpa using eq⟩
    simp [none] at mem
  · intro someEq
    obtain ⟨idx, mem⟩ := List.exists_mem_of_ne_nil _ someEq
    obtain ⟨input, eq⟩ := List.mem_filter.mp mem
    obtain ⟨versions, ok, getEq⟩ := here _ (byLanguage.getElem? input (by simpa using eq))
    obtain ⟨f, groups, chosen⟩ := resolveVersions_chosen (sorted_allVersions (sorted language))
      (distinct_allVersions (distinct language)) (List.nodup_range.filter _) someEq ok
    exact ⟨versions, getEq, assigned_of_chosen someEq groups chosen⟩

/-- Each input has one version that suits it with all its imports; one version for all inputs of a
language is used where there is one, and an input that no version suits is an error. -/
theorem getInputNodeVersions_assigned
    (sorted : ∀ language, SortedVersions (project.availableVersions language))
    (distinct : ∀ language, ((project.availableVersions language).map (·.version)).Nodup) :
    (∀ resulted,
      g.getInputNodeVersions versionMatches parser languageOf project = .ok resulted →
      ∀ language, (g.inputsOf languageOf language = [] → resulted[language]? = none) ∧
        (g.inputsOf languageOf language ≠ [] → ∃ versions, resulted[language]? = some versions ∧
          ∃ assigned, g.Assigned versionMatches parser languageOf project language versions
            assigned)) ∧
    ((∃ language, ∃ idx ∈ g.inputsOf languageOf language, ∀ v ∈ project.allVersions language,
        ¬ g.Compatible versionMatches parser project idx v) →
      ∃ err, g.getInputNodeVersions versionMatches parser languageOf project = .error err) := by
  refine ⟨fun resulted ok => assigned_of_getInputNodeVersions sorted distinct ok, ?_⟩
  rintro ⟨language, idx, mem, none⟩
  cases result : g.getInputNodeVersions versionMatches parser languageOf project with
  | error err => exact ⟨err, rfl⟩
  | ok resulted =>
    obtain ⟨_, _, assigned, h⟩ :=
      (assigned_of_getInputNodeVersions sorted distinct result language).2 (List.ne_nil_of_mem mem)
    exact absurd (h.compatible idx mem) (none _ (h.available idx mem))

end Languages

/-! ### Two inputs that import each other, one of them restricted -/

def cyclicGraph : Graph (List PathBuf) where
  nodes := [⟨.abs ["p", "a.sol"], { content := "/p/b.sol" }, [.abs ["p", "b.sol"]]⟩,
    ⟨.abs ["p", "b.sol"], { content := "/p/a.sol" }, [.abs ["p", "a.sol"]]⟩]
  edges := {
    edges := [[1], [0]]
    revEdges := [[1], [0]]
    indices := .ofList [(PathBuf.abs ["p", "a.sol"], 0), (PathBuf.abs ["p", "b.sol"], 1)]
    revIndices := .ofList [(0, PathBuf.abs ["p", "a.sol"]), (1, PathBuf.abs ["p", "b.sol"])]
    versions := .ofList [(0, none), (1, none)]
    data := []
    numInputFiles := 2
    unresolvedImports := ∅
    resolvedSolcIncludePaths := ∅ }
  root := .abs ["p"]

def cyclicVersions : List CompilerVersion :=
  [.installed ⟨0, 8, 9, "", ""⟩, .installed ⟨0, 8, 25, "", ""⟩, .remote ⟨0, 8, 19, "", ""⟩]

theorem sorted_cyclicVersions : SortedVersions cyclicVersions := by
  unfold SortedVersions
  decide +kernel

theorem distinct_cyclicVersions : (cyclicVersions.map (·.version)).Nodup := by decide +kernel

def cyclicProject : CompilerProject Unit Unit String Unit Unit where
  paths := .dapptools (.abs ["p"]) []
  settings := ()
  artifacts := ⟨fun _ _ _ _ => (), fun _ _ => none, fun _ => false⟩
  restrictions := ExtTreeMap.empty.insert (.abs ["p", "b.sol"]) ⟨some ⟨["<0.8.20"]⟩, ()⟩
  availableVersions _ := cyclicVersions

/-- Knows one requirement. -/
def belowTwenty (req : VersionReq) (v : Version) : Bool :=
  req.comparators.all fun comparator =>
    comparator == "<0.8.20" && v.major == 0 && v.minor == 8 && decide (v.patch < 20)

theorem getInputNodeVersions_assigned_cyclic :
    ∃ resulted, cyclicGraph.getInputNodeVersions belowTwenty .importLines (fun _ => "Solidity")
        cyclicProject = .ok resulted ∧
      ∃ versions, resulted["Solidity"]? = some versions ∧
        versions.toList = [(⟨0, 8, 9, "", ""⟩, [0, 1])] ∧
        ∃ assigned, cyclicGraph.Assigned belowTwenty .importLines (fun _ => "Solidity")
          cyclicProject "Solidity" versions assigned := by
  have run : ((cyclicGraph.getInputNodeVersions belowTwenty .importLines (fun _ => "Solidity")
      cyclicProject).toOption.bind (·["Solidity"]?)).map (·.toList) =
      some [(⟨0, 8, 9, "", ""⟩, [0, 1])] := by
    decide +kernel
  obtain ⟨versions, found, lists⟩ := Option.map_eq_some_iff.mp run
  obtain ⟨resulted, ok, getEq⟩ := Option.bind_eq_some_iff.mp found
  have ok := Library.ok_of_toOption ok
  obtain ⟨versions', getEq', assigned⟩ := ((getInputNodeVersions_assigned
    (fun _ => sorted_cyclicVersions) fun _ => distinct_cyclicVersions).1 resulted ok "Solidity").2
    (by decide +kernel)
  obtain rfl := Option.some.inj (getEq.symm.trans getEq')
  exact ⟨resulted, ok, versions, getEq, lists, assigned⟩

end Graph

end FoundryCore
