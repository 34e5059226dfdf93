import FoundryCore.Cache.Inner

/-!
# Artifacts returned from the cache

After a compilation the cached artifacts that are still valid are returned next to the written
ones. The two should complement each other: one artifact for each contract, version and profile
that is cached or was compiled.
-/

open Std

namespace FoundryCore

namespace Artifacts

variable {α : Type*} (artifacts : Artifacts α)

/-- The artifacts of a contract for a version and a profile. -/
def forProfile (file : PathBuf) (name : String) (version : Version) (profile : String) :
    List (ArtifactFile α) :=
  (artifacts.filesOf file name).filter fun a => a.version = version ∧ a.profile = profile

variable {artifacts} {file : PathBuf} {name : String} {version : Version} {profile : String}

theorem findArtifact_eq_none :
    artifacts.findArtifact file name version = none ↔
      ∀ profile, artifacts.forProfile file name version profile = [] := by
  simp only [findArtifact, forProfile, List.find?_eq_none, List.filter_eq_nil_iff,
    decide_eq_true_eq, not_and]
  exact ⟨fun none _ a mem same _ => none a mem same, fun none a mem same => none _ a mem same rfl⟩

theorem findArtifactWithProfile_isSome :
    (artifacts.findArtifactWithProfile file name version profile).isSome ↔
      artifacts.forProfile file name version profile ≠ [] := by
  simp [findArtifactWithProfile, forProfile, List.filter_eq_nil_iff]

end Artifacts

namespace ArtifactsCacheInner

variable {S γ α δ β : Type} (inner : ArtifactsCacheInner S γ α δ β) (written : Artifacts α)

/-- A cached artifact is there and its file is not dirty. -/
def ValidCached (file : PathBuf) (name : String) (version : Version) (profile : String) : Prop :=
  file ∉ inner.dirtySources ∧ inner.cachedArtifacts.forProfile file name version profile ≠ []

/-- What is returned and what was written have, between them, exactly one artifact for each key
in scope that is validly cached or was compiled. -/
def CoveredOnce (returned : Artifacts α) : Prop :=
  ∀ file name version profile, inner.sourcesInScope.includes file version = true →
    (inner.ValidCached file name version profile ∨
      written.forProfile file name version profile ≠ []) →
    (returned.forProfile file name version profile ++
      written.forProfile file name version profile).length = 1

/-- When the cached and the written artifacts of a version do not differ in their profiles. -/
structure ProfilesAgree : Prop where
  rewritten : ∀ file name version profile, inner.sourcesInScope.includes file version = true →
    inner.ValidCached file name version profile →
    (written.findArtifact file name version).isSome →
    (written.findArtifactWithProfile file name version profile).isSome
  written_once : ∀ file name version profile,
    inner.sourcesInScope.includes file version = true →
    (written.forProfile file name version profile).length ≤ 1
  cached_once : ∀ file name version profile,
    inner.sourcesInScope.includes file version = true → file ∉ inner.dirtySources →
    written.findArtifact file name version = none →
    (inner.cachedArtifacts.forProfile file name version profile).length ≤ 1

/-- The returned artifacts are the cached ones of the files and versions in scope that are not
dirty, unless any artifact of the contract was written for the version. -/
theorem forProfile_reusedArtifacts (file : PathBuf) (name : String) (version : Version)
    (profile : String) :
    (inner.reusedArtifacts written).forProfile file name version profile =
      if inner.sourcesInScope.includes file version = true ∧ file ∉ inner.dirtySources ∧
          written.findArtifact file name version = none
      then inner.cachedArtifacts.forProfile file name version profile else [] := by
  simp only [Artifacts.forProfile, reusedArtifacts, Artifacts.filesOf_retain, List.filter_filter]
  split_ifs with kept
  · refine List.filter_congr fun a _ => ?_
    by_cases same : a.version = version <;> simp [same, kept]
  · refine List.filter_eq_nil_iff.mpr fun a _ holds => kept ?_
    simp only [Bool.and_eq_true, decide_eq_true_eq, Option.isNone_iff_eq_none] at holds
    obtain ⟨⟨rfl, -⟩, ⟨scope, clean⟩, fresh⟩ := holds
    exact ⟨scope, clean, fresh⟩

theorem consume_coveredOnce_iff (buildInfos : List (RawBuildInfo β)) :
    inner.CoveredOnce written (inner.consume written buildInfos).1.1 ↔
      inner.ProfilesAgree written := by
  have returned : (inner.consume written buildInfos).1.1 = inner.reusedArtifacts written := rfl
  simp only [returned, CoveredOnce, forProfile_reusedArtifacts, List.length_append]
  constructor
  · intro once
    refine ⟨fun file name version profile scope valid nonempty => ?_,
      fun file name version profile scope => ?_,
      fun file name version profile scope clean noneEq => ?_⟩
    · rw [Artifacts.findArtifactWithProfile_isSome]
      intro nil
      have := once file name version profile scope (.inl valid)
      rw [if_neg (by simp [Option.isSome_iff_ne_none.mp nonempty])] at this
      simp [nil] at this
    · by_cases nil : written.forProfile file name version profile = []
      · simp [nil]
      · have := once file name version profile scope (.inr nil)
        omega
    · by_cases nil : inner.cachedArtifacts.forProfile file name version profile = []
      · simp [nil]
      · have := once file name version profile scope (.inl ⟨clean, nil⟩)
        rw [if_pos ⟨scope, clean, noneEq⟩] at this
        omega
  · intro agree file name version profile scope covered
    by_cases noneEq : written.findArtifact file name version = none
    · have nil := Artifacts.findArtifact_eq_none.mp noneEq profile
      obtain ⟨clean, nonempty⟩ := covered.resolve_right (absurd nil)
      have once := agree.cached_once file name version profile scope clean noneEq
      have := List.length_pos_iff.mpr nonempty
      rw [if_pos ⟨scope, clean, noneEq⟩, nil, List.length_nil]
      omega
    · have nonempty : written.forProfile file name version profile ≠ [] := by
        refine covered.elim (fun valid => ?_) id
        exact Artifacts.findArtifactWithProfile_isSome.mp
          (agree.rewritten _ _ _ _ scope valid (Option.isSome_iff_ne_none.mpr noneEq))
      have once := agree.written_once file name version profile scope
      have := List.length_pos_iff.mpr nonempty
      rw [if_neg fun kept => noneEq kept.2.2, List.length_nil]
      omega

/-! ### A contract with two profiles, recompiled for one of them -/

def twoProfilesArtifact (profile : String) : ArtifactFile Unit where
  artifact := ()
  file := .abs ["p", "out", "C.sol", "C." ++ profile ++ ".json"]
  version := ⟨0, 8, 30, "", ""⟩
  buildId := profile
  profile

/-- The artifacts of one contract under the given profiles. -/
def twoProfilesArtifacts (profiles : List String) : Artifacts Unit :=
  profiles.foldl (fun artifacts profile =>
    artifacts.push (.abs ["p", "src", "C.sol"]) "C" (twoProfilesArtifact profile)) ∅

def twoProfilesInner : ArtifactsCacheInner Unit Unit Unit Unit Unit where
  cache := { paths := (ProjectPathsConfig.dapptools (.abs ["p"]) []).pathsRelative
             preprocessed := false }
  cachedArtifacts := twoProfilesArtifacts ["default", "via-ir"]
  cachedBuilds := ∅
  edges := ⟨[], [], ∅, ∅, ∅, [], 0, ∅, ∅⟩
  project := { paths := .dapptools (.abs ["p"]) []
               settings := ()
               additionalSettings := .ofList [("via-ir", ())]
               artifacts := ⟨fun _ _ _ _ => (), fun _ _ => none, fun _ => false⟩ }
  sourcesInScope := GroupedSources.insertVersion ∅ (.abs ["p", "src", "C.sol"]) ⟨0, 8, 30, "", ""⟩

theorem consume_not_coveredOnce :
    ¬ twoProfilesInner.CoveredOnce (twoProfilesArtifacts ["default"])
      (twoProfilesInner.consume (twoProfilesArtifacts ["default"])
        [{ id := "default", buildContext := () }]).1.1 := by
  intro once
  have dropped := once (.abs ["p", "src", "C.sol"]) "C" ⟨0, 8, 30, "", ""⟩ "via-ir"
    (by decide +kernel) (.inl ⟨by decide +kernel, by decide +kernel⟩)
  exact absurd dropped (by decide +kernel)

end ArtifactsCacheInner

end FoundryCore
