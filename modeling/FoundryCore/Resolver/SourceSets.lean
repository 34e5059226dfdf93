import FoundryCore.Resolver.Profiles
import FoundryCore.Resolver.VersionChoice

/-!
# What is compiled together

The source set of a group of input files has the files of the group and what they import, and no
other file. The visited nodes are shared by all inputs of the group and contain them from the
start, so a file that was skipped has been inserted already, or will be as an input.
-/

open Std Relation

namespace FoundryCore

/-! ## Inserting imports -/

/-- The sources are those of the nodes with a property. -/
def Collected (allNodes : List (PathBuf × Source)) (sources : Sources) (P : Nat → Prop) : Prop :=
  ∀ path source, sources[path]? = some source ↔ ∃ i, P i ∧ allNodes[i]? = some (path, source)

variable {allNodes : List (PathBuf × Source)} {edges : List (List Nat)} {sources : Sources}
  {P Q : Nat → Prop} {i : Nat} {path : PathBuf} {source : Source}

theorem Collected.congr (h : Collected allNodes sources P) (same : ∀ i, P i ↔ Q i) :
    Collected allNodes sources Q := fun path source => by
  simp only [h path source, same]

theorem Collected.insert (h : Collected allNodes sources P)
    (distinct : (allNodes.map Prod.fst).Nodup) (getEq : allNodes[i]? = some (path, source)) :
    Collected allNodes (sources.insert path source) fun j => j = i ∨ P j := by
  intro path' source'
  rw [Library.getElem?_insert_eq]
  split_ifs with same
  · rw [Option.some.injEq]
    constructor
    · rintro rfl
      exact ⟨i, .inl rfl, same ▸ getEq⟩
    · rintro ⟨j, -, getEq'⟩
      have paths : (allNodes.map Prod.fst)[i]? = (allNodes.map Prod.fst)[j]? := by
        simp [getEq, getEq', same]
      have bound : i < (allNodes.map Prod.fst).length := by
        rw [List.length_map]
        exact (List.getElem?_eq_some_iff.mp getEq).1
      obtain rfl := (List.getElem?_inj bound distinct).mp paths
      rw [getEq] at getEq'
      exact (Prod.mk.inj (Option.some.inj getEq')).2
  · rw [h]
    constructor
    · rintro ⟨j, holds, getEq'⟩
      exact ⟨j, .inr holds, getEq'⟩
    · rintro ⟨j, rfl | holds, getEq'⟩
      · rw [getEq] at getEq'
        exact absurd (Prod.mk.inj (Option.some.inj getEq')).1.symm same
      · exact ⟨j, holds, getEq'⟩

/-- The walk goes on to collect the nodes it marks as processed. -/
structure SourceWalk.Inserts (allNodes : List (PathBuf × Source)) (walk walk' : SourceWalk) :
    Prop where
  subset : ∀ i ∈ walk.processedSources, i ∈ walk'.processedSources
  collected : ∀ P, Collected allNodes walk.sources P → Collected allNodes walk'.sources
    fun i => P i ∨ (i ∈ walk'.processedSources ∧ i ∉ walk.processedSources)

namespace SourceWalk.Inserts

variable {walk walk' walk'' : SourceWalk}

theorem refl (walk : SourceWalk) : walk.Inserts allNodes walk :=
  ⟨fun _ => id, fun _ h => h.congr fun i => by grind⟩

theorem trans (first : walk.Inserts allNodes walk') (second : walk'.Inserts allNodes walk'') :
    walk.Inserts allNodes walk'' where
  subset i mem := second.subset i (first.subset i mem)
  collected P h := (second.collected _ (first.collected P h)).congr fun i => by
    have := first.subset i
    have := second.subset i
    grind

/-- A node that was not processed yet is marked and collected. -/
theorem visit (distinct : (allNodes.map Prod.fst).Nodup)
    (getEq : allNodes[i]? = some (path, source)) (fresh : i ∉ walk.processedSources) :
    walk.Inserts allNodes
      ⟨walk.sources.insert path source, i :: walk.processedSources⟩ where
  subset _ := List.mem_cons_of_mem _
  collected P h := (h.insert distinct getEq).congr fun j => by
    simp only [List.mem_cons]
    grind

end SourceWalk.Inserts

/-- Inserting imports marks the nodes like a depth-first search, inserts the nodes it marks, and
ends when no node is left to mark. -/
theorem insertImports_spec (distinct : (allNodes.map Prod.fst).Nodup)
    (range : ∀ i : Nat, ∀ j ∈ edges[i]?.getD [], j < allNodes.length) (fuel idx : Nat)
    (walk : SourceWalk) (enough : (Library.unmarked (Finset.range allNodes.length)
      walk.processedSources).card < fuel) :
    ∃ walk', insertImports allNodes edges fuel idx walk = some walk' ∧
      walk'.processedSources =
        Library.mark (fun _ i => edges[i]?.getD []) fuel idx walk.processedSources ∧
      walk.Inserts allNodes walk' := by
  induction fuel generalizing idx walk with
  | zero => exact absurd enough (Nat.not_lt_zero _)
  | succ fuel ih =>
    simp only [insertImports, Library.mark]
    have below := range idx
    generalize edges[idx]?.getD [] = deps at below ⊢
    induction deps generalizing walk with
    | nil => exact ⟨walk, rfl, rfl, .refl walk⟩
    | cons dep deps loop =>
      simp only [List.foldlM_cons, List.foldl_cons]
      by_cases processed : dep ∈ walk.processedSources
      · simp only [if_pos processed, Option.bind_eq_bind, Option.bind_some]
        exact loop walk enough fun j mem => below j (List.mem_cons_of_mem _ mem)
      · have bound := below dep List.mem_cons_self
        have getEq : allNodes[dep]? = some (allNodes[dep].1, allNodes[dep].2) :=
          List.getElem?_eq_getElem bound
        have less := Library.unmarked_cons (Finset.mem_range.mpr bound) processed
        obtain ⟨walk₁, eq₁, marks₁, inserts₁⟩ :=
          ih dep ⟨walk.sources.insert allNodes[dep].1 allNodes[dep].2,
            dep :: walk.processedSources⟩ (by dsimp only; omega)
        have inserts := (SourceWalk.Inserts.visit distinct getEq processed).trans inserts₁
        have left := Library.unmarked_subset (U := Finset.range allNodes.length) inserts.subset
        obtain ⟨walk₂, eq₂, marks₂, inserts₂⟩ := loop walk₁ (by omega)
          fun j mem => below j (List.mem_cons_of_mem _ mem)
        refine ⟨walk₂, ?_, ?_, inserts.trans inserts₂⟩
        · simp only [if_neg processed, getEq, eq₁, Option.bind_eq_bind, Option.bind_some]
          exact eq₂
        · simp only [if_neg processed]
          rw [marks₂, marks₁]

/-! ## Source sets of groups -/

namespace Graph

variable {S R Λ γ α δ : Type} {inputs : Sources} {g : Graph δ}

/-- The files of the nodes and everything they import, and nothing else. -/
def Includes (g : Graph δ) (nodes : List Nat) (sources : Sources) : Prop :=
  ∀ path source, sources[path]? = some source ↔ ∃ i ∈ nodes, ∃ j,
    ReflTransGen (fun m n => n ∈ g.edges.importedNodes m) i j ∧
      g.nodes[j]?.map Node.file = some (path, source)

theorem WellFormed.distinct_split (wf : g.WellFormed inputs) : (g.split.1.map Prod.fst).Nodup := by
  have same : g.split.1.map Prod.fst = g.nodes.map Node.path := by
    simp only [split, List.map_map]
    rfl
  exact same ▸ wf.distinct

theorem WellFormed.importedNodes_lt (wf : g.WellFormed inputs) (i : Nat) :
    ∀ j ∈ g.edges.importedNodes i, j < g.nodes.length := by
  intro j mem
  unfold GraphEdges.importedNodes at mem
  cases getEq : g.edges.edges[i]? with
  | none => simp [getEq] at mem
  | some row => exact wf.range row (List.mem_of_getElem? getEq) j (by simpa [getEq] using mem)

/-- Inserting the inputs collects them and what the search from them marks. -/
theorem foldlM_insertInput (wf : g.WellFormed inputs) {nodes : List Nat}
    (below : ∀ idx ∈ nodes, idx < g.nodes.length) (walk : SourceWalk) :
    ∃ walk', nodes.foldlM (g.insertInput (Λ := Λ)) walk = .ok walk' ∧
      walk'.processedSources = Library.markAll (fun _ i => g.edges.importedNodes i)
        (g.nodes.length + 1) nodes walk.processedSources ∧
      (∀ i ∈ walk.processedSources, i ∈ walk'.processedSources) ∧
      ∀ P, Collected g.split.1 walk.sources P → Collected g.split.1 walk'.sources fun i =>
        i ∈ nodes ∨ P i ∨ (i ∈ walk'.processedSources ∧ i ∉ walk.processedSources) := by
  have length : g.split.1.length = g.nodes.length := by simp [split]
  induction nodes generalizing walk with
  | nil => exact ⟨walk, rfl, rfl, fun _ => id, fun P h => h.congr fun i => by grind⟩
  | cons idx nodes ih =>
    obtain ⟨⟨path, source⟩, getEq⟩ : ∃ file, g.split.1[idx]? = some file :=
      ⟨_, List.getElem?_eq_getElem (length ▸ below idx List.mem_cons_self)⟩
    obtain ⟨walk₁, eq₁, marks₁, inserts₁⟩ := insertImports_spec wf.distinct_split
      (fun i j mem => length ▸ wf.importedNodes_lt i j mem) (g.split.1.length + 1) idx
      ⟨walk.sources.insert path source, walk.processedSources⟩
      (Nat.lt_succ_of_le ((Finset.card_le_card (Finset.filter_subset _ _)).trans
        (Finset.card_range _).le))
    obtain ⟨walk₂, eq₂, marks₂, subset₂, collected₂⟩ := ih
      (fun i mem => below i (List.mem_cons_of_mem _ mem)) walk₁
    refine ⟨walk₂, ?_, ?_, fun i mem => subset₂ i (inserts₁.subset i mem), fun P h => ?_⟩
    · have step : g.insertInput (Λ := Λ) walk idx = .ok walk₁ := by
        have eq₁ : insertImports g.split.1 g.split.2.edges (g.split.1.length + 1) idx
            ⟨walk.sources.insert path source, walk.processedSources⟩ = some walk₁ := eq₁
        simp only [insertInput, getEq, eq₁]
      rw [List.foldlM_cons, step]
      exact eq₂
    · rw [marks₂, marks₁, length]
      rfl
    · have := inserts₁.subset
      have collected := collected₂ _ (inserts₁.collected _ (h.insert wf.distinct_split getEq))
      refine collected.congr fun i => ?_
      have := inserts₁.subset i
      have := subset₂ i
      simp only [List.mem_cons]
      grind

/-- The source set of a group is what its inputs reach. -/
theorem exists_sourcesOf (wf : g.WellFormed inputs) {nodes : List Nat}
    (below : ∀ idx ∈ nodes, idx < g.nodes.length) :
    ∃ sources, g.sourcesOf (Λ := Λ) nodes = .ok sources ∧ g.Includes nodes sources := by
  obtain ⟨walk, eq, marks, subset, collected⟩ := foldlM_insertInput (Λ := Λ) wf below
    { processedSources := nodes }
  refine ⟨walk.sources, ?_, fun path source => ?_⟩
  · rw [sourcesOf, eq]
    rfl
  · have start : Collected g.split.1 ∅ fun _ => False := fun path source => by simp
    have reached : ∀ j, j ∈ walk.processedSources ↔
        ∃ i ∈ nodes, ReflTransGen (fun m n => n ∈ g.edges.importedNodes m) i j := by
      intro j
      rw [marks]
      refine Library.mem_markAll (R := fun m n => n ∈ g.edges.importedNodes m)
        (U := Finset.range g.nodes.length) (fun _ _ _ => Iff.rfl) (fun i j mem => ?_) ?_
        (fun _ => Iff.rfl) j
      · exact Finset.mem_range.mpr (wf.importedNodes_lt i j mem)
      · rw [Finset.card_range]
        exact Nat.lt_succ_self _
    rw [(collected _ start).congr (Q := (· ∈ walk.processedSources)) fun i => by
      have := subset i
      grind]
    simp only [reached, split, List.getElem?_map]
    grind

/-- Every group becomes a source set with the version and the profile of the group. -/
def Produced (project : CompilerProject S R Λ γ α) (g : Graph δ) :
    Version × Nat × List Nat → Version × Sources × String × S → Prop
  | (version, profileIdx, nodes), (version', sources, profile) =>
    version' = version ∧ project.profiles[profileIdx]? = some profile ∧ g.Includes nodes sources

/-- The groups are made of nodes and profiles that exist. -/
def Present (project : CompilerProject S R Λ γ α) (g : Graph δ) (versions : ProfileNodes) : Prop :=
  ∀ group ∈ versions.groups, group.2.1 < project.profiles.length ∧
    ∀ idx ∈ group.2.2, idx < g.nodes.length

variable {project : CompilerProject S R Λ γ α}

theorem exists_versionedSources (wf : g.WellFormed inputs) {versions : ProfileNodes}
    (present : g.Present project versions) :
    ∃ versioned, g.versionedSources project versions = .ok versioned ∧
      List.Forall₂ (g.Produced project) versions.groups versioned := by
  refine Library.exists_mapM fun group mem => ?_
  obtain ⟨version, profileIdx, nodes⟩ := group
  obtain ⟨profile, below⟩ := present _ mem
  obtain ⟨sources, eq, includes⟩ := exists_sourcesOf (Λ := Λ) wf below
  refine ⟨(version, sources, project.profiles[profileIdx]), ?_, rfl,
    List.getElem?_eq_getElem profile, includes⟩
  simp only [eq, List.getElem?_eq_getElem profile, bind, Except.bind]
  rfl

/-! ## Profiles of the inputs -/

section Profiles

variable [SettingsRestrictions S R]

/-- The settings satisfy the restrictions of the file and of all files it imports. -/
def Satisfies (project : CompilerProject S R Λ γ α) (g : Graph δ) (idx : Nat) (settings : S) :
    Prop :=
  ∀ node, ReflTransGen (fun m n => n ∈ g.edges.importedNodes m) idx node →
    ∀ req, g.settingsRestrictions project node = some req →
      SettingsRestrictions.satisfiesRestrictions settings req = true

/-- An input node gets a profile that suits it with all its imports. -/
theorem profileOf_eq {idx : Nat} {profile : Option Nat}
    (eq : g.profileOf project idx = .ok profile) :
    ∃ k name settings, profile = some k ∧ project.profiles[k]? = some (name, settings) ∧
      g.Satisfies project idx settings := by
  unfold profileOf at eq
  set candidates := project.profiles.mapIdx fun i profile => (i, profile) with candidates_eq
  have nonempty : candidates ≠ [] := by simp [candidates_eq, CompilerProject.profiles]
  rcases Library.retainAlong_spec (g.settingsRestrictions project)
    (fun (req : R) (candidate : Nat × String × S) =>
      SettingsRestrictions.satisfiesRestrictions candidate.2.2 req) (g.edges.nodesIter idx) nonempty
    with ⟨left, ok⟩ | ⟨-, failed, error⟩
  · rw [retainCompatibleProfiles, ok] at eq
    obtain ⟨⟨k, name, settings⟩, rest, split⟩ := List.exists_cons_of_ne_nil left
    obtain ⟨listed, satisfies⟩ := Library.mem_meetingAll.mp (split ▸ List.mem_cons_self)
    rw [split] at eq
    refine ⟨k, name, settings, (Except.ok.inj eq).symm, ?_, fun node path => ?_⟩
    · rw [candidates_eq, List.mem_mapIdx] at listed
      obtain ⟨i, bound, eq⟩ := listed
      obtain ⟨rfl, profile⟩ := Prod.mk.inj eq
      rw [List.getElem?_eq_getElem bound, profile]
    · exact satisfies node (GraphEdges.mem_nodesIter.mpr path)
  · have fails : ∃ err, g.retainCompatibleProfiles project idx candidates = .error err := by
      simp only [retainCompatibleProfiles, error]
      split_ifs
      · exact ⟨_, rfl⟩
      · split <;> exact ⟨_, rfl⟩
    obtain ⟨err, error⟩ := fails
    rw [error] at eq
    cases eq

/-- With no errors every input node has a profile, and the nodes of a version are grouped by it. -/
theorem resolveSettings_ok [Ord Λ] [TransOrd Λ] [LawfulEqOrd Λ] [DecidableEq Λ]
    {inputNodesVersions : ExtTreeMap Λ (ExtTreeMap Version (List Nat))}
    {versionedNodes : ExtTreeMap Λ ProfileNodes}
    (ok : g.resolveSettings project inputNodesVersions = .ok versionedNodes) :
    (∀ (language : Λ) (versions : ExtTreeMap Version (List Nat)),
      inputNodesVersions[language]? = some versions →
      ∀ (version : Version) (nodes : List Nat), versions[version]? = some nodes → ∀ idx ∈ nodes,
        ∃ profile, g.profileOf project idx = .ok profile) ∧
    versionedNodes = inputNodesVersions.map fun _ versions => versions.map fun _ nodes =>
      Library.groupBy (fun _ idx => (g.profileOf project idx).toOption.bind id) nodes := by
  unfold resolveSettings at ok
  dsimp only at ok
  split_ifs at ok with noErrors
  refine ⟨fun language versions getEq version nodes getEq' idx mem => ?_, (Except.ok.inj ok).symm⟩
  simp only [List.isEmpty_iff, List.flatMap_eq_nil_iff, List.filterMap_eq_nil_iff] at noErrors
  have fine := noErrors (language, versions) (ExtTreeMap.mem_toList_iff_getElem?_eq_some.mpr getEq)
    (version, nodes) (ExtTreeMap.mem_toList_iff_getElem?_eq_some.mpr getEq') idx mem
  cases result : g.profileOf project idx with
  | error err => simp [result] at fine
  | ok profile => exact ⟨profile, rfl⟩

theorem mem_groups {versions : ProfileNodes} {version : Version} {profileIdx : Nat}
    {nodes : List Nat} : (version, profileIdx, nodes) ∈ versions.groups ↔
      ∃ profileToNodes, versions[version]? = some profileToNodes ∧
        profileToNodes[profileIdx]? = some nodes := by
  simp only [ProfileNodes.groups, List.mem_flatMap, List.mem_map, Prod.exists,
    ExtTreeMap.mem_toList_iff_getElem?_eq_some, Prod.mk.injEq]
  grind

/-- The groups have each input once, with a profile that suits it, and no group is empty. -/
structure Partitions (project : CompilerProject S R Λ γ α) (g : Graph δ) (nodes : List Nat)
    (versions : ProfileNodes) : Prop where
  perm : (versions.groups.flatMap (·.2.2)).Perm nodes
  nonempty : ∀ group ∈ versions.groups, group.2.2 ≠ []
  satisfies : ∀ group ∈ versions.groups, ∀ idx ∈ group.2.2, ∃ name settings,
    project.profiles[group.2.1]? = some (name, settings) ∧ g.Satisfies project idx settings

theorem partitions_map {nodes : List Nat} {f : Nat → Option Version}
    {versions : ExtTreeMap Version (List Nat)} (distinct : nodes.Nodup)
    (groups : Library.Groups versions nodes f) (chosen : ∀ idx ∈ nodes, (f idx).isSome)
    (profiled : ∀ idx ∈ nodes, ∃ profile, g.profileOf project idx = .ok profile) :
    g.Partitions project nodes (versions.map fun _ nodes =>
      Library.groupBy (fun _ idx => (g.profileOf project idx).toOption.bind id) nodes) := by
  set byProfile := fun nodes : List Nat => (Library.groupBy
    (fun _ idx => (g.profileOf project idx).toOption.bind id) nodes : ExtTreeMap Nat (List Nat))
    with byProfile_eq
  have inner : ∀ nodes, Library.Groups (byProfile nodes) nodes
      fun idx => (g.profileOf project idx).toOption.bind id :=
    fun nodes => Library.groups_groupBy fun _ _ _ => rfl
  have whole : ∀ idx ∈ nodes, ∃ k name settings,
      (g.profileOf project idx).toOption.bind id = some k ∧
        project.profiles[k]? = some (name, settings) ∧ g.Satisfies project idx settings := by
    intro idx mem
    obtain ⟨profile, eq⟩ := profiled idx mem
    obtain ⟨k, name, settings, rfl, getEq, satisfies⟩ := profileOf_eq eq
    exact ⟨k, name, settings, by rw [eq]; rfl, getEq, satisfies⟩
  have part : ∀ e ∈ versions.toList, e.2 = nodes.filter (f · = some e.1) := fun e mem => by
    rw [← groups.fibre, ExtTreeMap.mem_toList_iff_getElem?_eq_some.mp mem, Option.getD_some]
  have entry : ∀ version k nodes', (version, k, nodes') ∈
      ProfileNodes.groups (versions.map fun _ nodes => byProfile nodes) → ∃ nodes₁,
        nodes₁ = nodes.filter (f · = some version) ∧ (byProfile nodes₁)[k]? = some nodes' := by
    intro version k nodes' mem
    obtain ⟨profileToNodes, found, entry⟩ := mem_groups.mp mem
    obtain ⟨nodes₁, assigned, rfl⟩ : ∃ nodes₁, versions[version]? = some nodes₁ ∧
        byProfile nodes₁ = profileToNodes := by
      simpa [ExtTreeMap.getElem?_map] using found
    exact ⟨nodes₁, part (version, nodes₁) (ExtTreeMap.mem_toList_iff_getElem?_eq_some.mpr assigned),
      entry⟩
  refine ⟨?_, ?_, ?_⟩
  · have regrouped : (ProfileNodes.groups (versions.map fun _ nodes => byProfile nodes)).flatMap
        (·.2.2) = versions.toList.flatMap fun e => (byProfile e.2).toList.flatMap Prod.snd := by
      simp only [ProfileNodes.groups, ExtTreeMap.toList_map, List.flatMap_map,
        List.flatMap_assoc]
    rw [regrouped]
    refine List.Perm.trans (List.Perm.flatMap_left _ fun e mem => ?_)
      (groups.flatMap_perm distinct chosen)
    rw [part e mem]
    refine (inner _).flatMap_perm (distinct.filter _) fun idx mem => ?_
    obtain ⟨k, _, _, eq, -⟩ := whole idx (List.mem_filter.mp mem).1
    rw [eq]
    rfl
  · rintro ⟨version, k, nodes'⟩ mem
    obtain ⟨nodes₁, -, found⟩ := entry version k nodes' mem
    obtain ⟨idx, listed, eq⟩ := ((inner nodes₁).mem_iff k).mp
      (ExtTreeMap.mem_iff_isSome_getElem?.mpr (by rw [found]; rfl))
    have group := (inner nodes₁).getElem? listed eq
    rw [found, Option.some.injEq] at group
    exact List.ne_nil_of_mem (group ▸ List.mem_filter.mpr ⟨listed, by simpa using eq⟩)
  · rintro ⟨version, k, nodes'⟩ mem idx getEq
    obtain ⟨nodes₁, rfl, found⟩ := entry version k nodes' mem
    have fibre := (inner (nodes.filter (f · = some version))).fibre k
    rw [found, Option.getD_some] at fibre
    rw [fibre, List.mem_filter, decide_eq_true_eq] at getEq
    have listed : idx ∈ nodes := (List.mem_filter.mp getEq.1).1
    obtain ⟨k', name, settings, eq, profile, satisfies⟩ := whole idx listed
    obtain rfl : k' = k := Option.some.inj (eq.symm.trans getEq.2)
    exact ⟨name, settings, profile, satisfies⟩

theorem Partitions.present {nodes : List Nat} {versions : ProfileNodes}
    (h : g.Partitions project nodes versions) (below : ∀ idx ∈ nodes, idx < g.nodes.length) :
    g.Present project versions := by
  intro group mem
  constructor
  · obtain ⟨idx, getEq⟩ := List.exists_mem_of_ne_nil _ (h.nonempty group mem)
    obtain ⟨name, settings, profile, -⟩ := h.satisfies group mem idx getEq
    exact (List.getElem?_eq_some_iff.mp profile).1
  · intro idx getEq
    exact below idx (h.perm.mem_iff.mp (List.mem_flatMap.mpr ⟨group, mem, getEq⟩))

section Languages

variable [DecidableEq Λ] [Ord Λ] [TransOrd Λ] [LawfulEqOrd Λ]

omit [SettingsRestrictions S R] in
/-- Whatever the grouping, the source sets are those of its groups. -/
theorem exists_sourcesByProfile (wf : g.WellFormed inputs)
    {versionedNodes : ExtTreeMap Λ ProfileNodes}
    (present : ∀ (language : Λ) (versions : ProfileNodes),
      versionedNodes[language]? = some versions → g.Present project versions) :
    ∃ resolved, g.sourcesByProfile project versionedNodes = .ok resolved ∧
      ∀ language : Λ, (versionedNodes[language]? = none → resolved.sources[language]? = none) ∧
        ∀ versions : ProfileNodes, versionedNodes[language]? = some versions →
          ∃ versioned, resolved.sources[language]? = some versioned ∧
            List.Forall₂ (g.Produced project) versions.groups versioned := by
  obtain ⟨sources, eq⟩ := Library.exists_foldlM_insert (o := versionedNodes)
    (f := fun _ versions => g.versionedSources (Λ := Λ) project versions)
    fun language versions getEq =>
      (exists_versionedSources wf (present language versions getEq)).imp fun _ h => h.1
  refine ⟨_, by rw [sourcesByProfile, eq]; rfl, fun language => ?_⟩
  obtain ⟨here, absent⟩ := Library.getElem?_foldlM_insert (a := language)
    (f := fun _ versions => g.versionedSources (Λ := Λ) project versions) eq
  refine ⟨absent, fun versions getEq => ?_⟩
  obtain ⟨versioned, ok, found⟩ := here versions getEq
  obtain ⟨versioned', ok', produced⟩ :=
    exists_versionedSources (Λ := Λ) wf (present language versions getEq)
  obtain rfl := Except.ok.inj (ok.symm.trans ok')
  exact ⟨versioned, found, produced⟩

omit [SettingsRestrictions S R] [Ord Λ] [TransOrd Λ] [LawfulEqOrd Λ] in
theorem lt_of_mem_inputsOf {languageOf : δ → Λ} {language : Λ} {idx : Nat}
    (mem : idx ∈ g.inputsOf languageOf language) : idx < g.nodes.length := by
  have eq := (List.mem_filter.mp mem).2
  simp only [Graph.language, decide_eq_true_eq, Option.map_eq_some_iff] at eq
  obtain ⟨node, getEq, -⟩ := eq
  exact (List.getElem?_eq_some_iff.mp getEq).1

/-- The inputs of each language are split into groups, each of which is compiled with exactly the
files it needs, and the recursion along the imports ends. -/
theorem intoSourcesByVersion_exact (project : CompilerProject S R Λ γ α)
    (versionMatches : VersionReq → Version → Bool) (parser : SourceParser δ) (languageOf : δ → Λ)
    (wf : g.WellFormed inputs)
    (sorted : ∀ language, SortedVersions (project.availableVersions language))
    (distinct : ∀ language, ((project.availableVersions language).map (·.version)).Nodup) :
    (∀ versionedNodes : ExtTreeMap Λ ProfileNodes,
      (∀ (language : Λ) (versions : ProfileNodes), versionedNodes[language]? = some versions →
        g.Present project versions) →
      ∃ resolved, g.sourcesByProfile project versionedNodes = .ok resolved ∧
        ∀ language : Λ, (versionedNodes[language]? = none → resolved.sources[language]? = none) ∧
          ∀ versions : ProfileNodes, versionedNodes[language]? = some versions →
            ∃ versioned, resolved.sources[language]? = some versioned ∧
              List.Forall₂ (g.Produced project) versions.groups versioned) ∧
    (∀ resolved,
      g.intoSourcesByVersion project versionMatches parser languageOf = .ok resolved →
      ∃ versionedNodes, g.sourcesByProfile project versionedNodes = .ok resolved ∧
        ∀ language : Λ,
          (g.inputsOf languageOf language = [] → versionedNodes[language]? = none) ∧
          (g.inputsOf languageOf language ≠ [] → ∃ versions : ProfileNodes,
            versionedNodes[language]? = some versions ∧
              g.Partitions project (g.inputsOf languageOf language) versions)) ∧
    ∀ err, g.intoSourcesByVersion project versionMatches parser languageOf = .error err →
      (∃ e, err = .versions e) ∨ ∃ e, err = .settings e := by
  have grouped : ∀ resulted versionedNodes,
      g.getInputNodeVersions versionMatches parser languageOf project = .ok resulted →
      g.resolveSettings project resulted = .ok versionedNodes →
      ∀ language : Λ,
        (g.inputsOf languageOf language = [] → versionedNodes[language]? = none) ∧
        (g.inputsOf languageOf language ≠ [] → ∃ versions : ProfileNodes,
          versionedNodes[language]? = some versions ∧
            g.Partitions project (g.inputsOf languageOf language) versions) := by
    intro resulted versionedNodes ok ok' language
    obtain ⟨absent, here⟩ := assigned_of_getInputNodeVersions sorted distinct ok language
    obtain ⟨profiled, rfl⟩ := resolveSettings_ok ok'
    simp only [ExtTreeMap.getElem?_map]
    constructor
    · intro none
      rw [absent none]
      rfl
    · intro someEq
      obtain ⟨versions, found, assigned, h⟩ := here someEq
      refine ⟨_, by rw [found]; rfl, partitions_map (List.nodup_range.filter _) h.groups
        (fun _ _ => rfl) fun idx mem => ?_⟩
      exact profiled language versions found _ _ (h.groups.getElem? mem rfl) idx
        (List.mem_filter.mpr ⟨mem, by simp⟩)
  refine ⟨fun versionedNodes present => exists_sourcesByProfile wf present, ?_, ?_⟩
  · intro resolved ok
    unfold intoSourcesByVersion at ok
    cases first : g.getInputNodeVersions versionMatches parser languageOf project with
    | error err => simp [first, Except.mapError, bind, Except.bind] at ok
    | ok resulted =>
      cases second : g.resolveSettings project resulted with
      | error err => simp [first, second, Except.mapError, bind, Except.bind] at ok
      | ok versionedNodes =>
        simp only [first, second, Except.mapError, bind, Except.bind] at ok
        exact ⟨versionedNodes, ok, grouped resulted versionedNodes first second⟩
  · intro err error
    unfold intoSourcesByVersion at error
    cases first : g.getInputNodeVersions versionMatches parser languageOf project with
    | error e =>
      simp only [first, Except.mapError, bind, Except.bind, Except.error.injEq] at error
      exact .inl ⟨e, error.symm⟩
    | ok resulted =>
      cases second : g.resolveSettings project resulted with
      | error e =>
        simp only [first, second, Except.mapError, bind, Except.bind, Except.error.injEq] at error
        exact .inr ⟨e, error.symm⟩
      | ok versionedNodes =>
        simp only [first, second, Except.mapError, bind, Except.bind] at error
        have present : ∀ (language : Λ) (versions : ProfileNodes),
            versionedNodes[language]? = some versions → g.Present project versions := by
          intro language versions getEq
          obtain ⟨absent, here⟩ := grouped resulted versionedNodes first second language
          by_cases none : g.inputsOf languageOf language = []
          · rw [absent none] at getEq
            cases getEq
          · obtain ⟨versions', found, partitions⟩ := here none
            obtain rfl := Option.some.inj (found.symm.trans getEq)
            exact partitions.present fun idx => lt_of_mem_inputsOf
        obtain ⟨resolved, ok, -⟩ := exists_sourcesByProfile wf present
        rw [ok] at error
        cases error

end Languages

end Profiles

/-! ### Two inputs, one of them with a restricted file behind a cycle of imports -/

def cycleFiles : FileSystem :=
  .ofTexts [(["p", "src"], "a.sol", "/p/lib/c.sol"), (["p", "src"], "b.sol", ""),
    (["p", "lib"], "c.sol", "/p/lib/d.sol"), (["p", "lib"], "d.sol", "/p/lib/c.sol")]

def cycleSources : Sources :=
  (ExtTreeMap.empty.insert (.rel ["src", "a.sol"]) { content := "/p/lib/c.sol" }).insert
    (.rel ["src", "b.sol"]) { content := "" }

def cycleProject : CompilerProject SolcSettings SolcRestrictions String Unit Unit where
  paths := .dapptools (.abs ["p"]) []
  settings := {}
  additionalSettings := ExtTreeMap.empty.insert "ir" { settings := { viaIr := some true } }
  artifacts := ⟨fun _ _ _ _ => (), fun _ _ => none, fun _ => false⟩
  restrictions := ExtTreeMap.empty.insert (.abs ["p", "lib", "d.sol"])
    ⟨none, { viaIr := some true }⟩
  availableVersions _ := cyclicVersions

theorem intoSourcesByVersion_exact_cycle :
    ∃ g resolved, resolveSources .importLines cycleFiles cycleProject.paths cycleSources = some g ∧
      g.intoSourcesByVersion cycleProject belowTwenty .importLines (fun _ => "Solidity") =
        .ok resolved ∧
      (resolved.sources["Solidity"]?.map fun versioned => versioned.map
        fun (version, sources, name, _) => (version, sources.keys, name)) = some [
          (⟨0, 8, 25, "", ""⟩, [.abs ["p", "src", "b.sol"]], "default"),
          (⟨0, 8, 25, "", ""⟩, [.abs ["p", "lib", "c.sol"], .abs ["p", "lib", "d.sol"],
            .abs ["p", "src", "a.sol"]], "ir")] ∧
      ∃ versionedNodes, g.sourcesByProfile cycleProject versionedNodes = .ok resolved ∧
        ∃ versions : ProfileNodes, versionedNodes["Solidity"]? = some versions ∧
          g.Partitions cycleProject (g.inputsOf (fun _ => "Solidity") "Solidity") versions := by
  have run : ((resolveSources .importLines cycleFiles cycleProject.paths cycleSources).bind
      fun g => (g.intoSourcesByVersion cycleProject belowTwenty .importLines
        (fun _ => "Solidity")).toOption.bind fun resolved =>
          (resolved.sources["Solidity"]?.map fun versioned => versioned.map
            fun (version, sources, name, _) => (version, sources.keys, name))) = some [
          (⟨0, 8, 25, "", ""⟩, [.abs ["p", "src", "b.sol"]], "default"),
          (⟨0, 8, 25, "", ""⟩, [.abs ["p", "lib", "c.sol"], .abs ["p", "lib", "d.sol"],
            .abs ["p", "src", "a.sol"]], "ir")] := by
    decide +kernel
  have inputs : ((resolveSources .importLines cycleFiles cycleProject.paths cycleSources).map
      fun g => g.inputsOf (fun _ => "Solidity") "Solidity") = some [0, 1] := by
    decide +kernel
  have parents : ∀ p ∈ cycleSources.makeAbsolute cycleProject.paths.root, p.parent.isSome := by
    intro p mem
    obtain ⟨file, listed, rfl⟩ := Sources.mem_makeAbsolute mem
    simp only [cycleSources, ExtTreeMap.empty_eq_emptyc, ExtTreeMap.mem_insert,
      LawfulEqCmp.compare_eq_iff_eq, ExtTreeMap.not_mem_empty, or_false] at listed
    rcases listed with rfl | rfl <;> decide +kernel
  obtain ⟨g, resolves, run⟩ := Option.bind_eq_some_iff.mp run
  obtain ⟨resolved, result, lists⟩ := Option.bind_eq_some_iff.mp run
  have ok := Library.ok_of_toOption result
  obtain ⟨versionedNodes, same, partition⟩ := (intoSourcesByVersion_exact cycleProject belowTwenty
    .importLines (fun _ => "Solidity") (wellFormed_of_resolveSources parents resolves)
    (fun _ => sorted_cyclicVersions) fun _ => distinct_cyclicVersions).2.1 resolved ok
  refine ⟨g, resolved, resolves, ok, lists, versionedNodes, same, (partition "Solidity").2 ?_⟩
  rw [resolves, Option.map_some, Option.some.injEq] at inputs
  rw [inputs]
  exact List.cons_ne_nil _ _

end Graph

end FoundryCore
