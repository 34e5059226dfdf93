import FoundryCore.Remappings.Combine

/-!
# The order of directory entries

The candidates of a directory are merged by counting them, whatever their order, except at a
library directory: there the first candidate of the level is adjusted, and there may be others of
other windows. Where that does not happen, a search finds the same remappings however the
directories are listed.
-/

open Relation Std

namespace FoundryCore.Remappings

/-- The same directory, with its entries and those below in another order. -/
inductive Relisted : List Entry → List Entry → Prop
  | nil : Relisted [] []
  | file (name : String) {es es' : List Entry} (rest : Relisted es es') :
    Relisted (.file name :: es) (.file name :: es')
  | dir (name : String) {sub sub' es es' : List Entry} (inner : Relisted sub sub')
    (rest : Relisted es es') : Relisted (.dir name sub :: es) (.dir name sub' :: es')
  | swap (a b : Entry) (es : List Entry) : Relisted (a :: b :: es) (b :: a :: es)
  | trans {es₁ es₂ es₃ : List Entry} (first : Relisted es₁ es₂) (second : Relisted es₂ es₃) :
    Relisted es₁ es₃

theorem Relisted.hasSource_eq {es es' : List Entry} (relisted : Relisted es es') :
    hasSource es = hasSource es' := by
  induction relisted with
  | nil => rfl
  | file name _ ih => simp_all [hasSource]
  | dir name _ _ _ ih => simp_all [hasSource]
  | swap a b es => simp [hasSource, Bool.or_left_comm]
  | trans _ _ ih ih' => exact ih.trans ih'

/-! ## Directories without a choice -/

namespace Frame

variable {isInsideNodeModules : Bool} {f f' : Frame}

/-- The search of a library directory that is not merged has no choice: there is at most one
candidate of its level, or none would be adjusted. -/
def Clear (isInsideNodeModules : Bool) (f : Frame) : Prop :=
  f.IsBarrier → f.Merges isInsideNodeModules ∨
    ((f.found isInsideNodeModules).filter fun c => c.windowLevel = f.level).length ≤ 1 ∨
    ∀ c ∈ f.found isInsideNodeModules, c.windowLevel = f.level →
      adjustSource f.opener f.windowStart c = c

instance : Decidable (f.Clear isInsideNodeModules) := by
  unfold Clear IsBarrier Merges
  infer_instance

/-- No directory from here on has a choice. -/
def AllClear (isInsideNodeModules : Bool) (f : Frame) : Prop :=
  ∀ g, ReflTransGen Sub f g → g.Clear isInsideNodeModules

theorem allClear_iff : f.AllClear isInsideNodeModules ↔
    f.Clear isInsideNodeModules ∧ ∀ g ∈ f.subframes, g.AllClear isInsideNodeModules :=
  forall_visited_iff

/-- What is adjusted where nothing is merged. -/
theorem candidates_eq_map (clear : f.Clear isInsideNodeModules)
    (merges : ¬ f.Merges isInsideNodeModules) :
    f.candidates isInsideNodeModules = (f.found isInsideNodeModules).map fun c =>
      if c.windowLevel = f.level then adjustSource f.opener f.windowStart c else c := by
  rw [candidates_of_not_merges merges, Library.modify_findIdx_eq_map]
  · simp
  · by_cases barrier : f.IsBarrier
    · simpa using (clear barrier).resolve_left merges
    · exact .inl (length_le_one barrier merges)

/-- The same directory with its entries listed in another way. -/
def relist (f : Frame) (entries : List Entry) : Frame := { f with entries }

section Relist

variable {entries : List Entry} (source : hasSource entries = hasSource f.entries)
  (perm : ((f.relist entries).found isInsideNodeModules).Perm (f.found isInsideNodeModules))

include source perm

theorem merges_relist : (f.relist entries).Merges isInsideNodeModules ↔
    f.Merges isInsideNodeModules := by
  rw [Merges, Merges, (perm.filter _).length_eq]
  exact or_congr (by rw [← source]; rfl) Iff.rfl

theorem clear_relist (clear : f.Clear isInsideNodeModules) :
    (f.relist entries).Clear isInsideNodeModules := by
  intro barrier
  rw [merges_relist source perm, (perm.filter _).length_eq]
  refine (clear barrier).imp_right (Or.imp_right fun fixed c mem => ?_)
  exact fixed c (perm.mem_iff.mp mem)

theorem candidates_relist (clear : f.Clear isInsideNodeModules) :
    ((f.relist entries).candidates isInsideNodeModules).Perm
      (f.candidates isInsideNodeModules) := by
  have merges_iff := merges_relist source perm
  by_cases merges : f.Merges isInsideNodeModules
  · rw [candidates_of_merges merges, candidates_of_merges (merges_iff.mpr merges),
      mergeOnSameLevel_eq, mergeOnSameLevel_eq]
    have sources := perm.filter Candidate.isSource
    rw [sources.length_eq]
    split_ifs
    · exact sources
    · exact (perm.filter _).append_right _
  · rw [candidates_eq_map clear merges,
      candidates_eq_map (clear_relist source perm clear) (mt merges_iff.mp merges)]
    exact perm.map _

end Relist

/-- A way to enter directories that does not look at their entries. -/
structure Uniform (enter : Entry → List Frame) : Prop where
  file : ∀ name, enter (.file name) = []
  dir : ∀ name, (∀ entries, enter (.dir name entries) = []) ∨
    ∃ f : Frame, ∀ entries, enter (.dir name entries) = [f.relist entries]

theorem uniform_enter (f : Frame) : Uniform f.enter where
  file _ := rfl
  dir name := by
    by_cases skip : isHidden name || noRecurse (below f.currentDir [name])
    · exact .inl fun entries => if_pos skip
    · by_cases lib : isLibDir (below f.currentDir [name])
      · refine .inr ⟨⟨[], below f.currentDir [name], [], f.level + 1⟩, fun entries => ?_⟩
        rw [enter, if_neg skip, if_pos lib]
        rfl
      · refine .inr ⟨⟨[], f.opener, f.names ++ [name], f.level⟩, fun entries => ?_⟩
        rw [enter, if_neg skip, if_neg lib]
        rfl

/-- Entries in another order lead to the same candidates in another order. -/
theorem relisted_spec {es es' : List Entry} (relisted : Relisted es es')
    {enter : Entry → List Frame} (uniform : Uniform enter)
    (clear : ∀ g ∈ es.flatMap enter, g.AllClear isInsideNodeModules) :
    (∀ g ∈ es'.flatMap enter, g.AllClear isInsideNodeModules) ∧
      ((es'.flatMap enter).flatMap (candidates isInsideNodeModules)).Perm
        ((es.flatMap enter).flatMap (candidates isInsideNodeModules)) := by
  induction relisted generalizing enter with
  | nil => exact ⟨clear, .refl _⟩
  | file name rest ih =>
    simp only [List.flatMap_cons, uniform.file, List.nil_append] at clear ⊢
    exact ih uniform clear
  | @dir name sub sub' es es' inner rest ihInner ih =>
    simp only [List.flatMap_cons, List.mem_append, List.flatMap_append] at clear ⊢
    obtain ⟨restClear, restPerm⟩ := ih uniform fun g mem => clear g (.inr mem)
    rcases uniform.dir name with none | ⟨f, one⟩
    · simp only [none, List.not_mem_nil, false_or, List.flatMap_nil, List.nil_append]
      exact ⟨restClear, restPerm⟩
    · simp only [one, List.mem_singleton, List.flatMap_singleton] at clear ⊢
      obtain ⟨here, below⟩ := allClear_iff.mp (clear _ (.inl rfl))
      obtain ⟨below', perm⟩ := ihInner (uniform_enter (f.relist sub)) below
      have found : ((f.relist sub').found isInsideNodeModules).Perm
          ((f.relist sub).found isInsideNodeModules) := by
        rw [found_eq, found_eq]
        exact perm
      have source : hasSource sub' = hasSource sub := inner.hasSource_eq.symm
      have here' := clear_relist (f := f.relist sub) source found here
      refine ⟨?_, (candidates_relist (f := f.relist sub) source found here).append restPerm⟩
      rintro g (rfl | mem)
      · exact allClear_iff.mpr ⟨here', below'⟩
      · exact restClear g mem
  | swap a b es =>
    simp only [List.flatMap_cons, List.mem_append, List.flatMap_append] at clear ⊢
    refine ⟨fun g mem => clear g (by rwa [or_left_comm]), ?_⟩
    rw [← List.append_assoc, ← List.append_assoc]
    exact List.perm_append_comm.append_right _
  | trans first second ih ih' =>
    obtain ⟨clear', perm⟩ := ih uniform clear
    obtain ⟨clear'', perm'⟩ := ih' uniform clear'
    exact ⟨clear'', perm'.trans perm⟩

end Frame

/-! ## The order of candidates -/

/-- The order in which candidates are combined. -/
abbrev Candidate.Le (a b : Candidate) : Prop := (compare a.sourceDir b.sourceDir).isLE

instance : Std.Total Candidate.Le where
  total a b := by
    rw [Candidate.Le, Candidate.Le, OrientedOrd.eq_swap (a := b.sourceDir)]
    cases compare a.sourceDir b.sourceDir <;> simp

instance : IsTrans Candidate Candidate.Le := ⟨fun _ _ _ => TransOrd.isLE_trans⟩

theorem pairwise_pathsOf (key : String) (candidates : List Candidate) :
    (pathsOf key (candidates.insertionSort Candidate.Le)).Pairwise fun p q =>
      (compare p q).isLE := by
  refine (List.pairwise_insertionSort Candidate.Le candidates).filterMap _ ?_
  intro c c' le p eq p' eq'
  split_ifs at eq eq'
  obtain rfl := Option.some.inj eq
  obtain rfl := Option.some.inj eq'
  exact le

/-- The remappings do not depend on the order in which the candidates are found. -/
theorem allRemappings_eq_of_perm {dir : PathBuf} {entries entries' : List Entry}
    (perm : (rootCandidates dir entries').Perm (rootCandidates dir entries)) :
    allRemappings dir entries' = allRemappings dir entries := by
  refine ExtTreeMap.ext_getElem? fun key => ?_
  refine (getElem?_combine _ _ key).trans (.trans ?_ (getElem?_combine _ _ key).symm)
  congr 1
  refine List.Perm.eq_of_pairwise (fun p q _ _ le ge => ?_) (pairwise_pathsOf key _)
    (pairwise_pathsOf key _) (.filterMap _ ?_)
  · exact LawfulEqOrd.eq_of_compare (OrientedCmp.isLE_antisymm le ge)
  · exact (List.perm_insertionSort _ _).trans (perm.trans (List.perm_insertionSort _ _).symm)

/-! ## Another order of the entries -/

theorem uniform_rootFrame (dir : PathBuf) : Frame.Uniform (rootFrame dir) where
  file _ := rfl
  dir name := by
    by_cases hidden : isHidden name
    · exact .inl fun entries => if_pos hidden
    · exact .inr ⟨⟨[], below dir [name], [], 0⟩, fun entries => if_neg hidden⟩

/-- Where no library directory that the search visits leaves it a choice, the remappings do not
depend on the order of the entries. -/
theorem findMany_relisted {dir : PathBuf} {entries entries' : List Entry}
    (clear : ∀ f, Searched dir entries f → f.Clear (endsWith dir (.rel ["node_modules"])))
    (relisted : Relisted entries entries') : findMany dir entries' = findMany dir entries := by
  have all : ∀ r ∈ entries.flatMap (rootFrame dir),
      r.AllClear (endsWith dir (.rel ["node_modules"])) := fun r root f path =>
    clear f ⟨r, root, path⟩
  obtain ⟨-, perm⟩ := Frame.relisted_spec relisted (uniform_rootFrame dir) all
  rw [← rootCandidates_eq, ← rootCandidates_eq] at perm
  rw [findMany, findMany, allRemappings_eq_of_perm perm]

/-- Two libraries that hold their sources directly. -/
theorem findMany_relisted_libraries :
    findMany (.abs ["root"]) [.dir "r" [.dir "lib" [.dir "y" [.file "y.sol"],
      .dir "x" [.file "x.sol"]]]] =
    findMany (.abs ["root"]) [.dir "r" [.dir "lib" [.dir "x" [.file "x.sol"],
      .dir "y" [.file "y.sol"]]]] := by
  refine findMany_relisted ?_ (.dir "r" (.dir "lib" (.swap _ _ _) .nil) .nil)
  have x : (⟨[.file "x.sol"], .abs ["root", "r", "lib"], ["x"], 1⟩ : Frame).AllClear false :=
    Frame.allClear_iff.mpr ⟨by decide +kernel, by rintro f ⟨⟩⟩
  have y : (⟨[.file "y.sol"], .abs ["root", "r", "lib"], ["y"], 1⟩ : Frame).AllClear false :=
    Frame.allClear_iff.mpr ⟨by decide +kernel, by rintro f ⟨⟩⟩
  have lib : (⟨[.dir "x" [.file "x.sol"], .dir "y" [.file "y.sol"]], .abs ["root", "r", "lib"],
      [], 1⟩ : Frame).AllClear false := by
    refine Frame.allClear_iff.mpr ⟨by decide +kernel, ?_⟩
    change ∀ f ∈ [_, _], _
    exact List.forall_mem_cons.mpr ⟨x, List.forall_mem_singleton.mpr y⟩
  have r : (⟨[.dir "lib" [.dir "x" [.file "x.sol"], .dir "y" [.file "y.sol"]]],
      .abs ["root", "r"], [], 0⟩ : Frame).AllClear false := by
    refine Frame.allClear_iff.mpr ⟨by decide +kernel, ?_⟩
    change ∀ f ∈ [_], _
    exact List.forall_mem_singleton.mpr lib
  rintro f ⟨root, mem, path⟩
  obtain rfl := List.mem_singleton.mp mem
  exact r f path

/-- The library that is listed first is mapped to the directory of all libraries. -/
theorem findMany_order_matters :
    ∃ x y : List Entry,
      Relisted [.dir "r" [.dir "lib" [.dir "x" x, .dir "y" y]]]
        [.dir "r" [.dir "lib" [.dir "y" y, .dir "x" x]]] ∧
      ¬ (findMany (.abs ["root"]) [.dir "r" [.dir "lib" [.dir "x" x, .dir "y" y]]]).Perm
        (findMany (.abs ["root"]) [.dir "r" [.dir "lib" [.dir "y" y, .dir "x" x]]]) := by
  refine ⟨[.file "x.sol", .dir "contracts" [.file "x.sol", .dir "src" [.file "x.sol"]]],
    [.file "y.sol", .dir "contracts" [.file "y.sol", .dir "src" [.file "y.sol"]]],
    .dir "r" (.dir "lib" (.swap _ _ _) .nil) .nil, ?_⟩
  decide +kernel

end FoundryCore.Remappings
