import FoundryCore.Config
import FoundryCore.Library.LastBest
import Mathlib.Data.Prod.Lex

/-!
# Remappings

The resolver takes the first remapping that fits an import. The compiler takes the one with the
longest context, then with the longest name, and the last one listed of several such.
-/

namespace FoundryCore

namespace Remapping

/-! ## The rule of the compiler -/

/-- The context is the beginning of the name of the importing source, and the name that of the
imported one. -/
def fitsText (source imported : String) (r : Remapping) : Bool :=
  (r.context.getD "").toList.isPrefixOf source.toList && r.name.toList.isPrefixOf imported.toList

/-- Remappings are compared by the length of their context, then by that of their name. -/
def specificity (r : Remapping) : ℕ ×ₗ ℕ := toLex ((r.context.getD "").length, r.name.length)

/-- The remapping the compiler applies to an import. -/
def selected (remappings : List Remapping) (source imported : String) : Option Remapping :=
  Library.lastBest (fitsText source imported) specificity remappings

/-! ## The choice of the resolver -/

/-- Whether the resolver tries the remapping for an import made in `cwd`. -/
def fits (cwd importPath : PathBuf) (r : Remapping) : Bool :=
  r.appliesIn cwd && (importPath.stripPrefix (.ofString r.name)).isSome

/-- The path, below the root, of an import that starts with the name of the remapping. -/
def target (fs : FileSystem) (root importPath : PathBuf) (r : Remapping) : PathBuf :=
  let stripped := (importPath.stripPrefix (.ofString r.name)).getD importPath
  let libPath :=
    if stripped.components = [] ∧ ".sol".toList <:+ r.path.toList then .ofString r.path
    else (PathBuf.ofString r.path).join stripped
  match stripped.stripPrefix (.rel ["contracts"]) with
  | some adjusted =>
    if "contracts/".toList <:+ r.path.toList ∧ ¬ fs.pathExists (root.join libPath) then
      (PathBuf.ofString r.path).join adjusted
    else libPath
  | none => libPath

/-- What a path below the root becomes. -/
def moved (root relative : PathBuf) (r : Remapping) : PathBuf :=
  root.join ((PathBuf.ofString r.path).join
    ((relative.stripPrefix (.ofString r.name)).getD relative))

end Remapping

namespace ProjectPathsConfig

variable (paths : ProjectPathsConfig) (fs : FileSystem) (cwd importPath resolvedPath : PathBuf)

/-- The remapping that `resolveLibraryImport` applies. -/
def libraryRemapping : Option Remapping :=
  paths.remappings.find? (·.fits (cwd.stripPrefixOrSelf paths.root) importPath)

/-- Whether `applyRemappingToPath` takes the remapping: its target has to exist, and to be a
directory where the remapping names the whole path. -/
def moves (r : Remapping) : Bool :=
  (resolvedPath.stripPrefix paths.root).any fun relative =>
    r.appliesIn (cwd.stripPrefixOrSelf paths.root) &&
      (relative.stripPrefix (.ofString r.name)).any fun stripped =>
        fs.joinedExists (r.moved paths.root relative) stripped

/-- The remapping that `applyRemappingToPath` applies. -/
def pathRemapping : Option Remapping := paths.remappings.find? (paths.moves fs cwd resolvedPath)

variable {paths fs cwd importPath resolvedPath}

/-- The first result is that of the first element that has one. -/
theorem findSome?_filter_eq {ι ο : Type*} {p : ι → Bool} {f : ι → Option ο} (l : List ι) :
    (l.filter p).findSome? f = (l.find? fun x => p x && (f x).isSome).bind f := by
  induction l with
  | nil => rfl
  | cons x l ih =>
    rw [List.filter_cons, List.find?_cons]
    by_cases holds : p x
    · cases result : f x with
      | none => simp [holds, result, ih]
      | some y => simp [holds, result]
    · simp [holds, ih]

theorem resolveLibraryImport_eq : paths.resolveLibraryImport fs cwd importPath =
    match paths.libraryRemapping cwd importPath with
    | some r => some (paths.root.join (r.target fs paths.root importPath))
    | none => resolveLibrary fs paths.libraries importPath := by
  unfold resolveLibraryImport libraryRemapping Remapping.fits
  dsimp only
  rw [findSome?_filter_eq]
  simp only [Option.isSome_map]
  cases found : paths.remappings.find? fun r =>
      r.appliesIn (cwd.stripPrefixOrSelf paths.root) &&
        (importPath.stripPrefix (.ofString r.name)).isSome with
  | none => rfl
  | some r =>
    have fits := List.find?_some found
    rw [Bool.and_eq_true] at fits
    obtain ⟨stripped, eq⟩ := Option.isSome_iff_exists.mp fits.2
    cases below : stripped.stripPrefix (.rel ["contracts"]) <;>
      simp only [Option.bind_some, eq, below, Option.map_some, Remapping.target, Option.getD_some]

theorem applyRemappingToPath_eq : paths.applyRemappingToPath fs cwd resolvedPath =
    match paths.pathRemapping fs cwd resolvedPath with
    | some r => r.moved paths.root (resolvedPath.stripPrefixOrSelf paths.root)
    | none => resolvedPath := by
  unfold applyRemappingToPath pathRemapping
  cases below : resolvedPath.stripPrefix paths.root with
  | none =>
    have none : paths.remappings.find? (paths.moves fs cwd resolvedPath) = none := by
      simp [moves, below]
    rw [none]
  | some relative =>
    dsimp only
    rw [findSome?_filter_eq]
    have same : (fun r : Remapping => r.appliesIn (cwd.stripPrefixOrSelf paths.root) &&
        ((relative.stripPrefix (.ofString r.name)).bind fun stripped =>
          let remapped := paths.root.join ((PathBuf.ofString r.path).join stripped)
          if fs.joinedExists remapped stripped then some remapped else none).isSome) =
            paths.moves fs cwd resolvedPath := by
      funext r
      simp only [moves, below, Option.any_some, Remapping.moved]
      cases relative.stripPrefix (.ofString r.name) with
      | none => simp
      | some stripped =>
        simp only [Option.bind_some, Option.any_some, Option.getD_some]
        split_ifs with there <;> simp [there]
    rw [same]
    cases found : paths.remappings.find? (paths.moves fs cwd resolvedPath) with
    | none => rfl
    | some r =>
      have moves := List.find?_some found
      simp only [ProjectPathsConfig.moves, below, Option.any_some, Bool.and_eq_true] at moves
      cases strips : relative.stripPrefix (.ofString r.name) with
      | none => simp [strips] at moves
      | some stripped =>
        have there := moves.2
        simp only [strips, Option.any_some, Remapping.moved, Option.getD_some] at there
        simp [strips, there, Remapping.moved, PathBuf.stripPrefixOrSelf, below]

end ProjectPathsConfig

/-! ## When both choose the same -/

namespace Remapping

variable {remappings : List Remapping} {source imported : String} {p : Remapping → Bool}
  {r : Remapping}

/-- No step of the scan goes wrong. A remapping that is passed over although it fits the texts is
followed by one that fits them and is at least as specific. Behind the first one that is taken,
which has to fit the texts, those that fit them are less specific, unless it is listed again. -/
def InOrder (p : Remapping → Bool) (source imported : String) : List Remapping → Prop
  | [] => True
  | r :: rest =>
    if p r then
      r.fitsText source imported = true ∧ ∀ before other after, rest = before ++ other :: after →
        other.fitsText source imported = true → other.specificity < r.specificity ∨
          (other.specificity = r.specificity ∧ r ∈ other :: after)
    else
      (r.fitsText source imported = true → ∃ other ∈ rest,
        other.fitsText source imported = true ∧ r.specificity ≤ other.specificity) ∧
      InOrder p source imported rest

/-- The compiler prefers the first remapping of a list exactly if the others are less specific, up
to another occurrence of the first. -/
theorem selected_cons_eq_self_iff (fits : r.fitsText source imported = true) :
    selected (r :: remappings) source imported = some r ↔
      ∀ before other after, remappings = before ++ other :: after →
        other.fitsText source imported = true → other.specificity < r.specificity ∨
          (other.specificity = r.specificity ∧ r ∈ other :: after) := by
  rw [selected, Library.lastBest_cons, if_pos fits]
  cases found : Library.lastBest (fitsText source imported) specificity remappings with
  | none =>
    rw [Library.lastBest_eq_none] at found
    simp only [Option.elim_none, true_iff]
    rintro before other after rfl fits'
    simp [found other (by simp)] at fits'
  | some best =>
    obtain ⟨fitsBest, before, after, split, least, less⟩ := Library.lastBest_eq_some.mp found
    rw [Option.elim_some]
    constructor
    · intro same before' other after' split' fits'
      have below := Library.rank_le_of_lastBest found (y := other) (by simp [split']) fits'
      split_ifs at same with lower
      · exact .inl (below.trans_lt lower)
      · -- the first remapping is listed again as the best of the rest
        obtain rfl : best = r := Option.some.inj same
        refine below.lt_or_eq.imp_right fun eq => ⟨eq, ?_⟩
        obtain ⟨mid, rfl, rest⟩ | ⟨mid, rfl, rest⟩ :=
          List.append_eq_append_iff.mp (split'.symm.trans split)
        · cases mid with
          | nil => exact List.mem_cons.mpr (.inl (List.cons.inj rest).1.symm)
          | cons x mid => simp [(List.cons.inj rest).2]
        · cases mid with
          | nil => exact List.mem_cons.mpr (.inl (List.cons.inj rest).1)
          | cons x mid =>
            have behind : other ∈ after := by simp [(List.cons.inj rest).2]
            exact absurd eq (less other behind fits').ne
    · intro ordered
      split_ifs with lower
      · rfl
      · obtain higher | ⟨eq, again⟩ := ordered before best after split fitsBest
        · exact absurd higher lower
        · rcases List.mem_cons.mp again with rfl | behind
          · rfl
          · exact absurd eq.symm (less r behind fits).ne

/-- Taking the first remapping follows the rule exactly if no step of the scan goes wrong. -/
theorem find?_eq_selected_iff : remappings.find? p = selected remappings source imported ↔
    InOrder p source imported remappings := by
  induction remappings with
  | nil => simp [InOrder, selected, Library.lastBest]
  | cons r rest ih =>
    rw [InOrder]
    split_ifs with tried
    · rw [List.find?_cons_of_pos tried]
      constructor
      · intro same
        have fits := (Library.holds_of_lastBest same.symm).2
        exact ⟨fits, (selected_cons_eq_self_iff fits).mp same.symm⟩
      · rintro ⟨fits, ordered⟩
        exact ((selected_cons_eq_self_iff fits).mpr ordered).symm
    · rw [List.find?_cons_of_neg tried, ← ih, selected, Library.lastBest_cons]
      split_ifs with fits
      · simp only [fits, true_imp_iff]
        constructor
        · intro same
          cases found : Library.lastBest (fitsText source imported) specificity rest with
          | none =>
            rw [found, Option.elim_none] at same
            exact absurd (List.find?_some same) tried
          | some best =>
            rw [found, Option.elim_some] at same
            split_ifs at same with lower
            · exact absurd (List.find?_some same) tried
            · obtain ⟨mem, fits'⟩ := Library.holds_of_lastBest found
              exact ⟨⟨best, mem, fits', not_lt.mp lower⟩, by rw [same, selected, found]⟩
        · rintro ⟨⟨other, mem, fits', below⟩, same⟩
          rw [same, selected]
          cases found : Library.lastBest (fitsText source imported) specificity rest with
          | none =>
            simp [Library.lastBest_eq_none.mp found other mem] at fits'
          | some best =>
            have above := below.trans (Library.rank_le_of_lastBest found mem fits')
            rw [Option.elim_some, if_neg (not_lt.mpr above)]
      · simp [fits, selected]

/-- Remappings listed from the most specific one down are in order where the resolver's test is that
of the texts. -/
theorem inOrder_of_pairwise (same : ∀ r ∈ remappings, p r = r.fitsText source imported)
    (sorted : remappings.Pairwise fun r other => other.specificity < r.specificity) :
    InOrder p source imported remappings := by
  induction sorted with
  | nil => trivial
  | @cons r rest less _ ih =>
    rw [InOrder, same r (by simp)]
    split_ifs with fits
    · exact ⟨fits, fun _ other _ split _ => .inl (less other (by simp [split]))⟩
    · exact ⟨fun fits' => absurd fits' fits, ih fun other mem => same other (by simp [mem])⟩

end Remapping

namespace ProjectPathsConfig

variable {paths : ProjectPathsConfig} {fs : FileSystem}

/-- The resolver follows the compiler's rule, for an import and for a path below the root, exactly
if no step of its scan goes wrong. -/
theorem remappings_selected_iff (paths : ProjectPathsConfig) (fs : FileSystem) (cwd : PathBuf)
    (source imported : String) (resolvedPath : PathBuf) :
    let resolvedName := (resolvedPath.stripPrefixOrSelf paths.root).toString
    ((paths.resolveLibraryImport fs cwd (.ofString imported) =
        match paths.libraryRemapping cwd (.ofString imported) with
        | some r => some (paths.root.join (r.target fs paths.root (.ofString imported)))
        | none => resolveLibrary fs paths.libraries (.ofString imported)) ∧
      (paths.libraryRemapping cwd (.ofString imported) =
          Remapping.selected paths.remappings source imported ↔
        Remapping.InOrder (Remapping.fits (cwd.stripPrefixOrSelf paths.root) (.ofString imported))
          source imported paths.remappings)) ∧
    (paths.applyRemappingToPath fs cwd resolvedPath =
        match paths.pathRemapping fs cwd resolvedPath with
        | some r => r.moved paths.root (resolvedPath.stripPrefixOrSelf paths.root)
        | none => resolvedPath) ∧
      (paths.pathRemapping fs cwd resolvedPath =
          Remapping.selected paths.remappings source resolvedName ↔
        Remapping.InOrder (paths.moves fs cwd resolvedPath) source resolvedName
          paths.remappings) :=
  ⟨⟨resolveLibraryImport_eq, Remapping.find?_eq_selected_iff⟩, applyRemappingToPath_eq,
    Remapping.find?_eq_selected_iff⟩

/-- A remapping of a single file is not applied to the file: its target would have to be a
directory. -/
example :
    let paths := dapptools (.abs ["p"]) [{ name := "src/A.sol", path := "lib/A.sol" }]
    let fs : FileSystem := .ofTexts [(["p", "lib"], "A.sol", "")]
    paths.applyRemappingToPath fs (.abs ["p", "src"]) (.abs ["p", "src", "A.sol"]) =
      .abs ["p", "src", "A.sol"] := by
  decide +kernel

/-! ### A short name listed before a longer one -/

def shortFirst : List Remapping :=
  [{ name := "@oz/", path := "lib/a/" }, { name := "@oz/contracts/", path := "lib/b/" }]

theorem resolveLibraryImport_not_selected :
    let paths := dapptools (.abs ["p"]) shortFirst
    let fs : FileSystem := .ofTexts [(["p", "lib", "b"], "X.sol", "")]
    Remapping.selected shortFirst "src/A.sol" "@oz/contracts/X.sol" =
        some { name := "@oz/contracts/", path := "lib/b/" } ∧
      paths.libraryRemapping (.abs ["p", "src"]) (.ofString "@oz/contracts/X.sol") =
        some { name := "@oz/", path := "lib/a/" } ∧
      paths.resolveLibraryImport fs (.abs ["p", "src"]) (.ofString "@oz/contracts/X.sol") =
        some (.abs ["p", "lib", "a", "contracts", "X.sol"]) := by
  decide +kernel

end ProjectPathsConfig

end FoundryCore
