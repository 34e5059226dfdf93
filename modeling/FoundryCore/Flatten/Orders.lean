import FoundryCore.Flatten.Output
import FoundryCore.Library.Unordered
import Mathlib.Data.List.Rotate

/-!
# The order of hash maps in the flattener

Updates are kept in order whatever order they are found in, definitions of one name are sorted
before they are numbered, and version pragmas are sorted before they are written. Only of the
experimental pragmas the first one that is found is kept.
-/

open Std

namespace FoundryCore.Flatten

open Ast Library

/-- A text that begins and ends with characters other than whitespace. -/
def Solid (text : String) : Prop :=
  (∃ c rest, text.toList = c :: rest ∧ isWhitespace c = false) ∧
    ∃ rest c, text.toList = rest ++ [c] ∧ isWhitespace c = false

/-- What the compiler promises of the syntax trees, as far as the order of hash maps goes. -/
structure Placed (flattener : Flattener) : Prop where
  ids : (flattener.definitions.map (·.2.id)).Nodup
  /-- Names of definitions stand at different places. -/
  places : ∀ d ∈ flattener.topLevelDefinitions, ∀ d' ∈ flattener.topLevelDefinitions,
    ∀ loc loc', flattener.locate d.1 d.2 = some loc → flattener.locate d'.1 d'.2 = some loc' →
      loc.path = loc'.path → loc.start = loc'.start → d = d'
  /-- Pragma directives are read without whitespace around them. -/
  pragmas : ∀ loc ∈ flattener.collectPragmas, ∀ text, flattener.readLocation loc = some text →
    Solid text

/-- The pragmas about experimental features read the same, once newlines are shortened. -/
def OneExperimental (flattener : Flattener) : Prop :=
  ∀ loc ∈ flattener.collectPragmas, ∀ loc' ∈ flattener.collectPragmas, ∀ text text',
    flattener.readLocation loc = some text → flattener.readLocation loc' = some text' →
      isExperimental text = true → isExperimental text' = true →
        shorten '\n' text.toList = shorten '\n' text'.toList

/-! ## Updates of two runs -/

/-- Updates without repetitions, and the same ones. -/
structure SameUpdates (updates updates' : Updates) : Prop where
  nodup : updates.Nodup
  nodup' : updates'.Nodup
  members : SameMembers updates updates'

section Same

variable {updates updates' new new' : Updates} {order order' : IterationOrder}

theorem insertAll_nodup (nodup : updates.Nodup) : (insertAll updates new).Nodup := by
  induction new generalizing updates with
  | nil => exact nodup
  | cons update new ih => exact ih (nodup.insert)

theorem mem_insertAll {update : ItemLocation × String} :
    update ∈ insertAll updates new ↔ update ∈ updates ∨ update ∈ new := by
  induction new generalizing updates with
  | nil => simp [insertAll]
  | cons x new ih =>
    change update ∈ insertAll (updates.insert x) new ↔ _
    rw [ih, List.mem_insert_iff, List.mem_cons]
    tauto

theorem SameUpdates.insertAll (same : SameUpdates updates updates')
    (members : SameMembers new new') :
    SameUpdates (insertAll updates new) (insertAll updates' new') where
  nodup := insertAll_nodup same.nodup
  nodup' := insertAll_nodup same.nodup'
  members update := by rw [mem_insertAll, mem_insertAll, same.members update, members update]

theorem SameUpdates.perm (same : SameUpdates updates updates') : updates.Perm updates' :=
  (List.perm_ext_iff_of_nodup same.nodup same.nodup').mpr same.members

theorem mem_entries {κ β : Type} [DecidableEq κ] {map : List (κ × β)} {place : Nat}
    {entry : κ × β} : entry ∈ order.entries place map ↔ entry ∈ map := by
  simp only [IterationOrder.entries, List.mem_flatMap, (order.perm ..).mem_iff, List.mem_dedup,
    List.mem_map, List.mem_filter, decide_eq_true_eq]
  constructor
  · rintro ⟨_, -, mem, -⟩
    exact mem
  · exact fun mem => ⟨entry.1, ⟨entry, mem, rfl⟩, mem, rfl⟩

end Same

/-! ## Renaming -/

section Rename

variable {flattener : Flattener} {order order' : IterationOrder} {references : List Reference}
  {state : Names × Updates} {ids : List (Id × ItemLocation)}

/-- The definitions of a name, in the order of their numbers. -/
def Flattener.numberedIds (flattener : Flattener) (order : IterationOrder)
    (ids : List (Id × ItemLocation)) : Option (List (Id × ItemLocation)) :=
  if 1 < ids.length then flattener.sortByPosition (order.arrange 1 ids)
  else some (order.arrange 1 ids)

/-- The names that the definitions of a name get. -/
def Flattener.namesOf (flattener : Flattener) (order : IterationOrder) (name : String)
    (ids : List (Id × ItemLocation)) : Option (List ((Id × ItemLocation) × String)) :=
  (flattener.numberedIds order ids).map fun sorted => sorted.zipIdx.map fun (id, i) =>
    (id, if 1 < ids.length then numbered name i else name)

theorem renameGroup_eq_map (name : String) :
    flattener.renameGroup order references state name ids =
      (flattener.namesOf order name ids).map
        fun assigned => assigned.foldl (renameDefinition order references) state := by
  rw [Flattener.renameGroup, Flattener.namesOf, Flattener.numberedIds]
  have length : (order.arrange 1 ids).length = ids.length := (order.perm ..).length_eq
  by_cases several : 1 < ids.length
  · simp only [several, if_true]
    cases flattener.sortByPosition (order.arrange 1 ids) <;> rfl
  · simp only [several, if_false]
    rfl

/-- Definitions at different places are numbered alike in all runs. -/
theorem numberedIds_eq (ties : ∀ a ∈ ids, ∀ b ∈ ids, a.2.path = b.2.path →
    a.2.start = b.2.start → a = b) :
    flattener.numberedIds order ids = flattener.numberedIds order' ids := by
  have perm : (order.arrange 1 ids).Perm (order'.arrange 1 ids) :=
    (order.perm ..).trans (order'.perm ..).symm
  rw [Flattener.numberedIds, Flattener.numberedIds]
  split_ifs with several
  · rw [Flattener.sortByPosition, Flattener.sortByPosition]
    have listed : (∀ d ∈ order.arrange 1 ids, d.2.path ∈ flattener.orderedSources) ↔
        ∀ d ∈ order'.arrange 1 ids, d.2.path ∈ flattener.orderedSources :=
      forall_congr' fun d => by rw [perm.mem_iff]
    by_cases all : ∀ d ∈ order.arrange 1 ids, d.2.path ∈ flattener.orderedSources
    · rw [if_pos all, if_pos (listed.mp all)]
      have : TransCmp flattener.comparePositions :=
        inferInstanceAs (TransCmp (compareLex (compareOn _) (compareOn _)))
      refine congrArg some (sortBy_eq_of_perm_of_mem perm fun a mem b mem' same => ?_)
      simp only [Flattener.comparePositions, compareLex, compareOn, Ordering.then_eq_eq,
        Nat.compare_eq_eq] at same
      have path := (List.idxOf_inj (all a mem)).mp same.1
      exact ties a ((order.perm ..).mem_iff.mp mem) b ((order.perm ..).mem_iff.mp mem') path
        (BitVec.eq_of_toNat_eq same.2)
    · rw [if_neg all, if_neg (mt listed.mpr all)]
  · rw [eq_of_perm_of_length_le_one (order.perm 1 ids) (Nat.le_of_not_lt several),
      eq_of_perm_of_length_le_one (order'.perm 1 ids) (Nat.le_of_not_lt several)]

theorem numberedIds_perm {sorted : List (Id × ItemLocation)}
    (eq : flattener.numberedIds order ids = some sorted) : sorted.Perm ids := by
  rw [Flattener.numberedIds] at eq
  split_ifs at eq with several
  · rw [Flattener.sortByPosition] at eq
    split_ifs at eq with listed
    obtain rfl := Option.some.inj eq
    exact sortBy_perm.trans (order.perm ..)
  · obtain rfl := Option.some.inj eq
    exact order.perm ..

/-- Every definition of a name gets one name. -/
theorem namesOf_spec {name : String} {named : List ((Id × ItemLocation) × String)}
    (nodup : ids.Nodup) (eq : flattener.namesOf order name ids = some named) :
    (∀ x ∈ named, x.1 ∈ ids) ∧ ∀ x ∈ named, ∀ y ∈ named, x.1 = y.1 → x.2 = y.2 := by
  obtain ⟨sorted, numbering, rfl⟩ := Option.map_eq_some_iff.mp eq
  have perm := numberedIds_perm numbering
  have getEq : ∀ x ∈ sorted.zipIdx.map (fun (id, i) =>
      (id, if 1 < ids.length then numbered name i else name)), ∃ i, sorted[i]? = some x.1 ∧
        x.2 = if 1 < ids.length then numbered name i else name := by
    intro x mem
    obtain ⟨⟨id, i⟩, listed, rfl⟩ := List.mem_map.mp mem
    exact ⟨i, List.mk_mem_zipIdx_iff_getElem?.mp listed, rfl⟩
  refine ⟨fun x mem => ?_, fun x mem y mem' same => ?_⟩
  · obtain ⟨i, here, -⟩ := getEq x mem
    exact perm.mem_iff.mp (List.mem_of_getElem? here)
  · obtain ⟨i, here, eq⟩ := getEq x mem
    obtain ⟨j, here', eq'⟩ := getEq y mem'
    rw [← same, ← here] at here'
    obtain ⟨small, -⟩ := List.getElem?_eq_some_iff.mp here
    rw [eq, eq', (List.getElem?_inj small (perm.nodup_iff.mpr nodup)).mp here'.symm]

theorem nodup_foldl_renameDefinition {assigned : List ((Id × ItemLocation) × String)}
    (nodup : state.2.Nodup) :
    (assigned.foldl (renameDefinition order references) state).2.Nodup := by
  induction assigned generalizing state with
  | nil => exact nodup
  | cons definition assigned ih =>
    refine ih ?_
    have inserted : ∀ (l : List Reference) (updates : Updates), updates.Nodup →
        (l.foldl (fun updates reference => updates.insert (reference.2, definition.2))
          updates).Nodup := by
      intro l
      induction l with
      | nil => exact fun _ nodup => nodup
      | cons reference l ih => exact fun updates nodup => ih _ nodup.insert
    exact inserted _ _ nodup.insert

/-- Where every definition gets one name, that name is returned. -/
theorem name_foldl_renameDefinition {assigned : List ((Id × ItemLocation) × String)}
    (one : ∀ x ∈ assigned, ∀ y ∈ assigned, x.1.1 = y.1.1 → x.2 = y.2) {updates : Updates}
    {id : Id} {name : String} :
    (assigned.foldl (renameDefinition order references) (fun _ => none, updates)).1 id =
      some name ↔ ∃ x ∈ assigned, x.1.1 = id ∧ x.2 = name := by
  have given : ∀ name, (assigned.foldl (renameDefinition order references)
      (fun _ => none, updates)).1 id = some name → ∃ x ∈ assigned, x.1.1 = id ∧ x.2 = name := by
    intro name named
    rcases exists_of_foldl_renameDefinition named with first | later
    · cases first
    · exact later
  refine ⟨given name, fun ⟨x, mem, same, eq⟩ => ?_⟩
  obtain ⟨name', named⟩ := Option.isSome_iff_exists.mp <|
    show ((assigned.foldl (renameDefinition order references)
        (fun _ => none, updates)).1 id).isSome = true from
      isSome_foldl_renameDefinition (.inr ⟨x, mem, same⟩)
  obtain ⟨y, mem', same', rfl⟩ := given name' named
  rw [named, ← one x mem y mem' (same.trans same'.symm), eq]

/-- The definitions that are collected, and where they are. -/
theorem collectTopLevelDefinitions_spec {definitions : List (String × Id × ItemLocation)}
    (eq : flattener.collectTopLevelDefinitions = some definitions) : definitions.Nodup ∧
      ∀ x ∈ definitions, ∃ d ∈ flattener.topLevelDefinitions, d.2.name = x.1 ∧ d.2.id = x.2.1 ∧
        flattener.locate d.1 d.2 = some x.2.2 := by
  obtain ⟨all, each, eq⟩ := Option.bind_eq_some_iff.mp eq
  obtain rfl := Option.some.inj eq
  refine ⟨List.nodup_dedup _, fun x mem => ?_⟩
  rw [mapM_eq_ite] at each
  split_ifs at each
  obtain rfl := Option.some.inj each
  obtain ⟨d, collected, eq⟩ := List.mem_filterMap.mp (List.mem_dedup.mp mem)
  obtain ⟨loc, located, eq⟩ := Option.bind_eq_some_iff.mp eq
  obtain rfl := Option.some.inj eq
  exact ⟨d, collected, rfl, rfl, located⟩

/-- The collected definitions of a name. -/
def groupOf (definitions : List (String × Id × ItemLocation)) (name : String) :
    List (Id × ItemLocation) := (definitions.filter (·.1 = name)).map Prod.snd

theorem mem_groupOf {definitions : List (String × Id × ItemLocation)} {name : String}
    {x : Id × ItemLocation} : x ∈ groupOf definitions name ↔ (name, x) ∈ definitions := by
  simp only [groupOf, List.mem_map, List.mem_filter, decide_eq_true_eq]
  constructor
  · rintro ⟨_, ⟨mem, rfl⟩, rfl⟩
    exact mem
  · exact fun mem => ⟨_, ⟨mem, rfl⟩, rfl⟩

/-- All names that a run gives. -/
def Flattener.givenNames (flattener : Flattener) (order : IterationOrder)
    (definitions : List (String × Id × ItemLocation)) :
    Option (List ((Id × ItemLocation) × String)) :=
  ((order.arrange 0 (definitions.map Prod.fst).dedup).mapM fun name =>
    flattener.namesOf order name (groupOf definitions name)).map List.flatten

theorem renameTopLevelDefinitions_eq_bind (order : IterationOrder) (updates : Updates) :
    flattener.renameTopLevelDefinitions order updates =
      flattener.collectTopLevelDefinitions.bind fun definitions =>
        (flattener.givenNames order definitions).map fun given =>
          given.foldl (renameDefinition order flattener.collectReferences)
            (fun _ => none, updates) := by
  rw [Flattener.renameTopLevelDefinitions]
  refine congrArg _ (funext fun definitions => ?_)
  dsimp only
  simp only [renameGroup_eq_map, foldlM_map_foldl]
  rw [Flattener.givenNames, Option.map_map]
  rfl

variable (placed : Placed flattener) {definitions : List (String × Id × ItemLocation)}
  (collected : flattener.collectTopLevelDefinitions = some definitions)
include placed collected

/-- A definition is known by its identifier. -/
theorem collected_inj {x y : String × Id × ItemLocation} (mem : x ∈ definitions)
    (mem' : y ∈ definitions) (same : x.2.1 = y.2.1) : x = y := by
  obtain ⟨-, spec⟩ := collectTopLevelDefinitions_spec collected
  obtain ⟨d, top, name, id, located⟩ := spec x mem
  obtain ⟨d', top', name', id', located'⟩ := spec y mem'
  obtain rfl : d = d' := List.inj_on_of_nodup_map placed.ids (mem_definitions top)
    (mem_definitions top') (id.trans (same.trans id'.symm))
  exact Prod.ext (name.symm.trans name')
    (Prod.ext same (Option.some.inj (located.symm.trans located')))

theorem groupOf_nodup (name : String) : (groupOf definitions name).Nodup := by
  obtain ⟨nodup, -⟩ := collectTopLevelDefinitions_spec collected
  refine (nodup.filter _).map_on fun x mem y mem' same => ?_
  exact collected_inj placed collected (List.mem_of_mem_filter mem) (List.mem_of_mem_filter mem')
    (congrArg Prod.fst same)

/-- A run gives every definition one name. -/
theorem givenNames_one {given : List ((Id × ItemLocation) × String)}
    (eq : flattener.givenNames order definitions = some given) :
    ∀ x ∈ given, ∀ y ∈ given, x.1.1 = y.1.1 → x.2 = y.2 := by
  obtain ⟨each, run, rfl⟩ := Option.map_eq_some_iff.mp eq
  rw [mapM_eq_ite] at run
  split_ifs at run
  obtain rfl := Option.some.inj run
  intro x mem y mem' same
  obtain ⟨named, listed, inside⟩ := List.mem_flatten.mp mem
  obtain ⟨name, -, namedEq⟩ := List.mem_filterMap.mp listed
  obtain ⟨named', listed', inside'⟩ := List.mem_flatten.mp mem'
  obtain ⟨name', -, namedEq'⟩ := List.mem_filterMap.mp listed'
  obtain ⟨members, one⟩ := namesOf_spec (groupOf_nodup placed collected name) namedEq
  obtain ⟨members', -⟩ := namesOf_spec (groupOf_nodup placed collected name') namedEq'
  have equal := collected_inj placed collected (mem_groupOf.mp (members x inside))
    (mem_groupOf.mp (members' y inside')) same
  obtain ⟨rfl, same⟩ := Prod.mk.inj equal
  obtain rfl := Option.some.inj (namedEq.symm.trans namedEq')
  exact one x inside y inside' same

/-- All runs give the same names. -/
theorem rel_givenNames (order order' : IterationOrder) :
    Option.Rel SameMembers (flattener.givenNames order definitions)
      (flattener.givenNames order' definitions) := by
  obtain ⟨-, spec⟩ := collectTopLevelDefinitions_spec collected
  refine rel_mapM_flatten
    (sameMembers_of_perm ((order.perm ..).trans (order'.perm ..).symm)) fun name _ => ?_
  have same : flattener.namesOf order name (groupOf definitions name) =
      flattener.namesOf order' name (groupOf definitions name) := by
    rw [Flattener.namesOf, Flattener.namesOf, numberedIds_eq]
    intro a mem b mem' path start
    obtain ⟨d, top, -, id, located⟩ := spec _ (mem_groupOf.mp mem)
    obtain ⟨d', top', -, id', located'⟩ := spec _ (mem_groupOf.mp mem')
    obtain rfl := placed.places d top d' top' _ _ located located' path start
    exact Prod.ext (id.symm.trans id') (Option.some.inj (located.symm.trans located'))
  rw [same]
  cases flattener.namesOf order' name (groupOf definitions name) with
  | none => exact .none
  | some named => exact .some fun _ => .rfl

omit collected in
/-- All runs rename alike. -/
theorem rel_renameTopLevelDefinitions {updates updates' : Updates}
    (same : SameUpdates updates updates') :
    Option.Rel (fun r r' => r.1 = r'.1 ∧ SameUpdates r.2 r'.2)
      (flattener.renameTopLevelDefinitions order updates)
      (flattener.renameTopLevelDefinitions order' updates') := by
  rw [renameTopLevelDefinitions_eq_bind, renameTopLevelDefinitions_eq_bind]
  cases collected : flattener.collectTopLevelDefinitions with
  | none => exact .none
  | some definitions =>
    have rel := rel_givenNames placed collected order order'
    rw [Option.bind_some, Option.bind_some]
    cases eq : flattener.givenNames order definitions with
    | none =>
      have noneEq : flattener.givenNames order' definitions = none := by
        simpa [eq] using isSome_eq_of_rel rel
      rw [noneEq]
      exact .none
    | some given =>
      obtain ⟨given', eq', members⟩ := exists_of_rel' (eq ▸ rel)
      rw [eq']
      refine .some ⟨funext fun id => Option.ext fun name => ?_,
        nodup_foldl_renameDefinition same.nodup, nodup_foldl_renameDefinition same.nodup',
        fun update => ?_⟩
      · rw [name_foldl_renameDefinition (givenNames_one placed collected eq),
          name_foldl_renameDefinition (givenNames_one placed collected eq')]
        exact exists_congr fun x => and_congr_left fun _ => members x
      · rw [mem_foldl_renameDefinition, mem_foldl_renameDefinition]
        exact or_congr (same.members update)
          (exists_congr fun x => and_congr_left fun _ => members x)

end Rename

/-! ## The other passes -/

section Passes

variable {flattener : Flattener} {order order' : IterationOrder} {names : Names}

theorem sameMembers_arrange {α : Type} {place : Nat} {l : List α} :
    SameMembers (order.arrange place l) (order'.arrange place l) :=
  sameMembers_of_perm ((order.perm ..).trans (order'.perm ..).symm)

theorem sameMembers_entries {κ β : Type} [DecidableEq κ] {place : Nat} {map : List (κ × β)} :
    SameMembers (order.entries place map) (order'.entries place map) := fun entry => by
  rw [mem_entries, mem_entries]

theorem sameMembers_removed {locs locs' : List ItemLocation} (same : SameMembers locs locs') :
    SameMembers (removed locs) (removed locs') := fun update => by
  simp only [removed, List.mem_map]
  exact exists_congr fun loc => and_congr_left fun _ => same loc

theorem rel_refl {α : Type} {x : Option (List α)} : Option.Rel SameMembers x x := by
  cases x with
  | none => exact .none
  | some l => exact .some fun _ => .rfl

theorem rel_renameContractLevelTypesReferences :
    Option.Rel SameMembers (flattener.renameContractLevelTypesReferences order names)
      (flattener.renameContractLevelTypesReferences order' names) := by
  have run : ∀ order, flattener.renameContractLevelTypesReferences order names =
      (flattener.asts.mapM fun ((path, ast) : PathBuf × TypedAst) =>
        (ast.nodes.mapM fun (node : FileNode) =>
          ((order.entries 3 (gathered flattener.target ⟨[node.part]⟩)).mapM
            (flattener.contractLevelReference names path)).map List.flatten).map
          List.flatten).map List.flatten := by
    intro order
    simp only [Flattener.renameContractLevelTypesReferences, Option.map_eq_bind]
    rfl
  rw [run, run]
  exact rel_mapM_flatten (fun _ => .rfl) fun _ _ => rel_mapM_flatten (fun _ => .rfl) fun _ _ =>
    rel_mapM_flatten sameMembers_entries fun _ _ => rel_refl

theorem sameMembers_removeQualifiedImports :
    SameMembers (flattener.removeQualifiedImports order)
      (flattener.removeQualifiedImports order') := fun update => by
  simp only [Flattener.removeQualifiedImports, List.mem_filterMap, mem_entries]

theorem combineVersionPragmas_eq {semver : Semver} {pragmas pragmas' : List String}
    (perm : pragmas.Perm pragmas') :
    combineVersionPragmas semver pragmas = combineVersionPragmas semver pragmas' := by
  rw [combineVersionPragmas, combineVersionPragmas, mapM_eq_ite, mapM_eq_ite]
  have all : (∀ pragma ∈ pragmas, (parseVersionPragma semver pragma).isSome = true) ↔
      ∀ pragma ∈ pragmas', (parseVersionPragma semver pragma).isSome = true :=
    forall_congr' fun pragma => by rw [perm.mem_iff]
  by_cases succeeds : ∀ pragma ∈ pragmas, (parseVersionPragma semver pragma).isSome = true
  · have sorted : sortBy compare ((pragmas.filterMap (parseVersionPragma semver)).flatten.map
          semver.toString).dedup =
        sortBy compare ((pragmas'.filterMap (parseVersionPragma semver)).flatten.map
          semver.toString).dedup :=
      sortBy_eq_of_perm (((perm.filterMap _).flatten.map _).dedup)
    rw [if_pos succeeds, if_pos (all.mp succeeds)]
    simp only [Option.bind_eq_bind, Option.bind_some, sorted]
  · rw [if_neg succeeds, if_neg (mt all.mpr succeeds)]

/-- The experimental pragma that is kept. -/
def Flattener.experimental (flattener : Flattener) (order : IterationOrder) : Option String :=
  ((order.arrange 8 flattener.collectPragmas).filterMap flattener.readLocation).find?
    isExperimental

/-- Runs differ in the experimental pragma only. -/
theorem rel_processPragmas {semver : Semver} :
    Option.Rel (fun r r' => SameMembers r.2 r'.2 ∧ ∃ version : Option String,
        r.1 = version.toList ++ (flattener.experimental order).toList ∧
          r'.1 = version.toList ++ (flattener.experimental order').toList)
      (flattener.processPragmas semver order) (flattener.processPragmas semver order') := by
  have perm : (order.arrange 8 flattener.collectPragmas).Perm
      (order'.arrange 8 flattener.collectPragmas) := (order.perm ..).trans (order'.perm ..).symm
  have all : (∀ loc ∈ order.arrange 8 flattener.collectPragmas,
        (flattener.readLocation loc).isSome = true) ↔
      ∀ loc ∈ order'.arrange 8 flattener.collectPragmas,
        (flattener.readLocation loc).isSome = true :=
    forall_congr' fun loc => by rw [perm.mem_iff]
  simp only [Flattener.processPragmas, mapM_eq_ite]
  by_cases succeeds : ∀ loc ∈ order.arrange 8 flattener.collectPragmas,
      (flattener.readLocation loc).isSome = true
  · have versions : ∀ p, combineVersionPragmas semver
          (((order.arrange 8 flattener.collectPragmas).filterMap flattener.readLocation).filter p) =
        combineVersionPragmas semver
          (((order'.arrange 8 flattener.collectPragmas).filterMap
            flattener.readLocation).filter p) := fun p =>
      combineVersionPragmas_eq ((perm.filterMap _).filter p)
    simp only [if_pos succeeds, if_pos (all.mp succeeds), Option.bind_eq_bind, Option.bind_some,
      versions]
    cases combineVersionPragmas semver _ with
    | none => exact .none
    | some version => exact .some ⟨sameMembers_removed sameMembers_arrange, version, rfl, rfl⟩
  · simp only [if_neg succeeds, if_neg (mt all.mpr succeeds)]
    exact .none

/-- A file has one license. -/
theorem length_licenses_le (path : PathBuf) :
    (flattener.collectLicenses.filter (·.path = path)).length ≤ 1 := by
  have keys : (flattener.collectLicenses.map (·.path)).Sublist
      (flattener.sources.toList.map Prod.fst) := by
    rw [Flattener.collectLicenses]
    induction flattener.sources.toList with
    | nil => exact .slnil
    | cons entry entries ih =>
      obtain ⟨file, source⟩ := entry
      rw [List.filterMap_cons, List.map_cons]
      cases eq : licenseLine source.content with
      | none =>
        simp only [eq, Option.map_none]
        exact ih.cons _
      | some line =>
        simp only [eq, Option.map_some, List.map_cons]
        exact ih.cons_cons _
  rw [ExtTreeMap.map_fst_toList_eq_keys] at keys
  have once := List.nodup_iff_count_le_one.mp (keys.nodup ExtTreeMap.nodup_keys) path
  rw [List.count_eq_countP, List.countP_map, List.countP_eq_length_filter] at once
  exact once

/-- All runs find the same licenses. -/
theorem rel_processLicenses :
    Option.Rel (fun r r' => r.1 = r'.1 ∧ SameMembers r.2 r'.2)
      (flattener.processLicenses order) (flattener.processLicenses order') := by
  have one : ∀ order : IterationOrder,
      (order.arrange 10 flattener.collectLicenses).filter (·.path = flattener.target) =
        flattener.collectLicenses.filter (·.path = flattener.target) := by
    intro order
    exact eq_of_perm_of_length_le_one ((order.perm 10 flattener.collectLicenses).filter _)
      (length_licenses_le flattener.target)
  simp only [Flattener.processLicenses, one]
  cases List.mapM (m := Option) _ _ with
  | none => exact .none
  | some licenses => exact .some ⟨rfl, sameMembers_removed sameMembers_arrange⟩

end Passes

/-! ## The output -/

section Output

variable {flattener : Flattener} {order order' : IterationOrder} {semver : Semver}

theorem updatesOf_eq {updates updates' : Updates} (perm : updates.Perm updates')
    (path : PathBuf) : updatesOf updates path = updatesOf updates' path := by
  have : TransCmp compareUpdates :=
    inferInstanceAs (TransCmp (compareLex (compareOn _) (compareLex (compareOn _) (compareOn _))))
  refine sortBy_eq_of_perm_of_mem ((perm.filter _).map _) fun a _ b _ same => ?_
  simp only [compareUpdates, compareLex, compareOn, Ordering.then_eq_eq, Nat.compare_eq_eq] at same
  exact Prod.ext (Prod.ext same.1 same.2.1) (LawfulEqOrd.eq_of_compare same.2.2)

theorem applyUpdates_eq {updates updates' : Updates} (same : SameUpdates updates updates')
    (sources : Sources) : applyUpdates sources updates = applyUpdates sources updates' := by
  simp only [applyUpdates, updatedContent, updatesOf_eq same.perm]

/-- Runs differ in the experimental pragma only. -/
theorem rel_flattenResult (placed : Placed flattener) (semver : Semver)
    (order order' : IterationOrder) :
    Option.Rel (fun r r' => r.sources = r'.sources ∧ r.license = r'.license ∧
        ∃ version : Option String,
          r.pragmas = version.toList ++ (flattener.experimental order).toList ∧
            r'.pragmas = version.toList ++ (flattener.experimental order').toList)
      (flattener.flattenResult semver order) (flattener.flattenResult semver order') := by
  have start : SameUpdates (insertAll [] flattener.appendFilenames)
      (insertAll [] flattener.appendFilenames) :=
    ⟨insertAll_nodup .nil, insertAll_nodup .nil, fun _ => .rfl⟩
  refine rel_bind (rel_renameTopLevelDefinitions placed start) ?_
  rintro ⟨names, updates⟩ ⟨_, updates'⟩ ⟨rfl, same⟩
  refine rel_bind rel_renameContractLevelTypesReferences fun new new' members => ?_
  have qualified : SameMembers (flattener.removeQualifiedImports order)
      (flattener.removeQualifiedImports order') := sameMembers_removeQualifiedImports
  have same := (same.insertAll members).insertAll qualified
  refine rel_bind rel_refl fun docs docs' members => ?_
  have imports : SameMembers (flattener.removeImports order) (flattener.removeImports order') :=
    sameMembers_removed sameMembers_arrange
  have same := (same.insertAll members).insertAll imports
  refine rel_bind rel_processPragmas ?_
  rintro ⟨pragmas, new⟩ ⟨pragmas', new'⟩ ⟨members, version, eq, eq'⟩
  have same := same.insertAll members
  refine rel_bind rel_processLicenses ?_
  rintro ⟨license, new⟩ ⟨_, new'⟩ ⟨rfl, members⟩
  have same := same.insertAll members
  dsimp only
  rw [applyUpdates_eq same]
  cases applyUpdates flattener.sources _ with
  | none => exact .none
  | some sources =>
    simp only [Option.bind_eq_bind, Option.bind_some]
    cases takeContents sources flattener.orderedSources with
    | none => exact .none
    | some contents => exact .some ⟨rfl, rfl, version, eq, eq'⟩

/-- What is written with an experimental pragma. -/
theorem text_eq {result : FlatteningResult} {version : Option String} {pragma : String}
    (pragmas : result.pragmas = version.toList ++ [pragma]) :
    result.text.toList = (result.head ++ String.join (version.toList.map (· ++ "\n"))).toList ++
      pragma.toList ++ ('\n' :: (String.join (result.sources.map ("\n\n" ++ ·))).toList) := by
  rw [FlatteningResult.text, pragmas]
  simp

theorem isWhitespace_newline {c : Char} (other : isWhitespace c = false) : c ≠ '\n' := by
  rintro rfl
  exact absurd other (by decide)

/-- The output shows the experimental pragma, with its newlines shortened. -/
theorem getFlattenedTarget_inj {result result' : FlatteningResult} {version : Option String}
    {pragma pragma' : String} (sources : result.sources = result'.sources)
    (license : result.license = result'.license)
    (pragmas : result.pragmas = version.toList ++ [pragma])
    (pragmas' : result'.pragmas = version.toList ++ [pragma'])
    (solid : Solid pragma) (solid' : Solid pragma') :
    result.getFlattenedTarget = result'.getFlattenedTarget ↔
      shorten '\n' pragma.toList = shorten '\n' pragma'.toList := by
  have head : result.head = result'.head := by rw [FlatteningResult.head, license]; rfl
  have trimmed : ∀ {pragma : String}, Solid pragma → ∀ before after : List Char,
      Library.trim isWhitespace (shorten '\n' (before ++ pragma.toList ++ after)) =
        (shorten '\n' before).dropWhile isWhitespace ++ shorten '\n' pragma.toList ++
          (shorten '\n' after).rdropWhile isWhitespace := by
    rintro pragma ⟨⟨c, rest, begins, other⟩, rest', c', ends, other'⟩ before after
    have first := isWhitespace_newline other
    have last := isWhitespace_newline other'
    rw [shorten_append_append ⟨c, rest, begins, first⟩ ⟨rest', c', ends, last⟩]
    refine trim_append_append ⟨c, shorten '\n' rest, ?_, other⟩ ⟨shorten '\n' rest', c', ?_, other'⟩
    · rw [begins, shorten_cons first]
    · rw [ends, shorten_append_cons last]
      rfl
  rw [FlatteningResult.getFlattenedTarget, FlatteningResult.getFlattenedTarget, trim, trim,
    String.toList_ofList, String.toList_ofList, text_eq pragmas, text_eq pragmas', trimmed solid,
    trimmed solid', head, sources]
  simp [String.ofList_inj]

/-- The experimental pragma that is kept is one of those that are read. -/
theorem exists_of_experimental {text : String} (kept : flattener.experimental order = some text) :
    (∃ loc ∈ flattener.collectPragmas, flattener.readLocation loc = some text) ∧
      isExperimental text = true := by
  have mem := List.mem_of_find?_eq_some kept
  obtain ⟨loc, listed, reads⟩ := List.mem_filterMap.mp mem
  exact ⟨⟨loc, (order.perm ..).mem_iff.mp listed, reads⟩, List.find?_some kept⟩

/-- An order in which the element with a number comes first. -/
def rotated (n : Nat) : IterationOrder where
  arrange _ l := l.rotate n
  perm _ l := List.rotate_perm l n

/-- Each experimental pragma is kept by some run. -/
theorem exists_experimental_eq {loc : ItemLocation} {text : String}
    (mem : loc ∈ flattener.collectPragmas) (reads : flattener.readLocation loc = some text)
    (experimental : isExperimental text = true) :
    ∃ order, flattener.experimental order = some text := by
  obtain ⟨n, small, getEq⟩ := List.mem_iff_getElem.mp mem
  have first : (flattener.collectPragmas.rotate n).head? = some loc := by
    rw [List.head?_rotate small, List.getElem?_eq_getElem small, getEq]
  obtain ⟨rest, eq⟩ := List.head?_eq_some_iff.mp first
  refine ⟨rotated n, ?_⟩
  rw [Flattener.experimental]
  change ((flattener.collectPragmas.rotate n).filterMap _).find? _ = _
  rw [eq, List.filterMap_cons_some reads, List.find?_cons_of_pos experimental]

theorem experimental_eq_none (noneEq : flattener.experimental order = none) {loc : ItemLocation}
    {text : String} (mem : loc ∈ flattener.collectPragmas)
    (reads : flattener.readLocation loc = some text) : isExperimental text = false := by
  have out := List.find?_eq_none.mp noneEq text
    (List.mem_filterMap.mpr ⟨loc, (order.perm ..).mem_iff.mpr mem, reads⟩)
  simpa using out

/-- If the experimental pragmas read the same, the output does not depend on the order. -/
theorem getFlattenedTarget_eq (placed : Placed flattener) (one : OneExperimental flattener)
    {result result' : FlatteningResult} {version : Option String}
    (sources : result.sources = result'.sources) (license : result.license = result'.license)
    (pragmas : result.pragmas = version.toList ++ (flattener.experimental order).toList)
    (pragmas' : result'.pragmas = version.toList ++ (flattener.experimental order').toList) :
    result.getFlattenedTarget = result'.getFlattenedTarget := by
  cases kept : flattener.experimental order with
  | none =>
    have kept' : flattener.experimental order' = none := by
      by_contra someEq
      obtain ⟨text, kept'⟩ := Option.ne_none_iff_exists'.mp someEq
      obtain ⟨⟨loc, mem, reads⟩, experimental⟩ := exists_of_experimental kept'
      rw [experimental_eq_none kept mem reads] at experimental
      cases experimental
    cases result
    cases result'
    simp_all
  | some text =>
    obtain ⟨⟨loc, mem, reads⟩, experimental⟩ := exists_of_experimental kept
    obtain ⟨text', kept'⟩ : ∃ text', flattener.experimental order' = some text' := by
      by_contra noneEq
      have kept' := Option.eq_none_iff_forall_ne_some.mpr (not_exists.mp noneEq)
      rw [experimental_eq_none kept' mem reads] at experimental
      cases experimental
    obtain ⟨⟨loc', mem', reads'⟩, experimental'⟩ := exists_of_experimental kept'
    rw [kept] at pragmas
    rw [kept'] at pragmas'
    exact (getFlattenedTarget_inj sources license pragmas pragmas'
      (placed.pragmas loc mem text reads) (placed.pragmas loc' mem' text' reads')).mpr
        (one loc mem loc' mem' text text' reads reads' experimental experimental')

theorem flatten_eq (placed : Placed flattener) (one : OneExperimental flattener)
    (order order' : IterationOrder) :
    flattener.flatten semver order = flattener.flatten semver order' := by
  rw [Flattener.flatten, Flattener.flatten]
  have rel := rel_flattenResult placed semver order order'
  generalize flattener.flattenResult semver order = x at rel
  generalize flattener.flattenResult semver order' = y at rel
  cases rel with
  | none => rfl
  | some holds =>
    obtain ⟨sources, license, version, pragmas, pragmas'⟩ := holds
    rw [Option.map_some, Option.map_some,
      getFlattenedTarget_eq placed one sources license pragmas pragmas']

/-- The flattened output does not depend on the order of hash maps and sets if the experimental
pragmas read the same, and only then, if there is an output at all. -/
theorem flatten_eq_iff (placed : Placed flattener) (semver : Semver) :
    (OneExperimental flattener → ∀ order order',
      flattener.flatten semver order = flattener.flatten semver order') ∧
    ((∃ order text, flattener.flatten semver order = some text) →
      (∀ order order', flattener.flatten semver order = flattener.flatten semver order') →
        OneExperimental flattener) := by
  refine ⟨flatten_eq placed, ?_⟩
  rintro ⟨start, output, runs⟩ same loc mem loc' mem' text text' reads reads' experimental
    experimental'
  obtain ⟨order, kept⟩ := exists_experimental_eq mem reads experimental
  obtain ⟨order', kept'⟩ := exists_experimental_eq mem' reads' experimental'
  have runs : flattener.flatten semver order = some output := by rw [← runs, same order start]
  have runs' : flattener.flatten semver order' = some output := by rw [← runs, same order' order]
  obtain ⟨result, eq, outputs⟩ := Option.map_eq_some_iff.mp runs
  obtain ⟨result', eq', outputs'⟩ := Option.map_eq_some_iff.mp runs'
  have rel := rel_flattenResult placed semver order order'
  rw [eq, eq'] at rel
  cases rel with
  | some holds =>
    obtain ⟨sources, license, version, pragmas, pragmas'⟩ := holds
    rw [kept] at pragmas
    rw [kept'] at pragmas'
    exact (getFlattenedTarget_inj sources license pragmas pragmas'
      (placed.pragmas loc mem text reads) (placed.pragmas loc' mem' text' reads')).mp
        (outputs.trans outputs'.symm)

end Output

/-! ## Two experimental pragmas -/

/-- A file that imports another one, with different pragmas for the ABI coder. -/
def twoPragmas : Flattener where
  target := .abs ["p", "B.sol"]
  sources := ExtTreeMap.ofList [
    (PathBuf.abs ["p", "A.sol"], Source.mk "pragma abicoder v2;" .complete),
    (.abs ["p", "B.sol"],
      Source.mk "pragma experimental ABIEncoderV2;\nimport \"./A.sol\";" .complete)]
  asts := [(.abs ["p", "A.sol"], ⟨∅, [.pragmaDirective ⟨some 0, some 19⟩]⟩),
    (.abs ["p", "B.sol"], ⟨∅, [.pragmaDirective ⟨some 0, some 33⟩,
      .importDirective 1 ⟨some 34, some 17⟩ ⟨[]⟩]⟩)]
  orderedSources := [.abs ["p", "A.sol"], .abs ["p", "B.sol"]]
  projectRoot := .abs ["p"]

/-- No version is parsed. -/
def noVersions : Semver := ⟨Unit, fun _ => none, id, fun _ => ""⟩

theorem placed_twoPragmas : Placed twoPragmas where
  ids := by decide +kernel
  places d mem := by
    have empty : twoPragmas.topLevelDefinitions = [] := rfl
    rw [empty] at mem
    cases mem
  pragmas loc mem text reads := by
    have solid : ∀ loc ∈ twoPragmas.collectPragmas, ∀ text ∈ twoPragmas.readLocation loc,
        text.toList.head?.any (!isWhitespace ·) ∧
          text.toList.getLast?.any (!isWhitespace ·) := by decide +kernel
    obtain ⟨first, last⟩ := solid loc mem text reads
    obtain ⟨c, begins, other⟩ := (Option.any_eq_true _ _).mp first
    obtain ⟨c', ends, other'⟩ := (Option.any_eq_true _ _).mp last
    obtain ⟨rest, eq⟩ := List.head?_eq_some_iff.mp begins
    obtain ⟨rest', eq'⟩ := List.getLast?_eq_some_iff.mp ends
    exact ⟨⟨c, rest, eq, by simpa using other⟩, rest', c', eq', by simpa using other'⟩

/-- There are no references in directives without symbol aliases. -/
theorem gathered_directives (path : PathBuf) : gathered path ⟨[.pragmaDirective]⟩ = [] ∧
    gathered path ⟨[.importDirective ⟨[]⟩]⟩ = [] ∧
    gathered path ⟨[.pragmaDirective, .importDirective ⟨[]⟩]⟩ = [] := by
  simp [gathered, Node.walk, Library.preorder_eq, Node.calls, Node.walked,
    Node.walkSourceUnitPart]

/-- The output of the two files, with the references left out: there are none. -/
theorem flattenResult_twoPragmas (order : IterationOrder) :
    twoPragmas.flattenResult noVersions order = (do
      let updates := insertAll (insertAll [] twoPragmas.appendFilenames)
        [(⟨.abs ["p", "B.sol"], 34, 51⟩, "")]
      let (pragmas, new) ← twoPragmas.processPragmas noVersions order
      let (license, new') ← twoPragmas.processLicenses order
      let sources ← applyUpdates twoPragmas.sources (insertAll (insertAll updates new) new')
      let sources ← takeContents sources twoPragmas.orderedSources
      return ⟨sources, pragmas, license⟩) := by
  have nothing : ∀ {α : Type} (place : Nat), order.arrange place ([] : List α) = [] :=
    fun place => List.perm_nil.mp (order.perm place [])
  have references : twoPragmas.collectReferences = [] := by
    simp [Flattener.collectReferences, twoPragmas, TypedAst.sourceUnit, FileNode.part,
      gathered_directives]
  have renamed : ∀ updates, twoPragmas.renameTopLevelDefinitions order updates =
      some (fun _ => none, updates) := by
    intro updates
    have collected : twoPragmas.collectTopLevelDefinitions = some [] := by rfl
    simp [Flattener.renameTopLevelDefinitions, collected, nothing]
  have members : ∀ names, twoPragmas.renameContractLevelTypesReferences order names =
      some [] := by
    intro names
    simp [Flattener.renameContractLevelTypesReferences, twoPragmas, FileNode.part,
      gathered_directives, nothing, IterationOrder.entries]
  have qualified : twoPragmas.removeQualifiedImports order = [] := by
    simp [Flattener.removeQualifiedImports, references, nothing, IterationOrder.entries]
  have docs : ∀ names, twoPragmas.updateInheritdocs names = some [] := fun _ => rfl
  have imports : twoPragmas.removeImports order = [(⟨.abs ["p", "B.sol"], 34, 51⟩, "")] := by
    have single : twoPragmas.collectLocations FileNode.importSrc =
        [⟨.abs ["p", "B.sol"], 34, 51⟩] := by decide +kernel
    rw [Flattener.removeImports, single, List.perm_singleton.mp (order.perm 7 [_])]
    rfl
  simp only [Flattener.flattenResult, renamed, members, qualified, docs, imports,
    Option.bind_eq_bind, Option.bind_some]
  rfl

theorem flatten_eq_iff_twoPragmas :
    (OneExperimental twoPragmas → ∀ order order',
      twoPragmas.flatten noVersions order = twoPragmas.flatten noVersions order') ∧
    ((∃ order text, twoPragmas.flatten noVersions order = some text) →
      (∀ order order',
        twoPragmas.flatten noVersions order = twoPragmas.flatten noVersions order') →
          OneExperimental twoPragmas) :=
  flatten_eq_iff placed_twoPragmas noVersions

/-- The pragma that comes first is kept. -/
theorem flatten_twoPragmas_differs : Placed twoPragmas ∧
    twoPragmas.flatten noVersions (rotated 0) =
        some "pragma abicoder v2;\n\n// A.sol\n\n// B.sol\n" ∧
      twoPragmas.flatten noVersions (rotated 1) =
        some "pragma experimental ABIEncoderV2;\n\n// A.sol\n\n// B.sol\n" := by
  refine ⟨placed_twoPragmas, ?_⟩
  rw [Flattener.flatten, Flattener.flatten, flattenResult_twoPragmas, flattenResult_twoPragmas]
  decide +kernel

end FoundryCore.Flatten
