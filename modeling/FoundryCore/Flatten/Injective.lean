import FoundryCore.Flatten.Renaming

/-!
# When renaming keeps definitions apart

The numbered names are different from each other. So two definitions get the same name only if one
of them keeps its name: because it is the only one that is collected with it, or because it is not
collected.
-/

open Std

namespace FoundryCore.Flatten

open Ast

/-! ## When renaming is injective -/

section Injective

variable {flattener : Flattener} {place : Definition → ItemLocation} {order : IterationOrder}
  {d d' : Definition} {loc : ItemLocation} {text : String}

/-- What a definition is called after the run. -/
def Flattener.newName (flattener : Flattener) (order : IterationOrder) (d : Definition) : String :=
  if d ∈ flattener.topLevelDefinitions then flattener.assignedName order d else d.2.name

variable (solc : FromSolc flattener place)
include solc

/-- The names and updates of a run. -/
theorem renameTopLevelDefinitions_spec (order : IterationOrder) : ∃ names updates,
    flattener.renameTopLevelDefinitions order [] = some (names, updates) ∧
      (∀ d ∈ flattener.definitions, ∀ name, names d.2.id = some name ↔
        d ∈ flattener.topLevelDefinitions ∧ name = flattener.assignedName order d) ∧
      ∀ loc text, (loc, text) ∈ updates ↔ ∃ d ∈ flattener.topLevelDefinitions,
        flattener.assignedName order d = text ∧
          (flattener.site d = loc ∨ (d.2.id, loc) ∈ flattener.collectReferences) := by
  refine ⟨_, _, renameTopLevelDefinitions_eq solc, fun d mem name => ⟨fun named => ?_, ?_⟩,
    fun loc text => ?_⟩
  · rcases exists_of_foldl_renameDefinition named with first | ⟨_, given, same, rfl⟩
    · cases first
    · obtain ⟨d', collected, rfl⟩ := (mem_assigned solc).mp given
      obtain rfl := eq_of_id solc (mem_definitions collected) mem same
      exact ⟨collected, rfl⟩
  · rintro ⟨collected, rfl⟩
    have someEq : (((flattener.assigned order).foldl (renameDefinition order
        flattener.collectReferences) (fun _ => none, [])).1 d.2.id).isSome = true :=
      isSome_foldl_renameDefinition
        (.inr ⟨_, (mem_assigned solc).mpr ⟨d, collected, rfl⟩, rfl⟩)
    obtain ⟨name, named⟩ := Option.isSome_iff_exists.mp someEq
    rcases exists_of_foldl_renameDefinition named with first | ⟨_, given, same, rfl⟩
    · cases first
    · obtain ⟨d', collected', rfl⟩ := (mem_assigned solc).mp given
      obtain rfl := eq_of_id solc (mem_definitions collected') mem same
      exact named
  · rw [mem_foldl_renameDefinition]
    simp only [List.not_mem_nil, false_or]
    constructor
    · rintro ⟨_, given, eq, getEq⟩
      obtain ⟨d, collected, rfl⟩ := (mem_assigned solc).mp given
      exact ⟨d, collected, eq, getEq⟩
    · rintro ⟨d, collected, eq, getEq⟩
      exact ⟨_, (mem_assigned solc).mpr ⟨d, collected, rfl⟩, eq, getEq⟩

omit solc in
theorem count_pos (collected : d ∈ flattener.topLevelDefinitions) :
    0 < flattener.count d.2.name :=
  List.length_pos_of_mem (List.mem_filter.mpr ⟨collected, by simp⟩)

omit solc in
theorem newName_of_keeps (keeps : Keeps flattener d) : flattener.newName order d = d.2.name := by
  rw [Flattener.newName, Flattener.assignedName]
  split_ifs with collected several
  · have one := keeps.2 collected
    omega
  · rfl
  · rfl

omit solc in
/-- A definition whose name does not stay is numbered. -/
theorem newName_of_not_keeps (order : IterationOrder) (mem : d ∈ flattener.definitions)
    (changes : ¬ Keeps flattener d) :
    d ∈ flattener.topLevelDefinitions ∧ 1 < flattener.count d.2.name ∧
      flattener.newName order d =
        numbered d.2.name ((flattener.ordered order d.2.name).idxOf (d.2.id, flattener.site d)) ∧
      (flattener.ordered order d.2.name).idxOf (d.2.id, flattener.site d) <
        flattener.count d.2.name := by
  have collected : d ∈ flattener.topLevelDefinitions := by
    by_contra out
    exact changes ⟨mem, fun collected => absurd collected out⟩
  have several : 1 < flattener.count d.2.name := by
    by_contra few
    have := count_pos collected
    exact changes ⟨mem, fun _ => by omega⟩
  have listed : (d.2.id, flattener.site d) ∈ flattener.ordered order d.2.name :=
    ordered_perm.mem_iff.mpr (mem_group.mpr ⟨d, collected, rfl, rfl⟩)
  refine ⟨collected, several, ?_, length_ordered order ▸ List.idxOf_lt_length_iff.mpr listed⟩
  rw [Flattener.newName, if_pos collected, Flattener.assignedName, if_pos several]

/-- Every number below the count is given to a definition. -/
theorem exists_newName_eq (order : IterationOrder) {name : String} {i : Nat}
    (several : 1 < flattener.count name) (small : i < flattener.count name) :
    ∃ d ∈ flattener.topLevelDefinitions,
      d.2.name = name ∧ flattener.newName order d = numbered name i := by
  have bound : i < (flattener.ordered order name).length := by rwa [length_ordered]
  obtain ⟨d, collected, rfl, eq⟩ := mem_group.mp
    (ordered_perm.mem_iff.mp (List.getElem_mem bound))
  refine ⟨d, collected, rfl, ?_⟩
  rw [Flattener.newName, if_pos collected, Flattener.assignedName, if_pos several, ← eq,
    (nodup_ordered solc).idxOf_getElem]

/-- Without clashes the new names are different. -/
theorem newName_injective (clash : NoClash flattener place) (mem : d ∈ flattener.definitions)
    (mem' : d' ∈ flattener.definitions)
    (same : flattener.newName order d = flattener.newName order d') : d = d' := by
  by_cases keeps : Keeps flattener d <;> by_cases keeps' : Keeps flattener d'
  · rw [newName_of_keeps keeps, newName_of_keeps keeps'] at same
    by_contra other
    exact clash.kept d d' keeps keeps' other same
  · obtain ⟨-, several, eq, lt⟩ := newName_of_not_keeps order mem' keeps'
    rw [newName_of_keeps keeps, eq] at same
    exact absurd same (clash.numbered _ several _ lt d keeps)
  · obtain ⟨-, several, eq, lt⟩ := newName_of_not_keeps order mem keeps
    rw [newName_of_keeps keeps', eq] at same
    exact absurd same.symm (clash.numbered _ several _ lt d' keeps')
  · obtain ⟨collected, -, eq, -⟩ := newName_of_not_keeps order mem keeps
    obtain ⟨collected', -, eq', -⟩ := newName_of_not_keeps order mem' keeps'
    rw [eq, eq'] at same
    obtain ⟨name, number⟩ := numbered_inj.mp same
    have listed : (d.2.id, flattener.site d) ∈ flattener.ordered order d.2.name :=
      ordered_perm.mem_iff.mpr (mem_group.mpr ⟨d, collected, rfl, rfl⟩)
    rw [← name, List.idxOf_inj listed] at number
    exact eq_of_id solc mem mem' (Prod.mk.inj number).1

/-- What a run does: it gives each collected definition its new name, where it is located and at
the references to it. -/
def Updated (flattener : Flattener) (order : IterationOrder) (updates : Updates) : Prop :=
  ∀ loc text, (loc, text) ∈ updates ↔ ∃ d ∈ flattener.topLevelDefinitions,
    flattener.newName order d = text ∧
      (flattener.site d = loc ∨ (d.2.id, loc) ∈ flattener.collectReferences)

variable {updates : Updates}

/-- The names of a definition are updated with its new name only, and only if it is collected. -/
theorem Updated.unique (updated : Updated flattener order updates)
    (mem : d ∈ flattener.definitions) (site : IsSite flattener place d loc)
    (update : (loc, text) ∈ updates) :
    d ∈ flattener.topLevelDefinitions ∧ text = flattener.newName order d := by
  obtain ⟨d', collected, rfl, getEq⟩ := (updated loc text).mp update
  have mem' := mem_definitions collected
  have site' : IsSite flattener place d' loc := by
    rcases getEq with rfl | refers
    · exact .inl (site_eq_place solc mem' mem site)
    · exact .inr refers
  obtain rfl := solc.apart d mem d' mem' loc site site'
  exact ⟨collected, rfl⟩

theorem Updated.carries (updated : Updated flattener order updates)
    (clash : NoClash flattener place) (mem : d ∈ flattener.definitions)
    (site : IsSite flattener place d loc) :
    Carries flattener updates loc (flattener.newName order d) := by
  by_cases new : ∃ text, (loc, text) ∈ updates
  · obtain ⟨text, update⟩ := new
    obtain ⟨-, rfl⟩ := updated.unique solc mem site update
    exact .inl ⟨update, fun text update => (updated.unique solc mem site update).2⟩
  · refine .inr ⟨fun text update => new ⟨text, update⟩, ?_⟩
    by_cases collected : d ∈ flattener.topLevelDefinitions
    · have unlocated : flattener.site d ≠ loc := fun getEq =>
        new ⟨_, (updated loc _).mpr ⟨d, collected, rfl, .inl getEq⟩⟩
      have unreferred : (d.2.id, loc) ∉ flattener.collectReferences := fun getEq =>
        new ⟨_, (updated loc _).mpr ⟨d, collected, rfl, .inr getEq⟩⟩
      obtain rfl := site.resolve_right unreferred
      -- only a name that stays may be located elsewhere
      have keeps : Keeps flattener d := by
        by_contra changes
        obtain ⟨-, several, -⟩ := newName_of_not_keeps order mem changes
        have located := clash.located d collected several
        rw [locate_eq_site solc mem] at located
        exact unlocated (Option.some.inj located)
      rw [newName_of_keeps keeps]
      exact solc.reads d mem
    · rw [Flattener.newName, if_neg collected]
      rcases site with rfl | refers
      · exact solc.reads d mem
      · exact clash.spelled d mem collected loc refers

theorem Updated.onlyNames (updated : Updated flattener order updates)
    (clash : NoClash flattener place) (update : (loc, text) ∈ updates) :
    (∃ d ∈ flattener.definitions, IsSite flattener place d loc) ∨
      flattener.readLocation loc = some text := by
  obtain ⟨d, collected, rfl, getEq⟩ := (updated loc text).mp update
  have mem := mem_definitions collected
  rcases getEq with rfl | refers
  · by_cases keeps : Keeps flattener d
    · exact .inr (by rw [readLocation_site solc mem, newName_of_keeps keeps])
    · obtain ⟨-, several, -⟩ := newName_of_not_keeps order mem keeps
      have located := clash.located d collected several
      rw [locate_eq_site solc mem] at located
      exact .inl ⟨d, mem, .inl (Option.some.inj located)⟩
  · exact .inl ⟨d, mem, .inr refers⟩

variable {names : Names} {newName : Definition → String}

/-- If renaming is injective, the new names are those of the run. -/
theorem newName_eq (updated : Updated flattener order updates)
    (named : ∀ d ∈ flattener.topLevelDefinitions,
      names d.2.id = some (flattener.newName order d))
    (renames : RenamesInjectively flattener place names updates newName)
    (mem : d ∈ flattener.definitions) : newName d = flattener.newName order d := by
  by_cases collected : d ∈ flattener.topLevelDefinitions
  · exact renames.returned d mem _ (named d collected)
  · rw [Flattener.newName, if_neg collected]
    rcases renames.carries d mem _ (.inl rfl) with ⟨update, -⟩ | ⟨-, reads⟩
    · exact absurd (updated.unique solc mem (.inl rfl) update).1 collected
    · rw [solc.reads d mem] at reads
      exact (Option.some.inj reads).symm

theorem noClash_of_renamesInjectively (updated : Updated flattener order updates)
    (named : ∀ d ∈ flattener.topLevelDefinitions,
      names d.2.id = some (flattener.newName order d))
    (renames : RenamesInjectively flattener place names updates newName) :
    NoClash flattener place where
  kept d d' keeps keeps' other same := by
    refine renames.injective d keeps.1 d' keeps'.1 other (fun overloads => other ?_) ?_
    · -- of two overloads, none keeps its name
      have one := keeps.2 overloads.collected.1
      obtain ⟨x, eq⟩ := List.length_eq_one_iff.mp one
      have only : ∀ e ∈ flattener.topLevelDefinitions, e.2.name = d.2.name → e = x := by
        intro e collected name
        have listed : e ∈ flattener.topLevelDefinitions.filter (·.2.name = d.2.name) :=
          List.mem_filter.mpr ⟨collected, decide_eq_true name⟩
        rw [eq] at listed
        exact List.mem_singleton.mp listed
      rw [only d overloads.collected.1 rfl, only d' overloads.collected.2 same.symm]
    · rw [newName_eq solc updated named renames keeps.1, newName_of_keeps keeps,
        newName_eq solc updated named renames keeps'.1, newName_of_keeps keeps', same]
  numbered name several i small d keeps same := by
    obtain ⟨d', collected, rfl, eq⟩ := exists_newName_eq solc order several small
    have differ : d'.2.name ≠ d.2.name := fun eq' => numbered_ne _ i (same.symm.trans eq'.symm)
    refine renames.injective d' (mem_definitions collected) d keeps.1
      (fun eq => differ (by rw [eq])) (fun overloads => differ overloads.2.2.2) ?_
    rw [newName_eq solc updated named renames (mem_definitions collected), eq,
      newName_eq solc updated named renames keeps.1, newName_of_keeps keeps, same]
  spelled d mem out loc refers := by
    have name : newName d = d.2.name := by
      rw [newName_eq solc updated named renames mem, Flattener.newName, if_neg out]
    rcases renames.carries d mem loc (.inr refers) with ⟨update, -⟩ | ⟨-, reads⟩
    · exact absurd (updated.unique solc mem (.inr refers) update).1 out
    · rw [reads, name]
  located d collected several := by
    have mem := mem_definitions collected
    have update : (flattener.site d, flattener.newName order d) ∈ updates :=
      (updated _ _).mpr ⟨d, collected, rfl, .inl rfl⟩
    rw [locate_eq_site solc mem]
    rcases renames.onlyNames _ _ update with ⟨d', mem', site⟩ | reads
    · rw [site_eq_place solc mem mem' site]
    · rw [readLocation_site solc mem, Flattener.newName, if_pos collected,
        Flattener.assignedName, if_pos several] at reads
      exact absurd (Option.some.inj reads).symm (numbered_ne _ _)

/-- Renaming is injective exactly if the names do not clash. -/
theorem renamesInjectively_iff (order : IterationOrder) : ∃ names updates,
    flattener.renameTopLevelDefinitions order [] = some (names, updates) ∧
      ((∃ newName, RenamesInjectively flattener place names updates newName) ↔
        NoClash flattener place) := by
  obtain ⟨names, updates, run, returned, spec⟩ :=
    renameTopLevelDefinitions_spec solc order
  have collectedName : ∀ d ∈ flattener.topLevelDefinitions,
      flattener.newName order d = flattener.assignedName order d := fun d collected =>
    if_pos collected
  have updated : Updated flattener order updates := by
    intro loc text
    rw [spec]
    exact exists_congr fun d => and_congr_right fun collected => by rw [collectedName d collected]
  refine ⟨names, updates, run, fun ⟨newName, renames⟩ => ?_, fun clash =>
    ⟨flattener.newName order, ?_, ?_, ?_, ?_⟩⟩
  · refine noClash_of_renamesInjectively solc updated (fun d collected => ?_) renames
    exact (returned d (mem_definitions collected) _).mpr ⟨collected, collectedName d collected⟩
  · intro d mem name named
    obtain ⟨collected, rfl⟩ := (returned d mem name).mp named
    exact collectedName d collected
  · exact fun d mem loc site => updated.carries solc clash mem site
  · exact fun d mem d' mem' other _ same => other (newName_injective solc clash mem mem' same)
  · exact fun loc text update => updated.onlyNames solc clash update

end Injective

/-! ## A name that looks numbered -/

/-- A file with an empty contract. -/
def contractFile (id : Id) (name : String) : TypedAst where
  exportedSymbols := ExtTreeMap.ofList [(name, [id])]
  nodes := [.contractDefinition
    ⟨id, ⟨some 0, some (BitVec.ofNat 64 (12 + name.utf8ByteSize))⟩, name,
      some ⟨some 9, some (BitVec.ofNat 64 name.utf8ByteSize)⟩⟩ [] []]

/-- A file with a contract behind two imports. -/
def importingFile : TypedAst where
  exportedSymbols := ExtTreeMap.ofList [("A", [(1 : Id)]), ("A_0", [3]), ("B", [5])]
  nodes := [.importDirective 4 ⟨some 0, some 17⟩ ⟨[]⟩, .importDirective 5 ⟨some 18, some 22⟩ ⟨[]⟩,
    .contractDefinition ⟨3, ⟨some 41, some 15⟩, "A_0", some ⟨some 50, some 3⟩⟩ [] []]

/-- Two contracts `A`, each in a file of its own, and one `A_0` in a file that imports both. -/
def clashing : Flattener where
  target := .abs ["p", "C.sol"]
  sources := ExtTreeMap.ofList [(PathBuf.abs ["p", "A.sol"], Source.mk "contract A {}" .complete),
    (.abs ["p", "B.sol"], Source.mk "contract A {}" .complete),
    (.abs ["p", "C.sol"], Source.mk
      "import \"./A.sol\"; import \"./B.sol\" as B; contract A_0 {}" .complete)]
  asts := [(.abs ["p", "A.sol"], contractFile 1 "A"), (.abs ["p", "B.sol"], contractFile 2 "A"),
    (.abs ["p", "C.sol"], importingFile)]
  orderedSources := [.abs ["p", "A.sol"], .abs ["p", "B.sol"], .abs ["p", "C.sol"]]
  projectRoot := .abs ["p"]

/-- The names follow the keyword. -/
def placeInFile (d : Definition) : ItemLocation :=
  let start := d.2.src.start.getD 0 + 9
  ⟨d.1, start, start + BitVec.ofNat 64 d.2.name.utf8ByteSize⟩

theorem gathered_contractFile (path : PathBuf) (id : Id) (name : String) :
    gathered path (contractFile id name).sourceUnit = [] := by
  simp [gathered, contractFile, TypedAst.sourceUnit, FileNode.part, Node.walk,
    Library.preorder_eq, Node.calls, Node.walked, Node.walkSourceUnitPart]

theorem gathered_importingFile (path : PathBuf) :
    gathered path importingFile.sourceUnit = [] := by
  simp [gathered, importingFile, TypedAst.sourceUnit, FileNode.part, Node.walk,
    Library.preorder_eq, Node.calls, Node.walked, Node.walkSourceUnitPart]

theorem collectReferences_clashing : clashing.collectReferences = [] := by
  simp [Flattener.collectReferences, clashing, gathered_contractFile, gathered_importingFile]

theorem fromSolc_clashing : FromSolc clashing placeInFile where
  ids := by decide +kernel
  ordered := by decide +kernel
  path _ _ := rfl
  reads := by decide +kernel
  nameLocation d mem src known := by
    have located : ∀ d ∈ clashing.definitions,
        d.2.nameLocation.bind (ItemLocation.tryFromSourceLoc · d.1) = some (placeInFile d) := by
      decide +kernel
    have here := located d mem
    rwa [known, Option.bind_some] at here
  inside d mem absent := by
    have located : ∀ d ∈ clashing.definitions, d.2.nameLocation ≠ none := by decide +kernel
    exact absurd absent (located d mem)
  apart d mem d' mem' loc site site' := by
    have different : ∀ d ∈ clashing.definitions, ∀ d' ∈ clashing.definitions,
        placeInFile d = placeInFile d' → d = d' := by decide +kernel
    simp only [IsSite, collectReferences_clashing, List.not_mem_nil, or_false] at site site'
    exact different d mem d' mem' (site.symm.trans site')

theorem renamesInjectively_iff_clashing : ∃ names updates,
    clashing.renameTopLevelDefinitions .asListed [] = some (names, updates) ∧
      ((∃ newName, RenamesInjectively clashing placeInFile names updates newName) ↔
        NoClash clashing placeInFile) :=
  renamesInjectively_iff fromSolc_clashing .asListed

/-- The first `A` gets the name that the third contract has. -/
theorem not_renamesInjectively_clashing : ∃ names updates,
    clashing.renameTopLevelDefinitions .asListed [] = some (names, updates) ∧
      ¬ ∃ newName, RenamesInjectively clashing placeInFile names updates newName := by
  have result : (clashing.renameTopLevelDefinitions .asListed []).map Prod.snd =
      some [(⟨.abs ["p", "C.sol"], 50, 53⟩, "A_0"), (⟨.abs ["p", "B.sol"], 9, 10⟩, "A_1"),
        (⟨.abs ["p", "A.sol"], 9, 10⟩, "A_0")] := by
    rw [Flattener.renameTopLevelDefinitions, collectReferences_clashing]
    decide +kernel
  obtain ⟨⟨names, updates⟩, run, rfl⟩ := Option.map_eq_some_iff.mp result
  refine ⟨names, _, run, ?_⟩
  rintro ⟨newName, renames⟩
  have same : ∀ d ∈ clashing.definitions, d.1 = .abs ["p", "A.sol"] ∨ d.1 = .abs ["p", "C.sol"] →
      "A_0" = newName d := by
    intro d mem file
    have update : ∀ d ∈ clashing.definitions,
        d.1 = .abs ["p", "A.sol"] ∨ d.1 = .abs ["p", "C.sol"] →
        (placeInFile d, "A_0") ∈ [((⟨.abs ["p", "C.sol"], 50, 53⟩ : ItemLocation), "A_0"),
          (⟨.abs ["p", "B.sol"], 9, 10⟩, "A_1"), (⟨.abs ["p", "A.sol"], 9, 10⟩, "A_0")] := by
      decide +kernel
    exact (renames.carries d mem _ (.inl rfl)).eq_of_mem (update d mem file)
  obtain ⟨a, mem, c, mem', file, file', differ⟩ : ∃ a ∈ clashing.definitions,
      ∃ c ∈ clashing.definitions, a.1 = .abs ["p", "A.sol"] ∧ c.1 = .abs ["p", "C.sol"] ∧
        a.2.name ≠ c.2.name := by decide +kernel
  refine renames.injective a mem c mem' (fun eq => differ (by rw [eq]))
    (fun overloads => differ overloads.2.2.2) ?_
  rw [← same a mem (.inl file), ← same c mem' (.inr file')]

end FoundryCore.Flatten
