import FoundryCore.Flatten.Basic
import FoundryCore.Library.SortBy
import FoundryCore.Library.Split

/-!
# Renaming the definitions of the flattened files

Definitions that share their name get the name with a number each, in the order in which they are
written. All other names stay, so a numbered name may be the name of another definition. Errors
and events are not among the definitions that are collected: they keep their names whatever they
are, and so do the references to them.
-/

open Std

namespace FoundryCore.Flatten

open Ast

/-- A file-level definition with the path of its file. -/
abbrev Definition := PathBuf × Named

/-- What is known of a file-level definition of any kind. -/
def FileNode.definition : FileNode → Option Named
  | variableDeclaration named _ => some named
  | enumDefinition named => some named
  | errorDefinition named _ => some named
  | eventDefinition named _ => some named
  | functionDefinition named _ => some named
  | structDefinition named _ => some named
  | userDefinedValueTypeDefinition named _ => some named
  | contractDefinition named _ _ => some named
  | _ => none

/-- The file-level definitions that are collected. -/
def FileNode.topLevelDefinition : FileNode → Option Named
  | contractDefinition named _ _ => some named
  | enumDefinition named => some named
  | structDefinition named _ => some named
  | functionDefinition named _ => some named
  | variableDeclaration named _ => some named
  | userDefinedValueTypeDefinition named _ => some named
  | _ => none

def FileNode.function : FileNode → Option Named
  | functionDefinition named _ => some named
  | _ => none

/-- Names of definitions, by their identifiers. -/
abbrev Names := Id → Option String

/-- The name that the definition with a number gets. -/
def numbered (name : String) (i : Nat) : String := name ++ "_" ++ toString i

namespace Flattener

variable (flattener : Flattener)

/-- The definitions of some kinds. -/
def select (kind : FileNode → Option Named) : List Definition :=
  flattener.asts.flatMap fun (path, ast) => (ast.nodes.filterMap kind).map (path, ·)

/-- Where the name of a definition stands. Without a location of the name it is searched in the
text of the definition. -/
def locate (path : PathBuf) (named : Named) : Option ItemLocation :=
  match named.nameLocation with
  | some src => ItemLocation.tryFromSourceLoc src path
  | none => do
    let source ← flattener.sources[path]?
    let start ← named.src.start
    let stop := start + (← named.src.length)
    let text ← textIn source.content start.toNat stop.toNat
    let nameStart ← Library.find Char.utf8Size named.name.toList text.toList
    let nameEnd := nameStart + named.name.utf8ByteSize
    return ⟨path, start + BitVec.ofNat 64 nameStart, start + BitVec.ofNat 64 nameEnd⟩

/-- Collects all top-level definitions in the form of a mapping from name to definition ids and
source locations, here as the set of its entries. -/
def collectTopLevelDefinitions : Option (List (String × Id × ItemLocation)) := do
  let definitions ← (flattener.select FileNode.topLevelDefinition).mapM fun (path, named) => do
    let loc ← flattener.locate path named
    return (named.name, named.id, loc)
  return definitions.dedup

/-- How two definitions are compared: by the place of their files among the ordered sources, and
by their places in the files. -/
def comparePositions : Id × ItemLocation → Id × ItemLocation → Ordering :=
  compareLex (compareOn fun d => flattener.orderedSources.idxOf d.2.path)
    (compareOn fun d => d.2.start.toNat)

/-- Definitions in the order in which they are written; none if a file is not written. -/
def sortByPosition (ids : List (Id × ItemLocation)) : Option (List (Id × ItemLocation)) :=
  if ∀ d ∈ ids, d.2.path ∈ flattener.orderedSources then
    some (Library.sortBy flattener.comparePositions ids)
  else none

end Flattener

/-- A definition and all references to it get a name. -/
def renameDefinition (order : IterationOrder) (references : List Reference)
    (state : Names × Updates) (definition : (Id × ItemLocation) × String) : Names × Updates :=
  let ((id, loc), definitionName) := definition
  let updates := state.2.insert (loc, definitionName)
  let updates := (order.arrange 2 (references.filter (·.1 = id))).foldl
    (fun updates reference => updates.insert (reference.2, definitionName)) updates
  (Function.update state.1 id (some definitionName), updates)

/-- The definitions of one name get their names. -/
def Flattener.renameGroup (flattener : Flattener) (order : IterationOrder)
    (references : List Reference) (state : Names × Updates) (name : String)
    (ids : List (Id × ItemLocation)) : Option (Names × Updates) := do
  let needsRename := 1 < ids.length
  let ids := order.arrange 1 ids
  let ids ← (if needsRename then flattener.sortByPosition ids else some ids)
  return (ids.zipIdx.map fun (id, i) => (id, if needsRename then numbered name i else name)).foldl
    (renameDefinition order references) state

/-- Finds and goes over all references to file-level definitions and updates them to match
definition name. Returns the names of the definitions with the updates. -/
def Flattener.renameTopLevelDefinitions (flattener : Flattener) (order : IterationOrder)
    (updates : Updates) : Option (Names × Updates) := do
  let definitions ← flattener.collectTopLevelDefinitions
  let references := flattener.collectReferences
  (order.arrange 0 (definitions.map Prod.fst).dedup).foldlM
    (fun state name => flattener.renameGroup order references state name
      ((definitions.filter (·.1 = name)).map Prod.snd))
    (fun _ => none, updates)

/-! ## Injective renaming -/

section Statement

variable (flattener : Flattener) (place : Definition → ItemLocation)

/-- All file-level definitions. -/
def Flattener.definitions : List Definition := flattener.select FileNode.definition

/-- The file-level definitions that are collected. -/
def Flattener.topLevelDefinitions : List Definition :=
  flattener.select FileNode.topLevelDefinition

/-- The definitions are overloads of one function. -/
def Overloads (d d' : Definition) : Prop :=
  d ∈ flattener.select FileNode.function ∧ d' ∈ flattener.select FileNode.function ∧
    d.1 = d'.1 ∧ d.2.name = d'.2.name

/-- The location is that of the name of a definition, or of a collected reference to it. -/
def IsSite (d : Definition) (loc : ItemLocation) : Prop :=
  loc = place d ∨ (d.2.id, loc) ∈ flattener.collectReferences

/-- What the compiler promises of the syntax trees. `place` is where the name of a definition
stands in its file. -/
structure FromSolc : Prop where
  ids : (flattener.definitions.map (·.2.id)).Nodup
  ordered : ∀ d ∈ flattener.definitions, d.1 ∈ flattener.orderedSources
  path : ∀ d ∈ flattener.definitions, (place d).path = d.1
  reads : ∀ d ∈ flattener.definitions, flattener.readLocation (place d) = some d.2.name
  nameLocation : ∀ d ∈ flattener.definitions, ∀ src, d.2.nameLocation = some src →
    ItemLocation.tryFromSourceLoc src d.1 = some (place d)
  /-- The name stands in the text of the definition. -/
  inside : ∀ d ∈ flattener.definitions, d.2.nameLocation = none → ∃ start length,
    d.2.src = ⟨some start, some length⟩ ∧
      (flattener.readLocation ⟨d.1, start, start + length⟩).isSome = true ∧
      start.toNat ≤ (place d).start.toNat ∧ (place d).stop.toNat ≤ (start + length).toNat ∧
      -- before it no other name is spelled like it
      ∀ d' ∈ flattener.definitions, ∀ loc, IsSite flattener place d' loc → loc.path = d.1 →
        start.toNat ≤ loc.start.toNat → loc.start.toNat < (place d).start.toNat →
        flattener.readLocation loc ≠ some d.2.name
  /-- A location is that of a name of one definition only. -/
  apart : ∀ d ∈ flattener.definitions, ∀ d' ∈ flattener.definitions, ∀ loc,
    IsSite flattener place d loc → IsSite flattener place d' loc → d = d'

/-- What stands at a location after the updates: the new text, or what was there. -/
def Carries (updates : Updates) (loc : ItemLocation) (text : String) : Prop :=
  (loc, text) ∈ updates ∧ (∀ new, (loc, new) ∈ updates → new = text) ∨
    (∀ new, (loc, new) ∉ updates) ∧ flattener.readLocation loc = some text

/-- Every definition has one name after the updates, at its own place and at all collected
references to it. Different definitions have different names, if they are not overloads, and
nothing else changes. -/
structure RenamesInjectively (names : Names) (updates : Updates)
    (newName : Definition → String) : Prop where
  returned : ∀ d ∈ flattener.definitions, ∀ name, names d.2.id = some name → newName d = name
  carries : ∀ d ∈ flattener.definitions, ∀ loc, IsSite flattener place d loc →
    Carries flattener updates loc (newName d)
  injective : ∀ d ∈ flattener.definitions, ∀ d' ∈ flattener.definitions, d ≠ d' →
    ¬ Overloads flattener d d' → newName d ≠ newName d'
  onlyNames : ∀ loc text, (loc, text) ∈ updates →
    (∃ d ∈ flattener.definitions, IsSite flattener place d loc) ∨
      flattener.readLocation loc = some text

/-- How many of the collected definitions have a name. -/
def Flattener.count (name : String) : Nat :=
  (flattener.topLevelDefinitions.filter (·.2.name = name)).length

/-- The definition is not collected, or no other collected definition has its name. -/
def Keeps (d : Definition) : Prop :=
  d ∈ flattener.definitions ∧
    (d ∈ flattener.topLevelDefinitions → flattener.count d.2.name = 1)

/-- The names that stay are different from each other and from the numbered ones, errors and
events are referred to by their names, and each name that is numbered is found where it is. -/
structure NoClash : Prop where
  kept : ∀ d d', Keeps flattener d → Keeps flattener d' → d ≠ d' → d.2.name ≠ d'.2.name
  numbered : ∀ name, 1 < flattener.count name → ∀ i < flattener.count name,
    ∀ d, Keeps flattener d → d.2.name ≠ numbered name i
  spelled : ∀ d ∈ flattener.definitions, d ∉ flattener.topLevelDefinitions → ∀ loc,
    (d.2.id, loc) ∈ flattener.collectReferences → flattener.readLocation loc = some d.2.name
  located : ∀ d ∈ flattener.topLevelDefinitions, 1 < flattener.count d.2.name →
    flattener.locate d.1 d.2 = some (place d)

end Statement

/-! ## Numbered names -/

theorem toList_numbered (name : String) (i : Nat) :
    (numbered name i).toList = name.toList ++ '_' :: Nat.toDigits 10 i := by
  simp [numbered, toString]

/-- The number is what stands behind the last underscore. -/
theorem numbered_inj {name name' : String} {i j : Nat} :
    numbered name i = numbered name' j ↔ name = name' ∧ i = j := by
  refine ⟨fun same => ?_, by rintro ⟨rfl, rfl⟩; rfl⟩
  have fresh : ∀ n, '_' ∉ (Nat.toDigits 10 n).reverse := by
    intro n mem
    have digit := Nat.isDigit_of_mem_toDigits (by decide) (by decide) (List.mem_reverse.mp mem)
    exact absurd digit (by decide)
  have split : ∀ (name : String) i, Library.splitOnce '_' (numbered name i).toList.reverse =
      some ((Nat.toDigits 10 i).reverse, name.toList.reverse) := by
    intro name i
    rw [toList_numbered, List.reverse_append, List.reverse_cons, List.append_assoc,
      List.singleton_append, Library.splitOnce_append (fresh i)]
  have parts := (split name i).symm.trans (same ▸ split name' j)
  simp only [Option.some.injEq, Prod.mk.injEq, List.reverse_inj, String.toList_inj] at parts
  refine ⟨parts.2, ?_⟩
  rw [← Nat.ofDigitChars_ten_toDigits (n := i), parts.1, Nat.ofDigitChars_ten_toDigits]

theorem numbered_ne (name : String) (i : Nat) : numbered name i ≠ name := by
  intro same
  have longer := congrArg (fun text => text.toList.length) same
  simp only [toList_numbered, List.length_append, List.length_cons] at longer
  omega

/-! ## Locations -/

section Locate

variable {flattener : Flattener} {place : Definition → ItemLocation} {d d' : Definition}
  {loc : ItemLocation}

theorem textIn_eq_some {text inside : String} {start stop : Nat} :
    textIn text start stop = some inside ↔ ∃ before after,
      text.toList = before ++ inside.toList ++ after ∧ bytes before = start ∧
        bytes (before ++ inside.toList) = stop := by
  rw [textIn, Option.map_eq_some_iff]
  constructor
  · rintro ⟨part, eq, rfl⟩
    rw [String.toList_ofList]
    exact (Library.part_eq_some Char.utf8Size_pos).mp eq
  · intro pieces
    exact ⟨inside.toList, (Library.part_eq_some Char.utf8Size_pos).mpr pieces, String.ofList_toList⟩

theorem readLocation_eq_some {text : String} :
    flattener.readLocation loc = some text ↔ ∃ source, flattener.sources[loc.path]? = some source ∧
      textIn source.content loc.start.toNat loc.stop.toNat = some text := by
  simp [Flattener.readLocation, Option.bind_eq_some_iff]

theorem stop_eq {text inside : String} {start stop : Nat}
    (eq : textIn text start stop = some inside) : stop = start + inside.utf8ByteSize := by
  obtain ⟨before, after, -, rfl, rfl⟩ := textIn_eq_some.mp eq
  rw [bytes_append, utf8ByteSize_eq]

/-- A name in a part of a text is found there or before, and what is found reads like it. -/
theorem exists_find {text inside name : String} {start stop start' stop' : Nat}
    (eq : textIn text start stop = some inside) (eq' : textIn text start' stop' = some name)
    (le : start ≤ start') (ge : stop' ≤ stop) :
    ∃ position, Library.find Char.utf8Size name.toList inside.toList = some position ∧
      start + position ≤ start' ∧ start + (position + name.utf8ByteSize) ≤ stop ∧
      textIn text (start + position) (start + (position + name.utf8ByteSize)) = some name := by
  obtain ⟨before, after, split, rfl, rfl⟩ := textIn_eq_some.mp eq
  obtain ⟨before', after', split', rfl, rfl⟩ := textIn_eq_some.mp eq'
  obtain ⟨upto, rfl, rest⟩ := Library.exists_append_of_weight_le Char.utf8Size_pos
    (by rw [← List.append_assoc, ← List.append_assoc, ← split, ← split'] :
      before ++ (inside.toList ++ after) = before' ++ (name.toList ++ after')) le
  simp only [bytes_append] at le ge
  obtain ⟨behind, whole, -⟩ := Library.exists_append_of_weight_le Char.utf8Size_pos
    (by rw [rest, List.append_assoc] :
      (upto ++ name.toList) ++ after' = inside.toList ++ after)
    (show bytes (upto ++ name.toList) ≤ bytes inside.toList by rw [bytes_append]; omega)
  obtain ⟨position, position_le, found⟩ : ∃ position ≤ Library.weight Char.utf8Size upto,
      Library.find Char.utf8Size name.toList (upto ++ name.toList ++ behind) = some position :=
    Library.exists_find_le
  rw [← whole] at found
  obtain ⟨left, right, around, rfl⟩ := Library.exists_of_find found
  change bytes left ≤ bytes upto at position_le
  refine ⟨bytes left, found, ?_, ?_,
    textIn_eq_some.mpr ⟨before ++ left, right ++ after, ?_, ?_, ?_⟩⟩
  · rw [bytes_append]
    omega
  · simp only [around, bytes_append, utf8ByteSize_eq]
    omega
  · rw [split, around]
    simp only [List.append_assoc]
  · rw [bytes_append]
  · simp only [bytes_append, utf8ByteSize_eq, Nat.add_assoc]

/-- A definition is located at a place that reads like its name. If that is not where its name is,
no other name is there either. -/
theorem exists_locate (solc : FromSolc flattener place) (mem : d ∈ flattener.definitions) :
    ∃ loc, flattener.locate d.1 d.2 = some loc ∧ loc.path = d.1 ∧
      flattener.readLocation loc = some d.2.name ∧
      (loc = place d ∨ ∀ d' ∈ flattener.definitions, ¬ IsSite flattener place d' loc) := by
  cases known : d.2.nameLocation with
  | some src =>
    have getEq := solc.nameLocation d mem src known
    exact ⟨place d, by rw [Flattener.locate, known]; exact getEq, solc.path d mem,
      solc.reads d mem, .inl rfl⟩
  | none =>
    obtain ⟨start, length, src, someEq, le, ge, first⟩ := solc.inside d mem known
    obtain ⟨text, reads⟩ := Option.isSome_iff_exists.mp someEq
    obtain ⟨source, getEq, inside⟩ := readLocation_eq_some.mp reads
    obtain ⟨source', getEq', name⟩ := readLocation_eq_some.mp (solc.reads d mem)
    rw [solc.path d mem] at getEq'
    obtain rfl : source = source' := Option.some.inj (getEq.symm.trans getEq')
    dsimp only at getEq inside
    obtain ⟨position, found, before, within, named⟩ := exists_find inside name le ge
    have small := (start + length).isLt
    have offset : ∀ n, start.toNat + n ≤ (start + length).toNat →
        (start + BitVec.ofNat 64 n).toNat = start.toNat + n := by
      intro n le
      rw [BitVec.toNat_add, BitVec.toNat_ofNat]
      omega
    rw [← offset position (by omega), ← offset _ within] at named
    have located : flattener.locate d.1 d.2 = some ⟨d.1, start + BitVec.ofNat 64 position,
        start + BitVec.ofNat 64 (position + d.2.name.utf8ByteSize)⟩ := by
      simp [Flattener.locate, known, getEq, src, inside, found, -BitVec.toNat_add]
    have reads' : flattener.readLocation ⟨d.1, start + BitVec.ofNat 64 position,
        start + BitVec.ofNat 64 (position + d.2.name.utf8ByteSize)⟩ = some d.2.name :=
      readLocation_eq_some.mpr ⟨source, getEq, named⟩
    refine ⟨_, located, rfl, reads', ?_⟩
    by_cases here : start.toNat + position = (place d).start.toNat
    · left
      have at_start := offset position (by omega)
      have at_stop := offset _ within
      have stop := stop_eq name
      refine (ItemLocation.mk.injEq ..).mpr ⟨(solc.path d mem).symm, ?_, ?_⟩
      · exact BitVec.eq_of_toNat_eq (by omega)
      · exact BitVec.eq_of_toNat_eq (by omega)
    · right
      intro d' mem' site
      have at_start := offset position (by omega)
      exact first d' mem' _ site rfl (by dsimp only; omega) (by dsimp only; omega) reads'

theorem Carries.eq_of_mem {updates : Updates} {text new : String}
    (carries : Carries flattener updates loc text) (update : (loc, new) ∈ updates) :
    new = text := by
  rcases carries with ⟨-, unique⟩ | ⟨none, -⟩
  · exact unique new update
  · exact absurd update (none new)

end Locate

/-! ## Definitions -/

section Definitions

variable {flattener : Flattener} {place : Definition → ItemLocation} {order : IterationOrder}
  {d d' : Definition} {name : String}

theorem definition_of_topLevel {node : FileNode} {named : Named}
    (collected : node.topLevelDefinition = some named) : node.definition = some named := by
  cases node <;> first | exact collected | cases collected

theorem function_collected {node : FileNode} {named : Named}
    (function : node.function = some named) : node.topLevelDefinition = some named := by
  cases node <;> first | exact function | cases function

theorem select_sublist {kind kind' : FileNode → Option Named}
    (sub : ∀ node named, kind node = some named → kind' node = some named) :
    (flattener.select kind).Sublist (flattener.select kind') := by
  have nodes : ∀ nodes : List FileNode,
      (nodes.filterMap kind).Sublist (nodes.filterMap kind') := by
    intro nodes
    induction nodes with
    | nil => exact .slnil
    | cons node nodes ih =>
      cases eq : kind node with
      | none =>
        rw [List.filterMap_cons_none eq, List.filterMap_cons]
        cases kind' node <;> grind
      | some named =>
        rw [List.filterMap_cons_some eq, List.filterMap_cons_some (sub node named eq)]
        exact ih.cons_cons named
  rw [Flattener.select, Flattener.select]
  induction flattener.asts with
  | nil => exact .slnil
  | cons ast asts ih =>
    rw [List.flatMap_cons, List.flatMap_cons]
    exact ((nodes ast.2.nodes).map _).append ih

theorem topLevel_sublist :
    flattener.topLevelDefinitions.Sublist flattener.definitions :=
  select_sublist fun _ _ => definition_of_topLevel

theorem mem_definitions (collected : d ∈ flattener.topLevelDefinitions) :
    d ∈ flattener.definitions := topLevel_sublist.subset collected

theorem Overloads.collected (overloads : Overloads flattener d d') :
    d ∈ flattener.topLevelDefinitions ∧ d' ∈ flattener.topLevelDefinitions :=
  have sub : (flattener.select FileNode.function).Sublist flattener.topLevelDefinitions :=
    select_sublist fun _ _ => function_collected
  ⟨sub.subset overloads.1, sub.subset overloads.2.1⟩

theorem eq_of_id (solc : FromSolc flattener place) (mem : d ∈ flattener.definitions)
    (mem' : d' ∈ flattener.definitions) (same : d.2.id = d'.2.id) : d = d' :=
  List.inj_on_of_nodup_map solc.ids mem mem' same

/-- Where a definition is located. -/
def Flattener.site (flattener : Flattener) (d : Definition) : ItemLocation :=
  (flattener.locate d.1 d.2).getD ⟨d.1, 0, 0⟩

/-- The definitions of a name, as they are collected. -/
def Flattener.group (flattener : Flattener) (name : String) : List (Id × ItemLocation) :=
  (flattener.topLevelDefinitions.filter (·.2.name = name)).map fun d =>
    (d.2.id, flattener.site d)

/-- The definitions of a name in the order of their numbers. -/
def Flattener.ordered (flattener : Flattener) (order : IterationOrder) (name : String) :
    List (Id × ItemLocation) :=
  if 1 < flattener.count name then
    Library.sortBy flattener.comparePositions (order.arrange 1 (flattener.group name))
  else order.arrange 1 (flattener.group name)

/-- The names that the definitions of a name get. -/
def Flattener.assignedTo (flattener : Flattener) (order : IterationOrder) (name : String) :
    List ((Id × ItemLocation) × String) :=
  (flattener.ordered order name).zipIdx.map fun (id, i) =>
    (id, if 1 < flattener.count name then numbered name i else name)

/-- The name that a collected definition gets. -/
def Flattener.assignedName (flattener : Flattener) (order : IterationOrder) (d : Definition) :
    String :=
  if 1 < flattener.count d.2.name then
    numbered d.2.name ((flattener.ordered order d.2.name).idxOf (d.2.id, flattener.site d))
  else d.2.name

/-- All names that are given. -/
def Flattener.assigned (flattener : Flattener) (order : IterationOrder) :
    List ((Id × ItemLocation) × String) :=
  (order.arrange 0 (flattener.topLevelDefinitions.map (·.2.name)).dedup).flatMap
    (flattener.assignedTo order)

theorem locate_eq_site (solc : FromSolc flattener place) (mem : d ∈ flattener.definitions) :
    flattener.locate d.1 d.2 = some (flattener.site d) := by
  obtain ⟨loc, eq, -⟩ := exists_locate solc mem
  rw [Flattener.site, eq, Option.getD_some]

theorem site_path (solc : FromSolc flattener place) (mem : d ∈ flattener.definitions) :
    (flattener.site d).path = d.1 := by
  obtain ⟨loc, eq, path, -⟩ := exists_locate solc mem
  rw [Flattener.site, eq, Option.getD_some, path]

theorem readLocation_site (solc : FromSolc flattener place) (mem : d ∈ flattener.definitions) :
    flattener.readLocation (flattener.site d) = some d.2.name := by
  obtain ⟨loc, eq, -, reads, -⟩ := exists_locate solc mem
  rw [Flattener.site, eq, Option.getD_some, reads]

/-- A location that is some name is that of the definition located there. -/
theorem site_eq_place (solc : FromSolc flattener place) (mem : d ∈ flattener.definitions)
    (mem' : d' ∈ flattener.definitions) (site : IsSite flattener place d' (flattener.site d)) :
    flattener.site d = place d := by
  obtain ⟨loc, eq, -, -, here⟩ := exists_locate solc mem
  have eq' : flattener.site d = loc := by rw [Flattener.site, eq, Option.getD_some]
  rw [eq'] at site ⊢
  exact here.resolve_right fun nowhere => nowhere d' mem' site

theorem mem_group {x : Id × ItemLocation} : x ∈ flattener.group name ↔
    ∃ d ∈ flattener.topLevelDefinitions, d.2.name = name ∧ x = (d.2.id, flattener.site d) := by
  simp [Flattener.group, and_assoc, eq_comm]

theorem ordered_perm : (flattener.ordered order name).Perm (flattener.group name) := by
  rw [Flattener.ordered]
  split_ifs
  · exact Library.sortBy_perm.trans (order.perm ..)
  · exact order.perm ..

theorem length_ordered (order : IterationOrder) :
    (flattener.ordered order name).length = flattener.count name := by
  rw [ordered_perm.length_eq, Flattener.group, List.length_map, Flattener.count]

theorem nodup_ordered (solc : FromSolc flattener place) :
    (flattener.ordered order name).Nodup := by
  rw [ordered_perm.nodup_iff]
  have distinct := (solc.ids.sublist (topLevel_sublist.map _)).of_map
  refine (distinct.filter _).map_on fun d mem d' mem' same => ?_
  exact eq_of_id solc (mem_definitions (List.mem_filter.mp mem).1)
    (mem_definitions (List.mem_filter.mp mem').1) (Prod.mk.inj same).1

theorem mem_assignedTo (solc : FromSolc flattener place)
    {x : (Id × ItemLocation) × String} : x ∈ flattener.assignedTo order name ↔
      ∃ d ∈ flattener.topLevelDefinitions, d.2.name = name ∧
        x = ((d.2.id, flattener.site d), flattener.assignedName order d) := by
  rw [Flattener.assignedTo, List.mem_map]
  constructor
  · rintro ⟨⟨_, i⟩, getEq, rfl⟩
    rw [List.mk_mem_zipIdx_iff_getElem?] at getEq
    obtain ⟨d, collected, rfl, same⟩ :=
      mem_group.mp (ordered_perm.mem_iff.mp (List.mem_of_getElem? getEq))
    obtain ⟨lt, eq⟩ := List.getElem?_eq_some_iff.mp getEq
    refine ⟨d, collected, rfl, ?_⟩
    rw [Flattener.assignedName, ← same, ← eq, (nodup_ordered solc).idxOf_getElem]
  · rintro ⟨d, collected, rfl, rfl⟩
    have mem : (d.2.id, flattener.site d) ∈ flattener.ordered order d.2.name :=
      ordered_perm.mem_iff.mpr (mem_group.mpr ⟨d, collected, rfl, rfl⟩)
    refine ⟨(_, _), List.mk_mem_zipIdx_iff_getElem?.mpr (List.getElem?_idxOf mem), ?_⟩
    rw [Flattener.assignedName]

theorem mem_assigned (solc : FromSolc flattener place) {x : (Id × ItemLocation) × String} :
    x ∈ flattener.assigned order ↔ ∃ d ∈ flattener.topLevelDefinitions,
      x = ((d.2.id, flattener.site d), flattener.assignedName order d) := by
  simp only [Flattener.assigned, List.mem_flatMap, (order.perm ..).mem_iff, List.mem_dedup,
    List.mem_map, mem_assignedTo solc]
  constructor
  · rintro ⟨_, -, d, collected, -, eq⟩
    exact ⟨d, collected, eq⟩
  · rintro ⟨d, collected, eq⟩
    exact ⟨d.2.name, ⟨d, collected, rfl⟩, d, collected, rfl, eq⟩

end Definitions

/-! ## The run -/

section Run

variable {flattener : Flattener} {place : Definition → ItemLocation} {order : IterationOrder}
  {references : List Reference} {state : Names × Updates} {loc : ItemLocation} {text : String}
  {id : Id} {names : Names} {updates : Updates}

theorem mem_foldl_insert {ι : Type} {new : ι → ItemLocation × String} {l : List ι}
    {update : ItemLocation × String} :
    update ∈ l.foldl (fun updates x => updates.insert (new x)) updates ↔
      update ∈ updates ∨ ∃ x ∈ l, new x = update := by
  induction l generalizing updates with
  | nil => simp
  | cons x l ih =>
    rw [List.foldl_cons, ih, List.mem_insert_iff]
    simp only [List.mem_cons, exists_eq_or_imp, eq_comm (a := update)]
    tauto

theorem mem_renameDefinition {definition : (Id × ItemLocation) × String} :
    (loc, text) ∈ (renameDefinition order references state definition).2 ↔
      (loc, text) ∈ state.2 ∨ definition.2 = text ∧
        (definition.1.2 = loc ∨ (definition.1.1, loc) ∈ references) := by
  obtain ⟨⟨id, here⟩, name⟩ := definition
  simp only [renameDefinition, mem_foldl_insert, List.mem_insert_iff, (order.perm ..).mem_iff,
    List.mem_filter, decide_eq_true_eq, Prod.mk.injEq, Prod.exists]
  grind

theorem mem_foldl_renameDefinition {assigned : List ((Id × ItemLocation) × String)} :
    (loc, text) ∈ (assigned.foldl (renameDefinition order references) state).2 ↔
      (loc, text) ∈ state.2 ∨ ∃ definition ∈ assigned, definition.2 = text ∧
        (definition.1.2 = loc ∨ (definition.1.1, loc) ∈ references) := by
  induction assigned generalizing state with
  | nil => simp
  | cons definition assigned ih =>
    rw [List.foldl_cons, ih, mem_renameDefinition, List.exists_mem_cons_iff, or_assoc]

theorem renameDefinition_fst {definition : (Id × ItemLocation) × String} :
    (renameDefinition order references state definition).1 id =
      if id = definition.1.1 then some definition.2 else state.1 id := Function.update_apply ..

/-- A name that is returned was given to a definition. -/
theorem exists_of_foldl_renameDefinition {assigned : List ((Id × ItemLocation) × String)}
    (named : (assigned.foldl (renameDefinition order references) state).1 id = some text) :
    state.1 id = some text ∨
      ∃ definition ∈ assigned, definition.1.1 = id ∧ definition.2 = text := by
  induction assigned generalizing state with
  | nil => exact .inl named
  | cons definition assigned ih =>
    rcases ih named with first | ⟨later, mem, eq⟩
    · rw [renameDefinition_fst] at first
      split_ifs at first with same
      · exact .inr ⟨definition, .head _, same.symm, Option.some.inj first⟩
      · exact .inl first
    · exact .inr ⟨later, .tail _ mem, eq⟩

/-- Every definition has a name after the run. -/
theorem isSome_foldl_renameDefinition {assigned : List ((Id × ItemLocation) × String)}
    (given : (state.1 id).isSome = true ∨ ∃ definition ∈ assigned, definition.1.1 = id) :
    ((assigned.foldl (renameDefinition order references) state).1 id).isSome = true := by
  induction assigned generalizing state with
  | nil => simpa using given
  | cons definition assigned ih =>
    refine ih ?_
    rw [renameDefinition_fst]
    split_ifs with same
    · exact .inl rfl
    · refine given.imp_right ?_
      rintro ⟨later, mem, rfl⟩
      exact ⟨later, (List.mem_cons.mp mem).resolve_left (same <| congrArg _ <| congrArg _ ·), rfl⟩

variable (solc : FromSolc flattener place)
include solc

theorem collectTopLevelDefinitions_eq : flattener.collectTopLevelDefinitions =
    some (flattener.topLevelDefinitions.map fun d => (d.2.name, d.2.id, flattener.site d)) := by
  have located : ∀ d ∈ flattener.topLevelDefinitions,
      (do let loc ← flattener.locate d.1 d.2; return (d.2.name, d.2.id, loc)) =
        some (d.2.name, d.2.id, flattener.site d) := by
    intro d collected
    rw [locate_eq_site solc (mem_definitions collected)]
    rfl
  have distinct : (flattener.topLevelDefinitions.map fun d =>
      (d.2.name, d.2.id, flattener.site d)).Nodup := by
    have ids := solc.ids.sublist (topLevel_sublist.map _)
    refine .of_map (fun entry => entry.2.1) ?_
    rwa [List.map_map]
  have run : flattener.collectTopLevelDefinitions =
      (flattener.topLevelDefinitions.mapM fun (d : Definition) => do
        let loc ← flattener.locate d.1 d.2
        return (d.2.name, d.2.id, loc)).bind fun definitions => some definitions.dedup := rfl
  rw [run, Library.mapM_eq_some_map located, Option.bind_some, distinct.dedup]

theorem sortByPosition_eq (name : String) :
    flattener.sortByPosition (order.arrange 1 (flattener.group name)) =
      some (Library.sortBy flattener.comparePositions
        (order.arrange 1 (flattener.group name))) := by
  rw [Flattener.sortByPosition, if_pos]
  intro x mem
  obtain ⟨d, collected, rfl, rfl⟩ := mem_group.mp ((order.perm ..).mem_iff.mp mem)
  have mem' := mem_definitions collected
  rw [site_path solc mem']
  exact solc.ordered d mem'

theorem renameGroup_eq (name : String) :
    flattener.renameGroup order references state name (flattener.group name) =
      some ((flattener.assignedTo order name).foldl (renameDefinition order references) state) := by
  have length : (flattener.group name).length = flattener.count name := by
    rw [Flattener.group, List.length_map, Flattener.count]
  rw [Flattener.renameGroup, length, Flattener.assignedTo, Flattener.ordered]
  by_cases several : 1 < flattener.count name
  · simp only [several, sortByPosition_eq solc]
    rfl
  · simp only [several]
    rfl

/-- The definitions are renamed one by one. -/
theorem renameTopLevelDefinitions_eq :
    flattener.renameTopLevelDefinitions order updates =
      some ((flattener.assigned order).foldl
        (renameDefinition order flattener.collectReferences) (fun _ => none, updates)) := by
  rw [Flattener.renameTopLevelDefinitions, collectTopLevelDefinitions_eq solc,
    Option.bind_eq_bind, Option.bind_some]
  have groups : ∀ name, ((flattener.topLevelDefinitions.map fun d =>
      (d.2.name, d.2.id, flattener.site d)).filter (·.1 = name)).map Prod.snd =
        flattener.group name := by
    intro name
    rw [List.filter_map, List.map_map]
    rfl
  dsimp only
  simp only [groups, renameGroup_eq solc]
  rw [List.map_map, Flattener.assigned, List.foldl_flatMap]
  exact List.foldlM_pure

end Run

end FoundryCore.Flatten
