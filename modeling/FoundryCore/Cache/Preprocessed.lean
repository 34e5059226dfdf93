import FoundryCore.Cache.Dirty
import FoundryCore.Cache.Marking

/-!
# Dirty files of a project with preprocessing

Tests and scripts depend on source files only through their interface, so a change of a source
file need not reach them. The files are marked in one pass over the graph in the order of their
paths; this connects the pass to the account of such passes, and says when what is removed is
closed under the rules and does not depend on the order.
-/

open Std Relation

namespace FoundryCore.ArtifactsCacheInner

variable {S γ α δ β : Type} {H : Hashes} {parser : SourceParser δ} {fs : FileSystem}
  {order : HashOrder} {inner : ArtifactsCacheInner S γ α δ β} {edges : GraphEdges δ}

/-! ## One visit -/

/-- Whether a dirty import makes the file dirty. -/
def concerns (inner : ArtifactsCacheInner S γ α δ β) (file : PathBuf) (dirty : List PathBuf)
    (importFile : PathBuf) : Bool :=
  importFile ∈ dirty && (inner.isSourceFile file || file ∈ inner.cache.mocks ||
    !inner.isSourceFile importFile || inner.isDirty importFile true)

/-- The dirty files after a file was found dirty because of its imports. -/
def markFile (order : HashOrder) (inner : ArtifactsCacheInner S γ α δ β) (edges : GraphEdges δ)
    (file : PathBuf) (dirty : List PathBuf) : List PathBuf :=
  (if !inner.isSourceFile file && file ∈ inner.cache.mocks
    then populateDirtyFiles order edges file dirty else dirty).insert file

theorem foldl_mark_of_subset {next : List PathBuf → PathBuf → List PathBuf} {fuel : Nat}
    (l : List PathBuf) {dirty : List PathBuf} (sub : ∀ y ∈ l, y ∈ dirty) :
    l.foldl (fun seen y => if y ∈ seen then seen else Library.mark next fuel y (y :: seen)) dirty =
      dirty := by
  induction l with
  | nil => rfl
  | cons y l ih =>
    simp only [List.forall_mem_cons] at sub
    simp [sub.1, ih sub.2]

/-- Nothing is left to mark when all importers are dirty. -/
theorem populateDirtyFiles_of_subset {file : PathBuf} {dirty : List PathBuf}
    (sub : ∀ y ∈ edges.importers file, y ∈ dirty) :
    populateDirtyFiles order edges file dirty = dirty :=
  foldl_mark_of_subset _ fun y mem => sub y ((order.perm _ _).mem_iff.mp mem)

/-- The imports that are left do not change the marks of a file that is marked. -/
theorem visitImports_marked {file : PathBuf} {dirty : List PathBuf} (mem : file ∈ dirty)
    (behind : file ∈ inner.cache.mocks → inner.isSourceFile file = false →
      ∀ y ∈ edges.importers file, y ∈ dirty) (rest : List PathBuf) :
    inner.visitImports order edges file rest dirty = dirty := by
  induction rest with
  | nil => rfl
  | cons i rest ih =>
    rw [visitImports]
    cases source : inner.isSourceFile file
    · by_cases mock : file ∈ inner.cache.mocks
      · simp [mock, populateDirtyFiles_of_subset (behind mock source), mem, ih]
      · simp [mock, mem, ih]
    · simp [mem, ih]

theorem visitImports_eq {file : PathBuf} {dirty : List PathBuf}
    (behind : ∀ y ∈ edges.importers file, y ∈ populateDirtyFiles order edges file dirty)
    (rest : List PathBuf) :
    inner.visitImports order edges file rest dirty =
      if rest.any (inner.concerns file dirty) then inner.markFile order edges file dirty
      else dirty := by
  induction rest with
  | nil => rfl
  | cons i rest ih =>
    have marked : inner.isSourceFile file = false →
        inner.visitImports order edges file rest (inner.markFile order edges file dirty) =
          inner.markFile order edges file dirty := fun plain =>
      visitImports_marked (by simp [markFile]) (fun mock _ y mem => by
        simp [markFile, plain, mock, behind y mem]) rest
    rw [visitImports]
    cases source : inner.isSourceFile file
    · by_cases alarm : inner.concerns file dirty i = true
      · have marked := marked source
        simp only [markFile, source] at marked
        simp only [concerns, source, Bool.false_or, Bool.and_eq_true, Bool.or_eq_true] at alarm
        simp only [List.any_cons, concerns, markFile, source]
        by_cases mock : file ∈ inner.cache.mocks <;> simp_all
      · rw [List.any_cons, Bool.not_eq_true _ |>.mp alarm, Bool.false_or, ← ih]
        simp only [concerns, source, Bool.false_or, Bool.and_eq_true, Bool.or_eq_true] at alarm
        by_cases mock : file ∈ inner.cache.mocks <;> simp_all
    · by_cases alarm : i ∈ dirty <;> simp_all [concerns, markFile]

/-! ## Interfaces -/

/-- What identifies the interface of a source file. -/
def interfaceHash (H : Hashes) (content : String) (file : PathBuf) : String :=
  (H.interfaceReprHash content file).getD (H.contentHash content)

/-- A source file of the graph without an entry or with another interface than its entry says. -/
def InterfaceChanged (H : Hashes) (inner : ArtifactsCacheInner S γ α δ β) (graph : Graph δ)
    (file : PathBuf) : Prop :=
  inner.isSourceFile file = true ∧ ∃ node ∈ graph.nodes, node.path = file ∧
    ∀ entry, inner.cache.files[file]? = some entry →
      entry.interfaceReprHash ≠ some (interfaceHash H node.source.content file)

theorem interfaceReprHashes_fillHash (H : Hashes) {file : PathBuf} (source : Source)
    (preprocessed : inner.cache.preprocessed = true)
    (fresh : inner.contentHashes[file]? = none) (f : PathBuf) :
    (inner.fillHash H (file, source)).interfaceReprHashes[f]? = inner.interfaceReprHashes[f]?.or
      (if f = file ∧ inner.isSourceFile file = true then some (interfaceHash H source.content file)
        else none) := by
  have content : inner.contentHash H source file = (H.contentHash source.content,
      { inner with contentHashes :=
          inner.contentHashes.insert file (H.contentHash source.content) }) := by
    simp [contentHash, fresh]
  simp only [fillHash, content, preprocessed, Bool.true_and]
  have same : ∀ contentHashes, isSourceFile { inner with contentHashes } file =
      inner.isSourceFile file := fun _ => rfl
  rw [same]
  cases source' : inner.isSourceFile file
  · simp
  · simp only [if_true, and_true]
    unfold interfaceReprHash
    cases known : inner.interfaceReprHashes[file]? with
    | some hash =>
      by_cases getEq : f = file <;> simp [known, getEq]
    | none =>
      by_cases getEq : f = file
      · subst getEq
        cases repr : H.interfaceReprHash source.content f <;>
          simp [known, repr, interfaceHash, contentHash]
      · cases H.interfaceReprHash source.content file <;>
          simp [getEq, contentHash, Library.getElem?_insert_eq]

theorem interfaceReprHashes_foldl (H : Hashes) (inner : ArtifactsCacheInner S γ α δ β)
    (l : List (PathBuf × Source)) (distinct : (l.map Prod.fst).Nodup)
    (preprocessed : inner.cache.preprocessed = true)
    (fresh : ∀ entry ∈ l, inner.contentHashes[entry.1]? = none) (f : PathBuf) :
    (∀ source, (f, source) ∈ l → inner.isSourceFile f = true →
      (l.foldl (fillHash H) inner).interfaceReprHashes[f]? =
        inner.interfaceReprHashes[f]?.or (some (interfaceHash H source.content f))) ∧
    (f ∉ l.map Prod.fst →
      (l.foldl (fillHash H) inner).interfaceReprHashes[f]? = inner.interfaceReprHashes[f]?) := by
  induction l generalizing inner with
  | nil => simp
  | cons entry l ih =>
    obtain ⟨file, text⟩ := entry
    simp only [List.map_cons, List.nodup_cons] at distinct
    simp only [List.forall_mem_cons] at fresh
    have here := interfaceReprHashes_fillHash H text preprocessed fresh.1 f
    obtain ⟨c, i, eq, spec⟩ := fillHash_spec H inner file text
    rw [List.foldl_cons]
    rw [eq] at here ⊢
    obtain ⟨inside, outside⟩ := ih
      { inner with contentHashes := c, interfaceReprHashes := i } distinct.2 preprocessed
      fun entry mem => by
        have : entry.1 ≠ file := by
          rintro rfl
          exact distinct.1 (List.mem_map_of_mem mem)
        simp [spec, this, fresh.2 entry mem]
    simp only at here inside outside
    refine ⟨fun source mem source' => ?_, fun out => ?_⟩
    · obtain head | tail := List.mem_cons.mp mem
      · obtain ⟨rfl, rfl⟩ := Prod.mk.inj head
        rw [outside distinct.1, here, if_pos ⟨rfl, source'⟩]
      · have ne : f ≠ file := by
          rintro rfl
          exact distinct.1 (List.mem_map_of_mem (f := Prod.fst) tail)
        rw [inside source tail source', here]
        simp [ne]
    · simp only [List.map_cons, List.mem_cons, not_or] at out
      rw [outside out.2, here]
      simp [out.1]

/-- With the hashes filled in, the files whose interface changed are found dirty by it. -/
theorem isDirty_interface (preprocessed : inner.cache.preprocessed = true)
    (hashes : inner.contentHashes = ∅) (interfaces : inner.interfaceReprHashes = ∅)
    {graph : Graph δ} {sources : Sources} {paths : ProjectPathsConfig}
    (r : graph.Resolved parser fs paths sources) {f : PathBuf} (mem : f ∈ graph.edges.indices)
    (source : inner.isSourceFile f = true) :
    (inner.fillHashes H graph.intoSources.1).isDirty f true = true ↔
      inner.InterfaceChanged H graph f := by
  obtain ⟨node, node_mem, path⟩ := r.mem_indices.mp mem
  have getEq := r.getElem?_intoSources.mpr ⟨node, node_mem, path, rfl⟩
  have filled := (interfaceReprHashes_foldl H inner graph.intoSources.1.toList (by
    rw [ExtTreeMap.map_fst_toList_eq_keys]
    exact ExtTreeMap.nodup_keys) preprocessed (by simp [hashes]) f).1 _
      (ExtTreeMap.mem_toList_iff_getElem?_eq_some.mpr getEq) source
  rw [interfaces, ExtTreeMap.getElem?_empty, Option.none_or] at filled
  obtain ⟨c, i, eq, -⟩ := fillHashes_spec H inner graph.intoSources.1
  have filled' : i[f]? = some (interfaceHash H node.source.content f) := by
    rw [fillHashes] at eq
    rw [eq] at filled
    exact filled
  have changed : inner.InterfaceChanged H graph f ↔
      ∀ entry, inner.cache.files[f]? = some entry →
        entry.interfaceReprHash ≠ some (interfaceHash H node.source.content f) := by
    refine ⟨fun ⟨_, node', mem', path', differs⟩ => ?_,
      fun differs => ⟨source, node, node_mem, path, differs⟩⟩
    have same := r.getElem?_intoSources.mpr ⟨node', mem', path', rfl⟩
    rw [getEq, Option.some.injEq] at same
    rwa [← same] at differs
  rw [changed, eq]
  unfold isDirty isDirtyImpl
  cases entry : inner.cache.files[f]? with
  | none => simp [Except.isOk, Except.toBool]
  | some e =>
    by_cases same : e.interfaceReprHash = some (interfaceHash H node.source.content f) <;>
      simp [preprocessed, filled', same, Except.isOk, Except.toBool]

/-! ## The pass over the graph -/

/-- What the pass looks at. -/
def marking (H : Hashes) (inner : ArtifactsCacheInner S γ α δ β) (graph : Graph δ) :
    Marking PathBuf where
  imports := graph.edges.ImportsDirectly
  src f := inner.isSourceFile f = true
  changed := inner.InterfaceChanged H graph
  mock m := m ∈ inner.cache.mocks

/-- The visit of one file. -/
def visitFile (order : HashOrder) (inner : ArtifactsCacheInner S γ α δ β) (edges : GraphEdges δ)
    (file : PathBuf) (dirty : List PathBuf) : List PathBuf :=
  if file ∈ dirty then dirty
  else inner.visitImports order edges file (order.arrange dirty (edges.imports file)) dirty

/-- Marking from a file marks the files that import it, directly or not, and stops at marks. -/
theorem isMark_populateDirtyFiles (order : HashOrder) {graph : Graph δ} {sources : Sources}
    {paths : ProjectPathsConfig}
    (r : graph.Resolved parser fs paths sources) (file : PathBuf) (dirty : List PathBuf) :
    Library.IsMark (fun x y => graph.edges.ImportsDirectly y x) file dirty
      (populateDirtyFiles order graph.intoSources.2 file dirty) :=
  Library.isMark_mark (R := fun x y => graph.intoSources.2.ImportsDirectly y x)
    (U := graph.edges.indices.keys.toFinset)
    (fun seen x y => (order.perm _ _).mem_iff.trans r.aligned_intoSources.mem_importers)
    (fun x y edge => by
      have edge : graph.edges.ImportsDirectly y x := edge
      simpa using edge.mem.1)
    (Nat.lt_succ_of_le ((Finset.card_filter_le _ _).trans
      ((List.toFinset_card_le _).trans ExtTreeMap.length_keys.le)))

section Visit

variable (preprocessed : inner.cache.preprocessed = true)
  (hashes : inner.contentHashes = ∅) (interfaces : inner.interfaceReprHashes = ∅)
  {graph : Graph δ} {sources : Sources} {paths : ProjectPathsConfig}
  (r : graph.Resolved parser fs paths sources)
include preprocessed hashes interfaces r

theorem any_concerns_iff (H : Hashes) (order : HashOrder) (file : PathBuf)
    (dirty seen : List PathBuf) :
    (order.arrange seen (graph.intoSources.2.imports file)).any
        ((inner.fillHashes H graph.intoSources.1).concerns file dirty) = true ↔
      (inner.marking H graph).Alarmed (Marking.marks dirty) file := by
  have changed := fun f => isDirty_interface (H := H) preprocessed hashes interfaces r (f := f)
  obtain ⟨c, i, eq, -⟩ := fillHashes_spec H inner graph.intoSources.1
  rw [eq] at changed ⊢
  simp only [List.any_eq_true, (order.perm _ _).mem_iff, r.aligned_intoSources.mem_imports,
    concerns, Bool.and_eq_true, Bool.or_eq_true, decide_eq_true_eq, Bool.not_eq_true',
    Marking.Alarmed, Marking.Heeds, marking]
  refine exists_congr fun importFile => ?_
  rw [and_left_comm]
  refine and_congr_right fun _ => and_congr_right fun path => ?_
  have known : importFile ∈ graph.edges.indices := by
    obtain ⟨x, -, last⟩ := TransGen.tail'_iff.mp path
    exact last.mem.2
  cases source : isSourceFile { inner with contentHashes := c, interfaceReprHashes := i } importFile
  · have source' : inner.isSourceFile importFile = false := source
    simp [source']
  · have source' : inner.isSourceFile importFile = true := source
    simp only [source', changed importFile known source', Bool.true_eq_false, not_true_eq_false,
      false_or, or_false]
    rw [or_assoc]
    exact Iff.rfl

/-- The pass visits a file as its account says. -/
theorem isVisit_visitFile (H : Hashes) (order : HashOrder) (file : PathBuf) (dirty : List PathBuf) :
    (inner.marking H graph).IsVisit file dirty
      ((inner.fillHashes H graph.intoSources.1).visitFile order graph.intoSources.2 file
        dirty) := by
  have marked := isMark_populateDirtyFiles order r file dirty
  have alarmed := any_concerns_iff preprocessed hashes interfaces r H order file dirty dirty
  have importers : ∀ y, y ∈ graph.intoSources.2.importers file ↔
      graph.edges.ImportsDirectly y file := fun y => r.aligned_intoSources.mem_importers
  have eq :
      (inner.fillHashes H graph.intoSources.1).visitFile order graph.intoSources.2 file dirty =
      if file ∈ dirty then dirty
      else if (order.arrange dirty (graph.intoSources.2.imports file)).any
          ((inner.fillHashes H graph.intoSources.1).concerns file dirty)
        then inner.markFile order graph.intoSources.2 file dirty else dirty := by
    rw [visitFile, visitImports_eq fun y mem => marked.next y ((importers y).mp mem)]
    obtain ⟨c, i, eq, -⟩ := fillHashes_spec H inner graph.intoSources.1
    rw [eq]
    rfl
  rw [eq]
  by_cases mem : file ∈ dirty
  · simp only [mem, if_true]
    exact ⟨fun _ h => h, fun _ _ h => h, fun _ => mem, fun _ _ h => .inl h,
      fun _ y h fresh => absurd h fresh, fun P all _ _ => all⟩
  by_cases alarm : (inner.marking H graph).Alarmed (Marking.marks dirty) file
  · rw [if_neg mem, if_pos (alarmed.mpr alarm)]
    have quiet :
        ¬ (file ∈ dirty ∨ ¬ (inner.marking H graph).Alarmed (Marking.marks dirty) file) := by
      simp [mem, alarm]
    by_cases spreads : (inner.marking H graph).Spreads file
    · have result : inner.markFile order graph.intoSources.2 file dirty =
          (populateDirtyFiles order graph.intoSources.2 file dirty).insert file := by
        have plain : inner.isSourceFile file = false := by simpa [marking] using spreads.1
        have mock : file ∈ inner.cache.mocks := spreads.2
        simp [markFile, plain, mock]
      rw [result]
      refine ⟨fun x h => List.mem_insert_of_mem (marked.subset x h), (absurd · quiet),
        fun _ => List.mem_insert_self, absurd spreads, fun _ y new fresh x edge => ?_,
        fun P all self step x new => ?_⟩
      · obtain rfl | new := List.mem_insert_iff.mp new
        · exact List.mem_insert_of_mem (marked.next x edge)
        · exact List.mem_insert_of_mem (marked.closed y new fresh x edge)
      · obtain rfl | new := List.mem_insert_iff.mp new
        · exact self
        · exact marked.least P all (step file self mem) step x new
    · have result : inner.markFile order graph.intoSources.2 file dirty = dirty.insert file := by
        have : ¬ (inner.isSourceFile file = false ∧ file ∈ inner.cache.mocks) := fun both =>
          spreads ⟨by simp [marking, both.1], both.2⟩
        simp only [markFile]
        rw [if_neg (by simpa using this)]
      rw [result]
      refine ⟨fun x h => List.mem_insert_of_mem h, (absurd · quiet), fun _ => List.mem_insert_self,
        fun _ x new => (List.mem_insert_iff.mp new).symm, fun loud => absurd loud spreads,
        fun P all self _ x new => ?_⟩
      obtain rfl | new := List.mem_insert_iff.mp new
      · exact self
      · exact all x new
  · rw [if_neg mem, if_neg (mt alarmed.mp alarm)]
    exact ⟨fun _ h => h, fun _ _ h => h, fun loud => absurd loud alarm, fun _ _ h => .inl h,
      fun _ y h fresh => absurd h fresh, fun P all _ _ => all⟩

end Visit

/-! ## What is removed -/

/-- The files that are dirty before their imports are looked at. -/
def dirtyAtFirst (H : Hashes) (fs : FileSystem) (order : HashOrder)
    (inner : ArtifactsCacheInner S γ α δ β) (graph : Graph δ) : List PathBuf :=
  graph.intoSources.1.keys.foldl (fun dirty file =>
    if (inner.fillHashes H graph.intoSources.1).isDirty file false then dirty.insert file
    else dirty)
    ((inner.readSources fs order).1.foldl (fun dirty file => dirty.insert file) inner.dirtySources)

/-- The dirty files when the pass visits the files in the given order. -/
def passOver (H : Hashes) (fs : FileSystem) (order : HashOrder)
    (inner : ArtifactsCacheInner S γ α δ β) (graph : Graph δ) (files : List PathBuf) :
    List PathBuf :=
  (inner.fillHashes H graph.intoSources.1).markByImports order graph.intoSources.2 files
    (inner.dirtyAtFirst H fs order graph)

/-- The dirty files are closed under the rules, and every other order of the visits finds the
same. -/
structure ClosedInAnyOrder (H : Hashes) (fs : FileSystem) (inner : ArtifactsCacheInner S γ α δ β)
    (graph : Graph δ) (dirty : List PathBuf) : Prop where
  closed : (inner.marking H graph).Closed (· ∈ dirty)
  same : ∀ (files : List PathBuf) (order : HashOrder), files.Perm graph.intoSources.1.keys →
    ∀ f, f ∈ inner.passOver H fs order graph files ↔ f ∈ dirty

theorem marks_dirtyAtFirst (H : Hashes) (order : HashOrder) (fresh : inner.dirtySources = [])
    (hashes : inner.contentHashes = ∅)
    {graph : Graph δ} {sources : Sources} {paths : ProjectPathsConfig}
    (r : graph.Resolved parser fs paths sources) :
    Marking.marks (inner.dirtyAtFirst H fs order graph) =
      {f | inner.InitiallyDirty H fs graph f} := by
  ext f
  simp only [Marking.marks, Set.mem_ofPred_eq, dirtyAtFirst, mem_foldl_insert,
    mem_foldl_insert_all, isDirty_fillHashes hashes r, (readSources_spec fs order inner).1, fresh,
    List.not_mem_nil, false_or, InitiallyDirty]

theorem dirtySources_findDirtySources (preprocessed : inner.cache.preprocessed = true)
    {graph : Graph δ} (eq : inner.temporaryGraph parser fs = some graph) :
    (inner.findDirtySources H parser fs order).dirtySources =
      inner.passOver H fs order graph graph.intoSources.1.keys := by
  obtain ⟨-, sources⟩ := readSources_spec fs order inner
  rw [temporaryGraph] at eq
  simp only [findDirtySources, sources, eq, markGraph]
  rw [if_pos]
  · rfl
  · obtain ⟨c, i, same, -⟩ := fillHashes_spec H inner graph.intoSources.1
    rw [same]
    exact preprocessed

theorem removeDirtySources_closed_iff [CompilerSettings S] (H : Hashes) (parser : SourceParser δ)
    (fs : FileSystem) (order : HashOrder) (cache : CompilerCache S) (cachedArtifacts : Artifacts α)
    (cachedBuilds : ExtTreeMap String β) (edges : GraphEdges δ) (project : Project S γ α)
    (preprocessed : cache.preprocessed = true) :
    let inner : ArtifactsCacheInner S γ α δ β :=
      { cache, cachedArtifacts, cachedBuilds, edges, project }
    let before := inner.updateProfiles
    (∀ graph, before.temporaryGraph parser fs = some graph → ClosedInAnyOrder H fs before graph
        (inner.removeDirtySources H parser fs order).dirtySources) ↔
      ∀ graph, before.temporaryGraph parser fs = some graph →
        (before.marking H graph).Settled {f | before.InitiallyDirty H fs graph f} := by
  intro inner before
  refine forall_congr' fun graph => forall_congr' fun eq => ?_
  have r := temporaryGraph_resolved eq
  have dirty : (inner.removeDirtySources H parser fs order).dirtySources =
      before.passOver H fs order graph graph.intoSources.1.keys :=
    dirtySources_findDirtySources preprocessed eq
  have visits := isVisit_visitFile (show before.cache.preprocessed = true from preprocessed)
    rfl rfl r H
  have nodes : ∀ x y, graph.edges.ImportsDirectly x y →
      x ∈ graph.intoSources.1.keys ∧ y ∈ graph.intoSources.1.keys := by
    have known : ∀ x ∈ graph.edges.indices, x ∈ graph.intoSources.1.keys := fun x mem => by
      obtain ⟨node, mem', path⟩ := r.mem_indices.mp mem
      rw [ExtTreeMap.mem_keys, ExtTreeMap.mem_iff_isSome_getElem?,
        r.getElem?_intoSources.mpr ⟨node, mem', path, rfl⟩]
      rfl
    exact fun x y edge => ⟨known x edge.mem.1, known y edge.mem.2⟩
  have start : ∀ order, Marking.marks (before.dirtyAtFirst H fs order graph) = _ :=
    fun order => marks_dirtyAtFirst H order rfl rfl r
  rw [dirty]
  constructor
  · rintro ⟨closed, same⟩
    rw [← start order]
    refine Marking.settled_of_closed (visits order) nodes ExtTreeMap.nodup_keys fun l perm => ?_
    have eq : (· ∈ before.passOver H fs order graph graph.intoSources.1.keys) =
        (· ∈ before.passOver H fs order graph l) :=
      funext fun f => propext (same l order perm f).symm
    exact eq ▸ closed
  · intro settled
    have marked := fun (files : List PathBuf) (order : HashOrder)
      (perm : files.Perm graph.intoSources.1.keys) =>
        Marking.mem_sweep_iff (visits order) nodes (start order ▸ settled) perm
    refine ⟨Marking.closed_of_settled (visits order) nodes (start order ▸ settled) (.refl _),
      fun files order' perm f => ?_⟩
    refine (marked files order' perm f).trans (Iff.trans ?_ (marked _ order (.refl _) f).symm)
    rw [start, start]

/-! ### A test that is visited before the mock it depends on

The test imports a source file, that a mock, and that a changed source file. -/

def chainFiles : FileSystem :=
  .ofTexts [(["p", "test"], "A.sol", "/p/src/G.sol"), (["p", "src"], "G.sol", "/p/test/M.sol"),
    (["p", "test"], "M.sol", "/p/src/S.sol"), (["p", "src"], "S.sol", "")]

/-- The interface of a file is what it consists of besides imports. -/
def chainHashes : Hashes := ⟨id, fun _ _ => some ""⟩

def chainEntry (contentHash : String) (interfaceReprHash : Option String) : CacheEntry :=
  { ringEntry contentHash with interfaceReprHash }

def chainCache : CompilerCache SolcSettings where
  paths := ringProject.paths.pathsRelative
  preprocessed := true
  files := .ofList [
    (PathBuf.abs ["p", "test", "A.sol"], chainEntry "/p/src/G.sol" none),
    (PathBuf.abs ["p", "src", "G.sol"], chainEntry "/p/test/M.sol" (some "")),
    (PathBuf.abs ["p", "test", "M.sol"], chainEntry "/p/src/S.sol" none),
    (PathBuf.abs ["p", "src", "S.sol"], chainEntry "old" (some ""))]
  mocks := {.abs ["p", "test", "M.sol"]}

def chainInner : ArtifactsCacheInner SolcSettings Unit Unit (List PathBuf) Unit :=
  { ringInner with cache := chainCache }

theorem dirtySources_not_closed :
    ¬ ∀ graph, chainInner.updateProfiles.temporaryGraph .importLines chainFiles = some graph →
      ClosedInAnyOrder chainHashes chainFiles chainInner.updateProfiles graph
        (chainInner.removeDirtySources chainHashes .importLines chainFiles
          .asListed).dirtySources := by
  intro closed
  have dirty :
      (chainInner.removeDirtySources chainHashes .importLines chainFiles .asListed).dirtySources =
        [.abs ["p", "test", "M.sol"], .abs ["p", "src", "G.sol"], .abs ["p", "src", "S.sol"]] := by
    decide +kernel
  have built : (chainInner.updateProfiles.temporaryGraph .importLines chainFiles).isSome := by
    decide +kernel
  obtain ⟨graph, eq⟩ := Option.isSome_iff_exists.mp built
  have imported : ((chainInner.updateProfiles.temporaryGraph .importLines chainFiles).map
      fun graph => graph.edges.imports (.abs ["p", "test", "A.sol"])) =
        some [.abs ["p", "src", "G.sol"], .abs ["p", "test", "M.sol"],
          .abs ["p", "src", "S.sol"]] := by
    decide +kernel
  rw [eq, Option.map_some, Option.some.injEq] at imported
  have path := (temporaryGraph_resolved eq).aligned.mem_imports.mp
    (imported ▸ by simp : PathBuf.abs ["p", "test", "M.sol"] ∈
      graph.edges.imports (.abs ["p", "test", "A.sol"]))
  have test : (.abs ["p", "test", "A.sol"] : PathBuf) ∈
      (chainInner.removeDirtySources chainHashes .importLines chainFiles .asListed).dirtySources :=
    (closed graph eq).closed.nonSrc (.abs ["p", "test", "A.sol"]) _
      (show ¬ chainInner.updateProfiles.isSourceFile _ = true by decide +kernel) path
      (show ¬ chainInner.updateProfiles.isSourceFile _ = true by decide +kernel) (by simp [dirty])
  rw [dirty] at test
  exact absurd test (by decide +kernel)

theorem removeDirtySources_closed_iff_chain :
    chainCache.preprocessed = true ∧
      ((∀ graph, chainInner.updateProfiles.temporaryGraph .importLines chainFiles = some graph →
        ClosedInAnyOrder chainHashes chainFiles chainInner.updateProfiles graph
          (chainInner.removeDirtySources chainHashes .importLines chainFiles
            .asListed).dirtySources) ↔
      ∀ graph, chainInner.updateProfiles.temporaryGraph .importLines chainFiles = some graph →
        (chainInner.updateProfiles.marking chainHashes graph).Settled
          {f | chainInner.updateProfiles.InitiallyDirty chainHashes chainFiles graph f}) :=
  ⟨rfl, removeDirtySources_closed_iff chainHashes .importLines chainFiles .asListed chainCache ∅ ∅
    ringEdges ringProject rfl⟩

end FoundryCore.ArtifactsCacheInner
