import FoundryCore.Resolver.Graph

/-!
# Sources of two languages

The parser of a project with Solidity and Vyper sources hands each source to the parser of its
language. Finalizing the imports takes the nodes apart by language and puts them together again
in their original order.
-/

namespace FoundryCore

inductive SolcLanguage
  | solidity | yul
deriving DecidableEq, Repr

inductive MultiCompilerLanguage
  | solc (language : SolcLanguage)
  | vyper
deriving DecidableEq, Repr

/-- The part of a file name after its last dot; a leading dot does not count. -/
def PathBuf.extension (p : PathBuf) : Option String :=
  p.fileName.bind fun name =>
    match (name.toList.splitOn '.').dropLast with
    | [] | [[]] => none
    | _ => (name.toList.splitOn '.').getLast?.map String.ofList

/-- The language of a file by its extension. -/
def guessLang (path : PathBuf) : Option MultiCompilerLanguage :=
  match path.extension with
  | some "sol" => some (.solc .solidity)
  | some "yul" => some (.solc .yul)
  | some "vy" | some "vyi" => some .vyper
  | _ => none

/-- Sources of an unknown language stay with those of solc. -/
def isVyper (path : PathBuf) : Bool := guessLang path = some .vyper

namespace Node

variable {δ₁ δ₂ δ δ' : Type}

def mapData (f : δ → δ') (node : Node δ) : Node δ' :=
  { path := node.path, source := node.source, data := f node.data }

def solc? (node : Node (δ₁ ⊕ δ₂)) : Option (Node δ₁) :=
  match node.data with
  | .inl data => some { path := node.path, source := node.source, data }
  | .inr _ => none

def vyper? (node : Node (δ₁ ⊕ δ₂)) : Option (Node δ₂) :=
  match node.data with
  | .inl _ => none
  | .inr data => some { path := node.path, source := node.source, data }

@[simp] theorem file_mapData (f : δ → δ') (node : Node δ) : (node.mapData f).file = node.file := rfl

end Node

namespace MultiCompilerParser

variable {δ₁ δ₂ : Type}

/-- Takes the next node of a language at each place of the order; `none` where the code panics. -/
def rejoin : List Bool → List (Node δ₁) → List (Node δ₂) → Option (List (Node (δ₁ ⊕ δ₂)))
  | [], [], [] => some []
  | true :: order, node :: solc, vyper =>
    (rejoin order solc vyper).map (node.mapData .inl :: ·)
  | false :: order, solc, node :: vyper =>
    (rejoin order solc vyper).map (node.mapData .inr :: ·)
  | _, _, _ => none

/-- What was taken apart by language fits together again, each file at its place. -/
theorem exists_rejoin (nodes : List (Node (δ₁ ⊕ δ₂))) {solc : List (Node δ₁)}
    {vyper : List (Node δ₂)}
    (solcFiles : solc.map Node.file = (nodes.filterMap Node.solc?).map Node.file)
    (vyperFiles : vyper.map Node.file = (nodes.filterMap Node.vyper?).map Node.file) :
    ∃ joined, rejoin (nodes.map (·.data.isLeft)) solc vyper = some joined ∧
      joined.map Node.file = nodes.map Node.file := by
  induction nodes generalizing solc vyper with
  | nil =>
    obtain rfl : solc = [] := by simpa using solcFiles
    obtain rfl : vyper = [] := by simpa using vyperFiles
    exact ⟨[], rfl, rfl⟩
  | cons node nodes ih =>
    obtain ⟨path, source, data | data⟩ := node
    · cases solc with
      | nil => simp [Node.solc?] at solcFiles
      | cons first solc =>
        simp only [Node.solc?, Node.vyper?, List.filterMap_cons, List.map_cons,
          List.cons.injEq] at solcFiles vyperFiles
        obtain ⟨joined, eq, files⟩ := ih solcFiles.2 vyperFiles
        exact ⟨first.mapData .inl :: joined, by simp [rejoin, eq],
          by simp [files, solcFiles.1]; rfl⟩
    · cases vyper with
      | nil => simp [Node.vyper?] at vyperFiles
      | cons first vyper =>
        simp only [Node.solc?, Node.vyper?, List.filterMap_cons, List.map_cons,
          List.cons.injEq] at solcFiles vyperFiles
        obtain ⟨joined, eq, files⟩ := ih solcFiles vyperFiles.2
        exact ⟨first.mapData .inr :: joined, by simp [rejoin, eq],
          by simp [files, vyperFiles.1]; rfl⟩

def finalizeImports (solc : SourceParser δ₁) (vyper : SourceParser δ₂)
    (nodes : List (Node (δ₁ ⊕ δ₂))) (includePaths : Finset PathBuf) :
    Option (List (Node (δ₁ ⊕ δ₂))) := do
  let solcNodes ← solc.finalizeImports (nodes.filterMap Node.solc?) includePaths
  let vyperNodes ← vyper.finalizeImports (nodes.filterMap Node.vyper?) includePaths
  rejoin (nodes.map (·.data.isLeft)) solcNodes vyperNodes

theorem finalizeImports_files (solc : SourceParser δ₁) (vyper : SourceParser δ₂)
    {nodes nodes' : List (Node (δ₁ ⊕ δ₂))} {includePaths : Finset PathBuf}
    (eq : finalizeImports solc vyper nodes includePaths = some nodes') :
    nodes'.map Node.file = nodes.map Node.file := by
  simp only [finalizeImports, Option.bind_eq_bind, Option.bind_eq_some_iff] at eq
  obtain ⟨solcNodes, solcEq, vyperNodes, vyperEq, eq⟩ := eq
  obtain ⟨joined, eq', files⟩ := exists_rejoin nodes
    (solc.finalizeImports_files _ _ _ solcEq) (vyper.finalizeImports_files _ _ _ vyperEq)
  rw [eq, Option.some.injEq] at eq'
  rwa [eq']

end MultiCompilerParser

/-- The parser for both languages. -/
def SourceParser.multi {δ₁ δ₂ : Type} (solc : SourceParser δ₁) (vyper : SourceParser δ₂) :
    SourceParser (δ₁ ⊕ δ₂) where
  parse content path :=
    if isVyper path then (vyper.parse content path).map .inr
    else (solc.parse content path).map .inl
  reads path :=
    match guessLang path with
    | none => false
    | some (.solc _) => solc.reads path
    | some .vyper => vyper.reads path
  parseOrder files :=
    solc.parseOrder (files.filter (!isVyper ·)) ++ vyper.parseOrder (files.filter isVyper)
  versionReq := Sum.elim solc.versionReq vyper.versionReq
  resolveImports fs paths := Sum.elim (solc.resolveImports fs paths) (vyper.resolveImports fs paths)
  finalizeImports := MultiCompilerParser.finalizeImports solc vyper
  compilationDependencies data imported :=
    match data with
    | .inl data => solc.compilationDependencies data (imported.filterMap fun (path, data) =>
        data.getLeft?.map (path, ·))
    | .inr data => vyper.compilationDependencies data (imported.filterMap fun (path, data) =>
        data.getRight?.map (path, ·))
  parseOrder_perm files :=
    ((solc.parseOrder_perm _).append (vyper.parseOrder_perm _)).trans
      (List.perm_append_comm.trans (List.filter_append_perm isVyper files))
  finalizeImports_files _ _ _ eq := MultiCompilerParser.finalizeImports_files solc vyper eq

end FoundryCore
