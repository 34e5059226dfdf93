import FoundryCore.Flatten.Updates
import FoundryCore.Library.Runs

/-!
# The interface representation of a source

Functions that are not exposed and bodies of exposed ones are taken out of a source, and then all
newlines and all runs of spaces. The hash of what is left stands for the interface of the source.
-/

namespace FoundryCore.Iface

/-- `ast::ContractKind`. -/
inductive ContractKind
  | contract | abstractContract | interface | library
deriving DecidableEq, Repr

/-- `ast::FunctionKind`. -/
inductive FunctionKind
  | constructor | function | fallback | receive | modifier
deriving DecidableEq, Repr

/-- `ast::Visibility`. -/
inductive Visibility
  | private_ | internal | public_ | external
deriving DecidableEq, Repr

/-- The order of the variants. -/
def Visibility.rank : Visibility → Nat
  | private_ => 0
  | internal => 1
  | public_ => 2
  | external => 3

/-- `ast::ItemFunction`. -/
structure Function where
  kind : FunctionKind
  visibility : Option Visibility
  bodySpan : Range
deriving DecidableEq, Repr

/-- An item of a contract, with what it is if it is a function. -/
structure ContractItem where
  span : Range
  function : Option Function
deriving DecidableEq, Repr

/-- An item of a source unit. -/
inductive Item
  | contract (kind : ContractKind) (body : List ContractItem)
  | other
deriving Repr

def Function.isExposed (function : Function) : Bool :=
  match function.kind with
  -- Function with external or public visibility
  | .function => function.visibility.any fun visibility => Visibility.public_.rank ≤ visibility.rank
  | .constructor | .fallback | .receive => true
  | .modifier => false

/-- If function is not exposed we remove the entire span. Otherwise we remove only the body. -/
def ContractItem.spanToRemove (contractItem : ContractItem) : Option Range :=
  contractItem.function.map fun function =>
    if function.isExposed then function.bodySpan else contractItem.span

/-- Preserves all libraries and interfaces. -/
def Item.spansToRemove : Item → List Range
  | contract kind body =>
    if kind = .interface ∨ kind = .library then [] else body.filterMap ContractItem.spanToRemove
  | other => []

def spansToRemove (items : List Item) : List Range := items.flatMap Item.spansToRemove

/-- `RE_TWO_OR_MORE_SPACES`, of which all matches are removed. -/
def removeTwoOrMoreSpaces (text : List Char) : List Char :=
  Library.resize ' ' (fun n => if 2 ≤ n then 0 else n) text

/-- The text without newlines, and then without runs of spaces. -/
def squeeze (text : List Char) : List Char :=
  removeTwoOrMoreSpaces (text.filter (· ≠ '\n'))

/-- Helper function to remove parts of the contract which do not alter its interface. -/
def interfaceRepresentationAst (content : Str) (items : List Item) : Except Panic String := do
  let updates := (spansToRemove items).map fun span => (span, (⟨"", by decide⟩ : Str))
  let content ← replaceSourceContent content updates
  return .ofList (squeeze content.1.toList)

/-! ## Taking spans out -/

/-- The spans are in the text, in order, and do not overlap. -/
structure InOrder (text : List Char) (spans : List Range) : Prop where
  range : ∀ span ∈ spans, span.1 ≤ span.2 ∧ IsCharBoundary text span.1 ∧ IsCharBoundary text span.2
  sorted : spans.Pairwise fun span later => span.2 ≤ later.1

theorem bytes_le_of_isCharBoundary {text : List Char} {position : Nat}
    (boundary : IsCharBoundary text position) : position ≤ bytes text := by
  obtain ⟨⟨before, after⟩, eq⟩ := Option.isSome_iff_exists.mp boundary
  obtain ⟨rfl, rfl⟩ := (Library.cut_eq_some Char.utf8Size_pos).mp eq
  rw [bytes_append]
  exact Nat.le_add_right ..

/-- The text without the spans. -/
def without (text : List Char) (spans : List Range) : List Char :=
  Library.substitute Char.utf8Size text (spans.map (·, []))

theorem bytes_without_le {text : List Char} {spans : List Range} (inOrder : InOrder text spans) :
    bytes (without text spans) ≤ bytes text := by
  have ordered : ∀ span ∈ spans, 0 ≤ span.1 ∧ span.1 ≤ span.2 ∧ span.2 ≤ bytes text :=
    fun span mem => ⟨Nat.zero_le _, (inOrder.range span mem).1,
      bytes_le_of_isCharBoundary (inOrder.range span mem).2.2⟩
  have part := Library.substituteFrom_sublist ordered inOrder.sorted (Nat.zero_le _)
  rw [Library.slice_all Char.utf8Size_pos (Nat.le_refl _)] at part
  exact Library.weight_le_of_sublist part

/-- The update that takes a span out. -/
def removal (span : Range) : Range × Str := (span, ⟨"", by decide⟩)

theorem substituted_removals {content : Str} {spans : List Range} :
    substituted content (spans.map removal) = .ofList (without content.1.toList spans) := by
  simp [substituted, replacements, without, removal, Function.comp_def]

theorem inOrder_take {text : List Char} {spans : List Range} (inOrder : InOrder text spans)
    (n : Nat) : InOrder text (spans.take n) where
  range span mem := inOrder.range span (List.mem_of_mem_take mem)
  sorted := inOrder.sorted.sublist (List.take_sublist n spans)

/-- Nothing goes wrong where spans are taken out. -/
theorem interfaceRepresentationAst_eq {content : Str} {items : List Item}
    (inOrder : InOrder content.1.toList (spansToRemove items)) :
    interfaceRepresentationAst content items =
      .ok (.ofList (squeeze (without content.1.toList (spansToRemove items)))) := by
  have ordered : Ordered content ((spansToRemove items).map removal) := by
    refine ⟨fun update updateMem => ?_, List.pairwise_map.mpr inOrder.sorted⟩
    obtain ⟨span, mem, rfl⟩ := List.mem_map.mp updateMem
    exact inOrder.range span mem
  have fits : Fits content ((spansToRemove items).map removal) := by
    intro n _
    have le := bytes_without_le (inOrder_take inOrder n)
    have small := content.2
    rw [utf8ByteSize_eq] at small
    rw [← List.map_take, substituted_removals, utf8ByteSize_ofList]
    omega
  have result := replaceSourceContent_eq ordered
  rw [if_pos fits, substituted_removals] at result
  show (replaceSourceContent content ((spansToRemove items).map removal)).map
    (fun content => String.ofList (squeeze content.1.toList)) = _
  cases replaced : replaceSourceContent content ((spansToRemove items).map removal) with
  | error panic => simp [replaced, Except.map] at result
  | ok content' =>
    rw [replaced] at result
    obtain same : content'.1 = _ := Except.ok.inj result
    simp [Except.map, same]

end FoundryCore.Iface
