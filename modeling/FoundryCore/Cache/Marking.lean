import Mathlib.Data.Finset.Card
import Mathlib.Data.List.Perm.Lattice
import Mathlib.Data.Set.Basic
import Mathlib.Logic.Relation

/-!
# Marking files in one pass

The files of an import graph are visited once each. A visit marks the file if it finds a mark
among its imports that concerns it: a source file heeds every mark, another file only marks on
files that are not source files or whose interface changed. A mock heeds every mark, and when it
is marked so are the files behind it, up to files that carry a mark already.

The order of the visits matters. This is the account of which files are marked whatever the
order is, and of when that makes a closed set.
-/

open Relation

namespace FoundryCore

/-- What marking looks at: which file imports which, and the kinds of the files. -/
structure Marking (κ : Type*) where
  imports : κ → κ → Prop
  src : κ → Prop
  /-- A source file whose interface changed. -/
  changed : κ → Prop
  mock : κ → Prop

namespace Marking

variable {κ : Type*} (M : Marking κ)

/-- The files that are marked. -/
abbrev marks (marked : List κ) : Set κ := {x | x ∈ marked}

/-- The first file imports the second one, which is not a source file. -/
def importsPlain (f i : κ) : Prop := M.imports f i ∧ ¬ M.src i

/-- A mark on the import concerns the file. -/
def Heeds (f i : κ) : Prop := M.src f ∨ M.mock f ∨ ¬ M.src i ∨ M.changed i

/-- Marking the file marks the files behind it. -/
def Spreads (f : κ) : Prop := ¬ M.src f ∧ M.mock f

/-- The file has an import with a mark that concerns it. -/
def Alarmed (marked : Set κ) (f : κ) : Prop :=
  ∃ i ∈ marked, TransGen M.imports f i ∧ M.Heeds f i

/-- The marks that should result: what the rules ask for of a set of marks. -/
structure Closed (marked : κ → Prop) : Prop where
  src : ∀ f i, M.src f → TransGen M.imports f i → marked i → marked f
  nonSrc : ∀ f i, ¬ M.src f → TransGen M.imports f i → ¬ M.src i → marked i → marked f
  interface : ∀ f i, ¬ M.src f → TransGen M.imports f i → M.src i → M.changed i → marked f
  mocks : ∀ f m, TransGen M.imports f m → M.mock m → marked m → marked f

/-- What a visit of `f` makes of the marks. -/
structure IsVisit (f : κ) (marked marked' : List κ) : Prop where
  subset : ∀ x ∈ marked, x ∈ marked'
  quiet : f ∈ marked ∨ ¬ M.Alarmed (marks marked) f → ∀ x ∈ marked', x ∈ marked
  self : M.Alarmed (marks marked) f → f ∈ marked'
  silent : ¬ M.Spreads f → ∀ x ∈ marked', x ∈ marked ∨ x = f
  behind : M.Spreads f → ∀ y ∈ marked', y ∉ marked → ∀ x, M.imports x y → x ∈ marked'
  least : ∀ P : κ → Prop, (∀ x ∈ marked, P x) → P f →
    (∀ y, P y → y ∉ marked → ∀ x, M.imports x y → P x) → ∀ x ∈ marked', P x

/-- A file is marked at the latest when it is visited: it is marked at the start, or a start
mark concerns it. -/
def Noticed (start : Set κ) (f : κ) : Prop := f ∈ start ∨ M.Alarmed start f

/-- Files whose mark can make others be marked that no start mark concerns. -/
def Trigger (start : Set κ) (t : κ) : Prop :=
  (∃ d ∈ start, TransGen M.imports t d) ∧ (M.Spreads t ∨ M.src t ∧ M.changed t)

/-- The rules ask for a mark on the file although no start mark need concern it. -/
def Needed (start : Set κ) (f : κ) : Prop :=
  (∃ i, TransGen M.imports f i ∧ M.src i ∧ M.changed i) ∨
    ∃ m, M.mock m ∧ TransGen M.imports f m ∧ ∃ d ∈ start, ReflTransGen M.imports m d

/-- A set of mocks each of which finds its way back to `f` when it is visited before the others:
`f` imports it, or a file that leads to it past no source file and to no trigger outside the
set. -/
structure Informs (start : Set κ) (f : κ) (mocks : Set κ) : Prop where
  trigger : ∀ m ∈ mocks, M.Spreads m ∧ M.Trigger start m
  path : ∀ m ∈ mocks, ∃ g, M.imports f g ∧ (g = m ∨
    ¬ M.src g ∧ ReflTransGen M.importsPlain g m ∧
      ∀ t, M.Trigger start t → ReflTransGen M.imports g t → t ∈ mocks)

/-- Whatever the order, the first of some mocks to be visited marks the file. -/
def Told (start : Set κ) (f : κ) : Prop := ∃ mocks : Set κ, mocks.Nonempty ∧ M.Informs start f mocks

/-- When every file that needs a mark is sure to get one. -/
def Settled (start : Set κ) : Prop :=
  ∀ f, ¬ M.src f → M.Needed start f → M.Noticed start f ∨ M.Told start f

variable {M} {visit : κ → List κ → List κ} {files : List κ} {f : κ}

theorem reaches_of_plain {x y : κ} (path : ReflTransGen M.importsPlain x y) :
    ReflTransGen M.imports x y :=
  ReflTransGen.mono (fun _ _ h => h.1) _ _ path

/-- Visits the files in turn. -/
def sweep (visit : κ → List κ → List κ) (files marked : List κ) : List κ :=
  files.foldl (fun marked f => visit f marked) marked

theorem sweep_append (l l' marked : List κ) :
    sweep visit (l ++ l') marked = sweep visit l' (sweep visit l marked) := by
  simp [sweep]

theorem Alarmed.mono {marked marked' : List κ} (sub : ∀ x ∈ marked, x ∈ marked')
    (h : M.Alarmed (marks marked) f) : M.Alarmed (marks marked') f := by
  obtain ⟨i, mem, path, heeds⟩ := h
  exact ⟨i, sub i mem, path, heeds⟩

section Start

variable {start : Set κ}

/-- A file with a start mark behind it notices if it heeds every mark. -/
theorem Noticed.of_reaches {d : κ} (mem : d ∈ start) (path : TransGen M.imports f d)
    (all : M.src f ∨ M.mock f) : M.Noticed start f :=
  .inr ⟨d, mem, path, all.elim .inl (.inr ∘ .inl)⟩

theorem Trigger.needed {t : κ} (trigger : M.Trigger start t) (path : TransGen M.imports f t) :
    M.Needed start f := by
  obtain ⟨⟨d, mem, way⟩, ⟨-, mock⟩ | changed⟩ := trigger
  · exact .inr ⟨t, mock, path, d, mem, way.to_reflTransGen⟩
  · exact .inl ⟨t, path, changed⟩

/-! ## Where marks come from -/

/-- The file notices by itself, or it is no source file and leads to a trigger that is marked. -/
def Traced (M : Marking κ) (start : Set κ) (marked : List κ) (f : κ) : Prop :=
  M.Noticed start f ∨ ¬ M.src f ∧ ∃ t ∈ marked, M.Trigger start t ∧ TransGen M.imports f t

theorem Traced.mono {marked marked' : List κ} (sub : ∀ x ∈ marked, x ∈ marked')
    (h : M.Traced start marked f) : M.Traced start marked' f :=
  h.imp_right fun ⟨plain, t, mem, trigger, path⟩ => ⟨plain, t, sub t mem, trigger, path⟩

/-- A file that is marked, or notices, has a start mark or leads to one. -/
theorem Traced.reaches {marked : List κ} (h : M.Traced start marked f) :
    ∃ d ∈ start, ReflTransGen M.imports f d := by
  obtain (mem | ⟨d, mem, path, -⟩) | ⟨-, t, -, ⟨⟨d, mem, path'⟩, -⟩, path⟩ := h
  · exact ⟨f, mem, .refl⟩
  · exact ⟨d, mem, path.to_reflTransGen⟩
  · exact ⟨d, mem, (path.trans path').to_reflTransGen⟩

/-- An alarmed file is traced if the marks it finds are. -/
theorem traced_of_alarmed {marked marked' : List κ} (sub : ∀ x ∈ marked, x ∈ marked')
    (traced : ∀ x ∈ marked, M.Traced start marked x) (alarm : M.Alarmed (marks marked) f) :
    M.Traced start marked' f := by
  obtain ⟨i, mem, path, heeds⟩ := alarm
  obtain ⟨d, start_d, way⟩ := (traced i mem).reaches
  have path' : TransGen M.imports f d := path.trans_left way
  by_cases all : M.src f ∨ M.mock f
  · exact .inl (.of_reaches start_d path' all)
  · rw [not_or] at all
    have heeds' := (heeds.resolve_left all.1).resolve_left all.2
    have via : M.Trigger start i → M.Traced start marked' f := fun trigger =>
      .inr ⟨all.1, i, sub i mem, trigger, path⟩
    obtain (begun | ⟨e, start_e, way_e, concerned⟩) | ⟨-, t, mem_t, trigger, way_t⟩ := traced i mem
    · exact .inl (.inr ⟨i, begun, path, heeds⟩)
    · by_cases source : M.src i
      · exact via ⟨⟨e, start_e, way_e⟩, .inr ⟨source, heeds'.resolve_left (absurd source)⟩⟩
      · obtain mock | concerned := concerned.resolve_left source
        · exact via ⟨⟨e, start_e, way_e⟩, .inl ⟨source, mock⟩⟩
        · exact .inl (.inr ⟨e, start_e, path.trans way_e, .inr (.inr concerned)⟩)
    · exact .inr ⟨all.1, t, sub t mem_t, trigger, path.trans way_t⟩

/-- Where a file that notices nothing by itself leads past no source file, a mark comes from one
of the triggers it leads to. -/
theorem trigger_of_marked {marked : List κ} (unnoticed : ¬ M.Noticed start f)
    (traced : ∀ x ∈ marked, M.Traced start marked x) {x : κ} (path : TransGen M.imports f x)
    (plain : ¬ M.src x) (mem : x ∈ marked) :
    ∃ t ∈ marked, M.Trigger start t ∧ ReflTransGen M.imports x t := by
  obtain (begun | ⟨d, start_d, way, concerned⟩) | ⟨-, t, mem_t, trigger, way⟩ := traced x mem
  · exact absurd (.inr ⟨x, begun, path, .inr (.inr (.inl plain))⟩) unnoticed
  · obtain mock | concerned := concerned.resolve_left plain
    · exact ⟨x, mem, ⟨⟨d, start_d, way⟩, .inl ⟨plain, mock⟩⟩, .refl⟩
    · exact absurd (.inr ⟨d, start_d, path.trans way, .inr (.inr concerned)⟩) unnoticed
  · exact ⟨t, mem_t, trigger, way.to_reflTransGen⟩

/-- A mock that finds its way back to `f` closed, because every file `f` imports on that way
leads to a trigger that is marked already. -/
theorem exists_detached {marked : List κ} (untold : ¬ M.Told start f) {m : κ}
    (spreads : M.Spreads m) (trigger : M.Trigger start m) (fresh : m ∉ marked) :
    ∃ e, M.Spreads e ∧ M.Trigger start e ∧ e ∉ marked ∧ ∀ g, M.imports f g → ¬ M.src g →
      ReflTransGen M.importsPlain g e → ¬ M.Spreads g ∧
        ∃ t, M.Trigger start t ∧ ReflTransGen M.imports g t ∧ (M.Spreads t → t ∈ marked) := by
  by_contra noneEq
  refine untold ⟨{e | M.Spreads e ∧ M.Trigger start e ∧ e ∉ marked}, ⟨m, spreads, trigger, fresh⟩,
    fun e inside => ⟨inside.1, inside.2.1⟩, ?_⟩
  rintro e ⟨spreads, trigger, fresh⟩
  by_contra closed
  refine noneEq ⟨e, spreads, trigger, fresh, fun g edge plain path => ⟨fun loud => ?_, ?_⟩⟩
  · obtain ⟨d, mem, way⟩ := trigger.1
    have direct : M.Trigger start g :=
      ⟨⟨d, mem, TransGen.trans_right (reaches_of_plain path) way⟩, .inl loud⟩
    exact untold ⟨{g}, ⟨g, rfl⟩, by rintro _ rfl; exact ⟨loud, direct⟩,
      by rintro _ rfl; exact ⟨_, edge, .inl rfl⟩⟩
  · by_contra outside
    refine closed ⟨g, edge, .inr ⟨plain, path, fun t trigger' way => ?_⟩⟩
    by_contra missing
    exact outside ⟨t, trigger', way, fun loud => by
      by_contra fresh'
      exact missing ⟨loud, trigger', fresh'⟩⟩

end Start

/-! ## What is marked at the latest when it is visited -/

section Sweep

variable {start : List κ} (visits : ∀ f marked, M.IsVisit f marked (visit f marked))
include visits

theorem subset_sweep (l marked : List κ) : ∀ x ∈ marked, x ∈ sweep visit l marked := by
  induction l generalizing marked with
  | nil => exact fun _ h => h
  | cons f l ih => exact fun x mem => ih _ x ((visits f marked).subset x mem)

theorem mem_sweep_of_alarmed {l marked : List κ} (mem : f ∈ l)
    (alarm : M.Alarmed (marks marked) f) : f ∈ sweep visit l marked := by
  obtain ⟨before, after, rfl⟩ := List.append_of_mem mem
  rw [sweep_append]
  exact subset_sweep visits after _ f
    ((visits f _).self (alarm.mono (subset_sweep visits before marked)))

theorem mem_sweep_of_noticed {l : List κ} (mem : f ∈ l) (noticed : M.Noticed (marks start) f) :
    f ∈ sweep visit l start :=
  noticed.elim (subset_sweep visits l start f) (mem_sweep_of_alarmed visits mem)

theorem traced_visit {marked : List κ} (traced : ∀ x ∈ marked, M.Traced (marks start) marked x) :
    ∀ x ∈ visit f marked, M.Traced (marks start) (visit f marked) x := by
  have step := visits f marked
  by_cases quiet : f ∈ marked ∨ ¬ M.Alarmed (marks marked) f
  · exact fun x mem => (traced x (step.quiet quiet x mem)).mono step.subset
  · obtain ⟨-, alarm⟩ : f ∉ marked ∧ M.Alarmed (marks marked) f := by simpa using quiet
    have self := traced_of_alarmed step.subset traced alarm
    by_cases spreads : M.Spreads f
    · -- what is marked with `f` leads to `f`
      have led := step.least (fun x => x ∈ marked ∨ ReflTransGen M.imports x f) (fun _ => .inl)
        (.inr .refl) fun y led fresh x edge => .inr (.head edge (led.resolve_left fresh))
      intro x mem
      obtain old | way := led x mem
      · exact (traced x old).mono step.subset
      · obtain rfl | way := reflTransGen_iff_eq_or_transGen.mp way
        · exact self
        · obtain ⟨d, start_d, path⟩ : ∃ d ∈ start, TransGen M.imports f d := by
            obtain ⟨i, mem_i, path, -⟩ := alarm
            obtain ⟨d, start_d, rest⟩ := (traced i mem_i).reaches
            exact ⟨d, start_d, path.trans_left rest⟩
          by_cases source : M.src x
          · exact .inl (.of_reaches start_d (way.trans path) (.inl source))
          · exact .inr ⟨source, f, step.self alarm, ⟨⟨d, start_d, path⟩, .inl spreads⟩, way⟩
    · intro x mem
      obtain old | rfl := step.silent spreads x mem
      · exact (traced x old).mono step.subset
      · exact self

theorem traced_sweep (l : List κ) :
    ∀ x ∈ sweep visit l start, M.Traced (marks start) (sweep visit l start) x := by
  suffices loop : ∀ marked, (∀ x ∈ marked, M.Traced (marks start) marked x) →
      ∀ x ∈ sweep visit l marked, M.Traced (marks start) (sweep visit l marked) x from
    loop start fun x mem => .inl (.inl mem)
  induction l with
  | nil => exact fun _ traced => traced
  | cons f l ih => exact fun marked traced => ih _ (traced_visit visits traced)

/-! ## Files that are told -/

/-- If a visit marks one of the mocks that inform a file, it marks the file. -/
theorem mem_visit_of_informs {mocks : Set κ} (unnoticed : ¬ M.Noticed (marks start) f)
    (informs : M.Informs (marks start) f mocks) {marked : List κ} {x : κ}
    (traced : ∀ x ∈ marked, M.Traced (marks start) marked x) (fresh : ∀ m ∈ mocks, m ∉ marked)
    {m : κ} (inside : m ∈ mocks) (mem : m ∈ visit x marked) : f ∈ visit x marked := by
  have step := visits x marked
  have spreads : M.Spreads x := by
    by_contra silent
    obtain old | rfl := step.silent silent m mem
    · exact fresh m inside old
    · exact silent (informs.trigger m inside).1
  have behind := step.behind spreads
  obtain ⟨g, edge, rfl | ⟨plain, path, only⟩⟩ := informs.path m inside
  · exact behind g mem (fresh g inside) f edge
  · -- nothing between `g` and `m` was marked before
    have between : ∀ y, ReflTransGen M.importsPlain g y → y ∉ marked := by
      intro y way old
      have way' : ReflTransGen M.imports g y := reaches_of_plain way
      have plain' : ¬ M.src y := by
        obtain rfl | ⟨z, -, -, h⟩ := ReflTransGen.cases_tail_iff _ _ _ |>.mp way
        · exact plain
        · exact h
      obtain ⟨t, mem_t, trigger, rest⟩ :=
        trigger_of_marked unnoticed traced (.head' edge way') plain' old
      exact fresh t (only t trigger (way'.trans rest)) mem_t
    have all : g ∈ visit x marked := by
      suffices back : ∀ y, ReflTransGen M.importsPlain y m →
          ReflTransGen M.importsPlain g y → y ∈ visit x marked from
        back g path .refl
      intro y way
      induction way using ReflTransGen.head_induction_on with
      | refl => exact fun _ => mem
      | head first _ ih =>
        intro way
        exact behind _ (ih (way.tail first)) (between _ (way.tail first)) _ first.1
    exact behind g all (between g .refl) f edge

/-- A file that is told is marked whatever the order of the visits. -/
theorem mem_sweep_of_told (nodes : ∀ x y, M.imports x y → x ∈ files ∧ y ∈ files)
    {l : List κ} (perm : l.Perm files) (told : M.Told (marks start) f) :
    f ∈ sweep visit l start := by
  obtain ⟨mocks, ⟨m, inside⟩, informs⟩ := told
  obtain ⟨spreads, ⟨d, start_d, path⟩, -⟩ := informs.trigger m inside
  obtain ⟨g, edge, -⟩ := informs.path m inside
  have f_mem : f ∈ l := perm.mem_iff.mpr (nodes f g edge).1
  by_cases noticed : M.Noticed (marks start) f
  · exact mem_sweep_of_noticed visits f_mem noticed
  have m_mem : m ∈ l := by
    obtain ⟨z, first, -⟩ := TransGen.head'_iff.mp path
    exact perm.mem_iff.mpr (nodes m z first).1
  have marked_m : m ∈ sweep visit l start :=
    mem_sweep_of_noticed visits m_mem (.of_reaches start_d path (.inr spreads.2))
  have startOutside : ∀ m ∈ mocks, m ∉ start := by
    intro m inside begun
    obtain ⟨g, edge, rfl | ⟨-, way, -⟩⟩ := informs.path m inside
    · exact noticed (.inr ⟨g, begun, .single edge,
        .inr (.inr (.inl (informs.trigger g inside).1.1))⟩)
    · exact noticed (.inr ⟨m, begun, .head' edge (reaches_of_plain way),
        .inr (.inr (.inl (informs.trigger m inside).1.1))⟩)
  suffices loop : ∀ marked, (∀ x ∈ marked, M.Traced (marks start) marked x) →
      (f ∈ marked ∨ ∀ m ∈ mocks, m ∉ marked) →
      f ∈ sweep visit l marked ∨ ∀ m ∈ mocks, m ∉ sweep visit l marked from
    (loop start (fun x mem => .inl (.inl mem)) (.inr startOutside)).resolve_right fun noneEq =>
      noneEq m inside marked_m
  clear f_mem m_mem marked_m perm
  induction l with
  | nil => exact fun _ _ h => h
  | cons x l ih =>
    refine fun marked traced still => ih _ (traced_visit visits traced) ?_
    obtain done | fresh := still
    · exact .inl ((visits x marked).subset f done)
    · by_cases new : ∃ m ∈ mocks, m ∈ visit x marked
      · obtain ⟨m, inside, mem⟩ := new
        exact .inl (mem_visit_of_informs visits noticed informs traced fresh inside mem)
      · exact .inr (by simpa using new)

/-! ## An order that leaves a file out -/

/-- Visits that leave `f` without a mark, and that are not wasted: whatever was visited besides
`f` and the source files has a mark. -/
structure LeavesOut (M : Marking κ) (visit : κ → List κ → List κ) (start files : List κ) (f : κ)
    (l : List κ) : Prop where
  nodup : l.Nodup
  inside : ∀ x ∈ l, x ∈ files
  visited : f ∈ l
  sources : ∀ x ∈ files, M.src x → x ∈ l
  unmarked : f ∉ sweep visit l start
  spent : ∀ x ∈ l, x = f ∨ M.src x ∨ x ∈ sweep visit l start

/-- Visits that do not spread mark no more than what is visited. -/
theorem sweep_silent {l marked : List κ} (silent : ∀ x ∈ l, ¬ M.Spreads x) :
    ∀ y ∈ sweep visit l marked, y ∈ marked ∨ y ∈ l := by
  induction l generalizing marked with
  | nil => exact fun _ mem => .inl mem
  | cons x l ih =>
    simp only [List.forall_mem_cons] at silent
    intro y mem
    obtain old | later := ih silent.2 y mem
    · exact ((visits x marked).silent silent.1 y old).imp id fun same => by simp [same]
    · exact .inr (List.mem_cons_of_mem _ later)

/-- First the file itself, then the source files. -/
theorem leavesOut_sources (distinct : files.Nodup) (f_mem : f ∈ files) (plain : ¬ M.src f)
    (unnoticed : ¬ M.Noticed (marks start) f) : ∃ l, M.LeavesOut visit start files f l := by
  classical
  have silent : ∀ x ∈ files.filter (M.src ·), ¬ M.Spreads x := fun x mem spreads =>
    spreads.1 (by simpa using (List.mem_filter.mp mem).2)
  have out : f ∉ files.filter (M.src ·) := by simp [plain]
  have unmarked : f ∉ sweep visit (f :: files.filter (M.src ·)) start := by
    intro mem
    obtain first | source := sweep_silent visits silent f mem
    · have begun := (visits f start).quiet (.inr fun alarm => unnoticed (.inr alarm)) f first
      exact unnoticed (.inl begun)
    · exact out source
  refine ⟨f :: files.filter (M.src ·), by simpa [plain] using distinct.filter _, ?_, by simp, ?_,
    unmarked, ?_⟩
  · simpa [f_mem] using fun x mem _ => mem
  · exact fun x mem source => by simp [mem, source]
  · intro x mem
    obtain rfl | mem := List.mem_cons.mp mem
    · exact .inl rfl
    · exact .inr (.inl (by simpa using (List.mem_filter.mp mem).2))

/-- While a mock is left to mark, the visits can go on without marking `f`. -/
theorem LeavesOut.extend (nodes : ∀ x y, M.imports x y → x ∈ files ∧ y ∈ files)
    (distinct : files.Nodup) (plain : ¬ M.src f) (unnoticed : ¬ M.Noticed (marks start) f)
    (untold : ¬ M.Told (marks start) f) {l : List κ} (h : M.LeavesOut visit start files f l) {m : κ}
    (spreads : M.Spreads m) (trigger : M.Trigger (marks start) m)
    (fresh : m ∉ sweep visit l start) :
    ∃ l', M.LeavesOut visit start files f l' ∧ l.length < l'.length := by
  classical
  obtain ⟨e, loud, trigger, fresh, detached⟩ := exists_detached untold spreads trigger fresh
  set marked := sweep visit l start
  -- the files that find a mark on a trigger are marked by their own visit first
  let group := files.filter fun x => x ∉ l ∧ ¬ M.Spreads x ∧ M.Alarmed (marks marked) x
  have mem_group : ∀ x, x ∈ group ↔
      x ∈ files ∧ x ∉ l ∧ ¬ M.Spreads x ∧ M.Alarmed (marks marked) x := by
    simp [group]
  set marked₁ := sweep visit group marked
  have grown : ∀ x ∈ marked, x ∈ marked₁ := subset_sweep visits group marked
  have marked_group : ∀ x ∈ group, x ∈ marked₁ := fun x mem =>
    mem_sweep_of_alarmed visits mem ((mem_group x).mp mem).2.2.2
  have only : ∀ x ∈ marked₁, x ∈ marked ∨ x ∈ group :=
    sweep_silent visits fun x mem => ((mem_group x).mp mem).2.2.1
  have eq : sweep visit (l ++ (group ++ [e])) start = visit e marked₁ := by
    rw [sweep_append, sweep_append]
    rfl
  obtain ⟨d, start_d, path⟩ := trigger.1
  have e_file : e ∈ files := by
    obtain ⟨z, first, -⟩ := TransGen.head'_iff.mp path
    exact (nodes e z first).1
  have ne : e ≠ f := by
    rintro rfl
    exact unnoticed (.of_reaches start_d path (.inr loud.2))
  have e_new : e ∉ l := fun mem => by
    obtain same | source | old := h.spent e mem
    · exact ne same
    · exact loud.1 source
    · exact fresh old
  have e_marked : e ∈ visit e marked₁ :=
    (visits e marked₁).self ⟨d, grown d (subset_sweep visits l start d start_d), path,
      .inr (.inl loud.2)⟩
  have unmarked : f ∉ visit e marked₁ := by
    suffices led : ∀ x ∈ visit e marked₁,
        x ∈ marked₁ ∨ x ≠ f ∧ ReflTransGen M.importsPlain x e by
      intro mem
      obtain old | ⟨ne, -⟩ := led f mem
      · exact (only f old).elim h.unmarked fun mem => ((mem_group f).mp mem).2.1 h.visited
      · exact ne rfl
    refine (visits e marked₁).least _ (fun _ => .inl) (.inr ⟨ne, .refl⟩) ?_
    rintro y (old | ⟨y_ne, way⟩) y_fresh x edge
    · exact absurd old y_fresh
    have y_file : y ∈ files := (nodes x y edge).2
    have y_path : TransGen M.imports y d := TransGen.trans_right (reaches_of_plain way) path
    have y_plain : ¬ M.src y := fun source => y_fresh (grown y
      (mem_sweep_of_noticed visits (h.sources y y_file source)
        (.of_reaches start_d y_path (.inl source))))
    refine or_iff_not_imp_left.mpr fun _ => ⟨?_, .head ⟨edge, y_plain⟩ way⟩
    rintro rfl
    -- `y` was marked by its own visit, as it leads to a marked trigger
    obtain ⟨quiet, t, trigger_t, way_t, loud_t⟩ := detached y edge y_plain way
    have t_marked : t ∈ marked := by
      obtain loud | ⟨source, -⟩ := trigger_t.2
      · exact loud_t loud
      · obtain ⟨d', start_d', path'⟩ := trigger_t.1
        obtain ⟨z, first, -⟩ := TransGen.head'_iff.mp path'
        exact mem_sweep_of_noticed visits (h.sources t (nodes t z first).1 source)
          (.of_reaches start_d' path' (.inl source))
    obtain rfl | way_t := reflTransGen_iff_eq_or_transGen.mp way_t
    · exact y_fresh (grown _ t_marked)
    · have alarm : M.Alarmed (marks marked) y := ⟨t, t_marked, way_t, .inr (.inr
        (trigger_t.2.elim (fun loud => .inl loud.1) fun changed => .inr changed.2))⟩
      have y_new : y ∉ l := fun mem => by
        obtain same | source | old := h.spent y mem
        · exact y_ne same
        · exact y_plain source
        · exact y_fresh (grown y old)
      exact y_fresh (marked_group y ((mem_group y).mpr ⟨y_file, y_new, quiet, alarm⟩))
  refine ⟨l ++ (group ++ [e]), ⟨?_, ?_, by simp [h.visited], fun x mem source => ?_, ?_, ?_⟩,
    by simp⟩
  · refine h.nodup.append ((distinct.filter _).append (by simp) ?_) ?_
    · simp only [List.disjoint_singleton]
      exact fun mem => ((mem_group e).mp mem).2.2.1 loud
    · intro x mem mem'
      obtain mem' | mem' := List.mem_append.mp mem'
      · exact ((mem_group x).mp mem').2.1 mem
      · exact e_new (by simpa using List.mem_singleton.mp mem' ▸ mem)
  · intro x mem
    obtain mem | mem | rfl := by simpa using mem
    · exact h.inside x mem
    · exact ((mem_group x).mp mem).1
    · exact e_file
  · exact List.mem_append_left _ (h.sources x mem source)
  · rwa [eq]
  · rw [eq]
    intro x mem
    have sub := (visits e marked₁).subset
    obtain mem | mem | rfl := by simpa using mem
    · exact (h.spent x mem).imp_right (·.imp_right fun old => sub x (grown x old))
    · exact .inr (.inr (sub x (marked_group x mem)))
    · exact .inr (.inr e_marked)

/-- When all mocks are marked, no further visit marks `f`. -/
theorem not_mem_sweep_of_all_marked {l : List κ} (out : f ∉ l) {marked : List κ}
    (traced : ∀ x ∈ marked, M.Traced (marks start) marked x) (unmarked : f ∉ marked)
    (all : ∀ m, M.Spreads m → M.Trigger (marks start) m → m ∈ marked) :
    f ∉ sweep visit l marked := by
  induction l generalizing marked with
  | nil => exact unmarked
  | cons x l ih =>
    simp only [List.mem_cons, not_or] at out
    have step := visits x marked
    refine ih out.2 (traced_visit visits traced) ?_ fun m spreads trigger =>
      step.subset m (all m spreads trigger)
    intro mem
    by_cases spreads : M.Spreads x
    · refine unmarked (step.quiet (or_iff_not_imp_right.mpr fun alarm => ?_) f mem)
      obtain ⟨i, mem_i, path, -⟩ := not_not.mp alarm
      obtain ⟨d, start_d, rest⟩ := (traced i mem_i).reaches
      exact all x spreads ⟨⟨d, start_d, path.trans_left rest⟩, .inl spreads⟩
    · exact (step.silent spreads f mem).elim unmarked out.1

/-- A file that neither notices nor is told is left out by some order of the visits. -/
theorem exists_order_without (nodes : ∀ x y, M.imports x y → x ∈ files ∧ y ∈ files)
    (distinct : files.Nodup) (f_mem : f ∈ files) (plain : ¬ M.src f)
    (unnoticed : ¬ M.Noticed (marks start) f) (untold : ¬ M.Told (marks start) f) :
    ∃ l, l.Perm files ∧ f ∉ sweep visit l start := by
  classical
  suffices finish : ∀ n l, M.LeavesOut visit start files f l → files.length - l.length ≤ n →
      ∃ l, M.LeavesOut visit start files f l ∧
        ∀ m, M.Spreads m → M.Trigger (marks start) m → m ∈ sweep visit l start by
    obtain ⟨l, h⟩ := leavesOut_sources visits distinct f_mem plain unnoticed
    obtain ⟨l, h, all⟩ := finish _ l h le_rfl
    refine ⟨l ++ files.filter (· ∉ l), ?_, ?_⟩
    · refine (List.perm_ext_iff_of_nodup (h.nodup.append (distinct.filter _) ?_) distinct).mpr ?_
      · exact fun x mem mem' => by simp [mem] at mem'
      · intro x
        by_cases mem : x ∈ l
        · simp [mem, h.inside x mem]
        · simp [mem]
    · rw [sweep_append]
      exact not_mem_sweep_of_all_marked visits (by simp [h.visited]) (traced_sweep visits l)
        h.unmarked all
  intro n
  induction n with
  | zero =>
    intro l h full
    refine ⟨l, h, fun m spreads trigger => ?_⟩
    by_contra fresh
    obtain ⟨l', h', longer⟩ := h.extend visits nodes distinct plain unnoticed untold spreads
      trigger fresh
    have := (List.subperm_of_subset h'.nodup h'.inside).length_le
    omega
  | succ n ih =>
    intro l h left
    by_cases all : ∀ m, M.Spreads m → M.Trigger (marks start) m → m ∈ sweep visit l start
    · exact ⟨l, h, all⟩
    · obtain ⟨m, spreads, trigger, fresh⟩ := by simpa using all
      obtain ⟨l', h', longer⟩ := h.extend visits nodes distinct plain unnoticed untold spreads
        trigger fresh
      have := (List.subperm_of_subset h'.nodup h'.inside).length_le
      exact ih l' h' (by omega)

/-! ## When the marks are closed -/

/-- In a settled graph the marks are the same for every order of the visits. -/
theorem mem_sweep_iff (nodes : ∀ x y, M.imports x y → x ∈ files ∧ y ∈ files)
    (settled : M.Settled (marks start)) {l : List κ} (perm : l.Perm files) (f : κ) :
    f ∈ sweep visit l start ↔ M.Noticed (marks start) f ∨ ¬ M.src f ∧ M.Needed (marks start) f := by
  constructor
  · exact fun mem => (traced_sweep visits l f mem).imp_right fun ⟨plain, t, _, trigger, path⟩ =>
      ⟨plain, trigger.needed path⟩
  · have noticed : M.Noticed (marks start) f → f ∈ sweep visit l start := by
      rintro (begun | ⟨d, mem, path, heeds⟩)
      · exact subset_sweep visits l start f begun
      · obtain ⟨z, first, -⟩ := TransGen.head'_iff.mp path
        exact mem_sweep_of_noticed visits (perm.mem_iff.mpr (nodes f z first).1)
          (.inr ⟨d, mem, path, heeds⟩)
    rintro (now | ⟨plain, needed⟩)
    · exact noticed now
    · exact (settled f plain needed).elim noticed (mem_sweep_of_told visits nodes perm)

/-- In a settled graph the marks are closed. -/
theorem closed_of_settled (nodes : ∀ x y, M.imports x y → x ∈ files ∧ y ∈ files)
    (settled : M.Settled (marks start)) {l : List κ} (perm : l.Perm files) :
    M.Closed (· ∈ sweep visit l start) := by
  have marked := mem_sweep_iff visits nodes settled perm
  have reaches : ∀ i ∈ sweep visit l start, ∃ d ∈ start, ReflTransGen M.imports i d :=
    fun i mem => (traced_sweep visits l i mem).reaches
  refine ⟨fun f i source path mem => ?_, fun f i plain path plain' mem => ?_,
    fun f i plain path source changed => ?_, fun f m path mock mem => ?_⟩
  · obtain ⟨d, start_d, way⟩ := reaches i mem
    exact (marked f).mpr (.inl (.of_reaches start_d (path.trans_left way) (.inl source)))
  · obtain (begun | ⟨d, start_d, way, heeds⟩) | ⟨-, t, -, trigger, way⟩ :=
      traced_sweep visits l i mem
    · exact (marked f).mpr (.inl (.inr ⟨i, begun, path, .inr (.inr (.inl plain'))⟩))
    · obtain mock | concerned := heeds.resolve_left plain'
      · exact (marked f).mpr (.inr ⟨plain, .inr ⟨i, mock, path, d, start_d, way.to_reflTransGen⟩⟩)
      · exact (marked f).mpr (.inl (.inr ⟨d, start_d, path.trans way, .inr (.inr concerned)⟩))
    · exact (marked f).mpr (.inr ⟨plain, trigger.needed (path.trans way)⟩)
  · exact (marked f).mpr (.inr ⟨plain, .inl ⟨i, path, source, changed⟩⟩)
  · obtain ⟨d, start_d, way⟩ := reaches m mem
    by_cases source : M.src f
    · exact (marked f).mpr (.inl (.of_reaches start_d (path.trans_left way) (.inl source)))
    · exact (marked f).mpr (.inr ⟨source, .inr ⟨m, mock, path, d, start_d, way⟩⟩)

/-- If the marks are closed for every order of the visits, then the graph is settled. -/
theorem settled_of_closed (nodes : ∀ x y, M.imports x y → x ∈ files ∧ y ∈ files)
    (distinct : files.Nodup)
    (closed : ∀ l : List κ, l.Perm files → M.Closed (· ∈ sweep visit l start)) :
    M.Settled (marks start) := by
  intro f plain needed
  by_contra neither
  rw [not_or] at neither
  have f_mem : f ∈ files := by
    obtain ⟨i, path, -⟩ | ⟨i, -, path, -⟩ := needed <;>
      obtain ⟨z, first, -⟩ := TransGen.head'_iff.mp path <;> exact (nodes f z first).1
  obtain ⟨l, perm, out⟩ :=
    exists_order_without visits nodes distinct f_mem plain neither.1 neither.2
  obtain ⟨i, path, source, changed⟩ | ⟨m, mock, path, d, start_d, way⟩ := needed
  · exact out ((closed l perm).interface f i plain path source changed)
  · refine out ((closed l perm).mocks f m path mock ?_)
    obtain rfl | way := reflTransGen_iff_eq_or_transGen.mp way
    · exact subset_sweep visits l start d start_d
    · obtain ⟨z, first, -⟩ := TransGen.head'_iff.mp way
      exact mem_sweep_of_noticed visits (perm.mem_iff.mpr (nodes m z first).1)
        (.of_reaches start_d way (.inr mock))

end Sweep

/-- The graph is settled if source files only import source files, mocks are not among them, and
a changed interface comes with a start mark. -/
theorem settled_of_layered {start : Set κ} (layered : ∀ f i, M.imports f i → M.src f → M.src i)
    (mocks : ∀ m, M.mock m → ¬ M.src m) (coherent : ∀ i, M.src i → M.changed i → i ∈ start) :
    M.Settled start := by
  intro f plain needed
  obtain ⟨i, path, source, changed⟩ | ⟨m, mock, path, d, mem, way⟩ := needed
  · exact .inl (.inr ⟨i, coherent i source changed, path, .inr (.inr (.inr changed))⟩)
  have startOutside : ∀ t, ¬ M.src t → TransGen M.imports f t → t ∈ start → M.Noticed start f :=
    fun t plain path mem => .inr ⟨t, mem, path, .inr (.inr (.inl plain))⟩
  obtain rfl | way := reflTransGen_iff_eq_or_transGen.mp way
  · exact .inl (startOutside d (mocks d mock) path mem)
  by_cases noticed : M.Noticed start f
  · exact .inl noticed
  -- all mocks that `f` leads to and that lead to a start mark
  refine .inr ⟨{t | TransGen M.imports f t ∧ M.Trigger start t},
    ⟨m, path, ⟨d, mem, way⟩, .inl ⟨mocks m mock, mock⟩⟩, ?_, ?_⟩
  · rintro t ⟨path, trigger⟩
    refine ⟨trigger.2.resolve_right fun changed => noticed ?_, trigger⟩
    exact .inr ⟨t, coherent t changed.1 changed.2, path, .inr (.inr (.inr changed.2))⟩
  · rintro t ⟨path, trigger⟩
    have plain_t : ¬ M.src t := fun source => noticed <| by
      have changed := trigger.2.resolve_left fun loud => loud.1 source
      exact .inr ⟨t, coherent t source changed.2, path, .inr (.inr (.inr changed.2))⟩
    -- what leads to a file that is no source file is none either
    have back : ∀ x, ReflTransGen M.imports x t → ¬ M.src x ∧ ReflTransGen M.importsPlain x t := by
      intro x way
      induction way using ReflTransGen.head_induction_on with
      | refl => exact ⟨plain_t, .refl⟩
      | head edge _ ih =>
        exact ⟨fun source => ih.1 (layered _ _ edge source), .head ⟨edge, ih.1⟩ ih.2⟩
    obtain ⟨g, edge, way⟩ := TransGen.head'_iff.mp path
    obtain ⟨plain_g, way'⟩ := back g way
    exact ⟨g, edge, .inr ⟨plain_g, way', fun t' trigger' way'' =>
      ⟨.head' edge way'', trigger'⟩⟩⟩

end Marking

end FoundryCore
