import Mathlib.Order.Defs.Unbundled
import Mathlib.Data.List.Basic

/-!
# Interior operators

An interior operator takes a value to the greatest one below it that has a property, where smaller
values keep the property. Such operators compose: one after another takes a value to the greatest
one below it that has both properties, so their order does not matter.
-/

namespace FoundryCore.Library

variable {α β : Type*} {r : α → α → Prop} {q : β → β → Prop} {A B : α → Prop} {f g : α → α}

structure Interior (r : α → α → Prop) (A : α → Prop) (f : α → α) : Prop where
  lower : ∀ a b, r b a → A a → A b
  below : ∀ a, r (f a) a
  mem : ∀ a, A (f a)
  greatest : ∀ a b, r b a → A b → r b (f a)

namespace Interior

/-- There is one interior operator for a property. -/
theorem unique [IsPartialOrder α r] (hf : Interior r A f) (hg : Interior r A g) (a : α) :
    f a = g a :=
  antisymm_of r (hg.greatest a (f a) (hf.below a) (hf.mem a))
    (hf.greatest a (g a) (hg.below a) (hg.mem a))

theorem congr (h : Interior r A f) (iff : ∀ a, A a ↔ B a) : Interior r B f where
  lower a b le mem := (iff b).mp (h.lower a b le ((iff a).mpr mem))
  below := h.below
  mem a := (iff _).mp (h.mem a)
  greatest a b le mem := h.greatest a b le ((iff b).mpr mem)

/-- One operator after another. -/
theorem comp [IsPartialOrder α r] (hf : Interior r A f) (hg : Interior r B g) :
    Interior r (fun a => A a ∧ B a) (fun a => g (f a)) where
  lower a b le mem := ⟨hf.lower a b le mem.1, hg.lower a b le mem.2⟩
  below a := trans_of r (hg.below (f a)) (hf.below a)
  mem a := ⟨hf.lower _ _ (hg.below (f a)) (hf.mem a), hg.mem (f a)⟩
  greatest a b le mem := hg.greatest (f a) b (hf.greatest a b le mem.1) mem.2

/-- An operator that is applied under a condition. -/
theorem when [IsPartialOrder α r] (h : Interior r A f) (p : Prop) [Decidable p] :
    Interior r (fun a => p → A a) (fun a => if p then f a else a) := by
  by_cases holds : p
  · simpa [holds] using h
  · simpa [holds] using
      ⟨fun _ _ _ _ => trivial, refl_of r, fun _ => trivial, fun _ _ le _ => le⟩

end Interior

/-! ## Parts -/

/-- A part of a value that may be lowered while the rest stays. -/
structure Part (r : α → α → Prop) (q : β → β → Prop) (get : α → β) (set : β → α → α) : Prop where
  get_set : ∀ x a, get (set x a) = x
  mono : ∀ {a b}, r b a → q (get b) (get a)
  below : ∀ {x a}, q x (get a) → r (set x a) a
  above : ∀ {x a b}, r b a → q (get b) x → r b (set x a)

theorem Interior.part {get : α → β} {set : β → α → α} {C : β → Prop} {h : β → β}
    (part : Part r q get set) (interior : Interior q C h) :
    Interior r (fun a => C (get a)) (fun a => set (h (get a)) a) where
  lower _ _ le mem := interior.lower _ _ (part.mono le) mem
  below a := part.below (interior.below _)
  mem a := by
    rw [part.get_set]
    exact interior.mem _
  greatest a b le mem := part.above le (interior.greatest _ _ (part.mono le) mem)

/-! ## Options and lists -/

instance isPartialOrder_eq : IsPartialOrder α Eq where
  refl := Eq.refl
  trans _ _ _ := Eq.trans
  antisymm _ _ eq _ := eq

instance isPartialOrder_sublist : IsPartialOrder (List α) List.Sublist where
  refl := List.Sublist.refl
  trans _ _ _ := List.Sublist.trans
  antisymm _ _ := List.Sublist.antisymm

instance isPartialOrder_option [IsPartialOrder α r] :
    IsPartialOrder (Option α) (Option.le r) where
  refl a := by
    cases a with
    | none => trivial
    | some a => exact refl_of r a
  trans a b c ab bc := by
    cases a <;> cases b <;> cases c <;> simp only [Option.le] at ab bc ⊢
    exact trans_of r ab bc
  antisymm a b ab ba := by
    cases a <;> cases b <;> simp only [Option.le] at ab ba ⊢
    rw [antisymm_of r ab ba]

theorem optionLe_none (o : Option α) : Option.le r none o := by
  cases o <;> trivial

namespace Interior

/-- Removing a value. -/
theorem none : Interior (Option.le r) (fun o => o = .none) (fun _ => .none) where
  lower := by
    rintro a b le rfl
    cases b with
    | none => rfl
    | some => cases le
  below := optionLe_none
  mem _ := rfl
  greatest _ _ _ mem := by
    obtain rfl := mem
    exact optionLe_none _

/-- Lowering a value that is there. -/
theorem map (interior : Interior r A f) :
    Interior (Option.le r) (fun o => ∀ a ∈ o, A a) (Option.map f) where
  lower a b le mem x here := by
    cases a <;> simp_all [Option.le]
    exact interior.lower _ _ le mem
  below o := by
    cases o with
    | none => trivial
    | some a => exact interior.below a
  mem o := by
    cases o with
    | none => simp
    | some a => simpa using interior.mem a
  greatest a b le mem := by
    cases b with
    | none => exact optionLe_none _
    | some b =>
      cases a with
      | none => cases le
      | some a => exact interior.greatest a b le (mem b rfl)

/-- Keeping the elements that pass a test. -/
theorem filter (p : α → Bool) :
    Interior List.Sublist (fun l => ∀ a ∈ l, p a = true) (List.filter p) where
  lower _ _ le mem a here := mem a (le.subset here)
  below _ := List.filter_sublist
  mem l a mem := (List.mem_filter.mp mem).2
  greatest l l' le mem := by
    have kept := le.filter p
    rwa [List.filter_eq_self.mpr mem] at kept

theorem nil : Interior (List.Sublist (α := α)) (fun l => l = []) (fun _ => []) where
  lower := by
    rintro a b le rfl
    exact List.sublist_nil.mp le
  below l := List.nil_sublist l
  mem _ := rfl
  greatest _ _ _ mem := by
    obtain rfl := mem
    exact List.Sublist.refl _

end Interior

end FoundryCore.Library
