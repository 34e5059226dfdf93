import Mathlib.Logic.Relation

/-!
# Preorder walks

A walk that takes what a node is labelled with and then walks its children in order meets what
the nodes below are labelled with, and nothing else.
-/

open Relation

namespace FoundryCore.Library

variable {α β : Type*} {r : α → α → Prop} {children : α → List α}

/-- The labels of a node and of everything below it; the children of a node come before it in a
well-founded order. -/
def preorder (wf : WellFounded r) (smaller : ∀ a, ∀ c ∈ children a, r c a) (label : α → List β)
    (a : α) : List β :=
  label a ++ (children a).attach.flatMap fun ⟨c, mem⟩ =>
    have := smaller a c mem
    preorder wf smaller label c
termination_by wf.wrap a

section Walk

variable (wf : WellFounded r) (smaller : ∀ a, ∀ c ∈ children a, r c a) (label : α → List β)

theorem preorder_eq (a : α) : preorder wf smaller label a =
    label a ++ (children a).flatMap (preorder wf smaller label) := by
  rw [preorder, List.flatMap_subtype (g := preorder wf smaller label) fun c mem => rfl]
  simp

/-- A walk meets the labels of the nodes below. -/
theorem mem_preorder {a : α} {b : β} : b ∈ preorder wf smaller label a ↔
    ∃ c, ReflTransGen (fun a c => c ∈ children a) a c ∧ b ∈ label c := by
  constructor
  · intro mem
    induction a using wf.induction with
    | h a ih =>
      rw [preorder_eq, List.mem_append, List.mem_flatMap] at mem
      rcases mem with here | ⟨c, child, below⟩
      · exact ⟨a, .refl, here⟩
      · obtain ⟨d, path, there⟩ := ih c (smaller a c child) below
        exact ⟨d, .head child path, there⟩
  · rintro ⟨c, path, mem⟩
    induction path using ReflTransGen.head_induction_on with
    | refl =>
      rw [preorder_eq]
      exact List.mem_append_left _ mem
    | head child _ ih =>
      rw [preorder_eq]
      exact List.mem_append_right _ (List.mem_flatMap.mpr ⟨_, child, ih⟩)

end Walk

end FoundryCore.Library
