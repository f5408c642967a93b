import Mathlib.Data.List.Sort

/-! Sorting by one digit after the other. A pass is stable, so that after the passes the items
are in the lexicographic order of their digits, the last pass first.
-/

namespace Xlog.Foundation

variable {α β : Type}

/-- One stable pass. -/
def stablePass (digit : α → Nat) (items : List α) : List α :=
  items.insertionSort fun a b => digit a ≤ digit b

theorem stablePass_perm (digit : α → Nat) (items : List α)
    : (stablePass digit items).Perm items :=
  List.perm_insertionSort _ items

theorem stablePass_map (digit : β → Nat) (f : α → β) (items : List α)
    : stablePass digit (items.map f) = (stablePass (digit ∘ f) items).map f :=
  (List.map_insertionSort _ _ f items fun _ _ _ _ => Iff.rfl).symm

theorem pairwise_orderedInsert (digit : α → Nat) {R : α → α → Prop} {a : α} {items : List α}
    (h : items.Pairwise fun b c => digit b < digit c ∨ (digit b = digit c ∧ R b c))
    (first : ∀ b ∈ items, R a b)
    : (items.orderedInsert (fun b c => digit b ≤ digit c) a).Pairwise
        fun b c => digit b < digit c ∨ (digit b = digit c ∧ R b c) := by
  induction items with
  | nil => simp
  | cons b items ih =>
      rw [List.orderedInsert_cons]
      rw [List.pairwise_cons] at h
      split
      · next hle =>
          refine List.pairwise_cons.mpr ⟨?_, List.pairwise_cons.mpr h⟩
          intro c hc
          have hbc : digit b ≤ digit c := by
            rcases List.mem_cons.mp hc with rfl | hc
            · exact Nat.le_refl _
            · rcases h.1 c hc with hlt | ⟨heq, _⟩ <;> omega
          rcases Nat.lt_or_ge (digit a) (digit c) with hlt | hge
          · exact Or.inl hlt
          · exact Or.inr ⟨by omega, first c hc⟩
      · next hlt =>
          refine List.pairwise_cons.mpr
            ⟨?_, ih h.2 fun c hc => first c (List.mem_cons_of_mem _ hc)⟩
          intro c hc
          rcases List.mem_orderedInsert _ |>.mp hc with rfl | hc
          · exact Or.inl (Nat.lt_of_not_le hlt)
          · exact h.1 c hc

/-- A pass orders by its digit first and keeps the order of the items with one digit. -/
theorem stablePass_pairwise (digit : α → Nat) {R : α → α → Prop} {items : List α}
    (h : items.Pairwise R)
    : (stablePass digit items).Pairwise
        fun a b => digit a < digit b ∨ (digit a = digit b ∧ R a b) := by
  induction h with
  | nil => exact List.Pairwise.nil
  | cons first _ ih =>
      apply pairwise_orderedInsert digit ih
      intro b hb
      exact first b ((stablePass_perm digit _).mem_iff.mp hb)

end Xlog.Foundation
