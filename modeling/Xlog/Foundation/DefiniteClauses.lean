import Mathlib.Data.Set.Lattice

/-! Definite clauses over arbitrary atoms and the least set of atoms that they close.
-/

namespace Xlog.Foundation

/-- A clause whose head holds as soon as the atoms of its body do. -/
structure Clause (α : Type) where
  body : Set α
  head : α

variable {α : Type}

/-- A set of atoms that the clauses do not lead out of. -/
def Models (clauses : Set (Clause α)) (model : Set α) : Prop :=
  ∀ clause ∈ clauses, clause.body ⊆ model → clause.head ∈ model

/-- The atoms of every model. -/
def leastModel (clauses : Set (Clause α)) : Set α := {atom | ∀ model, Models clauses model → atom ∈ model}

/-- The atoms taken for granted, as clauses. -/
def factClauses (facts : Set α) : Set (Clause α) := {clause | clause.body = ∅ ∧ clause.head ∈ facts}

variable {clauses clauses' : Set (Clause α)} {model facts : Set α}

theorem leastModel_subset (h : Models clauses model) : leastModel clauses ⊆ model :=
  fun _ hatom => hatom model h

theorem models_leastModel (clauses : Set (Clause α)) : Models clauses (leastModel clauses) := by
  intro clause hclause hbody model hmodel
  exact hmodel clause hclause (hbody.trans (leastModel_subset hmodel))

theorem Models.mono (h : Models clauses' model) (hsub : clauses ⊆ clauses') : Models clauses model :=
  fun clause hclause => h clause (hsub hclause)

theorem models_union
    : Models (clauses ∪ clauses') model ↔ Models clauses model ∧ Models clauses' model := by
  constructor
  · intro h
    exact ⟨h.mono Set.subset_union_left, h.mono Set.subset_union_right⟩
  · rintro ⟨hleft, hright⟩ clause hclause
    exact hclause.elim (hleft clause) (hright clause)

theorem models_factClauses : Models (factClauses facts) model ↔ facts ⊆ model := by
  constructor
  · intro h fact hfact
    exact h ⟨∅, fact⟩ ⟨rfl, hfact⟩ (Set.empty_subset model)
  · rintro h clause ⟨-, hhead⟩ -
    exact h hhead

/-- Clause sets with the same models have the same least model. -/
theorem leastModel_congr (h : ∀ model, Models clauses model ↔ Models clauses' model)
    : leastModel clauses = leastModel clauses' := by
  ext atom
  exact forall_congr' fun model => imp_congr_left (h model)

/-- A clause whose body already holds its head asks nothing of a model. -/
theorem models_of_tautologies (h : Models clauses model)
    (htautology : ∀ clause ∈ clauses', clause ∉ clauses → clause.head ∈ clause.body)
    : Models clauses' model := by
  intro clause hclause hbody
  by_cases hmem : clause ∈ clauses
  · exact h clause hmem hbody
  · exact hbody (htautology clause hclause hmem)

/-- Clauses with heads elsewhere say nothing about a part of the atoms that the others stay in. -/
theorem leastModel_union_inter {inside : Set α}
    (closed : ∀ clause ∈ clauses, clause.body ⊆ inside ∧ clause.head ∈ inside)
    (apart : ∀ clause ∈ clauses', clause.head ∉ inside)
    : leastModel (clauses ∪ clauses') ∩ inside = leastModel clauses := by
  have within : leastModel clauses ⊆ inside :=
    leastModel_subset fun clause member _ => (closed clause member).2
  have extended : Models (clauses ∪ clauses') (leastModel clauses ∪ insideᶜ) := by
    refine models_union.mpr ⟨fun clause member body => ?_, fun clause member _ => ?_⟩
    · refine .inl (models_leastModel _ clause member fun atom atom_mem => ?_)
      exact (body atom_mem).resolve_right
        fun outside => outside ((closed clause member).1 atom_mem)
    · exact .inr (apart clause member)
  refine Set.Subset.antisymm ?_ fun atom derived => ⟨?_, within derived⟩
  · intro atom both
    exact (leastModel_subset extended both.1).resolve_right fun outside => outside both.2
  · exact leastModel_subset (models_union.mp (models_leastModel _)).1 derived

/-- A least model is the image of another when clauses correspond on the atoms derived so far. -/
theorem leastModel_eq_image {β : Type} {move : α → β} {moved : Set (Clause β)}
    (forward : ∀ clause ∈ clauses, ∃ image ∈ moved,
      image.body ⊆ move '' clause.body ∧ image.head = move clause.head)
    (backward : ∀ image ∈ moved, image.body ⊆ move '' leastModel clauses →
      image.head ∈ move '' leastModel clauses)
    : leastModel moved = move '' leastModel clauses := by
  refine Set.Subset.antisymm (leastModel_subset backward) ?_
  have pulled : Models clauses (Set.preimage move (leastModel moved)) := by
    intro clause member body
    obtain ⟨image, image_mem, image_body, image_head⟩ := forward clause member
    rw [Set.mem_preimage, ← image_head]
    exact models_leastModel _ image image_mem (image_body.trans (Set.image_subset_iff.mpr body))
  exact Set.image_subset_iff.mpr (leastModel_subset pulled)

end Xlog.Foundation
