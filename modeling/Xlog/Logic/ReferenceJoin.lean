import Xlog.Logic.ReferenceRule

/-! The evaluator of one rule computes the join of its atoms: sorted, each row once, and the same rows
whatever the order of the variables.
-/

namespace Xlog.Logic

open Xlog.Foundation

/-- The rule is typed over the relations of the store. -/
structure Rule.TypedOver (store : RefRelationStore) (types : String → ScalarType) (rule : Rule)
    : Prop where
  body : ∀ literal ∈ rule.body, literal.isComputed = false
  atoms : ∀ atom ∈ rule.positiveAtoms, ∃ relation, store atom.predicate = some relation
    ∧ (∀ row ∈ relation.rows, RowFits relation.schema row)
    ∧ List.Forall₂ (TermFits types) atom.terms relation.schema
  comparisons : ∀ cmp ∈ rule.comparisons, ∃ left right,
    ValueFits types cmp.left left ∧ ValueFits types cmp.right right ∧ Comparable left right
  head : ∀ term ∈ rule.head.terms, ∃ ty, ValueFits types term ty
  bound : ∀ name, (Term.var name ∈ rule.head.terms
    ∨ ∃ cmp ∈ rule.comparisons, cmp.left = .var name ∨ cmp.right = .var name) → rule.Binds name

def RefRelationStore.schemas (store : RefRelationStore) (predicate : String) : List ScalarType :=
  ((store predicate).map RefRelation.schema).getD []

theorem RefRelationStore.schemas_of_stored {store : RefRelationStore} {predicate : String}
    {relation : RefRelation} (h : store predicate = some relation)
    : store.schemas predicate = relation.schema := by
  simp [schemas, h]

section

variable {store : RefRelationStore} {types : String → ScalarType} {rule : Rule}

theorem Rule.TypedOver.readable (h : rule.TypedOver store types)
    : rule.Readable store.schemas types where
  body := h.body
  atoms := by
    intro atom hatom
    obtain ⟨relation, hstored, -, hterms⟩ := h.atoms atom hatom
    rw [RefRelationStore.schemas_of_stored hstored]
    exact hterms
  comparisons := h.comparisons
  head := h.head
  bound := h.bound

theorem Rule.TypedOver.ready (h : rule.TypedOver store types) {atom : Atom}
    (hatom : atom ∈ rule.positiveAtoms)
    : AtomReady store.schemas store atom := by
  obtain ⟨relation, hstored, hrows, hterms⟩ := h.atoms atom hatom
  refine ⟨relation, hstored, hrows, hterms.imp fun _ _ hterm => hterm.2, .inl ?_⟩
  exact (RefRelationStore.schemas_of_stored hstored).symm

/-- The rows of the evaluator have been sorted, and their duplicates dropped. -/
theorem evaluateRule_sorted {order : VariableOrder} {rows : List RefRow}
    (h : evaluateRule rule store order = .ok rows)
    : ∃ results, rows = sortDedup results := by
  unfold evaluateRule at h
  cases hanalyze : analyze (HypergraphRule.fromRule rule) .hashFallback with
  | ineligible boundaries => simp [hanalyze] at h
  | eligible =>
    simp only [hanalyze] at h
    split at h
    · simp at h
    · obtain ⟨specs, -, h⟩ := bind_eq_ok.mp h
      obtain ⟨results, -, h⟩ := bind_eq_ok.mp h
      exact ⟨results, (Except.ok.inj h).symm⟩

theorem sortDedup_strictlyOrdered (rows : List RefRow) : (sortDedup rows).Pairwise (· < ·) := by
  have hsorted : (sortDedup rows).Pairwise (· ≤ ·) :=
    (List.pairwise_insertionSort _ rows).sublist (List.dedup_sublist _)
  have hdistinct : (sortDedup rows).Nodup := List.nodup_dedup _
  exact (hsorted.and hdistinct).imp fun h => lt_of_le_of_ne h.1 h.2

theorem evaluateRule_ok (htyped : rule.TypedOver store types)
    (heligible : analyze (HypergraphRule.fromRule rule) .hashFallback = .eligible)
    (order : VariableOrder)
    : ∃ rows, evaluateRule rule store order = .ok rows
      ∧ ∀ row, row ∈ rows ↔ rule.Derives store.interp row := by
  have hspec := evaluateRule_spec htyped.readable heligible (fun atom => htyped.ready) order
  cases hrun : evaluateRule rule store order with
  | error e =>
    rw [hrun] at hspec
    exact hspec.elim
  | ok rows =>
    rw [hrun] at hspec
    exact ⟨rows, rfl, hspec⟩

/-- The evaluator returns the rows that the rule derives, in order and each once, under every order of
the variables.
-/
theorem evaluateRule_join (htyped : rule.TypedOver store types)
    (heligible : analyze (HypergraphRule.fromRule rule) .hashFallback = .eligible)
    (order : VariableOrder)
    : ∃ rows, evaluateRule rule store order = .ok rows
      ∧ rows.Pairwise (· < ·)
      ∧ (∀ row, row ∈ rows ↔ rule.Derives store.interp row)
      ∧ ∀ other, evaluateRule rule store other = .ok rows := by
  obtain ⟨rows, hrun, hrows⟩ := evaluateRule_ok htyped heligible order
  obtain ⟨results, rfl⟩ := evaluateRule_sorted hrun
  refine ⟨_, hrun, sortDedup_strictlyOrdered results, hrows, fun other => ?_⟩
  obtain ⟨rows', hrun', hrows'⟩ := evaluateRule_ok htyped heligible other
  obtain ⟨results', rfl⟩ := evaluateRule_sorted hrun'
  have hsame : sortDedup results' = sortDedup results := by
    refine sortDedup_eq_iff.mpr fun row => ?_
    rw [← mem_sortDedup, hrows', ← hrows, mem_sortDedup]
  rw [hrun', hsame]

end

-- Two steps of an edge relation

def twoStepRule : Rule where
  head := ⟨"twoStep", [.var "X", .var "Z"]⟩
  body := [
    .positive ⟨"edge", [.var "X", .var "Y"]⟩,
    .positive ⟨"edge", [.var "Y", .var "Z"]⟩,
    .comparison ⟨.var "X", .lt, .var "Z"⟩]

def edgeStore : RefRelationStore := fun predicate =>
  if predicate = "edge" then some ⟨[.u32, .u32], [[.u32 1, .u32 2], [.u32 2, .u32 3]]⟩ else none

theorem twoStepRule_typed : twoStepRule.TypedOver edgeStore (fun _ => .u32) where
  body := by simp [twoStepRule, BodyLiteral.isComputed]
  atoms := by
    have hedge : ∀ left right, List.Forall₂ (TermFits fun _ => .u32)
        [Term.var left, Term.var right] [.u32, .u32] := by
      simp [TermFits, ConstantFits]
    intro atom hatom
    refine ⟨⟨[.u32, .u32], [[.u32 1, .u32 2], [.u32 2, .u32 3]]⟩, ?_⟩
    simp only [Rule.positiveAtoms, twoStepRule, List.filterMap_cons, List.filterMap_nil,
      List.mem_cons, List.not_mem_nil, or_false] at hatom
    rcases hatom with rfl | rfl <;>
      exact ⟨rfl, by simp [RowFits, RefValue.scalarType], hedge _ _⟩
  comparisons := by
    simp [Rule.comparisons, twoStepRule, ValueFits, Comparable, ScalarType.isInteger]
  head := by simp [twoStepRule, ValueFits]
  bound := by
    intro name hname
    simp only [twoStepRule, Rule.comparisons, List.filterMap_cons, List.filterMap_nil,
      List.mem_cons, Term.var.injEq, List.not_mem_nil, or_false, exists_eq_left] at hname
    simp only [Rule.Binds, Rule.positiveAtoms, twoStepRule, List.filterMap_cons,
      List.filterMap_nil, List.mem_cons, List.not_mem_nil, or_false, exists_eq_or_imp,
      exists_eq_left, Term.var.injEq]
    grind

theorem twoStepRule_join
    : ∃ rows, evaluateRule twoStepRule edgeStore appearanceOrder = .ok rows
      ∧ rows.Pairwise (· < ·)
      ∧ (∀ row, row ∈ rows ↔ twoStepRule.Derives edgeStore.interp row)
      ∧ ∀ other, evaluateRule twoStepRule edgeStore other = .ok rows :=
  evaluateRule_join twoStepRule_typed (by decide +kernel) appearanceOrder

end Xlog.Logic
