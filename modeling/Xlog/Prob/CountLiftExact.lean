import Xlog.Prob.CountLiftCorrectness

/-! When the fast path for lifted counts is exact: for the given leaf probabilities, and for
all of them.
-/

namespace Xlog.Prob

open Xlog.Core Xlog.Foundation

-- Other probabilities

variable {intern : String → Nat} {provenance : Provenance} {probs : LeafId → ℚ}
  (valid : ∀ leaf, 0 ≤ probs leaf ∧ probs leaf ≤ 1)

theorem lookup_reweight (leaf : LeafId)
    : (provenance.reweight probs valid).leafProbs.lookup leaf
      = (provenance.leafProbs.lookup leaf).map fun _ => probs leaf :=
  lookup_map_snd provenance.leafProbs probs leaf

/-- Collection does not read the weights, by induction on the depth. -/
theorem collectCountLiftLeavesFuel_reweight (fuel : Nat) (node : PirNodeId)
    (leaves : List LeafId)
    : collectCountLiftLeavesFuel (provenance.reweight probs valid) fuel node leaves
      = collectCountLiftLeavesFuel provenance fuel node leaves := by
  induction fuel generalizing node leaves with
  | zero => rfl
  | succ fuel ih =>
      simp only [collectCountLiftLeavesFuel, ih]
      rfl

theorem collectCountLiftLeaves_reweight (node : PirNodeId) (leaves : List LeafId)
    : collectCountLiftLeaves (provenance.reweight probs valid) node leaves
      = collectCountLiftLeaves provenance node leaves :=
  collectCountLiftLeavesFuel_reweight valid _ node leaves

theorem queryFormula_reweight (predicate : String) (args : List Value)
    : (provenance.reweight probs valid).queryFormula intern predicate args
      = provenance.queryFormula intern predicate args :=
  rfl

/-- The fast path takes the same queries under other weights. -/
theorem lifts_reweight {query : QuerySpec} {targetCount : Nat} {root : PirNodeId}
    {leaves : List LeafId}
    : Lifts intern (provenance.reweight probs valid) query targetCount root leaves
      ↔ Lifts intern provenance query targetCount root leaves := by
  have hleaves : (provenance.reweight probs valid).leaves = provenance.leaves := by
    ext leaf
    simp only [Provenance.mem_leaves, lookup_reweight, Option.map_eq_some_iff]
    constructor
    · intro h
      obtain ⟨_, old, hl, _⟩ := h
      exact ⟨old, hl⟩
    · intro h
      obtain ⟨old, hl⟩ := h
      exact ⟨_, old, hl, rfl⟩
  constructor
  · intro h
    exact ⟨h.target, h.formula, collectCountLiftLeaves_reweight valid root [] ▸ h.collected,
      hleaves ▸ h.weighed⟩
  · intro h
    exact ⟨h.target, h.formula, (collectCountLiftLeaves_reweight valid root []).trans h.collected,
      hleaves.symm ▸ h.weighed⟩

theorem countLiftQuery_reweight {query : QuerySpec} {gpuQuery : GpuCountLiftQuery}
    (run : countLiftQuery intern provenance query = .ok (some gpuQuery))
    : ∃ other, countLiftQuery intern (provenance.reweight probs valid) query
        = .ok (some other) := by
  obtain ⟨targetCount, root, leaves, hlifts, _, _⟩ := countLiftQuery_eq_some run
  have hprobs : leafProbsHost (provenance.reweight probs valid)
      (leaves.insertionSort (· ≤ ·)) = .ok ((leaves.insertionSort (· ≤ ·)).map probs) := by
    refine mapM_ok _ _ _ fun leaf hl => ?_
    obtain ⟨prob, hfound⟩ := Provenance.mem_leaves.mp
      (hlifts.weighed leaf ((List.mem_insertionSort _).mp hl))
    simp [lookup_reweight, hfound]
  have hcollect := (collectCountLiftLeaves_reweight valid root []).trans
    hlifts.collected
  simp only [countLiftQuery, hlifts.target, ok_bind, hlifts.formula, hlifts.collected] at run
  simp only [countLiftQuery, hlifts.target, ok_bind, queryFormula_reweight, hlifts.formula,
    hcollect]
  split at run
  · simp at run
  · split at run
    · simp at run
    · next hsize htarget =>
        rw [if_neg hsize, if_neg htarget, hprobs, ok_bind]
        exact ⟨_, rfl⟩

theorem countLiftQueries_reweight {queries : List QuerySpec} {state : GpuCountLiftState}
    (run : countLiftQueries intern provenance queries = .ok (some state))
    : ∃ other, countLiftQueries intern (provenance.reweight probs valid) queries
        = .ok (some other) := by
  have hall := forall₂_of_countLiftQueries run
  clear run
  induction hall with
  | nil => exact ⟨[], rfl⟩
  | cons hquery _ ih =>
      obtain ⟨first, hfirst⟩ := countLiftQuery_reweight valid hquery
      obtain ⟨others, hothers⟩ := ih
      refine ⟨first :: others, ?_⟩
      simp only [countLiftQueries, hfirst, ok_bind, hothers]

theorem tryBuildCountLiftGpuState_reweight {queries : List QuerySpec}
    {state : GpuCountLiftState}
    (run : tryBuildCountLiftGpuState intern provenance queries = .ok (some state))
    : ∃ other, tryBuildCountLiftGpuState intern (provenance.reweight probs valid) queries
        = .ok (some other) := by
  rw [tryBuildCountLiftGpuState] at run ⊢
  split at run
  · simp at run
  · next hinputs =>
      split at run
      · simp at run
      · next hfired =>
          split at run
          · simp at run
          · next hall =>
              obtain ⟨other, hother⟩ := countLiftQueries_reweight valid run
              exact ⟨other, (if_neg hinputs).trans ((if_neg hfired).trans
                ((if_neg hall).trans hother))⟩

-- Exactness

/-- Exactness of a state, query by query. -/
theorem countLiftExact_iff_balances {queries : List QuerySpec} {state : GpuCountLiftState}
    (hall : List.Forall₂ (fun query gpuQuery =>
      countLiftQuery intern provenance query = .ok (some gpuQuery)) queries state)
    : CountLiftExact intern provenance queries state
      ↔ ∀ query ∈ queries, DisagreementBalances intern provenance query := by
  rw [CountLiftExact]
  induction hall with
  | nil => simp
  | cons hquery _ ih =>
      rw [List.forall₂_cons, List.forall_mem_cons, liftedExactly_iff hquery, ih]

/-- A set of leaves as a world: how many of the listed ones are true in it. -/
theorem length_filter_leafWorld {leaves : List LeafId} (distinct : leaves.Nodup)
    {trues : Finset LeafId} (sub : trues ⊆ leaves.toFinset)
    : (leaves.filter (leafWorld trues).leaf).length = trues.card := by
  rw [← List.toFinset_card_of_nodup (distinct.filter _)]
  refine congrArg Finset.card (Finset.ext fun leaf => ?_)
  have hin : leaf ∈ trues → leaf ∈ leaves := fun h => List.mem_toFinset.mp (sub h)
  simpa [leafWorld] using hin

/-- A formula that counts leaves disagrees with the count nowhere. -/
theorem FormulaCounts.balances {query : QuerySpec}
    (h : FormulaCounts intern provenance query)
    : DisagreementBalances intern provenance query := by
  intro targetCount root leaves hlifts
  have hagree : ∀ trues ⊆ leaves.toFinset,
      (provenance.pir.eval (leafWorld trues) root = true ↔ trues.card = targetCount) := by
    intro trues hsub
    rw [h targetCount root leaves hlifts, length_filter_leafWorld hlifts.distinct hsub]
  refine probability_congr fun trues hsub => ?_
  rw [hagree trues hsub]

/-- A formula that balances under every choice of certain leaves counts them: each such choice
weighs one assignment only.
-/
theorem FormulaCounts.of_balances {query : QuerySpec}
    (h : ∀ (probs : LeafId → ℚ) (valid : ∀ leaf, 0 ≤ probs leaf ∧ probs leaf ≤ 1),
      DisagreementBalances intern (provenance.reweight probs valid) query)
    : FormulaCounts intern provenance query := by
  intro targetCount root leaves hlifts w
  let trues : Finset LeafId := leaves.toFinset.filter fun leaf => w.leaf leaf = true
  have hsub : trues ⊆ leaves.toFinset := Finset.filter_subset _ _
  have hworld : provenance.pir.eval w root = provenance.pir.eval (leafWorld trues) root :=
    (collectCountLiftLeavesFuel_spec hlifts.collected).decides w (leafWorld trues)
      fun leaf hl => by simp [leafWorld, trues, hl]
  have hcount : (leaves.filter w.leaf).length = trues.card := by
    rw [← length_filter_leafWorld hlifts.distinct hsub]
    refine congrArg List.length (List.filter_congr fun leaf hl => ?_)
    simp [leafWorld, trues, hl]
  rw [hworld, hcount]
  have hvalid : ∀ leaf, 0 ≤ (if leaf ∈ trues then (1 : ℚ) else 0)
      ∧ (if leaf ∈ trues then (1 : ℚ) else 0) ≤ 1 := by
    intro leaf
    split <;> norm_num
  have hpoint : ∀ (event : Finset LeafId → Prop) [DecidablePred event],
      probability (provenance.reweight _ hvalid).leafProb leaves.toFinset event
        = if event trues then 1 else 0 := by
    intro event _
    rw [← probability_point leaves.toFinset hsub event]
    refine probability_congr_weights (fun leaf hl => ?_) event
    obtain ⟨prob, hfound⟩ :=
      Provenance.mem_leaves.mp (hlifts.weighed leaf (List.mem_toFinset.mp hl))
    simp [Provenance.leafProb, lookup_reweight, hfound]
  have hbalance := h _ hvalid targetCount root leaves ((lifts_reweight _).mpr hlifts)
  rw [hpoint, hpoint] at hbalance
  change (if trues.card = targetCount
      ∧ ¬ provenance.pir.eval (leafWorld trues) root = true then (1 : ℚ) else 0)
    = if provenance.pir.eval (leafWorld trues) root = true
      ∧ ¬ trues.card = targetCount then 1 else 0 at hbalance
  by_cases hcard : trues.card = targetCount
  · by_cases heval : provenance.pir.eval (leafWorld trues) root = true
    · exact iff_of_true heval hcard
    · simp [hcard, heval] at hbalance
  · by_cases heval : provenance.pir.eval (leafWorld trues) root = true
    · simp [hcard, heval] at hbalance
    · exact iff_of_false heval hcard

/-- One query for the count 1, over a predicate without other arguments. -/
def countQuery : QuerySpec := ⟨⟨"n", [.i64 1]⟩⟩

/-- Two facts of probability one half, and the formula of the count 1 over a graph. -/
def halvesProvenance (pir : PirGraph) (formula : PirNodeId) (rows : Nat) (sound : pir.Sound)
    : Provenance where
  pir := pir
  leafProbs := [(0, 1 / 2), (1, 1 / 2)]
  choiceProbs := []
  tupleFormulas := [(⟨"n", [.i64 1]⟩, formula)]
  queries := [⟨"n", [.i64 1]⟩]
  evidence := []
  aggregateLifting := [⟨"n", [], "count", 0, rows, .fired⟩]
  schemas := [("n", ⟨[("c0", .u64)]⟩)]
  sound := sound
  leavesDistinct := by decide
  leavesValid := by decide +kernel

/-- `n(count(X)) :- a(X)` over two uncertain rows with one leaf each. -/
def separateRows : Provenance :=
  halvesProvenance
    ⟨[.const true, .const false, .lit 0, .lit 1, .negLit 0, .negLit 1,
      .and [3, 4], .and [2, 5], .or [6, 7]]⟩ 8 2 (PirGraph.Backward.sound (by decide))

/-- `n(count(X)) :- a(X), b(X)` over one uncertain row with two leaves. -/
def joinedRow : Provenance :=
  halvesProvenance
    ⟨[.const true, .const false, .lit 0, .lit 1, .and [2, 3], .negLit 0, .negLit 1,
      .or [5, 6]]⟩ 4 1 (PirGraph.Backward.sound (by decide))

def halvesState : GpuCountLiftState := [⟨⟨"n", [.i64 1]⟩, 1, 2, [1 / 2, 1 / 2]⟩]

end Xlog.Prob
