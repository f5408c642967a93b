import Xlog.Foundation.Assoc
import Xlog.Foundation.Loop
import Xlog.Prob.CountLift

/-! What the fast path for lifted counts computes, against the weight of the assignments that
satisfy the formula. The fast path forgets the formula and keeps its leaves.
-/

namespace Xlog.Prob

open Xlog.Core Xlog.Foundation

-- The kernel

/-- The cells are updated from the top, so each reads the old values, by induction on the
number of cells done.
-/
theorem countLiftCells_apply (p : ℚ) (scratch : Nat → ℚ) (upper k : Nat)
    : countLiftCells p scratch upper k
      = if 1 ≤ k ∧ k ≤ upper then scratch k * (1 - p) + scratch (k - 1) * p
        else scratch k := by
  have hdone : ∀ n ≤ upper, ∀ k, ((List.range n).foldl (fun scratch rev =>
        let k := upper - rev
        Function.update scratch k (scratch k * (1 - p) + scratch (k - 1) * p)) scratch) k
      = if upper - n < k ∧ k ≤ upper then scratch k * (1 - p) + scratch (k - 1) * p
        else scratch k := by
    intro n
    induction n with
    | zero =>
        intro _ k
        rw [List.range_zero, List.foldl_nil, if_neg (by omega)]
    | succ n ih =>
        intro hn k
        rw [List.range_succ, List.foldl_append, List.foldl_cons, List.foldl_nil]
        by_cases hk : k = upper - n
        · subst hk
          rw [Function.update_self, ih (by omega), ih (by omega), if_neg (by omega),
            if_neg (by omega), if_pos (by omega)]
        · rw [Function.update_of_ne hk, ih (by omega)]
          exact if_congr (by omega) rfl rfl
  rw [countLiftCells, hdone upper le_rfl k]
  exact if_congr (by omega) rfl rfl

/-- The cells hold the probabilities of the counts up to the target. -/
def CellsHold (p : LeafId → ℚ) (targetCount : Nat) (leaves : Finset LeafId)
    (scratch : Nat → ℚ) : Prop :=
  ∀ k ≤ targetCount, scratch k = probability p leaves fun trues => trues.card = k

/-- One leaf of the kernel is one step of the recurrence. -/
theorem CellsHold.leaf {p : LeafId → ℚ} {targetCount : Nat} {leaves : Finset LeafId}
    {scratch : Nat → ℚ} (h : CellsHold p targetCount leaves scratch) {leaf : LeafId}
    (new : leaf ∉ leaves) (valid : 0 ≤ p leaf ∧ p leaf ≤ 1)
    : ∃ next, countLiftLeaf targetCount scratch (p leaf, leaves.card) = .ok next
      ∧ CellsHold p targetCount (insert leaf leaves) next := by
  refine ⟨_, if_pos valid, fun k hk => ?_⟩
  cases k with
  | zero =>
      rw [Function.update_self, countLiftCells_apply, if_neg (by omega), h 0 hk]
      exact (probability_card_zero_insert new).symm
  | succ k =>
      rw [Function.update_of_ne (by omega), countLiftCells_apply]
      by_cases hupper : k + 1 ≤ min (leaves.card + 1) targetCount
      · rw [if_pos (by omega), h (k + 1) hk, Nat.add_sub_cancel, h k (by omega)]
        exact (probability_card_insert new k).symm
      · -- more true leaves than there are so far
        have hcard : (insert leaf leaves).card < k + 1 := by
          rw [Finset.card_insert_of_notMem new]
          omega
        rw [if_neg (by omega), h (k + 1) hk, probability_card_of_lt hcard,
          probability_card_of_lt (by omega)]

/-- The kernel computes the probability of the count, by induction along the leaves. -/
theorem weightsCountLiftExact_eq {p : LeafId → ℚ} {leaves : List LeafId}
    (distinct : leaves.Nodup) (valid : ∀ leaf ∈ leaves, 0 ≤ p leaf ∧ p leaf ≤ 1)
    (targetCount : Nat)
    : weightsCountLiftExact (leaves.map p) targetCount
      = .ok (probability p leaves.toFinset fun trues => trues.card = targetCount) := by
  have hloop : ∀ (rest : List LeafId) (done : Finset LeafId) (scratch : Nat → ℚ),
      rest.Nodup → (∀ leaf ∈ rest, leaf ∉ done ∧ 0 ≤ p leaf ∧ p leaf ≤ 1)
      → CellsHold p targetCount done scratch
      → ∃ last, ((rest.map p).zip (List.range' done.card rest.length)).foldlM
            (countLiftLeaf targetCount) scratch = .ok last
          ∧ CellsHold p targetCount (done ∪ rest.toFinset) last := by
    intro rest
    induction rest with
    | nil => exact fun done scratch _ _ h => ⟨scratch, rfl, by simpa using h⟩
    | cons leaf rest ih =>
        intro done scratch hd hv h
        obtain ⟨hnotin, hd⟩ := List.nodup_cons.mp hd
        obtain ⟨hnew, hvalid⟩ := hv leaf (by simp)
        obtain ⟨next, hstep, hnext⟩ := h.leaf hnew hvalid
        have hrest : ∀ other ∈ rest, other ∉ insert leaf done ∧ 0 ≤ p other ∧ p other ≤ 1 := by
          intro other ho
          obtain ⟨hout, hok⟩ := hv other (by simp [ho])
          have hne : other ≠ leaf := fun he => hnotin (he ▸ ho)
          exact ⟨by simp [hne, hout], hok⟩
        obtain ⟨last, hfold, hlast⟩ := ih (insert leaf done) next hd hrest hnext
        refine ⟨last, ?_, ?_⟩
        · rw [Finset.card_insert_of_notMem hnew] at hfold
          rw [List.map_cons, List.length_cons, List.range'_succ, List.zip_cons_cons,
            List.foldlM_cons, hstep, ok_bind]
          exact hfold
        · have hunion : done ∪ (leaf :: rest).toFinset = insert leaf done ∪ rest.toFinset := by
            ext other
            simp only [Finset.mem_union, List.mem_toFinset, List.mem_cons, Finset.mem_insert]
            tauto
          rw [hunion]
          exact hlast
  have hstart : CellsHold p targetCount ∅ (Function.update (fun _ => 0) 0 1) := by
    intro k _
    rw [probability_empty]
    cases k with
    | zero => rfl
    | succ k => rfl
  rw [weightsCountLiftExact, List.length_map]
  split
  · next hlt =>
      have hcard : leaves.toFinset.card < targetCount := by
        rw [List.toFinset_card_of_nodup distinct]
        exact hlt
      rw [probability_card_of_lt hcard]
  · obtain ⟨last, hfold, hlast⟩ := hloop leaves ∅ _ distinct
      (fun leaf hl => ⟨by simp, valid leaf hl⟩) hstart
    rw [List.range_eq_range']
    rw [Finset.card_empty] at hfold
    rw [hfold, ok_bind, hlast targetCount le_rfl, Finset.empty_union]

-- The leaves of a formula

/-- The collected leaves keep the ones given, stay distinct, and decide the formula. -/
structure Collected (provenance : Provenance) (node : PirNodeId)
    (before after : List LeafId) : Prop where
  keeps : before ⊆ after
  distinct : before.Nodup → after.Nodup
  decides : ∀ v w : World, (∀ leaf ∈ after, v.leaf leaf = w.leaf leaf)
    → provenance.pir.eval v node = provenance.pir.eval w node

/-- A value of the children that decides them decides the node. -/
theorem eval_eq_of_children {provenance : Provenance} {node : PirNodeId} {found : PirNode}
    (hnode : provenance.pir.node node = some found) {v w : World}
    (leaf : ∀ f : PirNodeId → Bool, found.value v f = found.value w f)
    (agree : ∀ child ∈ found.children,
      provenance.pir.eval v child = provenance.pir.eval w child)
    : provenance.pir.eval v node = provenance.pir.eval w node := by
  rw [PirGraph.eval_eq provenance.sound.acyclic v hnode,
    PirGraph.eval_eq provenance.sound.acyclic w hnode, leaf]
  exact PirNode.value_congr agree

/-- Collection that succeeds finds what decides the formula, by induction on the depth. -/
theorem collectCountLiftLeavesFuel_spec {provenance : Provenance} {fuel : Nat}
    {node : PirNodeId} {before after : List LeafId}
    (run : collectCountLiftLeavesFuel provenance fuel node before = .ok after)
    : Collected provenance node before after := by
  induction fuel generalizing node before after with
  | zero => simp [collectCountLiftLeavesFuel] at run
  | succ fuel ih =>
      -- the loop over the children collects for each of them
      have hloop : ∀ children : List PirNodeId,
          children.foldlM (fun leaves child =>
            collectCountLiftLeavesFuel provenance fuel child leaves) before = .ok after
          → before ⊆ after ∧ (before.Nodup → after.Nodup)
            ∧ ∀ child ∈ children, ∀ v w : World,
                (∀ leaf ∈ after, v.leaf leaf = w.leaf leaf)
                → provenance.pir.eval v child = provenance.pir.eval w child := by
        intro children hrun
        refine foldlM_inv
          (fun leaves child => collectCountLiftLeavesFuel provenance fuel child leaves)
          (fun done mid => before ⊆ mid ∧ (before.Nodup → mid.Nodup)
            ∧ ∀ child ∈ done, ∀ v w : World,
                (∀ leaf ∈ mid, v.leaf leaf = w.leaf leaf)
                → provenance.pir.eval v child = provenance.pir.eval w child)
          children ⟨List.Subset.refl _, id, by simp⟩ ?_ hrun
        intro done child mid next _ hinv hstep
        have hchild := ih hstep
        refine ⟨List.Subset.trans hinv.1 hchild.keeps, fun h => hchild.distinct (hinv.2.1 h),
          fun other ho v w hagree => ?_⟩
        rcases List.mem_append.mp ho with hold | hnew
        · exact hinv.2.2 other hold v w fun leaf hl => hagree leaf (hchild.keeps hl)
        · obtain rfl := List.mem_singleton.mp hnew
          exact hchild.decides v w hagree
      rw [collectCountLiftLeavesFuel] at run
      split at run
      · simp at run
      · next value hnode =>
          obtain rfl := Except.ok.inj run
          exact ⟨List.Subset.refl _, id,
            fun v w _ => eval_eq_of_children hnode (fun _ => rfl) (by simp [PirNode.children])⟩
      · next leaf hnode =>
          obtain rfl := Except.ok.inj run
          refine ⟨List.subset_insert leaf before, fun h => h.insert, fun v w hagree => ?_⟩
          have hleaf := hagree leaf (List.mem_insert_self)
          exact eval_eq_of_children hnode (fun _ => hleaf) (by simp [PirNode.children])
      · next leaf hnode =>
          obtain rfl := Except.ok.inj run
          refine ⟨List.subset_insert leaf before, fun h => h.insert, fun v w hagree => ?_⟩
          have hleaf := hagree leaf (List.mem_insert_self)
          exact eval_eq_of_children hnode (fun _ => congrArg not hleaf)
            (by simp [PirNode.children])
      · next children hnode =>
          obtain ⟨hkeeps, hdistinct, hdecides⟩ := hloop children run
          exact ⟨hkeeps, hdistinct, fun v w hagree => eval_eq_of_children hnode (fun _ => rfl)
            fun child hc => hdecides child hc v w hagree⟩
      · next children hnode =>
          obtain ⟨hkeeps, hdistinct, hdecides⟩ := hloop children run
          exact ⟨hkeeps, hdistinct, fun v w hagree => eval_eq_of_children hnode (fun _ => rfl)
            fun child hc => hdecides child hc v w hagree⟩
      · simp at run

-- A lifted query

/-- What the fast path reads of a query that it takes. -/
structure Lifts (intern : String → Nat) (provenance : Provenance) (query : QuerySpec)
    (targetCount : Nat) (root : PirNodeId) (leaves : List LeafId) : Prop where
  target : countLiftQueryTarget query = .ok (some targetCount)
  formula : provenance.queryFormula intern query.atom.predicate query.atom.args = some root
  collected : collectCountLiftLeaves provenance root [] = .ok leaves
  weighed : ∀ leaf ∈ leaves, leaf ∈ provenance.leaves

theorem Lifts.distinct {intern : String → Nat} {provenance : Provenance} {query : QuerySpec}
    {targetCount : Nat} {root : PirNodeId} {leaves : List LeafId}
    (h : Lifts intern provenance query targetCount root leaves)
    : leaves.Nodup :=
  (collectCountLiftLeavesFuel_spec h.collected).distinct .nil

theorem Provenance.mem_leaves {provenance : Provenance} {leaf : LeafId}
    : leaf ∈ provenance.leaves ↔ ∃ prob, provenance.leafProbs.lookup leaf = some prob := by
  rw [Provenance.leaves, List.mem_toFinset]
  constructor
  · exact exists_lookup_of_mem_keys
  · intro h
    obtain ⟨prob, hl⟩ := h
    exact List.mem_map_of_mem (mem_of_lookup hl)

theorem Provenance.leafProb_valid {provenance : Provenance} {leaf : LeafId}
    (h : leaf ∈ provenance.leaves)
    : 0 ≤ provenance.leafProb leaf ∧ provenance.leafProb leaf ≤ 1 := by
  obtain ⟨prob, hl⟩ := Provenance.mem_leaves.mp h
  rw [Provenance.leafProb, hl]
  exact provenance.leavesValid _ (mem_of_lookup hl)

/-- A query that the fast path takes, and the weights it keeps. -/
theorem countLiftQuery_eq_some {intern : String → Nat} {provenance : Provenance}
    {query : QuerySpec} {gpuQuery : GpuCountLiftQuery}
    (run : countLiftQuery intern provenance query = .ok (some gpuQuery))
    : ∃ targetCount root leaves, Lifts intern provenance query targetCount root leaves
      ∧ gpuQuery.targetCount = targetCount
      ∧ gpuQuery.leafProbs = (leaves.insertionSort (· ≤ ·)).map provenance.leafProb := by
  rw [countLiftQuery] at run
  obtain ⟨target, htarget, run⟩ := bind_eq_ok.mp run
  cases target with
  | none => simp at run
  | some targetCount =>
      cases hroot : provenance.queryFormula intern query.atom.predicate query.atom.args with
      | none => simp [hroot] at run
      | some root =>
          simp only [hroot] at run
          obtain ⟨leaves, hleaves, run⟩ := bind_eq_ok.mp run
          split at run
          · simp at run
          · split at run
            · simp at run
            · obtain ⟨probs, hprobs, run⟩ := bind_eq_ok.mp run
              obtain rfl := Option.some.inj (Except.ok.inj run)
              have hlookup : ∀ leaf ∈ leaves.insertionSort (· ≤ ·),
                  ∃ prob, provenance.leafProbs.lookup leaf = some prob := by
                intro leaf hl
                obtain ⟨prob, _, hstep⟩ := exists_result_of_mapM hprobs hl
                cases hfound : provenance.leafProbs.lookup leaf with
                | none => simp [hfound] at hstep
                | some found => exact ⟨found, rfl⟩
              have hall : leafProbsHost provenance (leaves.insertionSort (· ≤ ·))
                  = .ok ((leaves.insertionSort (· ≤ ·)).map provenance.leafProb) := by
                refine mapM_ok _ _ _ fun leaf hl => ?_
                obtain ⟨prob, hfound⟩ := hlookup leaf hl
                simp [hfound, Provenance.leafProb]
              refine ⟨targetCount, root, leaves, ⟨htarget, hroot, hleaves, fun leaf hl => ?_⟩,
                rfl, Except.ok.inj (hprobs.symm.trans hall)⟩
              exact Provenance.mem_leaves.mpr
                (hlookup leaf ((List.mem_insertionSort _).mpr hl))

/-- The fast path computes the probability that exactly the target number of leaves is
true.
-/
theorem evaluate_of_lifts {intern : String → Nat} {provenance : Provenance}
    {query : QuerySpec} {gpuQuery : GpuCountLiftQuery} {targetCount : Nat} {root : PirNodeId}
    {leaves : List LeafId} (h : Lifts intern provenance query targetCount root leaves)
    (htarget : gpuQuery.targetCount = targetCount)
    (hprobs : gpuQuery.leafProbs = (leaves.insertionSort (· ≤ ·)).map provenance.leafProb)
    : gpuQuery.evaluate = .ok (probability provenance.leafProb leaves.toFinset
        fun trues => trues.card = targetCount) := by
  have hperm := List.perm_insertionSort (· ≤ ·) leaves
  have hset : (leaves.insertionSort (· ≤ ·)).toFinset = leaves.toFinset :=
    List.toFinset_eq_of_perm _ _ hperm
  have hvalid : ∀ leaf ∈ leaves, 0 ≤ provenance.leafProb leaf ∧ provenance.leafProb leaf ≤ 1 :=
    fun leaf hl => Provenance.leafProb_valid (h.weighed leaf hl)
  have hkernel := weightsCountLiftExact_eq (hperm.nodup_iff.mpr h.distinct)
    (fun leaf hl => hvalid leaf (hperm.mem_iff.mp hl)) targetCount
  rw [hset] at hkernel
  have hunit := probability_mem_unit (fun leaf hl => hvalid leaf (List.mem_toFinset.mp hl))
    fun trues : Finset LeafId => trues.card = targetCount
  rw [GpuCountLiftQuery.evaluate, htarget, hprobs, hkernel, ok_bind]
  simp only [not_lt.mpr hunit.1, not_lt.mpr hunit.2, and_false, false_and, if_false, hunit,
    and_self, if_true]

/-- The formula's weight is decided by its leaves; all others marginalise. -/
theorem satisfyingWeight_of_lifts {intern : String → Nat} {provenance : Provenance}
    {query : QuerySpec} {targetCount : Nat} {root : PirNodeId} {leaves : List LeafId}
    (h : Lifts intern provenance query targetCount root leaves)
    : provenance.satisfyingWeight root
      = probability provenance.leafProb leaves.toFinset
          fun trues => provenance.pir.eval (leafWorld trues) root = true := by
  have hsub : leaves.toFinset ⊆ provenance.leaves :=
    fun leaf hl => h.weighed leaf (List.mem_toFinset.mp hl)
  have hsplit : provenance.leaves = leaves.toFinset ∪ provenance.leaves \ leaves.toFinset :=
    (Finset.union_sdiff_of_subset hsub).symm
  rw [Provenance.satisfyingWeight, hsplit]
  refine probability_union Finset.disjoint_sdiff _ fun trues => ?_
  have hsame := (collectCountLiftLeavesFuel_spec h.collected).decides (leafWorld trues)
    (leafWorld (trues ∩ leaves.toFinset)) fun leaf hl => by simp [leafWorld, hl]
  rw [hsame]

-- The state

/-- The fast path returns the weight of the assignments that satisfy the query's formula. -/
def LiftedExactly (intern : String → Nat) (provenance : Provenance) (query : QuerySpec)
    (gpuQuery : GpuCountLiftQuery) : Prop :=
  ∃ root, provenance.queryFormula intern query.atom.predicate query.atom.args = some root
    ∧ gpuQuery.evaluate = .ok (provenance.satisfyingWeight root)

/-- The state returns the right weight for every query. -/
def CountLiftExact (intern : String → Nat) (provenance : Provenance)
    (queries : List QuerySpec) (state : GpuCountLiftState) : Prop :=
  List.Forall₂ (LiftedExactly intern provenance) queries state

/-- The assignments with the target number of true leaves that falsify the formula weigh as
much as those with another number that satisfy it.
-/
def DisagreementBalances (intern : String → Nat) (provenance : Provenance)
    (query : QuerySpec) : Prop :=
  ∀ targetCount root leaves, Lifts intern provenance query targetCount root leaves
    → probability provenance.leafProb leaves.toFinset (fun trues =>
          trues.card = targetCount ∧ ¬ provenance.pir.eval (leafWorld trues) root = true)
      = probability provenance.leafProb leaves.toFinset (fun trues =>
          provenance.pir.eval (leafWorld trues) root = true ∧ ¬ trues.card = targetCount)

/-- The formula is true exactly in the worlds with the target number of true leaves. -/
def FormulaCounts (intern : String → Nat) (provenance : Provenance) (query : QuerySpec)
    : Prop :=
  ∀ targetCount root leaves, Lifts intern provenance query targetCount root leaves
    → ∀ w : World, provenance.pir.eval w root = true
        ↔ (leaves.filter w.leaf).length = targetCount

/-- The same provenance under other leaf probabilities. -/
def Provenance.reweight (provenance : Provenance) (probs : LeafId → ℚ)
    (valid : ∀ leaf, 0 ≤ probs leaf ∧ probs leaf ≤ 1) : Provenance :=
  { provenance with
    leafProbs := provenance.leafProbs.map fun entry => (entry.1, probs entry.1)
    leavesDistinct := by
      simpa only [List.map_map, Function.comp_def] using provenance.leavesDistinct
    leavesValid := by
      intro entry he
      obtain ⟨old, _, rfl⟩ := List.mem_map.mp he
      exact valid old.1 }

/-- The state holds one taken query for each query. -/
theorem forall₂_of_countLiftQueries {intern : String → Nat} {provenance : Provenance}
    {queries : List QuerySpec} {state : GpuCountLiftState}
    (run : countLiftQueries intern provenance queries = .ok (some state))
    : List.Forall₂ (fun query gpuQuery =>
        countLiftQuery intern provenance query = .ok (some gpuQuery)) queries state := by
  induction queries generalizing state with
  | nil =>
      obtain rfl := Option.some.inj (Except.ok.inj run)
      exact .nil
  | cons query queries ih =>
      rw [countLiftQueries] at run
      obtain ⟨first, hfirst, run⟩ := bind_eq_ok.mp run
      cases first with
      | none => simp at run
      | some gpuQuery =>
          obtain ⟨others, hothers, run⟩ := bind_eq_ok.mp run
          cases others with
          | none => simp at run
          | some gpuQueries =>
              obtain rfl := Option.some.inj (Except.ok.inj run)
              exact .cons hfirst (ih hothers)

theorem forall₂_of_tryBuildCountLiftGpuState {intern : String → Nat} {provenance : Provenance}
    {queries : List QuerySpec} {state : GpuCountLiftState}
    (run : tryBuildCountLiftGpuState intern provenance queries = .ok (some state))
    : List.Forall₂ (fun query gpuQuery =>
        countLiftQuery intern provenance query = .ok (some gpuQuery)) queries state := by
  rw [tryBuildCountLiftGpuState] at run
  split at run
  · simp at run
  · split at run
    · simp at run
    · split at run
      · simp at run
      · exact forall₂_of_countLiftQueries run

/-- For a taken query the fast path is exact if and only if the disagreement balances. -/
theorem liftedExactly_iff {intern : String → Nat} {provenance : Provenance}
    {query : QuerySpec} {gpuQuery : GpuCountLiftQuery}
    (run : countLiftQuery intern provenance query = .ok (some gpuQuery))
    : LiftedExactly intern provenance query gpuQuery
      ↔ DisagreementBalances intern provenance query := by
  obtain ⟨targetCount, root, leaves, hlifts, htarget, hprobs⟩ := countLiftQuery_eq_some run
  have hvalue := evaluate_of_lifts hlifts htarget hprobs
  have hunique : DisagreementBalances intern provenance query
      ↔ probability provenance.leafProb leaves.toFinset (fun trues => trues.card = targetCount)
        = provenance.satisfyingWeight root := by
    rw [satisfyingWeight_of_lifts hlifts, probability_eq_iff]
    constructor
    · intro h
      exact h targetCount root leaves hlifts
    · intro h otherCount otherRoot otherLeaves hother
      obtain rfl : targetCount = otherCount :=
        Option.some.inj (Except.ok.inj (hlifts.target.symm.trans hother.target))
      obtain rfl : root = otherRoot := Option.some.inj (hlifts.formula.symm.trans hother.formula)
      obtain rfl : leaves = otherLeaves :=
        Except.ok.inj (hlifts.collected.symm.trans hother.collected)
      exact h
  rw [hunique]
  constructor
  · intro h
    obtain ⟨other, hformula, hexact⟩ := h
    obtain rfl : root = other := Option.some.inj (hlifts.formula.symm.trans hformula)
    exact Except.ok.inj (hvalue.symm.trans hexact)
  · intro h
    exact ⟨root, hlifts.formula, hvalue.trans (congrArg Except.ok h)⟩

end Xlog.Prob
