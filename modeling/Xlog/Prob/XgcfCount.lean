import Xlog.Foundation.Marginal
import Xlog.Prob.XgcfMeaning

/-! The weighted count of a gate: its value summed over the assignments of the random variables
below it. On decomposable circuits the count of a gate is given by those of its children.
-/

namespace Xlog.Prob.Xgcf

open Finset Xlog.Foundation

variable {K : Type*} [CommSemiring K]

/-- The weights of true literals with the given variables set to indicators. -/
def indicatorTrue (vars trues : Finset Nat) (wt : Nat → K) (v : Nat) : K :=
  if v ∈ vars then if v ∈ trues then 1 else 0 else wt v

def indicatorFalse (vars trues : Finset Nat) (wf : Nat → K) (v : Nat) : K :=
  if v ∈ vars then if v ∈ trues then 0 else 1 else wf v

/-- The sum over the assignments of the variables of their weight times the gate's value under
indicator weights.
-/
def weightedCount (g : Xgcf) (wt wf : Nat → K) (vars : Finset Nat) (idx : Nat) : K :=
  marginal wt wf vars fun trues =>
    g.values (indicatorTrue vars trues wt) (indicatorFalse vars trues wf) idx

/-- The variables marked as random. -/
def randomVars (isRandomVar : List Bool) : Finset Nat :=
  (range isRandomVar.length).filter fun var => isRandom isRandomVar var = true

theorem mem_randomVars {isRandomVar : List Bool} {v : Nat}
    : v ∈ randomVars isRandomVar ↔ isRandom isRandomVar v = true := by
  simp only [randomVars, mem_filter, mem_range, and_iff_right_iff_imp]
  intro h
  by_contra hlt
  simp [isRandom, List.getD_eq_getElem?_getD, List.getElem?_eq_none (Nat.le_of_not_lt hlt)] at h

/-- The gate's value with all random variables set to indicators. -/
def valueAt (g : Xgcf) (isRandomVar : List Bool) (wt wf : Nat → K) (idx : Nat)
    (trues : Finset Nat) : K :=
  g.values (indicatorTrue (randomVars isRandomVar) trues wt)
    (indicatorFalse (randomVars isRandomVar) trues wf) idx

/-- The weighted count over the random variables below the gate. -/
def count (g : Xgcf) (isRandomVar : List Bool) (wt wf : Nat → K) (idx : Nat) : K :=
  marginal wt wf (g.randomBelow isRandomVar idx) (g.valueAt isRandomVar wt wf idx)

variable {g : Xgcf} {isRandomVar : List Bool} {wt wf : Nat → K}

theorem mem_randomBelow {idx v : Nat}
    : v ∈ g.randomBelow isRandomVar idx
      ↔ v ∈ g.varsBelow idx ∧ isRandom isRandomVar v = true := by
  simp [randomBelow]

theorem WellFormed.randomBelow_child (h : g.WellFormed) {idx child : Nat} (hi : idx ∈ g.order)
    (hc : child ∈ (g.node idx).children)
    : g.randomBelow isRandomVar child ⊆ g.randomBelow isRandomVar idx :=
  filter_subset_filter _ (h.varsBelow_child hi hc)

/-- Setting all random variables or only those below the gate is the same. -/
theorem WellFormed.count_eq (h : g.WellFormed) {idx : Nat} (hi : idx ∈ g.order)
    : g.count isRandomVar wt wf idx
      = g.weightedCount wt wf (g.randomBelow isRandomVar idx) idx := by
  apply marginal_congr
  intro trues _
  apply h.values_congr hi
  intro v hv
  by_cases hr : isRandom isRandomVar v = true
  · have hbelow := mem_randomBelow.mpr ⟨hv, hr⟩
    simp [indicatorTrue, indicatorFalse, mem_randomVars, hr, hbelow]
  · have hbelow : v ∉ g.randomBelow isRandomVar idx := fun hm => hr (mem_randomBelow.mp hm).2
    simp [indicatorTrue, indicatorFalse, mem_randomVars, hr, hbelow]

/-- The value reads the assignment at the random variables below the gate. -/
theorem WellFormed.readsOnly_valueAt (h : g.WellFormed) (isRandomVar : List Bool)
    (wt wf : Nat → K) {idx : Nat} (hi : idx ∈ g.order)
    : ReadsOnly (g.randomBelow isRandomVar idx) (g.valueAt isRandomVar wt wf idx) := by
  intro trues
  apply h.values_congr hi
  intro v hv
  by_cases hr : isRandom isRandomVar v = true
  · have hbelow := mem_randomBelow.mpr ⟨hv, hr⟩
    simp [indicatorTrue, indicatorFalse, hbelow]
  · simp [indicatorTrue, indicatorFalse, mem_randomVars, hr]

theorem WellFormed.valueAt_eq (h : g.WellFormed) (isRandomVar : List Bool) (wt wf : Nat → K)
    {idx : Nat} (hi : idx ∈ g.order) (trues : Finset Nat)
    : g.valueAt isRandomVar wt wf idx trues
      = (g.node idx).value (indicatorTrue (randomVars isRandomVar) trues wt)
        (indicatorFalse (randomVars isRandomVar) trues wf)
        fun child => g.valueAt isRandomVar wt wf child trues :=
  h.values_eq _ _ hi

-- Gates

theorem WellFormed.count_const0 (h : g.WellFormed) {idx : Nat} (hi : idx ∈ g.order)
    (hn : g.node idx = .const0)
    : g.count isRandomVar wt wf idx = 0 := by
  have hzero (trues : Finset Nat) : g.valueAt isRandomVar wt wf idx trues = 0 := by
    rw [h.valueAt_eq isRandomVar wt wf hi, hn]
    rfl
  simp [count, marginal, hzero]

theorem WellFormed.count_const1 (h : g.WellFormed) {idx : Nat} (hi : idx ∈ g.order)
    (hn : g.node idx = .const1)
    : g.count isRandomVar wt wf idx = 1 := by
  have hbelow : g.randomBelow isRandomVar idx = ∅ := by
    simp [randomBelow, h.varsBelow_eq hi, hn, XgcfNode.vars]
  rw [count, hbelow, marginal_empty, h.valueAt_eq isRandomVar wt wf hi, hn]
  rfl

theorem WellFormed.count_lit (h : g.WellFormed) {idx : Nat} (hi : idx ∈ g.order) {literal : Int}
    (hn : g.node idx = .lit literal)
    : g.count isRandomVar wt wf idx
      = if 0 < literal then wt literal.natAbs else wf literal.natAbs := by
  have hvars : g.varsBelow idx = {literal.natAbs} := by
    rw [h.varsBelow_eq hi, hn]
    rfl
  have hvalue (trues : Finset Nat) := h.valueAt_eq isRandomVar wt wf hi trues
  by_cases hr : isRandom isRandomVar literal.natAbs = true
  · have hbelow : g.randomBelow isRandomVar idx = insert literal.natAbs ∅ := by
      rw [randomBelow, hvars, filter_singleton, if_pos hr]
      rfl
    rw [count, hbelow, marginal_insert (notMem_empty _), marginal_empty, marginal_empty, hvalue,
      hvalue, hn]
    by_cases hpos : 0 < literal <;>
      simp [XgcfNode.value, indicatorTrue, indicatorFalse, mem_randomVars, hr, hpos]
  · have hbelow : g.randomBelow isRandomVar idx = ∅ := by
      rw [randomBelow, hvars, filter_singleton, if_neg hr]
    rw [count, hbelow, marginal_empty, hvalue, hn]
    simp [XgcfNode.value, indicatorTrue, indicatorFalse, mem_randomVars, hr]

/-- A product over gates with disjoint random variables is counted factor by factor, by list
induction.
-/
theorem WellFormed.count_prod (h : g.WellFormed) {children : List Nat}
    (hin : ∀ child ∈ children, child ∈ g.order)
    (apart : children.Pairwise fun a b =>
      Disjoint (g.randomBelow isRandomVar a) (g.randomBelow isRandomVar b))
    : marginal wt wf (children.toFinset.biUnion (g.randomBelow isRandomVar))
        (fun trues => (children.map fun child => g.valueAt isRandomVar wt wf child trues).prod)
      = (children.map (g.count isRandomVar wt wf)).prod := by
  induction children with
  | nil => simp
  | cons child children ih =>
      obtain ⟨hc, hrest⟩ := List.forall_mem_cons.mp hin
      obtain ⟨hfirst, apart⟩ := List.pairwise_cons.mp apart
      have hdisjoint : Disjoint (g.randomBelow isRandomVar child)
          (children.toFinset.biUnion (g.randomBelow isRandomVar)) := by
        rw [disjoint_biUnion_right]
        intro other ho
        exact hfirst other (List.mem_toFinset.mp ho)
      have hreads : ReadsOnly (children.toFinset.biUnion (g.randomBelow isRandomVar))
          fun trues => (children.map fun child =>
            g.valueAt isRandomVar wt wf child trues).prod := by
        intro trues
        refine congrArg List.prod (List.map_congr_left ?_)
        intro other ho
        exact (h.readsOnly_valueAt isRandomVar wt wf (hrest other ho)).mono
          (subset_biUnion_of_mem (g.randomBelow isRandomVar) (List.mem_toFinset.mpr ho)) trues
      simp only [List.toFinset_cons, biUnion_insert, List.map_cons, List.prod_cons]
      rw [marginal_mul hdisjoint (h.readsOnly_valueAt isRandomVar wt wf hc) hreads, ih hrest apart]
      rfl

theorem WellFormed.count_and (h : g.WellFormed) (hdec : g.Decomposable) {idx : Nat}
    (hi : idx ∈ g.order) {children : List Nat} (hn : g.node idx = .and children)
    : g.count isRandomVar wt wf idx = (children.map (g.count isRandomVar wt wf)).prod := by
  have hin : ∀ child ∈ children, child ∈ g.order := fun child hc =>
    h.isOrdered.children_mem hi (by rwa [hn])
  have hbelow : g.randomBelow isRandomVar idx
      = children.toFinset.biUnion (g.randomBelow isRandomVar) := by
    simp only [randomBelow, h.varsBelow_eq hi, hn, XgcfNode.vars, filter_biUnion]
    rfl
  have apart := (hdec idx hi children hn).imp fun {a b} hab =>
    (disjoint_filter_filter hab : Disjoint (g.randomBelow isRandomVar a)
      (g.randomBelow isRandomVar b))
  rw [← h.count_prod hin apart, count, hbelow]
  apply marginal_congr
  intro trues _
  rw [h.valueAt_eq isRandomVar wt wf hi, hn]
  rfl

/-- Counted over more variables, a gate gains the factor of those it does not read. -/
theorem WellFormed.marginal_valueAt (h : g.WellFormed) {idx : Nat} (hi : idx ∈ g.order)
    {vars : Finset Nat} (sub : g.randomBelow isRandomVar idx ⊆ vars)
    : marginal wt wf vars (g.valueAt isRandomVar wt wf idx)
      = g.count isRandomVar wt wf idx
        * ∏ v ∈ vars \ g.randomBelow isRandomVar idx, (wt v + wf v) := by
  rw [count, ← marginal_union_unread disjoint_sdiff (h.readsOnly_valueAt isRandomVar wt wf hi),
    union_sdiff_of_subset sub]

theorem WellFormed.count_or (h : g.WellFormed) {idx : Nat} (hi : idx ∈ g.order)
    {children : List Nat} (hn : g.node idx = .or children)
    : g.count isRandomVar wt wf idx
      = (children.map fun child => g.count isRandomVar wt wf child
          * ∏ v ∈ g.randomBelow isRandomVar idx \ g.randomBelow isRandomVar child,
            (wt v + wf v)).sum := by
  have hin : ∀ child ∈ children, child ∈ (g.node idx).children := by simp [hn, XgcfNode.children]
  have hsum (vars : Finset Nat) : marginal wt wf vars (fun trues =>
      (children.map fun child => g.valueAt isRandomVar wt wf child trues).sum)
      = (children.map fun child =>
        marginal wt wf vars (g.valueAt isRandomVar wt wf child)).sum := by
    clear hin hn
    induction children with
    | nil => simp [marginal]
    | cons child children ih => simp only [List.map_cons, List.sum_cons, marginal_add, ih]
  have hvalue : g.valueAt isRandomVar wt wf idx = fun trues =>
      (children.map fun child => g.valueAt isRandomVar wt wf child trues).sum := by
    funext trues
    rw [h.valueAt_eq isRandomVar wt wf hi, hn]
    rfl
  rw [count, hvalue, hsum]
  congr 1
  apply List.map_congr_left
  intro child hc
  exact h.marginal_valueAt (h.isOrdered.children_mem hi (hin child hc))
    (h.randomBelow_child hi (hin child hc))

theorem WellFormed.count_decision (h : g.WellFormed) (hfresh : g.FreshDecisions) {idx : Nat}
    (hi : idx ∈ g.order) {var childFalse childTrue : Nat}
    (hn : g.node idx = .decision var childFalse childTrue)
    : g.count isRandomVar wt wf idx
      = wf var * (g.count isRandomVar wt wf childFalse
          * ∏ v ∈ (g.randomBelow isRandomVar childFalse ∪ g.randomBelow isRandomVar childTrue)
              \ g.randomBelow isRandomVar childFalse, (wt v + wf v))
        + wt var * (g.count isRandomVar wt wf childTrue
          * ∏ v ∈ (g.randomBelow isRandomVar childFalse ∪ g.randomBelow isRandomVar childTrue)
              \ g.randomBelow isRandomVar childTrue, (wt v + wf v)) := by
  obtain ⟨hvf, hvt⟩ := hfresh idx hi var childFalse childTrue hn
  have hf : childFalse ∈ g.order := h.isOrdered.children_mem hi (by simp [hn, XgcfNode.children])
  have ht : childTrue ∈ g.order := h.isOrdered.children_mem hi (by simp [hn, XgcfNode.children])
  set below := g.randomBelow isRandomVar childFalse ∪ g.randomBelow isRandomVar childTrue
    with hbelow
  rw [← h.marginal_valueAt hf subset_union_left, ← h.marginal_valueAt ht subset_union_right,
    ← hbelow]
  have hvars : g.varsBelow idx = insert var (g.varsBelow childFalse ∪ g.varsBelow childTrue) := by
    rw [h.varsBelow_eq hi, hn]
    rfl
  have hvalue (trues : Finset Nat) : g.valueAt isRandomVar wt wf idx trues
      = indicatorFalse (randomVars isRandomVar) trues wf var
          * g.valueAt isRandomVar wt wf childFalse trues
        + indicatorTrue (randomVars isRandomVar) trues wt var
          * g.valueAt isRandomVar wt wf childTrue trues := by
    rw [h.valueAt_eq isRandomVar wt wf hi, hn]
    rfl
  have hnew : var ∉ below := by
    simp only [hbelow, mem_union, mem_randomBelow, not_or, not_and]
    exact ⟨fun hm => absurd hm hvf, fun hm => absurd hm hvt⟩
  by_cases hr : isRandom isRandomVar var = true
  · have hinsert : g.randomBelow isRandomVar idx = insert var below := by
      rw [randomBelow, hvars, filter_insert, if_pos hr, filter_union]
      rfl
    rw [count, hinsert, marginal_insert hnew]
    congr 2
    · apply marginal_congr
      intro trues hsub
      have hoff : var ∉ trues := fun hm => hnew (hsub hm)
      simp [hvalue, indicatorTrue, indicatorFalse, mem_randomVars, hr, hoff]
    · apply marginal_congr
      intro trues _
      have hread := (h.readsOnly_valueAt isRandomVar wt wf ht).mono (subset_union_right : _ ⊆ below)
      simp [hvalue, indicatorTrue, indicatorFalse, mem_randomVars, hr, hread.insert hnew]
  · have hsame : g.randomBelow isRandomVar idx = below := by
      rw [randomBelow, hvars, filter_insert, if_neg hr, filter_union]
      rfl
    have hplain : g.valueAt isRandomVar wt wf idx = fun trues =>
        wf var * g.valueAt isRandomVar wt wf childFalse trues
          + wt var * g.valueAt isRandomVar wt wf childTrue trues := by
      funext trues
      simp [hvalue, indicatorTrue, indicatorFalse, mem_randomVars, hr]
    rw [count, hsame, hplain, marginal_add, marginal_mul_left, marginal_mul_left]

-- Truth as a count

/-- The weights of one world. -/
def worldTrue (world : Nat → Bool) (v : Nat) : Nat := if world v then 1 else 0

def worldFalse (world : Nat → Bool) (v : Nat) : Nat := if world v then 0 else 1

/-- The value under the weights of a world tells the truth there, by induction over the order. -/
theorem WellFormed.values_world (h : g.WellFormed) (world : Nat → Bool) {idx : Nat}
    (hi : idx ∈ g.order)
    : g.values (worldTrue world) (worldFalse world) idx ≠ 0 ↔ g.truths world idx = true := by
  refine h.isOrdered.induction (motive := fun idx =>
    g.values (worldTrue world) (worldFalse world) idx ≠ 0 ↔ g.truths world idx = true) ?_ idx hi
  intro idx hi ih
  rw [h.values_eq _ _ hi, h.truths_eq world hi]
  cases hn : g.node idx with
  | const0 => simp [XgcfNode.value, XgcfNode.truth]
  | const1 => simp [XgcfNode.value, XgcfNode.truth]
  | lit literal =>
      simp only [XgcfNode.value, XgcfNode.truth, worldTrue, worldFalse]
      split <;> cases world literal.natAbs <;> simp
  | and children =>
      simp only [hn, XgcfNode.children] at ih
      simp only [XgcfNode.value, XgcfNode.truth, List.all_eq_true, ne_eq, List.prod_eq_zero_iff,
        List.mem_map, not_exists, not_and]
      exact forall₂_congr ih
  | or children =>
      simp only [hn, XgcfNode.children] at ih
      simp only [XgcfNode.value, XgcfNode.truth, List.any_eq_true, ne_eq, List.sum_eq_zero_iff,
        List.mem_map, forall_exists_index, and_imp, forall_apply_eq_imp_iff₂, not_forall,
        exists_prop]
      apply exists_congr
      intro child
      exact and_congr_right (ih child)
  | decision var childFalse childTrue =>
      simp only [hn, XgcfNode.children, List.mem_cons, List.not_mem_nil, or_false,
        forall_eq_or_imp, forall_eq] at ih
      simp only [XgcfNode.value, XgcfNode.truth, worldTrue, worldFalse]
      cases world var
      · simpa using ih.1
      · simpa using ih.2

/-- The count under the weights of a world tells the truth there. -/
theorem WellFormed.count_world (h : g.WellFormed) (world : Nat → Bool) {idx : Nat}
    (hi : idx ∈ g.order)
    : g.count isRandomVar (worldTrue world) (worldFalse world) idx ≠ 0
      ↔ g.truths world idx = true := by
  rw [← h.values_world world hi]
  have hone : g.count isRandomVar (worldTrue world) (worldFalse world) idx
      = g.valueAt isRandomVar (worldTrue world) (worldFalse world) idx
        ((g.randomBelow isRandomVar idx).filter (world · = true)) :=
    marginal_indicator world
  have hsame : g.valueAt isRandomVar (worldTrue world) (worldFalse world) idx
      ((g.randomBelow isRandomVar idx).filter (world · = true))
      = g.values (worldTrue world) (worldFalse world) idx := by
    apply h.values_congr hi
    intro v hv
    by_cases hr : isRandom isRandomVar v = true
    · have hbelow := mem_randomBelow.mpr ⟨hv, hr⟩
      simp [indicatorTrue, indicatorFalse, mem_randomVars, hr, hbelow, worldTrue, worldFalse]
    · simp [indicatorTrue, indicatorFalse, mem_randomVars, hr]
  rw [hone, hsame]

/-- A gate that no world makes true counts zero. -/
theorem WellFormed.count_eq_zero (h : g.WellFormed) (hdec : g.Decomposable)
    (hfresh : g.FreshDecisions) {idx : Nat} (hi : idx ∈ g.order)
    (unsat : ∀ world, g.truths world idx = false)
    : g.count isRandomVar wt wf idx = 0 := by
  have hzero (trues : Finset Nat) : g.valueAt isRandomVar wt wf idx trues = 0 :=
    h.values_eq_zero hdec hfresh _ _ hi unsat
  simp [count, marginal, hzero]

end Xlog.Prob.Xgcf
