import Mathlib.Algebra.BigOperators.Ring.List
import Xlog.Foundation.Loop
import Xlog.Prob.XgcfSmooth

/-! The conditions under which a circuit counts models: conjunctions over disjoint variables, disjunctions of
exclusive children, decisions on fresh variables. Values and truth read the variables below a gate only,
and its support is the sorted list of the random ones among them.
-/

namespace Xlog.Prob.Xgcf

variable (g : Xgcf)

/-- The children of a conjunction have no variable in common. -/
def Decomposable : Prop :=
  ∀ idx ∈ g.order, ∀ children, g.node idx = .and children →
    children.Pairwise fun a b => Disjoint (g.varsBelow a) (g.varsBelow b)

/-- No world makes two children of a disjunction true. -/
def Deterministic : Prop :=
  ∀ idx ∈ g.order, ∀ children, g.node idx = .or children →
    children.Pairwise fun a b => ∀ world, ¬ (g.truths world a = true ∧ g.truths world b = true)

/-- A decision's variable does not occur below it. -/
def FreshDecisions : Prop :=
  ∀ idx ∈ g.order, ∀ var childFalse childTrue, g.node idx = .decision var childFalse childTrue →
    var ∉ g.varsBelow childFalse ∧ var ∉ g.varsBelow childTrue

variable {g}

theorem WellFormed.isOrdered (wf : g.WellFormed) : Ordered g.node g.order := wf.ordered

theorem WellFormed.values_eq (wf : g.WellFormed) {K : Type*} [CommSemiring K]
    (wt wf' : Nat → K) {idx : Nat} (hi : idx ∈ g.order)
    : g.values wt wf' idx = (g.node idx).value wt wf' (g.values wt wf') :=
  solves_foldl (local_value wt wf') wf.isOrdered _ idx hi

theorem WellFormed.truths_eq (wf : g.WellFormed) (world : Nat → Bool) {idx : Nat}
    (hi : idx ∈ g.order)
    : g.truths world idx = (g.node idx).truth world (g.truths world) :=
  solves_foldl (local_truth world) wf.isOrdered _ idx hi

theorem WellFormed.varsBelow_eq (wf : g.WellFormed) {idx : Nat} (hi : idx ∈ g.order)
    : g.varsBelow idx = (g.node idx).vars g.varsBelow :=
  solves_foldl local_vars wf.isOrdered _ idx hi

/-- The variables below a child are below its parent. -/
theorem WellFormed.varsBelow_child (wf : g.WellFormed) {idx child : Nat} (hi : idx ∈ g.order)
    (hc : child ∈ (g.node idx).children)
    : g.varsBelow child ⊆ g.varsBelow idx := by
  rw [wf.varsBelow_eq hi]
  cases hn : g.node idx with
  | const0 | const1 | lit _ => simp [hn, XgcfNode.children] at hc
  | and children | or children =>
      simp only [hn, XgcfNode.children] at hc
      simp only [XgcfNode.vars]
      exact Finset.subset_biUnion_of_mem g.varsBelow (List.mem_toFinset.mpr hc)
  | decision var childFalse childTrue =>
      simp only [hn, XgcfNode.children, List.mem_cons, List.not_mem_nil, or_false] at hc
      intro v hv
      simp only [XgcfNode.vars, Finset.mem_insert, Finset.mem_union]
      rcases hc with rfl | rfl
      · exact .inr (.inl hv)
      · exact .inr (.inr hv)

/-- A gate's value reads the weights of the variables below it, by induction over the order. -/
theorem WellFormed.values_congr (wf : g.WellFormed) {K : Type*} [CommSemiring K]
    {wt wf' wt' wf'' : Nat → K} {idx : Nat} (hi : idx ∈ g.order)
    (agree : ∀ v ∈ g.varsBelow idx, wt v = wt' v ∧ wf' v = wf'' v)
    : g.values wt wf' idx = g.values wt' wf'' idx := by
  revert agree
  refine wf.isOrdered.induction (motive := fun idx =>
    (∀ v ∈ g.varsBelow idx, wt v = wt' v ∧ wf' v = wf'' v) →
      g.values wt wf' idx = g.values wt' wf'' idx) ?_ idx hi
  intro idx hi ih agree
  have hchild : ∀ child ∈ (g.node idx).children,
      g.values wt wf' child = g.values wt' wf'' child :=
    fun child hc => ih child hc fun v hv => agree v (wf.varsBelow_child hi hc hv)
  rw [wf.values_eq wt wf' hi, wf.values_eq wt' wf'' hi,
    local_value wt wf' (g.node idx) _ _ hchild]
  rw [wf.varsBelow_eq hi] at agree
  cases hn : g.node idx with
  | const0 | const1 | and children | or children => rfl
  | lit literal =>
      obtain ⟨ht, hf⟩ := agree literal.natAbs (by simp [hn, XgcfNode.vars])
      simp only [XgcfNode.value, ht, hf]
  | decision var childFalse childTrue =>
      obtain ⟨ht, hf⟩ := agree var (by simp [hn, XgcfNode.vars])
      simp only [XgcfNode.value, ht, hf]

/-- A gate's truth reads the variables below it, by induction over the order. -/
theorem WellFormed.truths_congr (wf : g.WellFormed) {world world' : Nat → Bool} {idx : Nat}
    (hi : idx ∈ g.order) (agree : ∀ v ∈ g.varsBelow idx, world v = world' v)
    : g.truths world idx = g.truths world' idx := by
  revert agree
  refine wf.isOrdered.induction (motive := fun idx =>
    (∀ v ∈ g.varsBelow idx, world v = world' v) →
      g.truths world idx = g.truths world' idx) ?_ idx hi
  intro idx hi ih agree
  have hchild : ∀ child ∈ (g.node idx).children,
      g.truths world child = g.truths world' child :=
    fun child hc => ih child hc fun v hv => agree v (wf.varsBelow_child hi hc hv)
  rw [wf.truths_eq world hi, wf.truths_eq world' hi,
    local_truth world (g.node idx) _ _ hchild]
  rw [wf.varsBelow_eq hi] at agree
  cases hn : g.node idx with
  | const0 | const1 | and children | or children => rfl
  | lit literal =>
      have hv := agree literal.natAbs (by simp [hn, XgcfNode.vars])
      simp only [XgcfNode.truth, hv]
  | decision var childFalse childTrue =>
      have hv := agree var (by simp [hn, XgcfNode.vars])
      simp only [XgcfNode.truth, hv]

/-- Children without common variables that can each be true can be true together, by list
induction.
-/
theorem WellFormed.exists_world_of_apart (wf : g.WellFormed) {children : List Nat}
    (hin : ∀ child ∈ children, child ∈ g.order)
    (apart : children.Pairwise fun a b => Disjoint (g.varsBelow a) (g.varsBelow b))
    (sat : ∀ child ∈ children, ∃ world, g.truths world child = true)
    : ∃ world, ∀ child ∈ children, g.truths world child = true := by
  induction children with
  | nil => exact ⟨fun _ => false, by simp⟩
  | cons child children ih =>
      obtain ⟨hc, hin⟩ := List.forall_mem_cons.mp hin
      obtain ⟨hfirst, apart⟩ := List.pairwise_cons.mp apart
      obtain ⟨⟨one, hone⟩, sat⟩ := List.forall_mem_cons.mp sat
      obtain ⟨rest, hrest⟩ := ih hin apart sat
      refine ⟨fun v => if v ∈ g.varsBelow child then one v else rest v, ?_⟩
      refine List.forall_mem_cons.mpr ⟨?_, ?_⟩
      · rw [← hone]
        apply wf.truths_congr hc
        intro v hv
        simp [hv]
      · intro other ho
        rw [← hrest other ho]
        apply wf.truths_congr (hin other ho)
        intro v hv
        have hoff := Finset.disjoint_right.mp (hfirst other ho) hv
        simp [hoff]

/-- A gate that no world makes true has value zero, by induction over the order. -/
theorem WellFormed.values_eq_zero (wf : g.WellFormed) (hdec : g.Decomposable)
    (hfresh : g.FreshDecisions) {K : Type*} [CommSemiring K] (wt wf' : Nat → K) {idx : Nat}
    (hi : idx ∈ g.order) (unsat : ∀ world, g.truths world idx = false)
    : g.values wt wf' idx = 0 := by
  revert unsat
  refine wf.isOrdered.induction (motive := fun idx =>
    (∀ world, g.truths world idx = false) → g.values wt wf' idx = 0) ?_ idx hi
  intro idx hi ih unsat
  rw [wf.values_eq wt wf' hi]
  have htruth (world : Nat → Bool)
      : (g.node idx).truth world (g.truths world) = false := by
    rw [← wf.truths_eq world hi]
    exact unsat world
  have hin : ∀ child ∈ (g.node idx).children, child ∈ g.order :=
    fun child hc => wf.isOrdered.children_mem hi hc
  cases hn : g.node idx with
  | const0 => rfl
  | const1 => simp [hn, XgcfNode.truth] at htruth
  | lit literal =>
      have hsat := htruth fun _ => decide (0 < literal)
      simp [hn, XgcfNode.truth] at hsat
  | and children =>
      simp only [hn, XgcfNode.children] at hin ih
      have hnot : ¬ ∀ child ∈ children, ∃ world, g.truths world child = true := by
        intro sat
        obtain ⟨world, hall⟩ := wf.exists_world_of_apart hin (hdec idx hi children hn) sat
        have hfalse := htruth world
        rw [hn] at hfalse
        simp only [XgcfNode.truth, List.all_eq_true.mpr hall, Bool.true_eq_false] at hfalse
      push Not at hnot
      obtain ⟨child, hc, hunsat⟩ := hnot
      have hzero := ih child hc fun world => Bool.eq_false_iff.mpr (hunsat world)
      exact List.prod_eq_zero (List.mem_map.mpr ⟨child, hc, hzero⟩)
  | or children =>
      simp only [hn, XgcfNode.children] at ih
      apply List.sum_eq_zero
      intro value hv
      obtain ⟨child, hc, rfl⟩ := List.mem_map.mp hv
      apply ih child hc
      intro world
      have hfalse := htruth world
      rw [hn] at hfalse
      simp only [XgcfNode.truth, List.any_eq_false] at hfalse
      exact Bool.eq_false_iff.mpr (hfalse child hc)
  | decision var childFalse childTrue =>
      obtain ⟨hf, ht⟩ := hfresh idx hi var childFalse childTrue hn
      simp only [hn, XgcfNode.children, List.mem_cons, List.not_mem_nil, or_false,
        forall_eq_or_imp, forall_eq] at hin ih
      -- a world for one child extends to the decision, which it reads at a fresh variable
      have hunsat (child : Nat) (hc : child ∈ g.order) (hv : var ∉ g.varsBelow child)
          (side : Bool)
          (hside : ∀ world : Nat → Bool, world var = side →
            (g.node idx).truth world (g.truths world) = g.truths world child)
          : ∀ world, g.truths world child = false := by
        intro world
        have hset : g.truths (Function.update world var side) child = g.truths world child := by
          apply wf.truths_congr hc
          intro v hvb
          exact Function.update_of_ne (ne_of_mem_of_not_mem hvb hv) _ _
        rw [← hset, ← hside _ (by simp)]
        exact htruth _
      have hzeroF := ih.1 (hunsat childFalse hin.1 hf false (by
        intro world hw
        simp [hn, XgcfNode.truth, hw]))
      have hzeroT := ih.2 (hunsat childTrue hin.2 ht true (by
        intro world hw
        simp [hn, XgcfNode.truth, hw]))
      simp [XgcfNode.value, hzeroF, hzeroT]

end Xlog.Prob.Xgcf

-- Supports

namespace Xlog.Prob

open Xlog.Core Xlog.Foundation

-- Sorted lists

/-- Strictly increasing, as all support lists are. -/
abbrev Increasing (list : List Nat) : Prop := list.Pairwise (· < ·)

theorem mem_mergeUnionFrom {fuel : Nat} {a b : List Nat} (hfuel : a.length + b.length ≤ fuel)
    (v : Nat)
    : v ∈ mergeUnionFrom fuel a b ↔ v ∈ a ∨ v ∈ b := by
  fun_induction mergeUnionFrom fuel a b with
  | case1 => simp
  | case2 => simp
  | case3 => simp_all
  | case4 fuel va a b ih =>
      simp only [List.length_cons] at hfuel
      rw [List.mem_cons, ih (by omega)]
      grind
  | case5 fuel va a vb b hne hlt ih =>
      simp only [List.length_cons] at hfuel ih
      rw [List.mem_cons, ih (by omega)]
      grind
  | case6 fuel va a vb b hne hlt ih =>
      simp only [List.length_cons] at hfuel ih
      rw [List.mem_cons, ih (by omega)]
      grind

theorem mem_mergeUnionSorted {a b : List Nat} (v : Nat)
    : v ∈ mergeUnionSorted a b ↔ v ∈ a ∨ v ∈ b :=
  mem_mergeUnionFrom le_rfl v

theorem increasing_mergeUnionFrom {fuel : Nat} {a b : List Nat}
    (hfuel : a.length + b.length ≤ fuel) (ha : Increasing a) (hb : Increasing b)
    : Increasing (mergeUnionFrom fuel a b) := by
  fun_induction mergeUnionFrom fuel a b with
  | case1 => exact hb
  | case2 => exact ha
  | case3 => simp
  | case4 fuel va a b ih =>
      simp only [List.length_cons] at hfuel
      obtain ⟨hva, ha⟩ := List.pairwise_cons.mp ha
      obtain ⟨hvb, hb⟩ := List.pairwise_cons.mp hb
      refine List.pairwise_cons.mpr ⟨?_, ih (by omega) ha hb⟩
      intro v hv
      rcases (mem_mergeUnionFrom (by omega) v).mp hv with h | h
      · exact hva v h
      · exact hvb v h
  | case5 fuel va a vb b hne hlt ih =>
      simp only [List.length_cons] at hfuel
      obtain ⟨hva, ha⟩ := List.pairwise_cons.mp ha
      refine List.pairwise_cons.mpr ⟨?_, ih (by simp only [List.length_cons]; omega) ha hb⟩
      intro v hv
      obtain ⟨hvb, -⟩ := List.pairwise_cons.mp hb
      rcases (mem_mergeUnionFrom (by simp only [List.length_cons]; omega) v).mp hv with h | h
      · exact hva v h
      · rcases List.mem_cons.mp h with rfl | h
        · exact hlt
        · exact hlt.trans (hvb v h)
  | case6 fuel va a vb b hne hlt ih =>
      simp only [List.length_cons] at hfuel
      obtain ⟨hvb, hb⟩ := List.pairwise_cons.mp hb
      refine List.pairwise_cons.mpr ⟨?_, ih (by simp only [List.length_cons]; omega) ha hb⟩
      intro v hv
      obtain ⟨hva, -⟩ := List.pairwise_cons.mp ha
      rcases (mem_mergeUnionFrom (by simp only [List.length_cons]; omega) v).mp hv with h | h
      · rcases List.mem_cons.mp h with rfl | h
        · omega
        · have := hva v h
          omega
      · exact hvb v h

theorem increasing_mergeUnionSorted {a b : List Nat} (ha : Increasing a) (hb : Increasing b)
    : Increasing (mergeUnionSorted a b) :=
  increasing_mergeUnionFrom le_rfl ha hb

/-- Dropping the smaller elements of an increasing list loses only those. -/
theorem mem_dropWhile_lt {b : List Nat} (hb : Increasing b) (va v : Nat)
    : v ∈ b.dropWhile (· < va) ↔ v ∈ b ∧ va ≤ v := by
  induction b with
  | nil => simp
  | cons vb b ih =>
      obtain ⟨hvb, hb⟩ := List.pairwise_cons.mp hb
      rw [List.dropWhile_cons]
      split
      · next h =>
          simp only [decide_eq_true_eq] at h
          rw [ih hb, List.mem_cons]
          constructor
          · exact fun hv => ⟨.inr hv.1, hv.2⟩
          · intro hv
            obtain ⟨rfl | hv, hle⟩ := hv
            · omega
            · exact ⟨hv, hle⟩
      · next h =>
          simp only [decide_eq_true_eq, not_lt] at h
          constructor
          · intro hv
            refine ⟨hv, ?_⟩
            rcases List.mem_cons.mp hv with rfl | hv
            · exact h
            · exact h.trans (hvb v hv).le
          · exact fun hv => hv.1

/-- The difference of increasing lists, by induction on the first. -/
theorem mem_sortedDifference {a b : List Nat} (ha : Increasing a) (hb : Increasing b) (v : Nat)
    : v ∈ sortedDifference a b ↔ v ∈ a ∧ v ∉ b := by
  induction a generalizing b with
  | nil => simp [sortedDifference]
  | cons va a ih =>
      obtain ⟨hva, hrest⟩ := List.pairwise_cons.mp ha
      have hdrop := mem_dropWhile_lt hb va
      have hsub : Increasing (b.dropWhile (· < va)) := hb.sublist (List.dropWhile_sublist _)
      -- elements behind `va` are not among the dropped ones
      have hbehind (w : Nat) (hw : w ∈ a) : w ∈ b.dropWhile (· < va) ↔ w ∈ b :=
        (hdrop w).trans (and_iff_left (hva w hw).le)
      rw [sortedDifference]
      split
      · next vb b' heq =>
          rw [heq] at hsub hdrop hbehind
          obtain ⟨hvb, hb'⟩ := List.pairwise_cons.mp hsub
          split
          · next he =>
              subst he
              have hin : vb ∈ b := ((hdrop vb).mp (by simp)).1
              have htail (hv : v ∈ a) : v ∈ b' ↔ v ∈ b := by
                rw [← hbehind v hv, List.mem_cons, or_iff_right (hva v hv).ne']
              rw [ih hrest hb']
              constructor
              · intro hv
                exact ⟨List.mem_cons_of_mem _ hv.1, fun h => hv.2 ((htail hv.1).mpr h)⟩
              · intro hv
                rcases List.mem_cons.mp hv.1 with rfl | hm
                · exact absurd hin hv.2
                · exact ⟨hm, fun h => hv.2 ((htail hm).mp h)⟩
          · next hne =>
              have hoff : va ∉ b := by
                intro hin
                have hle := ((hdrop vb).mp (by simp)).2
                rcases List.mem_cons.mp ((hdrop va).mpr ⟨hin, le_rfl⟩) with h | h
                · exact hne h.symm
                · have := hvb va h
                  omega
              rw [List.mem_cons, ih hrest hsub]
              constructor
              · intro hv
                rcases hv with rfl | hv
                · exact ⟨by simp, hoff⟩
                · exact ⟨List.mem_cons_of_mem _ hv.1,
                    fun h => hv.2 ((hbehind v hv.1).mpr h)⟩
              · intro hv
                rcases List.mem_cons.mp hv.1 with h | hm
                · exact .inl h
                · exact .inr ⟨hm, fun h => hv.2 ((hbehind v hm).mp h)⟩
      · next heq =>
          rw [heq] at hdrop hbehind
          have hoff : va ∉ b := fun hin => by simpa using (hdrop va).mpr ⟨hin, le_rfl⟩
          rw [List.mem_cons, ih hrest List.Pairwise.nil]
          constructor
          · intro hv
            rcases hv with rfl | hv
            · exact ⟨by simp, hoff⟩
            · exact ⟨List.mem_cons_of_mem _ hv.1, fun h => hv.2 ((hbehind v hv.1).mpr h)⟩
          · intro hv
            rcases List.mem_cons.mp hv.1 with h | hm
            · exact .inl h
            · exact .inr ⟨hm, by simp⟩

theorem sublist_sortedDifference (a b : List Nat) : (sortedDifference a b).Sublist a := by
  induction a generalizing b with
  | nil => simp [sortedDifference]
  | cons va a ih =>
      rw [sortedDifference]
      split
      · split
        · exact (ih _).cons _
        · exact (ih _).cons_cons _
      · exact (ih _).cons_cons _

theorem mem_insertSortedUnique (sorted : List Nat) (var v : Nat)
    : v ∈ insertSortedUnique sorted var ↔ v = var ∨ v ∈ sorted := by
  unfold insertSortedUnique
  split
  · next h =>
      constructor
      · exact .inr
      · exact fun hv => hv.elim (fun he => he ▸ h) id
  · rw [List.mem_orderedInsert]

theorem increasing_insertSortedUnique {sorted : List Nat} (h : Increasing sorted) (var : Nat)
    : Increasing (insertSortedUnique sorted var) := by
  unfold insertSortedUnique
  split
  · exact h
  · next hnot =>
      have hle := (h.imp fun hab => hab.le : sorted.Pairwise (· ≤ ·)).orderedInsert var
      have hnodup : (sorted.orderedInsert (· ≤ ·) var).Nodup := by
        rw [(List.perm_orderedInsert (· ≤ ·) var sorted).nodup_iff]
        exact List.nodup_cons.mpr ⟨hnot, h.imp fun hab => hab.ne⟩
      exact (hle.and hnodup).imp fun hab => lt_of_le_of_ne hab.1 hab.2

-- Support

/-- The random variables below a gate. -/
def Xgcf.randomBelow (g : Xgcf) (isRandomVar : List Bool) (idx : Nat) : Finset Nat :=
  (g.varsBelow idx).filter fun var => isRandom isRandomVar var = true

/-- The list is the sorted list of the gate's random variables. -/
structure IsSupport (g : Xgcf) (isRandomVar : List Bool) (idx : Nat) (vars : List Nat) : Prop where
  increasing : Increasing vars
  mem_iff : ∀ v, v ∈ vars ↔ v ∈ g.randomBelow isRandomVar idx

/-- Merging the lists of several gates keeps them sorted and joins them, by list induction. -/
theorem foldl_mergeUnionSorted {support : Nat → List Nat} {children acc : List Nat}
    (hacc : Increasing acc) (hchildren : ∀ child ∈ children, Increasing (support child))
    : Increasing (children.foldl (fun acc child => mergeUnionSorted acc (support child)) acc)
      ∧ ∀ v, v ∈ children.foldl (fun acc child => mergeUnionSorted acc (support child)) acc
        ↔ v ∈ acc ∨ ∃ child ∈ children, v ∈ support child := by
  induction children generalizing acc with
  | nil => simp [hacc]
  | cons child children ih =>
      obtain ⟨hc, hrest⟩ := List.forall_mem_cons.mp hchildren
      obtain ⟨hinc, hmem⟩ := ih (increasing_mergeUnionSorted hacc hc) hrest
      refine ⟨hinc, ?_⟩
      intro v
      rw [List.foldl_cons, hmem, mem_mergeUnionSorted]
      simp [or_assoc]

namespace Xgcf

variable {g : Xgcf}

theorem WellFormed.node_mem (wf : g.WellFormed) {idx : Nat} (hi : idx ∈ g.order)
    : g.node idx ∈ g.nodes := by
  have hlt := wf.inside idx hi
  rw [node, List.getD_eq_getElem?_getD, List.getElem?_eq_getElem hlt]
  exact List.getElem_mem hlt

/-- One gate's support, from those of its children. -/
theorem WellFormed.nodeSupport_spec (wf : g.WellFormed) {isRandomVar : List Bool}
    {support : Nat → List Nat} {idx : Nat} (hi : idx ∈ g.order)
    (hchildren : ∀ child ∈ (g.node idx).children,
      IsSupport g isRandomVar child (support child))
    : Ends (fun _ : XlogError => False) (IsSupport g isRandomVar idx)
        (nodeSupport isRandomVar support idx (g.node idx)) := by
  have hmem := wf.node_mem hi
  have hvars := wf.varsBelow_eq hi
  cases hn : g.node idx with
  | const0 | const1 =>
      simp only [hn, XgcfNode.vars] at hvars
      exact ⟨List.Pairwise.nil, by simp [randomBelow, hvars]⟩
  | lit literal =>
      rw [hn] at hmem
      simp only [hn, XgcfNode.vars] at hvars
      simp only [nodeSupport, wf.lit_ne_zero literal hmem, if_false]
      split
      · next hr =>
          refine ⟨List.pairwise_singleton _ _, ?_⟩
          intro v
          simp only [randomBelow, hvars, Finset.mem_filter, Finset.mem_singleton,
            List.mem_singleton]
          exact ⟨fun h => ⟨h, h ▸ hr⟩, fun h => h.1⟩
      · next hr =>
          refine ⟨List.Pairwise.nil, ?_⟩
          intro v
          simp only [randomBelow, hvars, Finset.mem_filter, Finset.mem_singleton,
            List.not_mem_nil, false_iff, not_and]
          intro h
          exact h ▸ hr
  | and children | or children =>
      simp only [hn, XgcfNode.vars] at hvars
      simp only [hn, XgcfNode.children] at hchildren
      have hsorted : ∀ child ∈ children, Increasing (support child) :=
        fun child hc => (hchildren child hc).increasing
      obtain ⟨hinc, hiff⟩ := foldl_mergeUnionSorted List.Pairwise.nil hsorted
      refine ⟨hinc, ?_⟩
      intro v
      rw [hiff]
      simp only [randomBelow, hvars, Finset.mem_filter, Finset.mem_biUnion, List.mem_toFinset,
        List.not_mem_nil, false_or]
      constructor
      · intro h
        obtain ⟨child, hc, hv⟩ := h
        rw [(hchildren child hc).mem_iff, randomBelow, Finset.mem_filter] at hv
        exact ⟨⟨child, hc, hv.1⟩, hv.2⟩
      · intro h
        obtain ⟨⟨child, hc, hv⟩, hr⟩ := h
        refine ⟨child, hc, ?_⟩
        rw [(hchildren child hc).mem_iff, randomBelow, Finset.mem_filter]
        exact ⟨hv, hr⟩
  | decision var childFalse childTrue =>
      rw [hn] at hmem
      simp only [hn, XgcfNode.vars] at hvars
      have hf := hchildren childFalse (by simp [hn, XgcfNode.children])
      have ht := hchildren childTrue (by simp [hn, XgcfNode.children])
      have hinc := increasing_mergeUnionSorted hf.increasing ht.increasing
      have hunion (v : Nat) : v ∈ mergeUnionSorted (support childFalse) (support childTrue)
          ↔ (v ∈ g.varsBelow childFalse ∨ v ∈ g.varsBelow childTrue)
            ∧ isRandom isRandomVar v = true := by
        rw [mem_mergeUnionSorted, hf.mem_iff, ht.mem_iff, randomBelow, randomBelow,
          Finset.mem_filter, Finset.mem_filter, or_and_right]
      simp only [nodeSupport, wf.var_ne_zero var childFalse childTrue hmem, if_false]
      split
      · next hr =>
          refine ⟨increasing_insertSortedUnique hinc var, ?_⟩
          intro v
          rw [mem_insertSortedUnique, hunion]
          simp only [randomBelow, hvars, Finset.mem_filter, Finset.mem_insert, Finset.mem_union]
          constructor
          · intro h
            rcases h with rfl | h
            · exact ⟨.inl rfl, hr⟩
            · exact ⟨.inr h.1, h.2⟩
          · intro h
            obtain ⟨rfl | h, hrv⟩ := h
            · exact .inl rfl
            · exact .inr ⟨h, hrv⟩
      · next hr =>
          refine ⟨hinc, ?_⟩
          intro v
          rw [hunion]
          simp only [randomBelow, hvars, Finset.mem_filter, Finset.mem_insert, Finset.mem_union]
          constructor
          · exact fun h => ⟨.inr h.1, h.2⟩
          · intro h
            obtain ⟨rfl | h, hrv⟩ := h
            · exact absurd hrv hr
            · exact ⟨h, hrv⟩

/-- The computed supports are the random variables below the gates, by the loop rule. -/
theorem WellFormed.computeRandomSupport_spec (wf : g.WellFormed) (isRandomVar : List Bool)
    : Ends (fun _ : XlogError => False)
        (fun support : Nat → List Nat => ∀ idx ∈ g.order, IsSupport g isRandomVar idx (support idx))
        (computeRandomSupport g isRandomVar) := by
  refine Ends.foldlM
    (fun (before : List Nat) (support : Nat → List Nat) => ∀ idx ∈ before,
      IsSupport g isRandomVar idx (support idx))
    (by simp) ?_
  intro before idx after support heq hbefore
  have hi : idx ∈ g.order := by simp [heq]
  refine (wf.nodeSupport_spec hi fun child hc =>
    hbefore child (wf.ordered before idx after heq child hc)).bind ?_
  intro vars hvars other ho
  by_cases he : other = idx
  · subst he
    simpa using hvars
  · rw [Function.update_of_ne he]
    refine hbefore other ?_
    simpa [he] using ho

end Xgcf

end Xlog.Prob
