import Mathlib.Algebra.Order.Ring.Int
import Xlog.Logic.PushdownCorrectness

/-! The pass on whole plans: safe plans keep their rows on every database, with all column
indices in range; a semi join to the left of a join, or a filter on the right columns of an
outer join, can lose this.
-/

namespace Xlog.Logic

open Xlog.Ir

/-- The pass keeps the rows on every database over the schemas, and the indices in range. -/
def PushdownFaithful (optimizer : Optimizer) (arity : RelId → Nat) (node : RirNode) : Prop :=
  (optimizer.predicatePushdown node).WellFormed arity
  ∧ ∀ (V : Type) [DecidableEq V] (scalars : Scalars V) (kernels : Kernels V)
      (db : Database V), Fits arity db →
    (optimizer.predicatePushdown node).denote scalars kernels arity db
      = node.denote scalars kernels arity db

-- One filter

/-- Pushing a filter into a plan keeps the column indices in range, by the kind of the plan. -/
theorem wellFormed_pushFilter (optimizer : Optimizer) (arity : RelId → Nat) {input : RirNode}
    {predicate : Expr} (wf : input.WellFormed arity)
    (range : predicate.InRange (input.width arity))
    (safe : ∀ left right leftKeys rightKeys joinType,
      input = .join left right leftKeys rightKeys joinType →
        ∀ conjunct ∈ flattenAnd predicate,
          optimizer.SafeConjunct arity left joinType conjunct)
    : (optimizer.pushFilter input predicate).WellFormed arity := by
  unfold Optimizer.pushFilter
  split
  · rename_i inner innerPred
    simp only [RirNode.WellFormed, RirNode.width] at wf range ⊢
    refine ⟨wf.1, ?_⟩
    intro column hc
    simp only [Expr.collectColumns, Expr.collectColumnsList, List.append_nil,
      List.mem_append] at hc
    exact hc.elim (wf.2 column) (range column)
  · rename_i inner columns
    simp only [RirNode.WellFormed] at wf
    split
    · rename_i remapped hr
      simp only [RirNode.WellFormed, RirNode.width]
      exact ⟨⟨wf.1, inRange_throughProject hr wf.2⟩, wf.2⟩
    · simp only [RirNode.WellFormed]
      exact ⟨wf, range⟩
  · rename_i left right leftKeys rightKeys joinType
    have hs := safe left right leftKeys rightKeys joinType rfl
    have wfJoin := wf
    simp only [RirNode.WellFormed] at wf
    obtain ⟨hl, hr, hk, hlk, hrk⟩ := wf
    have hmem : ∀ conjunct ∈ flattenAnd predicate, conjunct.InRange
        ((RirNode.join left right leftKeys rightKeys joinType).width arity) :=
      fun conjunct hc => inRange_of_mem_flattenAnd range hc
    rw [splitPredicateForJoin_eq]
    refine wellFormed_filterBy arity ?_ ?_
    · simp only [RirNode.WellFormed, width_filterBy]
      refine ⟨wellFormed_filterBy arity hl ?_, wellFormed_filterBy arity hr ?_, hk, hlk, hrk⟩
      · intro conjunct hc
        simp only [List.mem_filter, decide_eq_true_eq] at hc
        exact (hs conjunct hc.1).1 hc.2
      · intro conjunct hc
        obtain ⟨original, ho, rfl⟩ := List.mem_map.mp hc
        simp only [List.mem_filter, decide_eq_true_eq] at ho
        obtain ⟨rfl, he⟩ := (hs original ho.1).2 ho.2
        intro column hcol
        rw [collectColumns_remapColumns] at hcol
        obtain ⟨index, hi, rfl⟩ := List.mem_map.mp hcol
        have hlt := hmem original ho.1 index hi
        have hle := ho.2.2 index hi
        simp only [RirNode.width] at hlt
        omega
    · intro conjunct hc
      have h := hmem conjunct (List.mem_of_mem_filter hc)
      have hw : (RirNode.join (filterBy left
            ((flattenAnd predicate).filter (GoesLeft (optimizer.estimateWidth left) ·)))
          (filterBy right
            (((flattenAnd predicate).filter
              (GoesRight (optimizer.estimateWidth left) ·)).map
                (remapColumns (· - optimizer.estimateWidth left))))
          leftKeys rightKeys joinType).width arity
          = (RirNode.join left right leftKeys rightKeys joinType).width arity := by
        cases joinType <;> simp only [RirNode.width, width_filterBy]
      rw [hw]
      exact h
  · simp only [RirNode.WellFormed]
    exact ⟨wf, range⟩

section

variable {V : Type} [DecidableEq V] (scalars : Scalars V) (kernels : Kernels V)
  {arity : RelId → Nat}

/-- Pushing a filter into a plan filters its rows, by the kind of the plan. -/
theorem denote_pushFilter {db : Database V} (hdb : Fits arity db) (optimizer : Optimizer)
    {input : RirNode} {predicate : Expr} (wf : input.WellFormed arity)
    (safe : ∀ left right leftKeys rightKeys joinType,
      input = .join left right leftKeys rightKeys joinType →
        ∀ conjunct ∈ flattenAnd predicate,
          optimizer.SafeConjunct arity left joinType conjunct)
    : (optimizer.pushFilter input predicate).denote scalars kernels arity db
      = (input.denote scalars kernels arity db).filter (predicate.holds scalars) := by
  cases input with
  | filter inner innerPred =>
      simp only [Optimizer.pushFilter, RirNode.denote, List.filter_filter]
      refine List.filter_congr fun row _ => ?_
      rw [holds_and]
      simp [Bool.and_comm]
  | project inner columns =>
      simp only [Optimizer.pushFilter]
      cases hr : remapPredicateThroughProject predicate columns with
      | none => rfl
      | some remapped =>
          simp only [RirNode.denote, List.filter_map]
          congr 1
          refine List.filter_congr fun row _ => ?_
          exact holds_throughProject scalars hr row
  | join left right leftKeys rightKeys joinType =>
      simp only [RirNode.WellFormed] at wf
      exact denote_pushJoin scalars kernels hdb optimizer wf.1
        (safe left right leftKeys rightKeys joinType rfl)
  | unit => rfl
  | scan rel => rfl
  | chainJoin left right leftKey rightKey outputColumns fallback => rfl
  | groupBy inner keyCols aggs => rfl
  | union inputs => rfl
  | distinct inner keyCols => rfl
  | diff left right => rfl
  | fixpoint sccId base recursive deltaRel fullRel => rfl
  | multiWayJoin inputs slotVars outputColumns fallback plan varOrder => rfl
  | tensorMaskedJoin spec => rfl

end

/-- What is safe about the conjuncts of a filter holds of the join the pass meets. -/
theorem safeConjunct_of_pushed {optimizer : Optimizer} {arity : RelId → Nat} {input : RirNode}
    {predicate : Expr} (safe : optimizer.SafeFilter arity input predicate)
    {left right : RirNode} {leftKeys rightKeys : List Nat} {joinType : JoinType}
    (h : optimizer.predicatePushdown input = .join left right leftKeys rightKeys joinType)
    : ∀ conjunct ∈ flattenAnd predicate,
        optimizer.SafeConjunct arity left joinType conjunct := by
  obtain ⟨source, hs, he, hw⟩ := joinBelow_of_join optimizer arity h
  intro conjunct hc
  have := safe source joinType hs conjunct hc
  simpa only [Optimizer.SafeConjunct, he, hw] using this

-- Whole plans

mutual
/-- The pass keeps a safe plan well formed, by recursion on the plan. -/
theorem wellFormed_predicatePushdown (optimizer : Optimizer) (arity : RelId → Nat)
    (node : RirNode) (wf : node.WellFormed arity) (safe : optimizer.SafePlan arity node)
    : (optimizer.predicatePushdown node).WellFormed arity := by
  cases node with
  | filter input predicate =>
      simp only [RirNode.WellFormed] at wf
      simp only [Optimizer.SafePlan] at safe
      refine wellFormed_pushFilter optimizer arity
        (wellFormed_predicatePushdown optimizer arity input wf.1 safe.1) ?_
        fun left right leftKeys rightKeys joinType h => safeConjunct_of_pushed safe.2 h
      rw [(width_predicatePushdown optimizer arity input).1]
      exact wf.2
  | project input columns =>
      simp only [RirNode.WellFormed] at wf
      simp only [Optimizer.SafePlan] at safe
      simp only [Optimizer.predicatePushdown, RirNode.WellFormed,
        (width_predicatePushdown optimizer arity input).1]
      exact ⟨wellFormed_predicatePushdown optimizer arity input wf.1 safe, wf.2⟩
  | join left right leftKeys rightKeys joinType =>
      simp only [RirNode.WellFormed] at wf
      simp only [Optimizer.SafePlan] at safe
      simp only [Optimizer.predicatePushdown, RirNode.WellFormed,
        (width_predicatePushdown optimizer arity left).1,
        (width_predicatePushdown optimizer arity right).1]
      exact ⟨wellFormed_predicatePushdown optimizer arity left wf.1 safe.1,
        wellFormed_predicatePushdown optimizer arity right wf.2.1 safe.2, wf.2.2⟩
  | groupBy input keyCols aggs =>
      simp only [RirNode.WellFormed] at wf
      simp only [Optimizer.SafePlan] at safe
      simp only [Optimizer.predicatePushdown, RirNode.WellFormed,
        (width_predicatePushdown optimizer arity input).1]
      exact ⟨wellFormed_predicatePushdown optimizer arity input wf.1 safe, wf.2⟩
  | union inputs =>
      have hw := (width_predicatePushdown optimizer arity (.union inputs)).1
      simp only [RirNode.WellFormed] at wf
      simp only [Optimizer.SafePlan] at safe
      simp only [Optimizer.predicatePushdown] at hw ⊢
      simp only [RirNode.WellFormed, hw]
      exact wellFormedList_predicatePushdown optimizer arity inputs wf safe
  | distinct input keyCols =>
      simp only [RirNode.WellFormed] at wf
      simp only [Optimizer.SafePlan] at safe
      simp only [Optimizer.predicatePushdown, RirNode.WellFormed,
        (width_predicatePushdown optimizer arity input).1]
      exact ⟨wellFormed_predicatePushdown optimizer arity input wf.1 safe, wf.2⟩
  | diff left right =>
      simp only [RirNode.WellFormed] at wf
      simp only [Optimizer.SafePlan] at safe
      simp only [Optimizer.predicatePushdown, RirNode.WellFormed,
        (width_predicatePushdown optimizer arity left).1,
        (width_predicatePushdown optimizer arity right).1]
      exact ⟨wellFormed_predicatePushdown optimizer arity left wf.1 safe.1,
        wellFormed_predicatePushdown optimizer arity right wf.2.1 safe.2, wf.2.2⟩
  | fixpoint sccId base recursive deltaRel fullRel =>
      simp only [RirNode.WellFormed] at wf
      simp only [Optimizer.SafePlan] at safe
      simp only [Optimizer.predicatePushdown, RirNode.WellFormed,
        (width_predicatePushdown optimizer arity base).1,
        (width_predicatePushdown optimizer arity recursive).1]
      exact ⟨wellFormed_predicatePushdown optimizer arity base wf.1 safe.1,
        wellFormed_predicatePushdown optimizer arity recursive wf.2.1 safe.2, wf.2.2⟩
  | unit => exact wf
  | scan rel => exact wf
  | chainJoin left right leftKey rightKey outputColumns fallback => exact wf
  | multiWayJoin inputs slotVars outputColumns fallback plan varOrder => exact wf
  | tensorMaskedJoin spec => exact wf

theorem wellFormedList_predicatePushdown (optimizer : Optimizer) (arity : RelId → Nat)
    {width : Nat} (inputs : List RirNode) (wf : RirNode.WellFormedList arity width inputs)
    (safe : optimizer.SafePlans arity inputs)
    : RirNode.WellFormedList arity width (optimizer.predicatePushdownList inputs) := by
  cases inputs with
  | nil => trivial
  | cons input inputs =>
      simp only [RirNode.WellFormedList] at wf
      simp only [Optimizer.SafePlans] at safe
      simp only [Optimizer.predicatePushdownList, RirNode.WellFormedList,
        (width_predicatePushdown optimizer arity input).1]
      exact ⟨wellFormed_predicatePushdown optimizer arity input wf.1 safe.1, wf.2.1,
        wellFormedList_predicatePushdown optimizer arity inputs wf.2.2 safe.2⟩
end

section

variable {V : Type} [DecidableEq V] (scalars : Scalars V) (kernels : Kernels V)
  {arity : RelId → Nat}

mutual
/-- The pass keeps the rows of a safe plan, by recursion on the plan. -/
theorem denote_predicatePushdown (optimizer : Optimizer) (node : RirNode)
    (wf : node.WellFormed arity) (safe : optimizer.SafePlan arity node)
    {db : Database V} (hdb : Fits arity db)
    : (optimizer.predicatePushdown node).denote scalars kernels arity db
      = node.denote scalars kernels arity db := by
  cases node with
  | filter input predicate =>
      simp only [RirNode.WellFormed] at wf
      simp only [Optimizer.SafePlan] at safe
      simp only [Optimizer.predicatePushdown]
      rw [denote_pushFilter scalars kernels hdb optimizer
          (wellFormed_predicatePushdown optimizer arity input wf.1 safe.1)
          fun left right leftKeys rightKeys joinType h => safeConjunct_of_pushed safe.2 h,
        denote_predicatePushdown optimizer input wf.1 safe.1 hdb, RirNode.denote]
  | project input columns =>
      simp only [RirNode.WellFormed] at wf
      simp only [Optimizer.SafePlan] at safe
      simp only [Optimizer.predicatePushdown, RirNode.denote,
        denote_predicatePushdown optimizer input wf.1 safe hdb]
  | join left right leftKeys rightKeys joinType =>
      simp only [RirNode.WellFormed] at wf
      simp only [Optimizer.SafePlan] at safe
      simp only [Optimizer.predicatePushdown, RirNode.denote,
        (width_predicatePushdown optimizer arity right).1,
        denote_predicatePushdown optimizer left wf.1 safe.1 hdb,
        denote_predicatePushdown optimizer right wf.2.1 safe.2 hdb]
  | groupBy input keyCols aggs =>
      simp only [RirNode.WellFormed] at wf
      simp only [Optimizer.SafePlan] at safe
      simp only [Optimizer.predicatePushdown, RirNode.denote,
        denote_predicatePushdown optimizer input wf.1 safe hdb]
  | union inputs =>
      simp only [RirNode.WellFormed] at wf
      simp only [Optimizer.SafePlan] at safe
      simp only [Optimizer.predicatePushdown, RirNode.denote,
        denoteList_predicatePushdown optimizer inputs wf safe hdb]
  | distinct input keyCols =>
      simp only [RirNode.WellFormed] at wf
      simp only [Optimizer.SafePlan] at safe
      simp only [Optimizer.predicatePushdown, RirNode.denote,
        denote_predicatePushdown optimizer input wf.1 safe hdb]
  | diff left right =>
      simp only [RirNode.WellFormed] at wf
      simp only [Optimizer.SafePlan] at safe
      simp only [Optimizer.predicatePushdown, RirNode.denote,
        denote_predicatePushdown optimizer left wf.1 safe.1 hdb,
        denote_predicatePushdown optimizer right wf.2.1 safe.2 hdb]
  | fixpoint sccId base recursive deltaRel fullRel =>
      simp only [RirNode.WellFormed] at wf
      simp only [Optimizer.SafePlan] at safe
      obtain ⟨hb, hr, hw, hd, hf⟩ := wf
      simp only [Optimizer.predicatePushdown, RirNode.denote,
        denote_predicatePushdown optimizer base hb safe.1 hdb]
      have hbase := base.hasWidth_denote scalars kernels hdb hb
      refine fixpointRows_congr hdb hd hf (fun db' hdb' => ?_) (fun db' hdb' => ?_) _
        hbase hbase
      · exact denote_predicatePushdown optimizer recursive hr safe.2 hdb'
      · rw [← hw]
        exact recursive.hasWidth_denote scalars kernels hdb' hr
  | unit => rfl
  | scan rel => rfl
  | chainJoin left right leftKey rightKey outputColumns fallback => rfl
  | multiWayJoin inputs slotVars outputColumns fallback plan varOrder => rfl
  | tensorMaskedJoin spec => rfl

theorem denoteList_predicatePushdown (optimizer : Optimizer) {width : Nat}
    (inputs : List RirNode) (wf : RirNode.WellFormedList arity width inputs)
    (safe : optimizer.SafePlans arity inputs) {db : Database V} (hdb : Fits arity db)
    : RirNode.denoteList scalars kernels arity db (optimizer.predicatePushdownList inputs)
      = RirNode.denoteList scalars kernels arity db inputs := by
  cases inputs with
  | nil => rfl
  | cons input inputs =>
      simp only [RirNode.WellFormedList] at wf
      simp only [Optimizer.SafePlans] at safe
      simp only [Optimizer.predicatePushdownList, RirNode.denoteList,
        denote_predicatePushdown optimizer input wf.1 safe.1 hdb,
        denoteList_predicatePushdown optimizer inputs wf.2.2 safe.2 hdb]
end

end

/-- The pass is faithful on every well-formed plan whose filters are safe. -/
theorem pushdownFaithful_of_safePlan (optimizer : Optimizer) (arity : RelId → Nat)
    {node : RirNode} (wf : node.WellFormed arity) (safe : optimizer.SafePlan arity node)
    : PushdownFaithful optimizer arity node :=
  ⟨wellFormed_predicatePushdown optimizer arity node wf safe,
    fun _ _ scalars kernels _ hdb =>
      denote_predicatePushdown scalars kernels optimizer node wf safe hdb⟩

-- Plans of inner joins

/-- All relations have a registered schema. -/
def Optimizer.Registered (optimizer : Optimizer) (arity : RelId → Nat) : Prop :=
  ∀ rel, optimizer.schemas rel = some (arity rel)

mutual
/-- All joins of the plan are inner joins. -/
def InnerJoins : RirNode → Prop
  | .join left right _ _ joinType => joinType = .inner ∧ InnerJoins left ∧ InnerJoins right
  | .filter input _ | .project input _ | .groupBy input _ _ | .distinct input _ =>
      InnerJoins input
  | .union inputs => InnerJoinsList inputs
  | .diff left right => InnerJoins left ∧ InnerJoins right
  | .fixpoint _ base recursive _ _ => InnerJoins base ∧ InnerJoins recursive
  | .unit | .scan _ | .chainJoin _ _ _ _ _ _ | .multiWayJoin _ _ _ _ _ _
  | .tensorMaskedJoin _ => True

def InnerJoinsList : List RirNode → Prop
  | [] => True
  | input :: inputs => InnerJoins input ∧ InnerJoinsList inputs
end

/-- Without semi and anti joins the estimate is the width, by recursion on the plan. -/
theorem estimateWidth_eq_width {optimizer : Optimizer} {arity : RelId → Nat}
    (registered : optimizer.Registered arity) (node : RirNode) (wf : node.WellFormed arity)
    (inner : InnerJoins node)
    : optimizer.estimateWidth node = node.width arity := by
  match node with
  | .unit => rfl
  | .scan rel => simp [Optimizer.estimateWidth, registered rel, RirNode.width]
  | .filter input _ =>
      simp only [RirNode.WellFormed] at wf
      simp only [InnerJoins] at inner
      simpa only [Optimizer.estimateWidth, RirNode.width]
        using estimateWidth_eq_width registered input wf.1 inner
  | .project _ _ => rfl
  | .join left right _ _ _ =>
      simp only [RirNode.WellFormed] at wf
      simp only [InnerJoins] at inner
      obtain ⟨rfl, hl, hr⟩ := inner
      simp only [Optimizer.estimateWidth, RirNode.width,
        estimateWidth_eq_width registered left wf.1 hl,
        estimateWidth_eq_width registered right wf.2.1 hr]
  | .chainJoin _ _ _ _ _ _ => rfl
  | .groupBy _ _ _ => rfl
  | .union [] => rfl
  | .union (input :: _) =>
      simp only [RirNode.WellFormed, RirNode.WellFormedList] at wf
      simp only [InnerJoins, InnerJoinsList] at inner
      simpa only [Optimizer.estimateWidth, RirNode.width]
        using estimateWidth_eq_width registered input wf.1 inner.1
  | .distinct input _ =>
      simp only [RirNode.WellFormed] at wf
      simp only [InnerJoins] at inner
      simpa only [Optimizer.estimateWidth, RirNode.width]
        using estimateWidth_eq_width registered input wf.1 inner
  | .diff left _ =>
      simp only [RirNode.WellFormed] at wf
      simp only [InnerJoins] at inner
      simpa only [Optimizer.estimateWidth, RirNode.width]
        using estimateWidth_eq_width registered left wf.1 inner.1
  | .fixpoint _ base _ _ _ =>
      simp only [RirNode.WellFormed] at wf
      simp only [InnerJoins] at inner
      simpa only [Optimizer.estimateWidth, RirNode.width]
        using estimateWidth_eq_width registered base wf.1 inner.1
  | .multiWayJoin _ _ _ _ _ _ => rfl
  | .tensorMaskedJoin spec =>
      simp only [RirNode.WellFormed] at wf
      simp [Optimizer.estimateWidth, registered spec.headRelId, wf, RirNode.width]

/-- The join a filter meets in a plan of inner joins, by recursion on the filters. -/
theorem joinBelow_innerJoins {optimizer : Optimizer} {arity : RelId → Nat} {node left : RirNode}
    {joinType : JoinType} (wf : node.WellFormed arity) (inner : InnerJoins node)
    (h : optimizer.joinBelow node = some (left, joinType))
    : joinType = .inner ∧ left.WellFormed arity ∧ InnerJoins left := by
  match node with
  | .join sourceLeft _ _ _ _ =>
      simp only [Optimizer.joinBelow, Option.some.injEq, Prod.mk.injEq] at h
      simp only [RirNode.WellFormed] at wf
      simp only [InnerJoins] at inner
      obtain ⟨rfl, rfl⟩ := h
      exact ⟨inner.1, wf.1, inner.2.1⟩
  | .filter input _ =>
      simp only [RirNode.WellFormed] at wf
      simp only [InnerJoins] at inner
      simp only [Optimizer.joinBelow] at h
      cases hi : optimizer.joinBelow input with
      | none => simp [hi] at h
      | some found =>
          obtain ⟨foundLeft, foundType⟩ := found
          simp only [hi, Option.ite_none_right_eq_some, Option.some.injEq, Prod.mk.injEq] at h
          obtain ⟨-, rfl, rfl⟩ := h
          exact joinBelow_innerJoins wf.1 inner hi
  | .unit | .scan _ | .project _ _ | .chainJoin _ _ _ _ _ _ | .groupBy _ _ _ | .union _
  | .distinct _ _ | .diff _ _ | .fixpoint _ _ _ _ _ | .multiWayJoin _ _ _ _ _ _
  | .tensorMaskedJoin _ => simp [Optimizer.joinBelow] at h

mutual
/-- Plans of inner joins over registered relations are safe, by recursion on the plan. -/
theorem safePlan_of_innerJoins {optimizer : Optimizer} {arity : RelId → Nat}
    (registered : optimizer.Registered arity) (node : RirNode) (wf : node.WellFormed arity)
    (inner : InnerJoins node)
    : optimizer.SafePlan arity node := by
  cases node with
  | filter input predicate =>
      simp only [RirNode.WellFormed] at wf
      simp only [InnerJoins] at inner
      refine ⟨safePlan_of_innerJoins registered input wf.1 inner, ?_⟩
      intro left joinType hj conjunct _
      obtain ⟨rfl, hl, hi⟩ := joinBelow_innerJoins wf.1 inner hj
      have he := estimateWidth_eq_width registered left hl hi
      exact ⟨fun h => he ▸ h, fun _ => ⟨rfl, he⟩⟩
  | project input columns =>
      simp only [RirNode.WellFormed] at wf
      exact safePlan_of_innerJoins registered input wf.1 inner
  | join left right leftKeys rightKeys joinType =>
      simp only [RirNode.WellFormed] at wf
      simp only [InnerJoins] at inner
      exact ⟨safePlan_of_innerJoins registered left wf.1 inner.2.1,
        safePlan_of_innerJoins registered right wf.2.1 inner.2.2⟩
  | groupBy input keyCols aggs =>
      simp only [RirNode.WellFormed] at wf
      exact safePlan_of_innerJoins registered input wf.1 inner
  | union inputs =>
      simp only [RirNode.WellFormed] at wf
      exact safePlans_of_innerJoins registered inputs wf inner
  | distinct input keyCols =>
      simp only [RirNode.WellFormed] at wf
      exact safePlan_of_innerJoins registered input wf.1 inner
  | diff left right =>
      simp only [RirNode.WellFormed] at wf
      simp only [InnerJoins] at inner
      exact ⟨safePlan_of_innerJoins registered left wf.1 inner.1,
        safePlan_of_innerJoins registered right wf.2.1 inner.2⟩
  | fixpoint sccId base recursive deltaRel fullRel =>
      simp only [RirNode.WellFormed] at wf
      simp only [InnerJoins] at inner
      exact ⟨safePlan_of_innerJoins registered base wf.1 inner.1,
        safePlan_of_innerJoins registered recursive wf.2.1 inner.2⟩
  | unit => trivial
  | scan rel => trivial
  | chainJoin left right leftKey rightKey outputColumns fallback => trivial
  | multiWayJoin inputs slotVars outputColumns fallback plan varOrder => trivial
  | tensorMaskedJoin spec => trivial

theorem safePlans_of_innerJoins {optimizer : Optimizer} {arity : RelId → Nat}
    (registered : optimizer.Registered arity) {width : Nat} (inputs : List RirNode)
    (wf : RirNode.WellFormedList arity width inputs) (inner : InnerJoinsList inputs)
    : optimizer.SafePlans arity inputs := by
  cases inputs with
  | nil => trivial
  | cons input inputs =>
      simp only [RirNode.WellFormedList] at wf
      simp only [InnerJoinsList] at inner
      exact ⟨safePlan_of_innerJoins registered input wf.1 inner.1,
        safePlans_of_innerJoins registered inputs wf.2.2 inner.2⟩
end

-- Plans on which the pass goes wrong

/-- Integers as scalars; the other constants do not occur below. -/
def intScalars : Scalars Int where
  const value :=
    match value with
    | .i64 value => value
    | _ => 0
  ofBool value := if value then 1 else 0
  truthy value := value ≠ 0
  compare op x y :=
    match op with
    | .eq => x = y
    | .ne => x ≠ y
    | .lt => x < y
    | .le => x ≤ y
    | .gt => y < x
    | .ge => y ≤ x
  binary op x y :=
    match op with
    | .add => x + y
    | .sub => x - y
    | .mul => x * y
    | .div => x.tdiv y
    | .mod => x.tmod y
    | .min => min x y
    | .max => max x y
    | .pow => x ^ y.toNat
  abs x := x.natAbs
  cast x _ := x
  aggregate op values :=
    match op with
    | .count => values.length
    | .sum | .logSumExp => values.sum
    | .min => values.foldl min (values.headD 0)
    | .max => values.foldl max (values.headD 0)
  null := 0
  truthy_ofBool value := by cases value <;> rfl

/-- Kernels that keep all rows and have no tensors. -/
def plainKernels : Kernels Int where
  dedup _ rows := rows
  tensorMaskedJoin _ _ := []
  maxIterations := 100
  dedup_subset _ _ := List.Subset.refl _
  tensorMaskedJoin_width _ _ _ h := by simp at h

/-- Relations 0 and 2 have one column, the others two, and all schemas are registered. -/
def smallArity (rel : RelId) : Nat := if rel = 0 ∨ rel = 2 then 1 else 2

def smallOptimizer : Optimizer := ⟨fun rel => some (smallArity rel), fun _ => none⟩

def equalsSeven (column : Nat) : Expr := .compare (.column column) .eq (.const (.i64 7))

/-- The inner join of relations 0 and 1, filtered by the columns of both sides. -/
def filteredJoin : RirNode :=
  .filter (.join (.scan 0) (.scan 1) [0] [0] .inner) (.and [equalsSeven 0, equalsSeven 2])

theorem pushdownFaithful_of_safePlan_filteredJoin
    : PushdownFaithful smallOptimizer smallArity filteredJoin := by
  have wf : filteredJoin.WellFormed smallArity := by
    simp [filteredJoin, equalsSeven, RirNode.WellFormed, RirNode.width, smallArity,
      Expr.InRange, Expr.collectColumns, Expr.collectColumnsList]
  have inner : InnerJoins filteredJoin := by simp [filteredJoin, InnerJoins]
  exact pushdownFaithful_of_safePlan smallOptimizer smallArity wf
    (safePlan_of_innerJoins (fun _ => rfl) filteredJoin wf inner)

/-- The left outer join of relations 0 and 1, filtered by the last column of relation 1. -/
def filteredOuterJoin : RirNode :=
  .filter (.join (.scan 0) (.scan 1) [0] [0] .leftOuter) (equalsSeven 2)

/-- The join of a semi join with relation 2, filtered by the column of relation 2. -/
def filteredSemiJoin : RirNode :=
  .filter
    (.join (.join (.scan 0) (.scan 1) [0] [0] .semi) (.scan 2) [0] [0] .inner)
    (equalsSeven 1)

/-- One row in relations 0 and 1; their join has no 7. -/
def oneRowEach : Database Int
  | 0 => [[1]]
  | 1 => [[1, 5]]
  | _ => []

theorem fits_oneRowEach
    : Fits smallArity oneRowEach := by
  intro rel row hr
  match rel with
  | 0 => simp_all [oneRowEach, smallArity]
  | 1 => simp_all [oneRowEach, smallArity]
  | rel + 2 => simp [oneRowEach] at hr

/-- The filter on the outer join moves to the right, where it turns a row into an unmatched
one; the filter on the column of relation 2 moves into the semi join, which has no such column.
-/
theorem filteredJoins_not_faithful
    : ¬ PushdownFaithful smallOptimizer smallArity filteredOuterJoin
      ∧ ¬ PushdownFaithful smallOptimizer smallArity filteredSemiJoin := by
  refine ⟨fun h => ?_, fun h => ?_⟩
  · have hrows := h.2 Int intScalars plainKernels oneRowEach fits_oneRowEach
    have hold : filteredOuterJoin.denote intScalars plainKernels smallArity oneRowEach = [] := by
      decide +kernel
    have hnew : (smallOptimizer.predicatePushdown filteredOuterJoin).denote
        intScalars plainKernels smallArity oneRowEach = [[1, 0, 0]] := by
      decide +kernel
    rw [hold, hnew] at hrows
    simp at hrows
  · have hwf := h.1
    have hpush : smallOptimizer.predicatePushdown filteredSemiJoin
        = .join (.filter (.join (.scan 0) (.scan 1) [0] [0] .semi) (equalsSeven 1)) (.scan 2)
            [0] [0] .inner := by
      rfl
    rw [hpush] at hwf
    simp only [RirNode.WellFormed] at hwf
    have := hwf.1.2 1 (by simp [equalsSeven, Expr.collectColumns])
    simp [RirNode.width, smallArity] at this

end Xlog.Logic
