import Xlog.Logic.PredicatePushdown

/-! Predicate pushdown keeps the rows of every plan in which each conjunct that is moved into
the side of a join belongs there.
-/

namespace Xlog.Logic

open Xlog.Ir

-- Splitting a predicate over a join

def GoesLeft (width : Nat) (conjunct : Expr) : Prop :=
  ∀ column ∈ conjunct.collectColumns, column < width

def GoesRight (width : Nat) (conjunct : Expr) : Prop :=
  ¬ GoesLeft width conjunct ∧ ∀ column ∈ conjunct.collectColumns, width ≤ column

instance (width : Nat) (conjunct : Expr) : Decidable (GoesLeft width conjunct) :=
  inferInstanceAs (Decidable (∀ column ∈ conjunct.collectColumns, column < width))

instance (width : Nat) (conjunct : Expr) : Decidable (GoesRight width conjunct) :=
  inferInstanceAs (Decidable (¬ GoesLeft width conjunct ∧
    ∀ column ∈ conjunct.collectColumns, width ≤ column))

theorem splitConjunct_eq (width : Nat) (split : SplitPredicate) (conjunct : Expr)
    : splitConjunct width split conjunct
      = if GoesLeft width conjunct then
          { split with left := split.left ++ [conjunct] }
        else if GoesRight width conjunct then
          { split with right := split.right ++ [remapColumns (· - width) conjunct] }
        else { split with remaining := split.remaining ++ [conjunct] } := by
  have hl : (conjunct.collectColumns.all (· < width)) = decide (GoesLeft width conjunct) := by
    rw [Bool.eq_iff_iff, decide_eq_true_iff]
    simp [GoesLeft]
  by_cases h : GoesLeft width conjunct
  · simp [splitConjunct, hl, h]
  · have hr : (conjunct.collectColumns.all (width ≤ ·))
        = decide (GoesRight width conjunct) := by
      rw [Bool.eq_iff_iff, decide_eq_true_iff]
      simp [GoesRight, h]
    simp [splitConjunct, hl, h, hr]

/-- Splitting sorts the conjuncts by the side they go to, by list induction. -/
theorem foldl_splitConjunct (width : Nat) (conjuncts : List Expr) (split : SplitPredicate)
    : conjuncts.foldl (splitConjunct width) split
      = ⟨split.left ++ conjuncts.filter (GoesLeft width ·),
          split.right
            ++ (conjuncts.filter (GoesRight width ·)).map (remapColumns (· - width)),
          split.remaining
            ++ conjuncts.filter (fun c => ¬ GoesLeft width c ∧ ¬ GoesRight width c)⟩ := by
  induction conjuncts generalizing split with
  | nil => simp
  | cons conjunct conjuncts ih =>
      rw [List.foldl_cons, ih, splitConjunct_eq]
      by_cases hl : GoesLeft width conjunct
      · have hr : ¬ GoesRight width conjunct := fun h => h.1 hl
        simp [hl, hr]
      · by_cases hr : GoesRight width conjunct
        · simp [hl, hr]
        · simp [hl, hr]

theorem splitPredicateForJoin_eq (predicate : Expr) (width : Nat)
    : splitPredicateForJoin predicate width
      = ⟨(flattenAnd predicate).filter (GoesLeft width ·),
          ((flattenAnd predicate).filter (GoesRight width ·)).map
            (remapColumns (· - width)),
          (flattenAnd predicate).filter
            (fun c => ¬ GoesLeft width c ∧ ¬ GoesRight width c)⟩ := by
  rw [splitPredicateForJoin, foldl_splitConjunct]
  simp

/-- The three parts of a split predicate hold together when the predicate does. -/
theorem holds_split {V : Type} (scalars : Scalars V) (width : Nat) (row : Row V)
    (predicate : Expr)
    : predicate.holds scalars row
      = (((flattenAnd predicate).filter (GoesLeft width ·)).all (Expr.holds scalars row)
        && (((flattenAnd predicate).filter (GoesRight width ·)).all (Expr.holds scalars row)
        && ((flattenAnd predicate).filter
            (fun c => ¬ GoesLeft width c ∧ ¬ GoesRight width c)).all
              (Expr.holds scalars row))) := by
  rw [← all_flattenAnd scalars row predicate]
  generalize flattenAnd predicate = conjuncts
  induction conjuncts with
  | nil => rfl
  | cons conjunct conjuncts ih =>
      by_cases hl : GoesLeft width conjunct
      · have hr : ¬ GoesRight width conjunct := fun h => h.1 hl
        simp only [List.all_cons, ih, hl, hr, decide_true, decide_false, List.filter_cons_of_pos,
          Bool.false_eq_true, not_false_eq_true, List.filter_cons_of_neg, not_true_eq_false,
          false_and, Bool.and_assoc]
      · by_cases hr : GoesRight width conjunct
        · simp only [List.all_cons, ih, hl, hr, decide_true, decide_false,
            List.filter_cons_of_pos, Bool.false_eq_true, not_false_eq_true,
            List.filter_cons_of_neg, not_true_eq_false, and_false]
          ac_rfl
        · simp only [List.all_cons, ih, hl, hr, decide_true, decide_false,
            List.filter_cons_of_pos, Bool.false_eq_true, not_false_eq_true,
            List.filter_cons_of_neg, and_self]
          ac_rfl

-- Filtering a join

section

variable {V : Type} [DecidableEq V] (scalars : Scalars V)

/-- A condition on the left columns of a join filters the left input. -/
theorem filter_joinRows_left (joinType : JoinType) (leftKeys rightKeys : List Nat)
    (rightWidth : Nat) {left : Relation V} (right : Relation V) {condition onLeft : Row V → Bool}
    (h : ∀ row ∈ left, ∀ rest, condition (row ++ rest) = onLeft row)
    : (joinRows scalars joinType leftKeys rightKeys rightWidth left right).filter condition
      = joinRows scalars joinType leftKeys rightKeys rightWidth (left.filter onLeft) right := by
  have hself : ∀ row ∈ left, condition row = onLeft row := by
    intro row hr
    simpa using h row hr []
  cases joinType with
  | inner =>
      simp only [joinRows]
      induction left with
      | nil => rfl
      | cons row left ih =>
          have ih := ih (fun r hr => h r (List.mem_cons_of_mem _ hr))
            (fun r hr => hself r (List.mem_cons_of_mem _ hr))
          rw [List.flatMap_cons, List.filter_append, ih, List.filter_map]
          cases hc : onLeft row with
          | true => simp [hc, Function.comp_def, h row (by simp)]
          | false => simp [hc, Function.comp_def, h row (by simp)]
  | leftOuter =>
      simp only [joinRows]
      induction left with
      | nil => rfl
      | cons row left ih =>
          have ih := ih (fun r hr => h r (List.mem_cons_of_mem _ hr))
            (fun r hr => hself r (List.mem_cons_of_mem _ hr))
          rw [List.flatMap_cons, List.filter_append, ih]
          cases hp : matching leftKeys rightKeys right row with
          | nil =>
              cases hc : onLeft row with
              | true => simp [hc, hp, h row (by simp)]
              | false => simp [hc, h row (by simp)]
          | cons partner partners =>
              rw [List.filter_map]
              cases hc : onLeft row with
              | true => simp [hc, hp, Function.comp_def, h row (by simp)]
              | false => simp [hc, Function.comp_def, h row (by simp)]
  | semi =>
      simp only [joinRows, List.filter_filter]
      refine List.filter_congr fun row hr => ?_
      rw [hself row hr, Bool.and_comm]
  | anti =>
      simp only [joinRows, List.filter_filter]
      refine List.filter_congr fun row hr => ?_
      rw [hself row hr, Bool.and_comm]

/-- A condition on the right columns of an inner join filters the right input. -/
theorem filter_joinRows_right (leftKeys rightKeys : List Nat) (rightWidth : Nat)
    {left right : Relation V} {condition onRight : Row V → Bool}
    (h : ∀ row ∈ left, ∀ other ∈ right, condition (row ++ other) = onRight other)
    : (joinRows scalars .inner leftKeys rightKeys rightWidth left right).filter condition
      = joinRows scalars .inner leftKeys rightKeys rightWidth left (right.filter onRight) := by
  simp only [joinRows]
  induction left with
  | nil => rfl
  | cons row left ih =>
      have hrow : (matching leftKeys rightKeys right row).filter (condition ∘ (row ++ ·))
          = matching leftKeys rightKeys (right.filter onRight) row := by
        simp only [matching, List.filter_filter]
        refine List.filter_congr fun other ho => ?_
        rw [Function.comp_apply, h row (by simp) other ho, Bool.and_comm]
      rw [List.flatMap_cons, List.filter_append, List.filter_map, hrow, List.flatMap_cons,
        ih fun r hr => h r (List.mem_cons_of_mem _ hr)]

end

-- Filters by several predicates

section

variable {V : Type} [DecidableEq V] (scalars : Scalars V) (kernels : Kernels V)
  (arity : RelId → Nat)

theorem denote_filterBy (db : Database V) (input : RirNode) (predicates : List Expr)
    : (filterBy input predicates).denote scalars kernels arity db
      = (input.denote scalars kernels arity db).filter
          fun row => predicates.all (Expr.holds scalars row) := by
  cases predicates with
  | nil => simp [filterBy]
  | cons first rest => simp [filterBy, RirNode.denote, holds_conjoin]

theorem width_filterBy (input : RirNode) (predicates : List Expr)
    : (filterBy input predicates).width arity = input.width arity := by
  cases predicates <;> simp [filterBy, RirNode.width]

theorem wellFormed_filterBy {input : RirNode} (wf : input.WellFormed arity)
    {predicates : List Expr}
    (h : ∀ predicate ∈ predicates, predicate.InRange (input.width arity))
    : (filterBy input predicates).WellFormed arity := by
  cases predicates with
  | nil => exact wf
  | cons first rest =>
      simp only [filterBy, List.isEmpty_cons, Bool.false_eq_true, if_false, RirNode.WellFormed]
      exact ⟨wf, inRange_conjoin h⟩

end

theorem estimateWidth_filterBy (optimizer : Optimizer) (input : RirNode)
    (predicates : List Expr)
    : optimizer.estimateWidth (filterBy input predicates) = optimizer.estimateWidth input := by
  cases predicates <;> simp [filterBy, Optimizer.estimateWidth]

-- Which plans are safe

namespace Optimizer

/-- The join that a further filter on a plan is pushed into: the join below a chain of filters
that have all been pushed.
-/
def joinBelow (optimizer : Optimizer) : RirNode → Option (RirNode × JoinType)
  | .join left _ _ _ joinType => some (left, joinType)
  | .filter input predicate =>
      match optimizer.joinBelow input with
      | some (left, joinType) =>
          if (splitPredicateForJoin predicate
              (optimizer.estimateWidth left)).remaining.isEmpty then
            some (left, joinType)
          else none
      | none => none
  | _ => none

/-- A conjunct is moved to the left only when it reads left columns, and to the right only
below an inner join whose left width is estimated right.
-/
def SafeConjunct (optimizer : Optimizer) (arity : RelId → Nat) (left : RirNode)
    (joinType : JoinType) (conjunct : Expr) : Prop :=
  (GoesLeft (optimizer.estimateWidth left) conjunct → GoesLeft (left.width arity) conjunct)
  ∧ (GoesRight (optimizer.estimateWidth left) conjunct →
      joinType = .inner ∧ optimizer.estimateWidth left = left.width arity)

/-- Every conjunct of a filter that meets a join is safe there. -/
def SafeFilter (optimizer : Optimizer) (arity : RelId → Nat) (input : RirNode)
    (predicate : Expr) : Prop :=
  ∀ left joinType, optimizer.joinBelow input = some (left, joinType) →
    ∀ conjunct ∈ flattenAnd predicate, optimizer.SafeConjunct arity left joinType conjunct

mutual
/-- Every filter of the plan is safe. -/
def SafePlan (optimizer : Optimizer) (arity : RelId → Nat) : RirNode → Prop
  | .filter input predicate =>
      optimizer.SafePlan arity input ∧ optimizer.SafeFilter arity input predicate
  | .project input _ => optimizer.SafePlan arity input
  | .join left right _ _ _ => optimizer.SafePlan arity left ∧ optimizer.SafePlan arity right
  | .groupBy input _ _ => optimizer.SafePlan arity input
  | .union inputs => optimizer.SafePlans arity inputs
  | .distinct input _ => optimizer.SafePlan arity input
  | .diff left right => optimizer.SafePlan arity left ∧ optimizer.SafePlan arity right
  | .fixpoint _ base recursive _ _ =>
      optimizer.SafePlan arity base ∧ optimizer.SafePlan arity recursive
  | .unit | .scan _ | .chainJoin _ _ _ _ _ _ | .multiWayJoin _ _ _ _ _ _
  | .tensorMaskedJoin _ => True

def SafePlans (optimizer : Optimizer) (arity : RelId → Nat) : List RirNode → Prop
  | [] => True
  | input :: inputs => optimizer.SafePlan arity input ∧ optimizer.SafePlans arity inputs
end

end Optimizer

-- What the pass keeps

/-- Pushing a filter changes neither the width nor the estimate, by the kind of the input. -/
theorem width_pushFilter (optimizer : Optimizer) (arity : RelId → Nat) (input : RirNode)
    (predicate : Expr)
    : (optimizer.pushFilter input predicate).width arity = input.width arity
      ∧ optimizer.estimateWidth (optimizer.pushFilter input predicate)
        = optimizer.estimateWidth input := by
  unfold Optimizer.pushFilter
  split
  · simp [RirNode.width, Optimizer.estimateWidth]
  · split <;> simp [RirNode.width, Optimizer.estimateWidth]
  · rename_i left right leftKeys rightKeys joinType
    refine ⟨?_, ?_⟩
    · simp only [width_filterBy]
      cases joinType <;> simp only [RirNode.width, width_filterBy]
    · simp only [estimateWidth_filterBy, Optimizer.estimateWidth]
  · simp [RirNode.width, Optimizer.estimateWidth]

mutual
/-- The pass changes neither the width of a plan nor its estimate. -/
theorem width_predicatePushdown (optimizer : Optimizer) (arity : RelId → Nat)
    (node : RirNode)
    : (optimizer.predicatePushdown node).width arity = node.width arity
      ∧ optimizer.estimateWidth (optimizer.predicatePushdown node)
        = optimizer.estimateWidth node := by
  cases node with
  | unit => exact ⟨rfl, rfl⟩
  | scan rel => exact ⟨rfl, rfl⟩
  | filter input predicate =>
      have hp := width_pushFilter optimizer arity (optimizer.predicatePushdown input) predicate
      have hi := width_predicatePushdown optimizer arity input
      simp only [Optimizer.predicatePushdown, RirNode.width, Optimizer.estimateWidth]
      exact ⟨hp.1.trans hi.1, hp.2.trans hi.2⟩
  | project input columns => exact ⟨rfl, rfl⟩
  | join left right leftKeys rightKeys joinType =>
      have hl := width_predicatePushdown optimizer arity left
      have hr := width_predicatePushdown optimizer arity right
      simp only [Optimizer.predicatePushdown, Optimizer.estimateWidth, hl.2, hr.2, and_true]
      cases joinType <;> simp only [RirNode.width, hl.1, hr.1]
  | chainJoin left right leftKey rightKey outputColumns fallback => exact ⟨rfl, rfl⟩
  | groupBy input keyCols aggs => exact ⟨rfl, rfl⟩
  | union inputs =>
      cases inputs with
      | nil => exact ⟨rfl, rfl⟩
      | cons input inputs =>
          have hi := width_predicatePushdown optimizer arity input
          simpa only [Optimizer.predicatePushdown, Optimizer.predicatePushdownList,
            RirNode.width, Optimizer.estimateWidth] using hi
  | distinct input keyCols =>
      simpa only [Optimizer.predicatePushdown, RirNode.width, Optimizer.estimateWidth]
        using width_predicatePushdown optimizer arity input
  | diff left right =>
      simpa only [Optimizer.predicatePushdown, RirNode.width, Optimizer.estimateWidth]
        using width_predicatePushdown optimizer arity left
  | fixpoint sccId base recursive deltaRel fullRel =>
      simpa only [Optimizer.predicatePushdown, RirNode.width, Optimizer.estimateWidth]
        using width_predicatePushdown optimizer arity base
  | multiWayJoin inputs slotVars outputColumns fallback plan varOrder => exact ⟨rfl, rfl⟩
  | tensorMaskedJoin spec => exact ⟨rfl, rfl⟩
end

/-- When the pass turns a plan into a join, the plan is a join below pushed filters, by
recursion on the filters.
-/
theorem joinBelow_of_join (optimizer : Optimizer) (arity : RelId → Nat) {node : RirNode}
    {left right : RirNode} {leftKeys rightKeys : List Nat} {joinType : JoinType}
    (h : optimizer.predicatePushdown node = .join left right leftKeys rightKeys joinType)
    : ∃ source,
        optimizer.joinBelow node = some (source, joinType)
        ∧ optimizer.estimateWidth left = optimizer.estimateWidth source
        ∧ left.width arity = source.width arity := by
  match node with
  | .join sourceLeft sourceRight _ _ _ =>
      simp only [Optimizer.predicatePushdown, RirNode.join.injEq] at h
      obtain ⟨rfl, -, -, -, rfl⟩ := h
      have hw := width_predicatePushdown optimizer arity sourceLeft
      exact ⟨sourceLeft, rfl, hw.2, hw.1⟩
  | .filter input predicate =>
      simp only [Optimizer.predicatePushdown] at h
      cases hi : optimizer.predicatePushdown input with
      | join innerLeft innerRight innerLeftKeys innerRightKeys innerType =>
          obtain ⟨source, hs, he, hw⟩ := joinBelow_of_join optimizer arity hi
          simp only [hi, Optimizer.pushFilter] at h
          by_cases hr : (splitPredicateForJoin predicate
              (optimizer.estimateWidth innerLeft)).remaining = []
          · simp only [hr, filterBy, List.isEmpty_nil, if_true, RirNode.join.injEq] at h
            obtain ⟨rfl, -, -, -, rfl⟩ := h
            refine ⟨source, ?_, ?_, ?_⟩
            · simp only [Optimizer.joinBelow, hs]
              rw [← he, hr]
              simp
            · rw [← he]
              exact estimateWidth_filterBy optimizer innerLeft _
            · rw [← hw]
              exact width_filterBy arity innerLeft _
          · simp [filterBy, hr] at h
      | project inner columns =>
          simp only [hi, Optimizer.pushFilter] at h
          split at h <;> simp at h
      | unit => simp [hi, Optimizer.pushFilter] at h
      | scan rel => simp [hi, Optimizer.pushFilter] at h
      | filter inner innerPred => simp [hi, Optimizer.pushFilter] at h
      | chainJoin l r lk rk out fallback => simp [hi, Optimizer.pushFilter] at h
      | groupBy inner keyCols aggs => simp [hi, Optimizer.pushFilter] at h
      | union inputs => simp [hi, Optimizer.pushFilter] at h
      | distinct inner keyCols => simp [hi, Optimizer.pushFilter] at h
      | diff l r => simp [hi, Optimizer.pushFilter] at h
      | fixpoint scc base rec delta full => simp [hi, Optimizer.pushFilter] at h
      | multiWayJoin inputs slots out fallback plan order =>
          simp [hi, Optimizer.pushFilter] at h
      | tensorMaskedJoin spec => simp [hi, Optimizer.pushFilter] at h
  | .unit | .scan _ | .project _ _ | .chainJoin _ _ _ _ _ _ | .groupBy _ _ _ | .union _
  | .distinct _ _ | .diff _ _ | .fixpoint _ _ _ _ _ | .multiWayJoin _ _ _ _ _ _
  | .tensorMaskedJoin _ => simp [Optimizer.predicatePushdown] at h

section

variable {V : Type} [DecidableEq V] (scalars : Scalars V) (kernels : Kernels V)
  {arity : RelId → Nat}

omit [DecidableEq V] in
/-- A conjunct of left columns reads the same in a row and in its extensions. -/
theorem holds_append_left {width : Nat} {predicate : Expr} (h : GoesLeft width predicate)
    {row : Row V} (hr : row.length = width) (rest : Row V)
    : predicate.holds scalars (row ++ rest) = predicate.holds scalars row := by
  refine holds_congr scalars fun column hc => ?_
  have hlt : column < row.length := hr ▸ h column hc
  rw [List.getD_eq_getElem?_getD, List.getElem?_append_left hlt, ← List.getD_eq_getElem?_getD]

omit [DecidableEq V] in
/-- A conjunct of right columns reads in the right row what its original reads in the pair. -/
theorem holds_append_right {width : Nat} {predicate : Expr} (h : GoesRight width predicate)
    {row : Row V} (hr : row.length = width) (rest : Row V)
    : (remapColumns (· - width) predicate).holds scalars rest
      = predicate.holds scalars (row ++ rest) := by
  refine holds_remapColumns scalars fun column hc => ?_
  have hle : row.length ≤ column := hr ▸ h.2 column hc
  rw [List.getD_eq_getElem?_getD, List.getD_eq_getElem?_getD, List.getElem?_append_right hle, hr]

omit [DecidableEq V] in
theorem all_holds_append_left {width : Nat} {predicates : List Expr}
    (h : ∀ predicate ∈ predicates, GoesLeft width predicate) {row : Row V}
    (hr : row.length = width) (rest : Row V)
    : predicates.all (Expr.holds scalars (row ++ rest))
      = predicates.all (Expr.holds scalars row) := by
  rw [Bool.eq_iff_iff, List.all_eq_true, List.all_eq_true]
  refine forall₂_congr fun predicate hp => ?_
  rw [holds_append_left scalars (h predicate hp) hr rest]

omit [DecidableEq V] in
theorem all_holds_append_right {width : Nat} {predicates : List Expr}
    (h : ∀ predicate ∈ predicates, GoesRight width predicate) {row : Row V}
    (hr : row.length = width) (rest : Row V)
    : predicates.all (Expr.holds scalars (row ++ rest))
      = (predicates.map (remapColumns (· - width))).all (Expr.holds scalars rest) := by
  rw [List.all_map, Bool.eq_iff_iff, List.all_eq_true, List.all_eq_true]
  refine forall₂_congr fun predicate hp => ?_
  rw [Function.comp_apply, holds_append_right scalars (h predicate hp) hr rest]

omit [DecidableEq V] in
/-- A filter on a projection reads the columns that the projection passes through. -/
theorem holds_throughProject {predicate remapped : Expr} {columns : List ProjectExpr}
    (h : remapPredicateThroughProject predicate columns = some remapped) (row : Row V)
    : remapped.holds scalars row
      = predicate.holds scalars (projectRow scalars columns row) := by
  obtain ⟨rfl, hsome⟩ := remapExpr_eq_some predicate h
  refine holds_remapColumns scalars fun column hc => ?_
  obtain ⟨source, hs⟩ := Option.isSome_iff_exists.mp (hsome column hc)
  have hcol : columns[column]? = some (.column source) := by
    unfold passThrough at hs
    split at hs <;> simp_all
  simp [hs, projectRow, List.getElem?_map, hcol, ProjectExpr.eval]

theorem inRange_throughProject {predicate remapped : Expr} {columns : List ProjectExpr}
    {width : Nat} (h : remapPredicateThroughProject predicate columns = some remapped)
    (hcols : ∀ column ∈ columns, column.InRange width)
    : remapped.InRange width := by
  obtain ⟨rfl, hsome⟩ := remapExpr_eq_some predicate h
  intro column hm
  rw [collectColumns_remapColumns] at hm
  obtain ⟨index, hi, rfl⟩ := List.mem_map.mp hm
  obtain ⟨source, hs⟩ := Option.isSome_iff_exists.mp (hsome index hi)
  have hcol : columns[index]? = some (.column source) := by
    unfold passThrough at hs
    split at hs <;> simp_all
  have hr := hcols _ (List.mem_of_getElem? hcol) source (by simp [ProjectExpr.collectColumns])
  simpa [hs] using hr

/-- Pushing the split predicate into the sides of a join filters the join, by the side of each
conjunct.
-/
theorem denote_pushJoin {db : Database V} (hdb : Fits arity db) (optimizer : Optimizer)
    {left right : RirNode} {leftKeys rightKeys : List Nat} {joinType : JoinType}
    {predicate : Expr} (hleft : left.WellFormed arity)
    (safe : ∀ conjunct ∈ flattenAnd predicate,
      optimizer.SafeConjunct arity left joinType conjunct)
    : (optimizer.pushFilter (.join left right leftKeys rightKeys joinType) predicate).denote
        scalars kernels arity db
      = ((RirNode.join left right leftKeys rightKeys joinType).denote
          scalars kernels arity db).filter (predicate.holds scalars) := by
  have hwidth := left.hasWidth_denote scalars kernels hdb hleft
  simp only [Optimizer.pushFilter, splitPredicateForJoin_eq, denote_filterBy, RirNode.denote,
    width_filterBy]
  set estimate := optimizer.estimateWidth left
  set onLeft := (flattenAnd predicate).filter (GoesLeft estimate ·) with honLeft
  set onRight := (flattenAnd predicate).filter (GoesRight estimate ·) with honRight
  have hl : ∀ conjunct ∈ onLeft, GoesLeft (left.width arity) conjunct := by
    intro conjunct hc
    simp only [honLeft, List.mem_filter, decide_eq_true_eq] at hc
    exact (safe conjunct hc.1).1 hc.2
  have hrow : ∀ row, predicate.holds scalars row
      = (onLeft.all (Expr.holds scalars row) && (onRight.all (Expr.holds scalars row)
        && ((flattenAnd predicate).filter
            (fun c => ¬ GoesLeft estimate c ∧ ¬ GoesRight estimate c)).all
              (Expr.holds scalars row))) :=
    fun row => holds_split scalars estimate row predicate
  have hsplit : ∀ rows : Relation V, rows.filter (predicate.holds scalars)
      = ((rows.filter fun row => onLeft.all (Expr.holds scalars row)).filter
          fun row => onRight.all (Expr.holds scalars row)).filter
        fun row => ((flattenAnd predicate).filter
          (fun c => ¬ GoesLeft estimate c ∧ ¬ GoesRight estimate c)).all
            (Expr.holds scalars row) := by
    intro rows
    rw [List.filter_filter, List.filter_filter]
    refine List.filter_congr fun row _ => ?_
    rw [hrow]
    ac_rfl
  rw [hsplit, filter_joinRows_left scalars joinType leftKeys rightKeys (right.width arity)
    (right.denote scalars kernels arity db)
    fun row hr rest => all_holds_append_left scalars hl (hwidth row hr) rest]
  congr 1
  cases hon : onRight with
  | nil => simp
  | cons first rest =>
      have hmem : ∀ conjunct ∈ onRight, joinType = .inner
          ∧ estimate = left.width arity ∧ GoesRight estimate conjunct := by
        intro conjunct hc
        simp only [honRight, List.mem_filter, decide_eq_true_eq] at hc
        obtain ⟨hj, he⟩ := (safe conjunct hc.1).2 hc.2
        exact ⟨hj, he, hc.2⟩
      obtain ⟨rfl, he, -⟩ := hmem first (by simp [hon])
      rw [← hon, filter_joinRows_right scalars leftKeys rightKeys (right.width arity)
        fun row hr other _ => all_holds_append_right scalars
          (fun conjunct hc => (hmem conjunct hc).2.2)
          ((hwidth row (List.mem_of_mem_filter hr)).trans he.symm) other]

end

end Xlog.Logic
