import Xlog.Ir.WellFormed

/-! Predicate pushdown: filters move below projections and into the sides of joins. Renaming columns, splitting
conjunctions and filtering the sides of a join keep what predicates and joins mean.
-/

namespace Xlog.Logic

open Xlog.Ir

/-- What the optimizer knows of the relations: the arities of the registered schemas and the
numbers of columns with statistics.
-/
structure Optimizer where
  schemas : RelId → Option Nat
  columnStats : RelId → Option Nat

-- Rewriting of expressions

mutual
/-- Rename the columns of an expression. -/
def remapColumns (f : Nat → Nat) : Expr → Expr
  | .column index => .column (f index)
  | .const value => .const value
  | .compare left op right => .compare (remapColumns f left) op (remapColumns f right)
  | .and exprs => .and (remapColumnsList f exprs)
  | .or exprs => .or (remapColumnsList f exprs)
  | .not expr => .not (remapColumns f expr)
  | .binary op left right => .binary op (remapColumns f left) (remapColumns f right)
  | .abs expr => .abs (remapColumns f expr)
  | .cast expr target => .cast (remapColumns f expr) target
  | .conditional condition thenExpr elseExpr =>
      .conditional (remapColumns f condition) (remapColumns f thenExpr)
        (remapColumns f elseExpr)

def remapColumnsList (f : Nat → Nat) : List Expr → List Expr
  | [] => []
  | expr :: exprs => remapColumns f expr :: remapColumnsList f exprs
end

mutual
/-- Rename the columns of an expression where every one of them has a name. -/
def remapExpr (mapping : Nat → Option Nat) : Expr → Option Expr
  | .column index => (mapping index).map .column
  | .const value => some (.const value)
  | .compare left op right => do
      let left ← remapExpr mapping left
      some (.compare left op (← remapExpr mapping right))
  | .and exprs => (remapExprList mapping exprs).map .and
  | .or exprs => (remapExprList mapping exprs).map .or
  | .not expr => (remapExpr mapping expr).map .not
  | .binary op left right => do
      let left ← remapExpr mapping left
      some (.binary op left (← remapExpr mapping right))
  | .abs expr => (remapExpr mapping expr).map .abs
  | .cast expr target => (remapExpr mapping expr).map (.cast · target)
  | .conditional condition thenExpr elseExpr => do
      let condition ← remapExpr mapping condition
      let thenExpr ← remapExpr mapping thenExpr
      some (.conditional condition thenExpr (← remapExpr mapping elseExpr))

def remapExprList (mapping : Nat → Option Nat) : List Expr → Option (List Expr)
  | [] => some []
  | expr :: exprs => do
      let expr ← remapExpr mapping expr
      some (expr :: (← remapExprList mapping exprs))
end

/-- The input column that an output column of a projection passes through. -/
def passThrough (columns : List ProjectExpr) (index : Nat) : Option Nat :=
  match columns[index]? with
  | some (.column source) => some source
  | _ => none

def remapPredicateThroughProject (predicate : Expr) (columns : List ProjectExpr)
    : Option Expr :=
  remapExpr (passThrough columns) predicate

mutual
/-- The conjuncts of nested conjunctions. -/
def flattenAnd : Expr → List Expr
  | .and exprs => flattenAndList exprs
  | expr => [expr]

def flattenAndList : List Expr → List Expr
  | [] => []
  | expr :: exprs => flattenAnd expr ++ flattenAndList exprs
end

def conjoin : List Expr → Expr
  | [predicate] => predicate
  | predicates => .and predicates

/-- A filter by the conjunction of some predicates, if there are any. -/
def filterBy (input : RirNode) (predicates : List Expr) : RirNode :=
  if predicates.isEmpty then input else .filter input (conjoin predicates)

-- Joins

namespace Optimizer

/-- The estimated number of output columns; every join counts both sides. -/
def estimateWidth (optimizer : Optimizer) : RirNode → Nat
  | .unit => 0
  | .scan rel =>
      match optimizer.schemas rel, optimizer.columnStats rel with
      | some arity, _ => arity
      | none, some columns => max columns 1
      | none, none => 4
  | .filter input _ => optimizer.estimateWidth input
  | .project _ columns => columns.length
  | .join left right _ _ _ => optimizer.estimateWidth left + optimizer.estimateWidth right
  | .chainJoin _ _ _ _ outputColumns _ => outputColumns.length
  | .groupBy _ keyCols aggs => keyCols.length + aggs.length
  | .union inputs =>
      match inputs with
      | [] => 0
      | input :: _ => optimizer.estimateWidth input
  | .distinct input _ => optimizer.estimateWidth input
  | .diff left _ => optimizer.estimateWidth left
  | .fixpoint _ base _ _ _ => optimizer.estimateWidth base
  | .tensorMaskedJoin spec => (optimizer.schemas spec.headRelId).getD 2
  | .multiWayJoin _ _ outputColumns _ _ _ => outputColumns.length

end Optimizer

/-- The conjuncts of a predicate over a join, by the side they can be pushed to. -/
structure SplitPredicate where
  left : List Expr
  right : List Expr
  remaining : List Expr

/-- Where one conjunct goes; without columns it goes left. -/
def splitConjunct (leftWidth : Nat) (split : SplitPredicate) (conjunct : Expr)
    : SplitPredicate :=
  let cols := conjunct.collectColumns
  if cols.all (· < leftWidth) then
    { split with left := split.left ++ [conjunct] }
  else if cols.all (leftWidth ≤ ·) then
    { split with right := split.right ++ [remapColumns (· - leftWidth) conjunct] }
  else { split with remaining := split.remaining ++ [conjunct] }

def splitPredicateForJoin (predicate : Expr) (leftWidth : Nat) : SplitPredicate :=
  (flattenAnd predicate).foldl (splitConjunct leftWidth) ⟨[], [], []⟩

-- The pass

namespace Optimizer

/-- A filter over an input that has been optimized. -/
def pushFilter (optimizer : Optimizer) (input : RirNode) (predicate : Expr) : RirNode :=
  match input with
  | .filter inner innerPred => .filter inner (.and [innerPred, predicate])
  | .project inner columns =>
      match remapPredicateThroughProject predicate columns with
      | some remapped => .project (.filter inner remapped) columns
      | none => .filter (.project inner columns) predicate
  | .join left right leftKeys rightKeys joinType =>
      let split := splitPredicateForJoin predicate (optimizer.estimateWidth left)
      filterBy
        (.join (filterBy left split.left) (filterBy right split.right)
          leftKeys rightKeys joinType)
        split.remaining
  | other => .filter other predicate

mutual
/-- The pass. Chains of projections are a loop in the source, with the same result. -/
def predicatePushdown (optimizer : Optimizer) : RirNode → RirNode
  | .unit => .unit
  | .scan rel => .scan rel
  | .filter input predicate =>
      optimizer.pushFilter (optimizer.predicatePushdown input) predicate
  | .project input columns => .project (optimizer.predicatePushdown input) columns
  | .join left right leftKeys rightKeys joinType =>
      .join (optimizer.predicatePushdown left) (optimizer.predicatePushdown right)
        leftKeys rightKeys joinType
  | .groupBy input keyCols aggs =>
      .groupBy (optimizer.predicatePushdown input) keyCols aggs
  | .union inputs => .union (optimizer.predicatePushdownList inputs)
  | .distinct input keyCols => .distinct (optimizer.predicatePushdown input) keyCols
  | .diff left right =>
      .diff (optimizer.predicatePushdown left) (optimizer.predicatePushdown right)
  | .fixpoint sccId base recursive deltaRel fullRel =>
      .fixpoint sccId (optimizer.predicatePushdown base)
        (optimizer.predicatePushdown recursive) deltaRel fullRel
  | .tensorMaskedJoin spec => .tensorMaskedJoin spec
  | .multiWayJoin inputs slotVars outputColumns fallback plan varOrder =>
      .multiWayJoin inputs slotVars outputColumns fallback plan varOrder
  | .chainJoin left right leftKey rightKey outputColumns fallback =>
      .chainJoin left right leftKey rightKey outputColumns fallback

def predicatePushdownList (optimizer : Optimizer) : List RirNode → List RirNode
  | [] => []
  | input :: inputs =>
      optimizer.predicatePushdown input :: optimizer.predicatePushdownList inputs
end

end Optimizer

-- Predicates and joins

section

variable {V : Type} (scalars : Scalars V)

-- Renaming columns

mutual
/-- A renamed expression reads in one row what the expression reads in another. -/
theorem eval_remapColumns {f : Nat → Nat} {row source : Row V} (expr : Expr)
    (h : ∀ column ∈ expr.collectColumns,
      row.getD (f column) scalars.null = source.getD column scalars.null)
    : (remapColumns f expr).eval scalars row = expr.eval scalars source := by
  cases expr with
  | column index =>
      simpa [remapColumns, Expr.eval] using h index (by simp [Expr.collectColumns])
  | const value => simp [remapColumns, Expr.eval]
  | compare left op right =>
      simp only [Expr.collectColumns, List.mem_append] at h
      simp only [remapColumns, Expr.eval,
        eval_remapColumns left fun c hc => h c (.inl hc),
        eval_remapColumns right fun c hc => h c (.inr hc)]
  | and exprs =>
      simp only [Expr.collectColumns] at h
      simp only [remapColumns, Expr.eval, evalList_remapColumns exprs h]
  | or exprs =>
      simp only [Expr.collectColumns] at h
      simp only [remapColumns, Expr.eval, evalList_remapColumns exprs h]
  | not expr =>
      simp only [Expr.collectColumns] at h
      simp only [remapColumns, Expr.eval, eval_remapColumns expr h]
  | binary op left right =>
      simp only [Expr.collectColumns, List.mem_append] at h
      simp only [remapColumns, Expr.eval,
        eval_remapColumns left fun c hc => h c (.inl hc),
        eval_remapColumns right fun c hc => h c (.inr hc)]
  | abs expr =>
      simp only [Expr.collectColumns] at h
      simp only [remapColumns, Expr.eval, eval_remapColumns expr h]
  | cast expr target =>
      simp only [Expr.collectColumns] at h
      simp only [remapColumns, Expr.eval, eval_remapColumns expr h]
  | conditional condition thenExpr elseExpr =>
      simp only [Expr.collectColumns, List.mem_append] at h
      simp only [remapColumns, Expr.eval,
        eval_remapColumns condition fun c hc => h c (.inl (.inl hc)),
        eval_remapColumns thenExpr fun c hc => h c (.inl (.inr hc)),
        eval_remapColumns elseExpr fun c hc => h c (.inr hc)]

theorem evalList_remapColumns {f : Nat → Nat} {row source : Row V} (exprs : List Expr)
    (h : ∀ column ∈ Expr.collectColumnsList exprs,
      row.getD (f column) scalars.null = source.getD column scalars.null)
    : Expr.evalList scalars row (remapColumnsList f exprs)
      = Expr.evalList scalars source exprs := by
  cases exprs with
  | nil => simp [remapColumnsList, Expr.evalList]
  | cons expr exprs =>
      simp only [Expr.collectColumnsList, List.mem_append] at h
      simp only [remapColumnsList, Expr.evalList,
        eval_remapColumns expr fun c hc => h c (.inl hc),
        evalList_remapColumns exprs fun c hc => h c (.inr hc)]
end

/-- A predicate holds alike in rows that agree on its columns. -/
theorem holds_remapColumns {f : Nat → Nat} {row source : Row V} {predicate : Expr}
    (h : ∀ column ∈ predicate.collectColumns,
      row.getD (f column) scalars.null = source.getD column scalars.null)
    : (remapColumns f predicate).holds scalars row = predicate.holds scalars source := by
  simp only [Expr.holds, eval_remapColumns scalars predicate h]

end

mutual
theorem remapColumns_id (expr : Expr)
    : remapColumns id expr = expr := by
  cases expr with
  | column index => rfl
  | const value => rfl
  | compare left op right => simp [remapColumns, remapColumns_id left, remapColumns_id right]
  | and exprs => simp [remapColumns, remapColumnsList_id exprs]
  | or exprs => simp [remapColumns, remapColumnsList_id exprs]
  | not expr => simp [remapColumns, remapColumns_id expr]
  | binary op left right => simp [remapColumns, remapColumns_id left, remapColumns_id right]
  | abs expr => simp [remapColumns, remapColumns_id expr]
  | cast expr target => simp [remapColumns, remapColumns_id expr]
  | conditional condition thenExpr elseExpr =>
      simp [remapColumns, remapColumns_id condition, remapColumns_id thenExpr,
        remapColumns_id elseExpr]

theorem remapColumnsList_id (exprs : List Expr)
    : remapColumnsList id exprs = exprs := by
  cases exprs with
  | nil => rfl
  | cons expr exprs => simp [remapColumnsList, remapColumns_id expr, remapColumnsList_id exprs]
end

/-- A predicate holds alike in rows that agree on its columns. -/
theorem holds_congr {V : Type} (scalars : Scalars V) {row source : Row V} {predicate : Expr}
    (h : ∀ column ∈ predicate.collectColumns,
      row.getD column scalars.null = source.getD column scalars.null)
    : predicate.holds scalars row = predicate.holds scalars source := by
  have hr : (remapColumns id predicate).holds scalars row = predicate.holds scalars source :=
    holds_remapColumns scalars h
  rwa [remapColumns_id] at hr

mutual
theorem collectColumns_remapColumns (f : Nat → Nat) (expr : Expr)
    : (remapColumns f expr).collectColumns = expr.collectColumns.map f := by
  cases expr with
  | column index => rfl
  | const value => rfl
  | compare left op right =>
      simp [remapColumns, Expr.collectColumns, collectColumns_remapColumns f left,
        collectColumns_remapColumns f right]
  | and exprs =>
      simp [remapColumns, Expr.collectColumns, collectColumnsList_remapColumns f exprs]
  | or exprs =>
      simp [remapColumns, Expr.collectColumns, collectColumnsList_remapColumns f exprs]
  | not expr =>
      simp [remapColumns, Expr.collectColumns, collectColumns_remapColumns f expr]
  | binary op left right =>
      simp [remapColumns, Expr.collectColumns, collectColumns_remapColumns f left,
        collectColumns_remapColumns f right]
  | abs expr =>
      simp [remapColumns, Expr.collectColumns, collectColumns_remapColumns f expr]
  | cast expr target =>
      simp [remapColumns, Expr.collectColumns, collectColumns_remapColumns f expr]
  | conditional condition thenExpr elseExpr =>
      simp [remapColumns, Expr.collectColumns, collectColumns_remapColumns f condition,
        collectColumns_remapColumns f thenExpr, collectColumns_remapColumns f elseExpr]

theorem collectColumnsList_remapColumns (f : Nat → Nat) (exprs : List Expr)
    : Expr.collectColumnsList (remapColumnsList f exprs)
      = (Expr.collectColumnsList exprs).map f := by
  cases exprs with
  | nil => rfl
  | cons expr exprs =>
      simp [remapColumnsList, Expr.collectColumnsList, collectColumns_remapColumns f expr,
        collectColumnsList_remapColumns f exprs]
end

mutual
/-- A partial renaming that succeeds renames by a total one, and had a name for every
column.
-/
theorem remapExpr_eq_some {mapping : Nat → Option Nat} (expr : Expr) {renamed : Expr}
    (h : remapExpr mapping expr = some renamed)
    : renamed = remapColumns (fun column => (mapping column).getD 0) expr
      ∧ ∀ column ∈ expr.collectColumns, (mapping column).isSome := by
  cases expr with
  | column index =>
      simp only [remapExpr, Option.map_eq_some_iff] at h
      obtain ⟨source, hs, rfl⟩ := h
      simp [remapColumns, Expr.collectColumns, hs]
  | const value =>
      obtain rfl : Expr.const value = renamed := by simpa [remapExpr] using h
      simp [remapColumns, Expr.collectColumns]
  | compare left op right =>
      simp only [remapExpr, Option.bind_eq_bind, Option.bind_eq_some_iff,
        Option.some.injEq] at h
      obtain ⟨l, hl, r, hr, rfl⟩ := h
      obtain ⟨rfl, hlm⟩ := remapExpr_eq_some left hl
      obtain ⟨rfl, hrm⟩ := remapExpr_eq_some right hr
      refine ⟨rfl, fun c hc => ?_⟩
      simp only [Expr.collectColumns, List.mem_append] at hc
      exact hc.elim (hlm c) (hrm c)
  | and exprs =>
      simp only [remapExpr, Option.map_eq_some_iff] at h
      obtain ⟨es, he, rfl⟩ := h
      obtain ⟨rfl, hem⟩ := remapExprList_eq_some exprs he
      exact ⟨rfl, hem⟩
  | or exprs =>
      simp only [remapExpr, Option.map_eq_some_iff] at h
      obtain ⟨es, he, rfl⟩ := h
      obtain ⟨rfl, hem⟩ := remapExprList_eq_some exprs he
      exact ⟨rfl, hem⟩
  | not expr =>
      simp only [remapExpr, Option.map_eq_some_iff] at h
      obtain ⟨e, he, rfl⟩ := h
      obtain ⟨rfl, hem⟩ := remapExpr_eq_some expr he
      exact ⟨rfl, hem⟩
  | binary op left right =>
      simp only [remapExpr, Option.bind_eq_bind, Option.bind_eq_some_iff,
        Option.some.injEq] at h
      obtain ⟨l, hl, r, hr, rfl⟩ := h
      obtain ⟨rfl, hlm⟩ := remapExpr_eq_some left hl
      obtain ⟨rfl, hrm⟩ := remapExpr_eq_some right hr
      refine ⟨rfl, fun c hc => ?_⟩
      simp only [Expr.collectColumns, List.mem_append] at hc
      exact hc.elim (hlm c) (hrm c)
  | abs expr =>
      simp only [remapExpr, Option.map_eq_some_iff] at h
      obtain ⟨e, he, rfl⟩ := h
      obtain ⟨rfl, hem⟩ := remapExpr_eq_some expr he
      exact ⟨rfl, hem⟩
  | cast expr target =>
      simp only [remapExpr, Option.map_eq_some_iff] at h
      obtain ⟨e, he, rfl⟩ := h
      obtain ⟨rfl, hem⟩ := remapExpr_eq_some expr he
      exact ⟨rfl, hem⟩
  | conditional condition thenExpr elseExpr =>
      simp only [remapExpr, Option.bind_eq_bind, Option.bind_eq_some_iff,
        Option.some.injEq] at h
      obtain ⟨c, hc, t, ht, e, he, rfl⟩ := h
      obtain ⟨rfl, hcm⟩ := remapExpr_eq_some condition hc
      obtain ⟨rfl, htm⟩ := remapExpr_eq_some thenExpr ht
      obtain ⟨rfl, hem⟩ := remapExpr_eq_some elseExpr he
      refine ⟨rfl, fun column hm => ?_⟩
      simp only [Expr.collectColumns, List.mem_append] at hm
      exact hm.elim (fun hm => hm.elim (hcm column) (htm column)) (hem column)

theorem remapExprList_eq_some {mapping : Nat → Option Nat} (exprs : List Expr)
    {renamed : List Expr} (h : remapExprList mapping exprs = some renamed)
    : renamed = remapColumnsList (fun column => (mapping column).getD 0) exprs
      ∧ ∀ column ∈ Expr.collectColumnsList exprs, (mapping column).isSome := by
  cases exprs with
  | nil =>
      obtain rfl : [] = renamed := by simpa [remapExprList] using h
      simp [remapColumnsList, Expr.collectColumnsList]
  | cons expr exprs =>
      simp only [remapExprList, Option.bind_eq_bind, Option.bind_eq_some_iff,
        Option.some.injEq] at h
      obtain ⟨e, he, es, hes, rfl⟩ := h
      obtain ⟨rfl, hem⟩ := remapExpr_eq_some expr he
      obtain ⟨rfl, hesm⟩ := remapExprList_eq_some exprs hes
      refine ⟨rfl, fun c hc => ?_⟩
      simp only [Expr.collectColumnsList, List.mem_append] at hc
      exact hc.elim (hem c) (hesm c)
end

-- Conjunctions

section

variable {V : Type} (scalars : Scalars V)

theorem evalList_eq_map (row : Row V) (exprs : List Expr)
    : Expr.evalList scalars row exprs = exprs.map (Expr.eval scalars row) := by
  induction exprs with
  | nil => rfl
  | cons expr exprs ih => simp [Expr.evalList, ih]

theorem holds_and (row : Row V) (exprs : List Expr)
    : (Expr.and exprs).holds scalars row = exprs.all (Expr.holds scalars row) := by
  simp only [Expr.holds, Expr.eval, scalars.truthy_ofBool, evalList_eq_map, List.all_map]
  rfl

theorem holds_conjoin (row : Row V) (predicates : List Expr)
    : (conjoin predicates).holds scalars row
      = predicates.all (Expr.holds scalars row) := by
  match predicates with
  | [] => exact holds_and scalars row []
  | [predicate] => simp [conjoin]
  | first :: second :: rest => exact holds_and scalars row (first :: second :: rest)

mutual
/-- A predicate holds when all its conjuncts do. -/
theorem all_flattenAnd (row : Row V) (expr : Expr)
    : (flattenAnd expr).all (Expr.holds scalars row) = expr.holds scalars row := by
  cases expr with
  | and exprs => rw [flattenAnd, all_flattenAndList row exprs, holds_and]
  | column index => simp [flattenAnd]
  | const value => simp [flattenAnd]
  | compare left op right => simp [flattenAnd]
  | or exprs => simp [flattenAnd]
  | not expr => simp [flattenAnd]
  | binary op left right => simp [flattenAnd]
  | abs expr => simp [flattenAnd]
  | cast expr target => simp [flattenAnd]
  | conditional condition thenExpr elseExpr => simp [flattenAnd]

theorem all_flattenAndList (row : Row V) (exprs : List Expr)
    : (flattenAndList exprs).all (Expr.holds scalars row)
      = exprs.all (Expr.holds scalars row) := by
  cases exprs with
  | nil => rfl
  | cons expr exprs =>
      rw [flattenAndList, List.all_append, all_flattenAnd row expr,
        all_flattenAndList row exprs, List.all_cons]
end

end

mutual
/-- The conjuncts read what the predicate reads. -/
theorem collectColumns_flattenAnd (expr : Expr)
    : (flattenAnd expr).flatMap Expr.collectColumns = expr.collectColumns := by
  cases expr with
  | and exprs =>
      rw [flattenAnd, Expr.collectColumns, collectColumns_flattenAndList exprs]
  | column index => simp [flattenAnd]
  | const value => simp [flattenAnd]
  | compare left op right => simp [flattenAnd]
  | or exprs => simp [flattenAnd]
  | not expr => simp [flattenAnd]
  | binary op left right => simp [flattenAnd]
  | abs expr => simp [flattenAnd]
  | cast expr target => simp [flattenAnd]
  | conditional condition thenExpr elseExpr => simp [flattenAnd]

theorem collectColumns_flattenAndList (exprs : List Expr)
    : (flattenAndList exprs).flatMap Expr.collectColumns
      = Expr.collectColumnsList exprs := by
  cases exprs with
  | nil => rfl
  | cons expr exprs =>
      rw [flattenAndList, List.flatMap_append, collectColumns_flattenAnd expr,
        collectColumns_flattenAndList exprs, Expr.collectColumnsList]
end

theorem inRange_of_mem_flattenAnd {width : Nat} {predicate conjunct : Expr}
    (h : predicate.InRange width) (hc : conjunct ∈ flattenAnd predicate)
    : conjunct.InRange width := by
  intro column hm
  refine h column ?_
  rw [← collectColumns_flattenAnd]
  exact List.mem_flatMap.mpr ⟨conjunct, hc, hm⟩

theorem collectColumnsList_eq_flatMap (exprs : List Expr)
    : Expr.collectColumnsList exprs = exprs.flatMap Expr.collectColumns := by
  induction exprs with
  | nil => rfl
  | cons expr exprs ih => simp [Expr.collectColumnsList, ih]

theorem inRange_conjoin {width : Nat} {predicates : List Expr}
    (h : ∀ predicate ∈ predicates, predicate.InRange width)
    : (conjoin predicates).InRange width := by
  have hall : ∀ column ∈ Expr.collectColumnsList predicates, column < width := by
    intro column hm
    rw [collectColumnsList_eq_flatMap] at hm
    obtain ⟨predicate, hp, hm⟩ := List.mem_flatMap.mp hm
    exact h predicate hp column hm
  match predicates with
  | [] => exact hall
  | [predicate] => exact h predicate (by simp)
  | first :: second :: rest => exact hall

end Xlog.Logic
