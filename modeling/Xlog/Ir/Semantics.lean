import Mathlib.Data.List.Dedup
import Xlog.Ir.Rir

/-! What plans denote: a list of rows over a database. The operations on scalars and the
kernels whose result is not determined by the plan alone are parameters.
-/

namespace Xlog.Ir

open Xlog.Logic (ScalarType AggOp)

/-- The operations on the scalars of the columns. -/
structure Scalars (V : Type) where
  const : ConstValue → V
  ofBool : Bool → V
  truthy : V → Bool
  compare : CompareOp → V → V → Bool
  binary : BinaryOp → V → V → V
  abs : V → V
  cast : V → ScalarType → V
  aggregate : AggOp → List V → V
  /-- What fills the right columns of an unmatched row. -/
  null : V
  truthy_ofBool : ∀ value, truthy (ofBool value) = value

abbrev Row (V : Type) := List V
abbrev Relation (V : Type) := List (Row V)
abbrev Database (V : Type) := RelId → Relation V

/-- The kernels that choose among rows or read run-time data, and the iteration limit. -/
structure Kernels (V : Type) where
  dedup : List Nat → Relation V → Relation V
  tensorMaskedJoin : TensorMaskedJoin → Database V → Relation V
  maxIterations : Nat
  dedup_subset : ∀ keyCols rows, dedup keyCols rows ⊆ rows
  tensorMaskedJoin_width : ∀ spec db, ∀ row ∈ tensorMaskedJoin spec db,
    row.length = spec.headProjection.length

section

variable {V : Type} [DecidableEq V] (scalars : Scalars V)

-- Expressions

mutual
def Expr.eval (row : Row V) : Expr → V
  | .column index => row.getD index scalars.null
  | .const value => scalars.const value
  | .compare left op right =>
      scalars.ofBool (scalars.compare op (left.eval row) (right.eval row))
  | .and exprs => scalars.ofBool ((Expr.evalList row exprs).all scalars.truthy)
  | .or exprs => scalars.ofBool ((Expr.evalList row exprs).any scalars.truthy)
  | .not expr => scalars.ofBool (!scalars.truthy (expr.eval row))
  | .binary op left right => scalars.binary op (left.eval row) (right.eval row)
  | .abs expr => scalars.abs (expr.eval row)
  | .cast expr target => scalars.cast (expr.eval row) target
  | .conditional condition thenExpr elseExpr =>
      if scalars.truthy (condition.eval row) then thenExpr.eval row else elseExpr.eval row

def Expr.evalList (row : Row V) : List Expr → List V
  | [] => []
  | expr :: exprs => expr.eval row :: Expr.evalList row exprs
end

/-- A predicate keeps the rows on which it is true. -/
def Expr.holds (row : Row V) (predicate : Expr) : Bool :=
  scalars.truthy (predicate.eval scalars row)

def ProjectExpr.eval (row : Row V) : ProjectExpr → V
  | .column index => row.getD index scalars.null
  | .computed expr _ => expr.eval scalars row

def projectRow (columns : List ProjectExpr) (row : Row V) : Row V :=
  columns.map (ProjectExpr.eval scalars row)

-- Operators

/-- Two rows agree on the key columns; a missing column agrees with nothing. -/
def keysMatch (leftKeys rightKeys : List Nat) (left right : Row V) : Bool :=
  (leftKeys.zip rightKeys).all fun key =>
    match left[key.1]?, right[key.2]? with
    | some x, some y => x = y
    | _, _ => false

def matching (leftKeys rightKeys : List Nat) (rows : Relation V) (left : Row V) : Relation V :=
  rows.filter (keysMatch leftKeys rightKeys left)

/-- The rows of a join; the right columns follow the left ones, where they are kept. -/
def joinRows (joinType : JoinType) (leftKeys rightKeys : List Nat) (rightWidth : Nat)
    (left right : Relation V) : Relation V :=
  match joinType with
  | .inner => left.flatMap fun row =>
      (matching leftKeys rightKeys right row).map (row ++ ·)
  | .leftOuter => left.flatMap fun row =>
      match matching leftKeys rightKeys right row with
      | [] => [row ++ List.replicate rightWidth scalars.null]
      | partners => partners.map (row ++ ·)
  | .semi => left.filter fun row => !(matching leftKeys rightKeys right row).isEmpty
  | .anti => left.filter fun row => (matching leftKeys rightKeys right row).isEmpty

/-- One row per group: the key columns, then the aggregates. -/
def groupRows (keyCols : List Nat) (aggs : List (Nat × AggOp)) (rows : Relation V)
    : Relation V :=
  let key (row : Row V) : Row V := keyCols.map fun index => row.getD index scalars.null
  (rows.map key).dedup.map fun group =>
    group ++ aggs.map fun agg =>
      scalars.aggregate agg.2
        ((rows.filter (key · = group)).map fun row => row.getD agg.1 scalars.null)

/-- Semi-naive rounds: the new rows of the step become the next delta. -/
def fixpointRows (step : Database V → Relation V) (deltaRel fullRel : RelId)
    (db : Database V) : Nat → Relation V → Relation V → Relation V
  | 0, full, _ => full
  | limit + 1, full, delta =>
      let derived := step (Function.update (Function.update db deltaRel delta) fullRel full)
      match derived.filter (· ∉ full) with
      | [] => full
      | fresh => fixpointRows step deltaRel fullRel db limit (full ++ fresh) fresh

-- Plans

section

variable (arity : RelId → Nat)

/-- The number of columns a plan produces. -/
def RirNode.width : RirNode → Nat
  | .unit => 0
  | .scan rel => arity rel
  | .filter input _ => input.width
  | .project _ columns => columns.length
  | .join left right _ _ joinType =>
      match joinType with
      | .inner | .leftOuter => left.width + right.width
      | .semi | .anti => left.width
  | .chainJoin _ _ _ _ outputColumns _ => outputColumns.length
  | .groupBy _ keyCols aggs => keyCols.length + aggs.length
  | .union inputs =>
      match inputs with
      | [] => 0
      | input :: _ => input.width
  | .distinct input _ => input.width
  | .diff left _ => left.width
  | .fixpoint _ base _ _ _ => base.width
  | .multiWayJoin _ _ outputColumns _ _ _ => outputColumns.length
  | .tensorMaskedJoin spec => spec.headProjection.length

end

variable (kernels : Kernels V) (arity : RelId → Nat)

mutual
/-- The rows of a plan. The physical routes stand for their fallback. -/
def RirNode.denote (db : Database V) : RirNode → Relation V
  | .unit => [[]]
  | .scan rel => db rel
  | .filter input predicate => (input.denote db).filter (predicate.holds scalars)
  | .project input columns => (input.denote db).map (projectRow scalars columns)
  | .join left right leftKeys rightKeys joinType =>
      joinRows scalars joinType leftKeys rightKeys (right.width arity)
        (left.denote db) (right.denote db)
  | .chainJoin _ _ _ _ _ fallback => fallback.denote db
  | .groupBy input keyCols aggs => groupRows scalars keyCols aggs (input.denote db)
  | .union inputs => (RirNode.denoteList db inputs).dedup
  | .distinct input keyCols => kernels.dedup keyCols (input.denote db)
  | .diff left right =>
      let excluded := right.denote db
      (left.denote db).filter (· ∉ excluded)
  | .fixpoint _ base recursive deltaRel fullRel =>
      let start := base.denote db
      fixpointRows (fun db => recursive.denote db) deltaRel fullRel db
        kernels.maxIterations start start
  | .multiWayJoin _ _ _ fallback _ _ => fallback.denote db
  | .tensorMaskedJoin spec => kernels.tensorMaskedJoin spec db

def RirNode.denoteList (db : Database V) : List RirNode → Relation V
  | [] => []
  | input :: inputs => input.denote db ++ RirNode.denoteList db inputs
end

end

end Xlog.Ir
