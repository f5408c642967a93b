import Xlog.Logic.Ast

/-! The relational plans that rules are lowered to: expressions over columns, and the plan
nodes with the annotations of the physical routes.
-/

namespace Xlog.Ir

open Xlog.Logic (F64 ScalarType AggOp)

/-- Identifier of a stored relation. -/
abbrev RelId := Nat

inductive JoinType where
  | inner | leftOuter | semi | anti
  deriving DecidableEq, Repr

inductive CompareOp where
  | eq | ne | lt | le | gt | ge
  deriving DecidableEq, Repr

/-- A constant; integers are within their type's range, floats are bit patterns. -/
inductive ConstValue where
  | u32 (value : Nat)
  | u64 (value : Nat)
  | i32 (value : Int)
  | i64 (value : Int)
  | f32 (bits : UInt32)
  | f64 (bits : F64)
  | bool (value : Bool)
  | symbol (text : String)
  deriving DecidableEq, Repr

/-- The arithmetic operations of two operands. -/
inductive BinaryOp where
  | add | sub | mul | div | mod | min | max | pow
  deriving DecidableEq, Repr

/-- An expression over the columns of a row. -/
inductive Expr where
  | column (index : Nat)
  | const (value : ConstValue)
  | compare (left : Expr) (op : CompareOp) (right : Expr)
  | and (exprs : List Expr)
  | or (exprs : List Expr)
  | not (expr : Expr)
  | binary (op : BinaryOp) (left right : Expr)
  | abs (expr : Expr)
  | cast (expr : Expr) (target : ScalarType)
  | conditional (condition thenExpr elseExpr : Expr)
  deriving Repr, Inhabited

/-- A column passed through, or a computed one of the given type. -/
inductive ProjectExpr where
  | column (index : Nat)
  | computed (expr : Expr) (type : ScalarType)
  deriving Repr, Inhabited

structure LookupPerm where
  inputIdx : Nat
  swapCols : Bool
  deriving DecidableEq, Repr

structure ColumnSwap where
  edgeSlot : Nat
  swapCols : Bool
  deriving DecidableEq, Repr

structure SortedLayoutSpec where
  edgeSlots : List Nat
  keyColumns : List (List Nat)
  deriving DecidableEq, Repr

structure HelperSplitSpec where
  helperId : Nat
  variableId : Nat
  edgeSlots : List Nat
  deriving DecidableEq, Repr

/-- The variable order of a clique join; unused entries of the arrays are left out. -/
structure KCliqueVariableOrder where
  k : Nat
  variablePositions : List Nat
  edgePermutation : List Nat
  columnSwaps : List ColumnSwap
  sortedLayoutRequirements : SortedLayoutSpec
  helperSplitSpecs : List HelperSplitSpec
  streamGroup : Nat
  deriving DecidableEq, Repr

structure CostPredictionRecord where
  wcojCost : F64
  hashCost : F64
  deriving DecidableEq, Repr

inductive PlannedHashReason where
  | plannerPredictsHashWins
  | incompleteStatsSafeDefault
  deriving DecidableEq, Repr

inductive MultiwayPlan where
  | wcojWithPlan (order : KCliqueVariableOrder)
  | plannedHashRoute (reason : PlannedHashReason) (plannerEvidence : CostPredictionRecord)
  | freeJoin
  deriving DecidableEq, Repr

structure VariableOrder where
  leaderIdx : Nat
  lookupPerms : List LookupPerm
  kernelOutputCols : List ProjectExpr
  kclique : Option KCliqueVariableOrder
  deriving Repr

/-- The fields of a tensor-masked join, which reads a tensor registered at run time. -/
structure TensorMaskedJoin where
  maskName : String
  schemaSize : Nat
  leftKeys : List Nat
  rightKeys : List Nat
  relIndex : List (RelId × String)
  headRelName : String
  headRelId : RelId
  maxActiveRules : Nat
  headProjection : List Nat
  deriving DecidableEq, Repr

/-- A plan node. -/
inductive RirNode where
  | unit
  | scan (rel : RelId)
  | filter (input : RirNode) (predicate : Expr)
  | project (input : RirNode) (columns : List ProjectExpr)
  | join (left right : RirNode) (leftKeys rightKeys : List Nat) (joinType : JoinType)
  | chainJoin (left right : RirNode) (leftKey rightKey : Nat)
      (outputColumns : List ProjectExpr) (fallback : RirNode)
  | groupBy (input : RirNode) (keyCols : List Nat) (aggs : List (Nat × AggOp))
  | union (inputs : List RirNode)
  | distinct (input : RirNode) (keyCols : List Nat)
  | diff (left right : RirNode)
  | fixpoint (sccId : Nat) (base recursive : RirNode) (deltaRel fullRel : RelId)
  | multiWayJoin (inputs : List RirNode) (slotVars : List (List (Option Nat)))
      (outputColumns : List ProjectExpr) (fallback : RirNode) (plan : Option MultiwayPlan)
      (varOrder : Option VariableOrder)
  | tensorMaskedJoin (spec : TensorMaskedJoin)
  deriving Repr, Inhabited

/-- A rule of a plan. -/
structure CompiledRule where
  head : String
  body : RirNode
  deriving Repr

end Xlog.Ir
