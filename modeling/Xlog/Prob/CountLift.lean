import Xlog.Prob.Provenance

/-! The fast path for lifted counts: when it is taken, what it keeps of a query, and the
kernel that evaluates it, over exact rationals.
-/

namespace Xlog.Prob

open Xlog.Core Xlog.Logic

structure QuerySpec where
  atom : GroundAtom
  deriving DecidableEq, Repr

/-- What the fast path keeps of a query: the number of leaves that are to be true, and the
weights of the leaves in ascending order.
-/
structure GpuCountLiftQuery where
  atom : GroundAtom
  targetCount : Nat
  leafCount : Nat
  leafProbs : List ℚ
  deriving DecidableEq

abbrev GpuCountLiftState := List GpuCountLiftQuery

/-- The last argument of the query, if it can be a count. -/
def countLiftQueryTarget (query : QuerySpec) : Result (Option Nat) :=
  match query.atom.args.getLast? with
  | some (.i64 value) =>
      if 0 ≤ value then
        if value ≤ u32Max then .ok (some value.toNat)
        else .error (.compilation "count-lift target exceeds u32")
      else .ok none
  | _ => .ok none

/-- The leaves below a node. The source recurses without a bound: as deep as the longest path
of the graph.
-/
def collectCountLiftLeavesFuel (provenance : Provenance)
    : Nat → PirNodeId → List LeafId → Result (List LeafId)
  | 0, _, _ => .error (.panic "stack overflow")
  | fuel + 1, node, leaves =>
      match provenance.pir.node node with
      | none => .error (.compilation
          s!"Count-lift GPU evaluator saw invalid PIR node {node}")
      | some (.const _) => .ok leaves
      | some (.lit leaf) | some (.negLit leaf) => .ok (leaves.insert leaf)
      | some (.and children) | some (.or children) =>
          children.foldlM (fun leaves child =>
            collectCountLiftLeavesFuel provenance fuel child leaves) leaves
      | some (.decision _ _ _) => .error (.compilation
          "Count-lift GPU evaluator does not support annotated-disjunction choices")

def collectCountLiftLeaves (provenance : Provenance) (node : PirNodeId)
    (leaves : List LeafId) : Result (List LeafId) :=
  collectCountLiftLeavesFuel provenance (provenance.pir.len + 1) node leaves

/-- The weights of the leaves, in the given order. -/
def leafProbsHost (provenance : Provenance) (leaves : List LeafId) : Result (List ℚ) :=
  leaves.mapM fun leaf =>
    match provenance.leafProbs.lookup leaf with
    | some prob => .ok prob
    | none => .error (.compilation
        s!"Count-lift GPU evaluator missing probability for leaf {leaf}")

/-- One query of the state; `none` when the fast path does not apply. -/
def countLiftQuery (intern : String → Nat) (provenance : Provenance) (query : QuerySpec)
    : Result (Option GpuCountLiftQuery) := do
  match ← countLiftQueryTarget query with
  | none => .ok none
  | some targetCount =>
      match provenance.queryFormula intern query.atom.predicate query.atom.args with
      | none => .ok none
      | some root => do
          let leaves ← collectCountLiftLeaves provenance root []
          if leaves.isEmpty ∨ 64 < leaves.length then .ok none
          else if leaves.length < targetCount then .ok none
          else do
            let probs ← leafProbsHost provenance (leaves.insertionSort (· ≤ ·))
            .ok (some ⟨query.atom, targetCount, probs.length, probs⟩)

/-- The queries of the state, in order, up to the first that the fast path cannot take. -/
def countLiftQueries (intern : String → Nat) (provenance : Provenance)
    : List QuerySpec → Result (Option GpuCountLiftState)
  | [] => .ok (some [])
  | query :: rest => do
      match ← countLiftQuery intern provenance query with
      | none => .ok none
      | some gpuQuery =>
          match ← countLiftQueries intern provenance rest with
          | none => .ok none
          | some gpuQueries => .ok (some (gpuQuery :: gpuQueries))

/-- The predicates with a lifted count that has no deterministic rows. -/
def firedCountPredicates (provenance : Provenance) : List String :=
  (provenance.aggregateLifting.filter fun entry =>
    entry.status = .fired ∧ entry.operator = "count" ∧ entry.deterministicRows = 0).map
      AggregateLiftReport.predicate

/-- Opening the device and copying to it cannot fail here. -/
def tryBuildCountLiftGpuState (intern : String → Nat) (provenance : Provenance)
    (queries : List QuerySpec) : Result (Option GpuCountLiftState) :=
  if queries.isEmpty ∨ ¬ provenance.evidence.isEmpty ∨ ¬ provenance.choiceProbs.isEmpty then
    .ok none
  else if (firedCountPredicates provenance).isEmpty then .ok none
  else if queries.any fun query =>
      query.atom.predicate ∉ firedCountPredicates provenance then .ok none
  else countLiftQueries intern provenance queries

-- The kernel

/-- The cells from `upper` down to 1, each from its old value and its left neighbour's. -/
def countLiftCells (p : ℚ) (scratch : Nat → ℚ) (upper : Nat) : Nat → ℚ :=
  (List.range upper).foldl (fun scratch rev =>
    let k := upper - rev
    Function.update scratch k (scratch k * (1 - p) + scratch (k - 1) * p)) scratch

/-- One leaf; a weight outside the unit interval traps. -/
def countLiftLeaf (targetCount : Nat) (scratch : Nat → ℚ) (item : ℚ × Nat)
    : Result (Nat → ℚ) :=
  let p := item.1
  if 0 ≤ p ∧ p ≤ 1 then
    let upper := min (item.2 + 1) targetCount
    let scratch := countLiftCells p scratch upper
    .ok (Function.update scratch 0 (scratch 0 * (1 - p)))
  else .error (.panic "weights_trap")

def weightsCountLiftExact (leafProb : List ℚ) (targetCount : Nat) : Result ℚ :=
  if leafProb.length < targetCount then .ok 0
  else do
    let scratch ← (leafProb.zip (List.range leafProb.length)).foldlM
      (countLiftLeaf targetCount) (Function.update (fun _ => 0) 0 1)
    .ok (scratch targetCount)

/-- The probability that is returned for a query; rounding noise is clamped. -/
def GpuCountLiftQuery.evaluate (query : GpuCountLiftQuery) : Result ℚ := do
  let prob ← weightsCountLiftExact query.leafProbs query.targetCount
  let prob :=
    if -(1 / 10 ^ 12) ≤ prob ∧ prob < 0 then 0
    else if 1 < prob ∧ prob ≤ 1 + 1 / 10 ^ 12 then 1
    else prob
  if 0 ≤ prob ∧ prob ≤ 1 then .ok prob
  else .error (.kernel s!"count-lift GPU evaluator returned invalid probability {prob}")

end Xlog.Prob
