import Xlog.Foundation.OrderedMap
import Xlog.Prob.Binding
import Xlog.Prob.PirBuilder
import Xlog.Prob.Provenance

/-! Running states of the aggregate operators, and the evaluation of an aggregate rule head on bindings with
provenance formulas: the bindings are grouped by the variables of the head, and every possible aggregate
of a group gets the formula of the worlds in which it is the right one.
-/

namespace Xlog.Prob

open Xlog.Core Xlog.Foundation Xlog.Logic

/-- The state of one aggregate over the rows seen so far. -/
inductive AggState where
  | count (rows : Nat)
  | sumI128 (total : Int)
  | sumF64 (total : Float)
  | min (least : Option Value)
  | max (greatest : Option Value)
  | logSumExp (top sumexp : Float) (init : Bool)

def negInfinity : Float := Float.ofBits 0xfff0000000000000

def u64Count : Nat := 2 ^ 64 - 1
def i128Max : Int := 2 ^ 127 - 1
def i128Min : Int := -2 ^ 127

def internalStateError : XlogError := .compilation "Internal aggregate state mismatch"

/-- `<=` of the values that `min` and `max` can compare. -/
def valueLe : Value → Value → Result Bool
  | .i64 x, .i64 y => .ok (x ≤ y)
  | .f64 x, .f64 y => .ok (f64TotalOrderKeyFromBits x ≤ f64TotalOrderKeyFromBits y)
  | .symbol x, .symbol y => .ok (x ≤ y)
  | .string x, .string y => .ok (x ≤ y)
  | _, _ => .error (.compilation "min/max aggregate requires consistent comparable types")

namespace AggState

def new : AggOp → AggState
  | .count => .count 0
  | .sum => .sumI128 0
  | .min => .min none
  | .max => .max none
  | .logSumExp => .logSumExp negInfinity (Float.ofBits 0) false

/-- A sum turns into a double at the first double. -/
def updateSum (state : AggState) (value : Value) : Result AggState :=
  match state, value with
  | .sumI128 total, .i64 i =>
      if i128Min ≤ total + i ∧ total + i ≤ i128Max then .ok (.sumI128 (total + i))
      else .error (.panic "attempt to add with overflow")
  | .sumI128 total, .f64 bits => .ok (.sumF64 (intAsF64 total + Float.ofBits bits))
  | .sumF64 total, .i64 i => .ok (.sumF64 (total + intAsF64 i))
  | .sumF64 total, .f64 bits => .ok (.sumF64 (total + Float.ofBits bits))
  | .sumI128 _, _ | .sumF64 _, _ =>
      .error (.compilation "sum() aggregate requires numeric input")
  | _, _ => .error internalStateError

def updateLogSumExp (runtime : Runtime) (state : AggState) (value : Value)
    : Result AggState :=
  match state with
  | .logSumExp top sumexp init => do
      let x : Float ← match value with
        | .i64 i => .ok (intAsF64 i)
        | .f64 bits => .ok (Float.ofBits bits)
        | _ => .error (.compilation "logsumexp() aggregate requires numeric input")
      if x.isNaN then .error (.compilation "logsumexp() aggregate encountered NaN")
      else if ¬ init then .ok (.logSumExp x (intAsF64 1) true)
      else if top < x then
        .ok (.logSumExp x (sumexp * runtime.exp (top - x) + intAsF64 1) true)
      else .ok (.logSumExp top (sumexp + runtime.exp (x - top)) true)
  | _ => .error internalStateError

def update (runtime : Runtime) (op : AggOp) (state : AggState) (value : Value)
    : Result AggState :=
  match op with
  | .count =>
      match state with
      | .count rows => .ok (.count (Min.min (rows + 1) u64Count))
      | _ => .error internalStateError
  | .sum => state.updateSum value
  | .min =>
      match state with
      | .min none => .ok (.min (some value))
      | .min (some least) => do
          .ok (.min (some (if ← valueLe value least then value else least)))
      | _ => .error internalStateError
  | .max =>
      match state with
      | .max none => .ok (.max (some value))
      | .max (some greatest) => do
          .ok (.max (some (if ← valueLe greatest value then value else greatest)))
      | _ => .error internalStateError
  | .logSumExp => state.updateLogSumExp runtime value

def finish (runtime : Runtime) (op : AggOp) (state : AggState) : Result Value :=
  match op, state with
  | .count, .count rows =>
      if (rows : Int) ≤ i64Max then .ok (.i64 rows)
      else .error (.compilation "count() overflowed i64")
  | .sum, .sumI128 total =>
      if i64Min ≤ total ∧ total ≤ i64Max then .ok (.i64 total)
      else .error (.compilation "sum() overflowed i64")
  | .sum, .sumF64 total => .ok (.f64 total.toBits)
  | .min, .min (some least) => .ok least
  | .min, .min none => .error (.compilation "min() aggregate produced no value")
  | .max, .max (some greatest) => .ok greatest
  | .max, .max none => .error (.compilation "max() aggregate produced no value")
  | .logSumExp, .logSumExp top sumexp init =>
      .ok (.f64 (if init then top + runtime.ln sumexp else negInfinity).toBits)
  | _, _ => .error internalStateError

end AggState

-- Aggregate heads

deriving instance Ord for Value

def Value.debug : Value → String
  | .i64 value => s!"I64({value})"
  | .f64 bits => s!"F64({bits})"
  | .symbol id => s!"Symbol({id})"
  | .string text => s!"String({text.quote})"

def debugValues (values : List Value) : String := ", ".intercalate (values.map Value.debug)

def maxExactProbAggUncertainRows : Nat := 16
def maxExactProbCountLiftRows : Nat := 64

/-- A distinct binding with the formula of the worlds that have it. -/
structure AggregateProvRow where
  binding : Binding
  prov : PirNodeId

def compareVariables (a b : String × Value) : Ordering :=
  (compare a.1 b.1).then (compare a.2 b.2)

def canonicalBindingKey (binding : Binding) : List (String × Value) :=
  binding.insertionSort fun a b => (compareVariables a b).isLE = true

def bindingKeyLe (a b : List (String × Value)) : Bool :=
  (List.compareLex compareVariables a b).isLE

def tupleLe (a b : List Value) : Bool := (List.compareLex compare a b).isLE

-- The head

/-- The group variables and the distinct aggregates of a head, with their positions. -/
structure AggregatePlan where
  keyVars : List String
  keyVarToPos : List (String × Nat)
  aggSpecs : List (AggOp × String)
  aggToPos : List ((AggOp × String) × Nat)

def AggregatePlan.addTerm (predicate : String) (plan : AggregatePlan) : Term → Result AggregatePlan
  | .var name =>
      if (plan.keyVarToPos.lookup name).isSome then .ok plan
      else .ok { plan with
        keyVars := plan.keyVars ++ [name]
        keyVarToPos := (name, plan.keyVars.length) :: plan.keyVarToPos }
  | .aggregate agg =>
      if (findEntry plan.aggToPos (agg.op, agg.var)).isSome then .ok plan
      else .ok { plan with
        aggSpecs := plan.aggSpecs ++ [(agg.op, agg.var)]
        aggToPos := ((agg.op, agg.var), plan.aggSpecs.length) :: plan.aggToPos }
  | .integer _ | .float _ | .string _ | .symbol _ => .ok plan
  | .anonymous => .error (.compilation
      s!"Anonymous variable in aggregate head of {predicate} is not supported")
  | .list _ => .error (unsupportedProbabilisticTermError "aggregate head planning" "list")
  | .cons _ _ => .error (unsupportedProbabilisticTermError "aggregate head planning" "cons")
  | .compound _ _ =>
      .error (unsupportedProbabilisticTermError "aggregate head planning" "compound")
  | .predRef _ => .error (unsupportedProbabilisticTermError "aggregate head planning" "predref")

def aggregateHeadPlan (head : Atom) : Result AggregatePlan :=
  head.terms.foldlM (AggregatePlan.addTerm head.predicate) ⟨[], [], [], []⟩

/-- One value of a head tuple; the two callers differ in the value of an aggregate. -/
def materializeTerm (plan : AggregatePlan) (groupKey : List Value)
    (aggregate : AggExpr → Result Value) (term : Term) : Result Value :=
  match term with
  | .var name =>
      match plan.keyVarToPos.lookup name with
      | some pos =>
          match groupKey[pos]? with
          | some value => .ok value
          | none => .error (.panic
              s!"index out of bounds: the len is {groupKey.length} but the index is {pos}")
      | none => .error (.compilation s!"Aggregate head variable {name} is not a group key")
  | .aggregate agg => aggregate agg
  | .integer _ | .float _ | .string _ | .symbol _ => valueFromTerm term
  | .anonymous => .error (.panic
      "internal error: entered unreachable code: aggregate head plan rejects anonymous terms")
  | .list _ => .error (unsupportedProbabilisticTermError "aggregate head materialization" "list")
  | .cons _ _ => .error (unsupportedProbabilisticTermError "aggregate head materialization" "cons")
  | .compound _ _ =>
      .error (unsupportedProbabilisticTermError "aggregate head materialization" "compound")
  | .predRef _ =>
      .error (unsupportedProbabilisticTermError "aggregate head materialization" "predref")

def aggOpLabel : AggOp → String
  | .count => "count"
  | .sum => "sum"
  | .min => "min"
  | .max => "max"
  | .logSumExp => "logsumexp"

def materializeCountLiftTuple (plan : AggregatePlan) (head : Atom) (groupKey : List Value)
    (countValue : Nat) : Result (List Value) :=
  if (countValue : Int) ≤ i64Max then
    head.terms.mapM (materializeTerm plan groupKey fun agg =>
      if agg.op = .count then .ok (.i64 countValue)
      else .error (.compilation
        s!"Internal aggregate lift state mismatch for {aggOpLabel agg.op}"))
  else .error (.compilation "count() overflowed i64")

def materializeAggregateTuple (runtime : Runtime) (plan : AggregatePlan) (head : Atom)
    (groupKey : List Value) (aggStates : List AggState) : Result (List Value) :=
  head.terms.mapM (materializeTerm plan groupKey fun agg =>
    match findEntry plan.aggToPos (agg.op, agg.var) with
    | none => .error (.panic "agg_to_pos missing")
    | some idx =>
        match plan.aggSpecs[idx]?, aggStates[idx]? with
        | some spec, some state => state.finish runtime spec.1
        | none, _ => .error (.panic "aggregate state index should have a spec")
        | some _, none => .error (.panic
            s!"index out of bounds: the len is {aggStates.length} but the index is {idx}"))

-- Rows

/-- The distinct bindings, with the disjunction of the formulas of equal ones. -/
def dedupState (s : List (List (String × Value) × AggregateProvRow) × PirBuilder)
    (state : Binding × PirNodeId) : List (List (String × Value) × AggregateProvRow) × PirBuilder :=
  let key := canonicalBindingKey state.1
  match findEntry s.1 key with
  | some row =>
      let prov := s.2.or [row.prov, state.2]
      (insertEntry bindingKeyLe s.1 key { row with prov := prov.1 }, prov.2)
  | none => (insertEntry bindingKeyLe s.1 key ⟨state.1, state.2⟩, s.2)

def groupKeyOf (keyVars : List String) (row : AggregateProvRow) : Result (List Value) :=
  keyVars.mapM fun name =>
    match row.binding.lookup name with
    | some value => .ok value
    | none => .error (.unsafeVariable name)

def addToGroup (keyVars : List String) (groups : List (List Value × List AggregateProvRow))
    (row : AggregateProvRow) : Result (List (List Value × List AggregateProvRow)) := do
  let key ← groupKeyOf keyVars row
  return insertEntry tupleLe groups key ((findEntry groups key).getD [] ++ [row])

def updateAggregateStates (runtime : Runtime) (aggSpecs : List (AggOp × String))
    (states : List AggState) (row : AggregateProvRow) : Result (List AggState) :=
  (aggSpecs.zip states).mapM fun item =>
    match row.binding.lookup item.1.2 with
    | some value => item.2.update runtime item.1.1 value
    | none => .error (.unsafeVariable item.1.2)

-- Counting

/-- A cell gains the worlds in which two formulas hold. -/
def joinCell (b : PirBuilder) (old left right : PirNodeId) : PirNodeId × PirBuilder :=
  let both := b.and [left, right]
  both.2.or [old, both.1]

/-- One cell of the next row of the table: the row is absent or present. -/
def countLiftCell (dp : Nat → PirNodeId) (present absent : PirNodeId)
    (s : (Nat → PirNodeId) × PirBuilder) (selected : Nat) : (Nat → PirNodeId) × PirBuilder :=
  let kept := joinCell s.2 (s.1 selected) (dp selected) absent
  let next := Function.update s.1 selected kept.1
  let raised := joinCell kept.2 (next (selected + 1)) (dp selected) present
  (Function.update next (selected + 1) raised.1, raised.2)

/-- The rows from number `idx` on. -/
def countLiftRows (b : PirBuilder) (dp : Nat → PirNodeId) (idx : Nat)
    : List AggregateProvRow → (Nat → PirNodeId) × PirBuilder
  | [] => (dp, b)
  | row :: rows =>
      let absent := b.negateProvenance row.prov
      let next := (List.range (idx + 1)).foldl (countLiftCell dp row.prov absent.1)
        (fun _ => b.constFalse, absent.2)
      countLiftRows next.2 next.1 (idx + 1) rows

/-- For every count the formula of the worlds with so many of the rows. -/
def countLiftFormulas (b : PirBuilder) (uncertainRows : List AggregateProvRow)
    : List PirNodeId × PirBuilder :=
  let dp := countLiftRows b (Function.update (fun _ => b.constFalse) 0 b.constTrue) 0
    uncertainRows
  ((List.range (uncertainRows.length + 1)).map dp.1, dp.2)

def validateCountLiftRows (aggSpecs : List (AggOp × String))
    (alwaysRows uncertainRows : List AggregateProvRow) : Result Unit :=
  aggSpecs.forM fun spec => (alwaysRows ++ uncertainRows).forM fun row =>
    if (row.binding.lookup spec.2).isSome then .ok () else .error (.unsafeVariable spec.2)

-- Aggregate states

/-- An aggregate state up to the bit pattern of its floats. -/
inductive AggStateKey where
  | count (rows : Nat)
  | sumI128 (total : Int)
  | sumF64 (bits : UInt64)
  | min (least : Option Value)
  | max (greatest : Option Value)
  | logSumExp (maxBits sumexpBits : UInt64) (init : Bool)
  deriving DecidableEq, Ord

def AggState.dpKey : AggState → AggStateKey
  | .count rows => .count rows
  | .sumI128 total => .sumI128 total
  | .sumF64 total => .sumF64 total.toBits
  | .min least => .min least
  | .max greatest => .max greatest
  | .logSumExp top sumexp init => .logSumExp top.toBits sumexp.toBits init

def statesKey (states : List AggState) : List AggStateKey := states.map AggState.dpKey

/-- The states reached and whether an uncertain row is among the selected ones. -/
abbrev DpKey := List AggStateKey × Bool

abbrev DpTable := List (DpKey × (List AggState × PirNodeId))

def dpKeyLe (a b : DpKey) : Bool :=
  ((List.compareLex compare a.1 b.1).then (compare a.2 b.2)).isLE

/-- Give the worlds of a proof to a key. -/
def addOutcome (s : DpTable × PirBuilder) (key : DpKey) (states : List AggState)
    (proof : PirNodeId) : DpTable × PirBuilder :=
  match findEntry s.1 key with
  | some (old, oldProof) =>
      let joined := s.2.or [oldProof, proof]
      (insertEntry dpKeyLe s.1 key (old, joined.1), joined.2)
  | none => (insertEntry dpKeyLe s.1 key (states, proof), s.2)

/-- One entry of the table under one more row. -/
def foldEntry (runtime : Runtime) (aggSpecs : List (AggOp × String)) (row : AggregateProvRow)
    (absent : PirNodeId) (s : DpTable × PirBuilder) (entry : DpKey × (List AggState × PirNodeId))
    : Result (DpTable × PirBuilder) := do
  let presentStates ← updateAggregateStates runtime aggSpecs entry.2.1 row
  let presentProof := s.2.and [entry.2.2, row.prov]
  let s := addOutcome (s.1, presentProof.2) (statesKey presentStates, true) presentStates
    presentProof.1
  let absentProof := s.2.and [entry.2.2, absent]
  return addOutcome (s.1, absentProof.2) entry.1 entry.2.1 absentProof.1

/-- One more row. -/
def foldRow (runtime : Runtime) (aggSpecs : List (AggOp × String)) (s : DpTable × PirBuilder)
    (row : AggregateProvRow) : Result (DpTable × PirBuilder) :=
  let absent := s.2.negateProvenance row.prov
  s.1.foldlM (foldEntry runtime aggSpecs row absent.1) ([], absent.2)

def factorizedAggregateOutcomes (runtime : Runtime) (aggSpecs : List (AggOp × String))
    (alwaysRows uncertainRows : List AggregateProvRow) (b : PirBuilder)
    : Result (DpTable × PirBuilder) := do
  let base ← alwaysRows.foldlM (updateAggregateStates runtime aggSpecs)
    (aggSpecs.map fun spec => AggState.new spec.1)
  uncertainRows.foldlM (foldRow runtime aggSpecs)
    ([((statesKey base, false), (base, b.constTrue))], b)

-- Groups

/-- The formulas of the tuples emitted so far, the builder and the reports. -/
structure AggregateOutput where
  out : List (List Value × PirNodeId)
  builder : PirBuilder
  reports : List AggregateLiftReport

def AggregateOutput.add (s : AggregateOutput) (tuple : List Value) (proof : PirNodeId)
    : AggregateOutput :=
  let joined := s.builder.or [(findEntry s.out tuple).getD s.builder.constFalse, proof]
  { s with out := insertEntry tupleLe s.out tuple joined.1, builder := joined.2 }

def recordAggregateLiftReports (reports : List AggregateLiftReport) (head : Atom)
    (groupKey : List Value) (aggSpecs : List (AggOp × String))
    (deterministicRows uncertainRows : Nat) (status : AggregateLiftStatus)
    : List AggregateLiftReport :=
  reports ++ aggSpecs.map fun spec =>
    ⟨head.predicate, groupKey, aggOpLabel spec.1, deterministicRows, uncertainRows, status⟩

/-- Emit the tuple of one count; no tuple for an empty group. -/
def emitCount (plan : AggregatePlan) (head : Atom) (groupKey : List Value) (always : Nat)
    (s : AggregateOutput) (formula : PirNodeId × Nat) : Result AggregateOutput :=
  if always = 0 ∧ formula.2 = 0 then .ok s
  else do
    let tuple ← materializeCountLiftTuple plan head groupKey (always + formula.2)
    return s.add tuple formula.1

def evalCountGroup (plan : AggregatePlan) (head : Atom) (groupKey : List Value)
    (alwaysRows uncertainRows : List AggregateProvRow) (s : AggregateOutput)
    : Result AggregateOutput :=
  if maxExactProbCountLiftRows < uncertainRows.length then
    .error (.compilation
      s!"count aggregate lifting finite domain cap exceeded for predicate {head.predicate} group [{debugValues groupKey}]: {uncertainRows.length} uncertain rows > cap {maxExactProbCountLiftRows}; use prob_engine = mc or reduce the finite aggregate domain")
  else do
    validateCountLiftRows plan.aggSpecs alwaysRows uncertainRows
    let reports := recordAggregateLiftReports s.reports head groupKey plan.aggSpecs
      alwaysRows.length uncertainRows.length .fired
    let formulas := countLiftFormulas s.builder uncertainRows
    formulas.1.zipIdx.foldlM (emitCount plan head groupKey alwaysRows.length)
      { s with builder := formulas.2, reports := reports }

/-- Emit the tuple of one outcome; no tuple for an empty group. -/
def emitOutcome (runtime : Runtime) (plan : AggregatePlan) (head : Atom) (groupKey : List Value)
    (noneAlways : Bool) (s : AggregateOutput) (entry : DpKey × (List AggState × PirNodeId))
    : Result AggregateOutput :=
  if noneAlways ∧ entry.1.2 = false then .ok s
  else do
    let tuple ← materializeAggregateTuple runtime plan head groupKey entry.2.1
    return s.add tuple entry.2.2

def evalOutcomeGroup (runtime : Runtime) (plan : AggregatePlan) (head : Atom)
    (groupKey : List Value) (alwaysRows uncertainRows : List AggregateProvRow)
    (s : AggregateOutput) : Result AggregateOutput :=
  if maxExactProbAggUncertainRows < uncertainRows.length then
    .error (.compilation
      s!"exact probabilistic aggregate domain cap exceeded for predicate {head.predicate} group [{debugValues groupKey}]: {uncertainRows.length} uncertain rows > cap {maxExactProbAggUncertainRows}; use prob_engine = mc or reduce the finite aggregate domain")
  else do
    let outcomes ←
      factorizedAggregateOutcomes runtime plan.aggSpecs alwaysRows uncertainRows s.builder
    let reports := recordAggregateLiftReports s.reports head groupKey plan.aggSpecs
      alwaysRows.length uncertainRows.length .fired
    outcomes.1.foldlM (emitOutcome runtime plan head groupKey alwaysRows.isEmpty)
      { s with builder := outcomes.2, reports := reports }

/-- One group; rows with constant formulas are settled first. -/
def evalGroup (runtime : Runtime) (plan : AggregatePlan) (head : Atom) (s : AggregateOutput)
    (group : List Value × List AggregateProvRow) : Result AggregateOutput :=
  let alwaysRows := group.2.filter fun row => s.builder.pirConstValue row.prov = some true
  let uncertainRows := group.2.filter fun row => s.builder.pirConstValue row.prov = none
  if alwaysRows.isEmpty ∧ uncertainRows.isEmpty then .ok s
  else if plan.aggSpecs.all fun spec => spec.1 = .count then
    evalCountGroup plan head group.1 alwaysRows uncertainRows s
  else evalOutcomeGroup runtime plan head group.1 alwaysRows uncertainRows s

def evalAggregateHeadProvenance (runtime : Runtime) (head : Atom)
    (states : List (Binding × PirNodeId)) (b : PirBuilder)
    (aggregateLifting : List AggregateLiftReport) : Result AggregateOutput := do
  let plan ← aggregateHeadPlan head
  let deduped := states.foldl dedupState ([], b)
  let groups ← (deduped.1.map Prod.snd).foldlM (addToGroup plan.keyVars) []
  groups.foldlM (evalGroup runtime plan head) ⟨[], deduped.2, aggregateLifting⟩

end Xlog.Prob
