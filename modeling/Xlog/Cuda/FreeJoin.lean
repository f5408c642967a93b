import Xlog.Core.Error
import Xlog.Foundation.RowRanges

/-! Free Join plans: their validation, and the rows and counts that the frontier engine reads off tries of
sorted rows. A trie range is the list of its rows, each without the columns used up.
-/

namespace Xlog.Cuda

open Xlog.Core Xlog.Foundation

/-- The next columns of an input, with the variables they bind or match. -/
structure FjSubAtom where
  inputIdx : Nat
  varPositions : List Nat
  deriving DecidableEq, Repr

/-- The cover is iterated, then every probe is matched. -/
structure FjNode where
  cover : FjSubAtom
  probes : List FjSubAtom
  deriving DecidableEq, Repr

structure FjPlan where
  numVars : Nat
  nodes : List FjNode
  outputVars : List Nat
  deriving DecidableEq, Repr

inductive FjMode where
  | materialize | countByRoot
  deriving DecidableEq, Repr

-- Validation

/-- The columns used up of every input, and the variables in the order of their binding. -/
structure PlanCheck where
  consumed : Nat → Nat
  bound : List Nat

def FjSubAtom.consume (sub : FjSubAtom) (consumed : Nat → Nat) : Nat → Nat :=
  Function.update consumed sub.inputIdx (consumed sub.inputIdx + sub.varPositions.length)

section

variable (ctx : String) (numVars : Nat) (arities : List Nat)

def checkSub (sub : FjSubAtom) (consumed : Nat → Nat) (what : String) : Result Unit :=
  let input := sub.inputIdx
  let columns := sub.varPositions.length
  match arities[input]? with
  | none =>
      .error (.kernel
        s!"{ctx}: {what} input_idx {input} out of bounds ({arities.length} inputs)")
  | some arity =>
      if columns = 0 then .error (.kernel s!"{ctx}: {what} on input {input} has no variables")
      else if arity < consumed input + columns then
        let used := consumed input
        .error (.kernel (s!"{ctx}: {what} over-consumes input {input} (arity {arity}, "
          ++ s!"consumed {used}, +{columns})"))
      else
        match sub.varPositions.find? fun v => numVars ≤ v with
        | some v => .error (.kernel s!"{ctx}: {what} variable {v} out of bounds (num_vars {numVars})")
        | none => .ok ()

def bindCover (k : Nat) (bound : List Nat) (vars : List Nat) : Result (List Nat) :=
  vars.foldlM (fun bound v =>
    if v ∈ bound then .error (.kernel s!"{ctx}: node {k} cover rebinds variable {v}")
    else .ok (bound ++ [v])) bound

/-- The inputs that the node has touched are checked along the way. -/
def checkProbes (k : Nat) (bound : List Nat)
    : List Nat → (Nat → Nat) → List FjSubAtom → Result (Nat → Nat)
  | _, consumed, [] => .ok consumed
  | seen, consumed, probe :: probes => do
      checkSub ctx numVars arities probe consumed "probe"
      let input := probe.inputIdx
      if input ∈ seen then
        .error (.kernel s!"{ctx}: node {k} touches input {input} more than once")
      else
        match probe.varPositions.find? fun v => v ∉ bound with
        | some v => .error (.kernel s!"{ctx}: node {k} probes unbound variable {v}")
        | none => checkProbes k bound (input :: seen) (probe.consume consumed) probes

def checkNodes : Nat → PlanCheck → List FjNode → Result PlanCheck
  | _, check, [] => .ok check
  | k, check, node :: nodes => do
      checkSub ctx numVars arities node.cover check.consumed "cover"
      let bound ← bindCover ctx k check.bound node.cover.varPositions
      let consumed ← checkProbes ctx numVars arities k bound [node.cover.inputIdx]
        (node.cover.consume check.consumed) node.probes
      checkNodes (k + 1) ⟨consumed, bound⟩ nodes

/-- Rows need all columns of all inputs, counts a column of each. -/
def checkConsumption (mode : FjMode) (consumed : Nat → Nat) (entry : Nat × Nat) : Result Unit :=
  let i := entry.1
  let arity := entry.2
  let used := consumed i
  match mode with
  | .materialize =>
      if used = arity then .ok ()
      else
        .error (.kernel (s!"{ctx}: plan consumes {used}/{arity} columns of input {i} "
          ++ "(materialization requires full consumption)"))
  | .countByRoot =>
      if used = 0 then
        .error (.kernel (s!"{ctx}: count plan never touches input {i} "
          ++ "(untouched atoms have no live range)"))
      else .ok ()

def checkOutputVar (bound : List Nat) (v : Nat) : Result Unit :=
  if numVars ≤ v ∨ v ∉ bound then .error (.kernel s!"{ctx}: output variable {v} is never bound")
  else .ok ()

end

/-- The variables in the order of their binding. -/
def validatePlan (plan : FjPlan) (arities : List Nat) (mode : FjMode) (ctx : String)
    : Result (List Nat) := do
  if plan.nodes.isEmpty then .error (.kernel s!"{ctx}: plan has no nodes")
  else
    let check ← checkNodes ctx plan.numVars arities 0 ⟨fun _ => 0, []⟩ plan.nodes
    ((List.range arities.length).zip arities).forM (checkConsumption ctx mode check.consumed)
    let outputs := plan.outputVars.length
    if outputs = 0 then .error (.kernel s!"{ctx}: empty output_vars")
    else if mode = .countByRoot ∧ outputs ≠ 1 then
      .error (.kernel
        (s!"{ctx}: count plans take exactly one output (group) variable, got " ++ toString outputs))
    else do
      plan.outputVars.forM (checkOutputVar ctx plan.numVars check.bound)
      .ok check.bound

-- The frontier

/-- A relation on the device. -/
structure JoinInput (V : Type) where
  arity : Nat
  rows : List (List V)
  width : ∀ row ∈ rows, row.length = arity

/-- A binding, with the rows of every input that are still in range. -/
structure FrontierRow (V : Type) where
  binding : Nat → Option V
  range : Nat → List (List V)

section

variable {V : Type}

def bindAll (binding : Nat → Option V) (vars : List Nat) (key : List V) : Nat → Option V :=
  fun v => ((vars.zip key).lookup v).or (binding v)

/-- The product of the lengths of the ranges; a range that is used up has one row. -/
def FrontierRow.multiplicity (inputs : List (JoinInput V)) (row : FrontierRow V) : Nat :=
  ((List.range inputs.length).map fun i => (row.range i).length).prod

variable [DecidableEq V]

/-- The rows of an input, each once. -/
def JoinInput.normalized (input : JoinInput V) : List (List V) := input.rows.dedup

/-- The row with the range of an input refined by a key. -/
def FrontierRow.narrow (row : FrontierRow V) (i : Nat) (key : List V) : FrontierRow V :=
  { row with range := Function.update row.range i (refine (row.range i) key) }

/-- One row for every key of the cover's next columns. -/
def expandRow (cover : FjSubAtom) (row : FrontierRow V) : List (FrontierRow V) :=
  (nextKeys (row.range cover.inputIdx) cover.varPositions.length).map fun key =>
    { row.narrow cover.inputIdx key with
      binding := bindAll row.binding cover.varPositions key }

/-- The row, if the probed columns match its binding; a validated plan probes bound variables. -/
def probeRow (row : FrontierRow V) (probe : FjSubAtom) : Option (FrontierRow V) := do
  let key ← probe.varPositions.mapM row.binding
  let next := row.narrow probe.inputIdx key
  if (next.range probe.inputIdx).isEmpty then none else some next

def executeNode (frontier : List (FrontierRow V)) (node : FjNode) : List (FrontierRow V) :=
  (frontier.flatMap (expandRow node.cover)).filterMap fun row => node.probes.foldlM probeRow row

/-- The frontier after the last node; an empty input empties it. -/
def frontierOf (inputs : List (JoinInput V)) (plan : FjPlan) : List (FrontierRow V) :=
  let norm := inputs.map JoinInput.normalized
  if norm.any List.isEmpty then []
  else plan.nodes.foldl executeNode [⟨fun _ => none, fun i => norm.getD i []⟩]

/-- The rows of the head's variables, each once. -/
def freeJoinExecute (inputs : List (JoinInput V)) (plan : FjPlan) (ctx : String)
    : Result (List (List V)) := do
  let _bindOrder ← validatePlan plan (inputs.map JoinInput.arity) .materialize ctx
  .ok ((frontierOf inputs plan).filterMap fun row => plan.outputVars.mapM row.binding).dedup

/-- The values of the group variable, each with the sum of its multiplicities. -/
def freeJoinCountByRoot (inputs : List (JoinInput V)) (plan : FjPlan) (ctx : String)
    : Result (List (V × Nat)) := do
  let _bindOrder ← validatePlan plan (inputs.map JoinInput.arity) .countByRoot ctx
  let frontier := frontierOf inputs plan
  let group := fun row : FrontierRow V => plan.outputVars.head?.bind row.binding
  .ok ((frontier.filterMap group).dedup.map fun key =>
    (key, ((frontier.filter fun row => group row = some key).map
      (FrontierRow.multiplicity inputs)).sum))

end

end Xlog.Cuda
