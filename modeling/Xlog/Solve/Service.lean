import Mathlib.Data.List.Basic
import Mathlib.Data.Nat.Bits

/-! The incremental solver service: an instance under assumptions that come and go, solved by
enumerating assignment masks, with learned clauses that services hand to each other. An evaluation
that indexes past its assignment panics, which is no answer.
-/

namespace Xlog.Solve.Service

-- Instances

structure Literal where
  var : Nat
  negated : Bool
  deriving DecidableEq, Repr

def Literal.eval (literal : Literal) (assignment : List Bool) : Option Bool :=
  assignment[literal.var]?.map fun value => if literal.negated then !value else value

structure Clause where
  literals : List Literal
  deriving DecidableEq, Repr

def Clause.unit (literal : Literal) : Clause := ⟨[literal]⟩

def Clause.isSatisfied (clause : Clause) (assignment : List Bool) : Option Bool :=
  clause.literals.anyM (·.eval assignment)

inductive Objective where
  | satisfaction
  | maxSat
  | minUnsat
  deriving DecidableEq, Repr

/-- The weights are those `f64` values that are non-negative integers. -/
structure SolveInstance where
  numVars : Nat
  clauses : List Clause
  weights : Option (List Nat)
  objective : Objective
  deriving DecidableEq, Repr

/-- Infinity stands at the power of two after the largest finite value. -/
def f64Infinity : Nat := 1 <<< 1024

/-- The `f64` nearest to a non-negative integer, ties to even. -/
def roundF64 (n : Nat) : Nat :=
  let ulp := 1 <<< (n.log2 - 52)
  let down := n / ulp * ulp
  let rest := n % ulp
  let rounded :=
    if ulp < 2 * rest ∨ (2 * rest = ulp ∧ n / ulp % 2 = 1) then down + ulp else down
  min rounded f64Infinity

namespace SolveInstance

def countSatisfied (problem : SolveInstance) (assignment : List Bool) : Option Nat :=
  problem.clauses.foldlM
    (fun count clause => do
      let satisfied ← clause.isSatisfied assignment
      return if satisfied then count + 1 else count)
    0

/-- The score as an `f64`, summed clause by clause. -/
def weightedSatisfaction (problem : SolveInstance) (assignment : List Bool) : Option Nat :=
  match problem.weights with
  | some weights =>
      (problem.clauses.zip weights).foldlM
        (fun sum weighted => do
          let satisfied ← weighted.1.isSatisfied assignment
          return if satisfied then roundF64 (sum + weighted.2) else sum)
        0
  | none => (problem.countSatisfied assignment).map roundF64

end SolveInstance

-- The service

inductive SolverServiceStatus where
  | sat
  | unsat
  | unknown
  | timeout
  | optimal (score : Nat)
  deriving DecidableEq, Repr

inductive SolverServiceBudget where
  | noSearch
  | assignmentLimit (limit : Nat)
  | exhaustive
  deriving DecidableEq, Repr

structure SolverServiceTrace where
  learnedClauseTransfers : Nat
  cpuAssignmentEnumerations : Nat
  cpuMaxsatEnumerations : Nat
  deriving DecidableEq, Repr

structure SolverServiceResult where
  status : SolverServiceStatus
  assignment : Option (List Bool)
  deriving DecidableEq, Repr

structure ScopedLearnedClause where
  clause : Clause
  assumptionScope : List Literal
  deriving DecidableEq, Repr

structure SolverService where
  solveInstance : SolveInstance
  assumptions : List (Option Literal)
  learnedClauses : List ScopedLearnedClause
  trace : SolverServiceTrace
  deriving DecidableEq, Repr

/-- `u64::MAX` -/
def wordMax : Nat := 18446744073709551615

def saturatingAdd (a b : Nat) : Nat := min (a + b) wordMax

/-- The shift takes its amount modulo 64. -/
def assignmentFromMask (numVars mask : Nat) : List Bool :=
  (List.range numVars).map fun var => mask.testBit (var % 64)

/-- The first of a number of masks, from a mask on, whose assignment satisfies the clauses. -/
def firstSatisfying (numVars : Nat) (hardClauses : List Clause)
    : Nat → Nat → Option (Option (Nat × List Bool))
  | 0, _ => some none
  | count + 1, mask => do
      let assignment := assignmentFromMask numVars mask
      let satisfied ← hardClauses.allM (·.isSatisfied assignment)
      if satisfied then some (some (mask, assignment))
      else firstSatisfying numVars hardClauses count (mask + 1)

/-- The loop of `solveMaxsat` over a number of masks, from a mask on. No best score is `-∞`. -/
def bestSatisfying (problem : SolveInstance) (hardClauses : List Clause)
    : Nat → Nat → Option (Nat × List Bool) → Option (Option (Nat × List Bool))
  | 0, _, best => some best
  | count + 1, mask, best => do
      let assignment := assignmentFromMask problem.numVars mask
      let satisfied ← hardClauses.allM (·.isSatisfied assignment)
      if satisfied then do
        let score ← problem.weightedSatisfaction assignment
        bestSatisfying problem hardClauses count (mask + 1)
          (if best.all (·.1 < score) then some (score, assignment) else best)
      else bestSatisfying problem hardClauses count (mask + 1) best

namespace SolverService

def new (solveInstance : SolveInstance) : SolverService := ⟨solveInstance, [], [], ⟨0, 0, 0⟩⟩

def assume (service : SolverService) (literal : Literal) : SolverService × Nat :=
  ({ service with assumptions := service.assumptions ++ [some literal] },
    service.assumptions.length)

def retractAssumption (service : SolverService) (token : Nat) : SolverService × Bool :=
  match service.assumptions[token]? with
  | none => (service, false)
  | some slot =>
      ({ service with assumptions := service.assumptions.set token none }, slot.isSome)

def activeAssumptions (service : SolverService) : List Literal :=
  service.assumptions.filterMap id

def hardClauses (service : SolverService) : List Clause :=
  (if service.solveInstance.objective = .maxSat then [] else service.solveInstance.clauses)
  ++ service.activeAssumptions.map Clause.unit
  ++ (service.learnedClauses.filter
      (·.assumptionScope.all (· ∈ service.activeAssumptions))).map (·.clause)

def recordUnsatLearning (service : SolverService) (hardClauses : List Clause) : SolverService :=
  if service.learnedClauses.isEmpty ∧ hardClauses.isEmpty = false then
    { service with
      learnedClauses := service.learnedClauses ++ [⟨⟨[]⟩, service.activeAssumptions⟩] }
  else service

def recordCpuAssignmentEnumerations (service : SolverService) (count : Nat) : SolverService :=
  { service with
    trace := { service.trace with
      cpuAssignmentEnumerations :=
        saturatingAdd service.trace.cpuAssignmentEnumerations count } }

def recordCpuMaxsatEnumerations (service : SolverService) (count : Nat) : SolverService :=
  { service with
    trace := { service.trace with
      cpuMaxsatEnumerations := saturatingAdd service.trace.cpuMaxsatEnumerations count } }

/-- The number of masks, as far as a 64-bit word holds it. -/
def maskCount (service : SolverService) : Nat :=
  if service.solveInstance.numVars < 64 then 1 <<< service.solveInstance.numVars else wordMax

def searchMax (service : SolverService) (limit : Option Nat) : Nat :=
  limit.elim service.maskCount (min service.maskCount)

def timedOut (service : SolverService) (limit : Option Nat) : Bool :=
  limit.isSome && service.searchMax limit < service.maskCount

def solveMaxsat (service : SolverService) (limit : Option Nat)
    : Option (SolverService × SolverServiceResult) := do
  let searchMax := service.searchMax limit
  let best ← bestSatisfying service.solveInstance service.hardClauses searchMax 0 none
  let recorded := service.recordCpuMaxsatEnumerations searchMax
  if service.timedOut limit then some (recorded, ⟨.timeout, none⟩)
  else
    match best with
    | some (score, assignment) =>
        some (recorded, ⟨.optimal (min score wordMax), some assignment⟩)
    | none => some (recorded, ⟨.unsat, none⟩)

def solveAssignments (service : SolverService) (limit : Option Nat)
    : Option (SolverService × SolverServiceResult) :=
  if service.solveInstance.objective = .maxSat then service.solveMaxsat limit
  else do
    let searchMax := service.searchMax limit
    let found ← firstSatisfying service.solveInstance.numVars service.hardClauses searchMax 0
    match found with
    | some (mask, assignment) =>
        some (service.recordCpuAssignmentEnumerations (saturatingAdd mask 1),
          ⟨.sat, some assignment⟩)
    | none =>
        let recorded := service.recordCpuAssignmentEnumerations searchMax
        if service.timedOut limit then some (recorded, ⟨.timeout, none⟩)
        else some (recorded.recordUnsatLearning service.hardClauses, ⟨.unsat, none⟩)

def solveWithBudget (service : SolverService)
    : SolverServiceBudget → Option (SolverService × SolverServiceResult)
  | .noSearch => some (service, ⟨.unknown, none⟩)
  | .assignmentLimit 0 => some (service, ⟨.timeout, none⟩)
  | .assignmentLimit limit => service.solveAssignments (some limit)
  | .exhaustive => service.solveAssignments none

/-- What the target becomes. -/
def transferLearnedClausesTo (source target : SolverService) : SolverService :=
  { target with
    learnedClauses := target.learnedClauses ++ source.learnedClauses
    trace := { target.trace with
      learnedClauseTransfers :=
        target.trace.learnedClauseTransfers + source.learnedClauses.length } }

end SolverService

end Xlog.Solve.Service
