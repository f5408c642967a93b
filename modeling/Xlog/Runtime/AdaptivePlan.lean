import Xlog.Foundation.Loop
import Xlog.Runtime.StratumExecution

/-! A plan run beside a candidate for it. The candidate runs on the store that the plan has filled, and is
kept if it leaves the plan's heads as they were; else the store goes back to what the plan left.
-/

namespace Xlog.Runtime

open Xlog.Core Xlog.Foundation Xlog.Ir Xlog.Logic

inductive AdaptiveReoptimizationAction where
  | disabled | skipped | attemptCandidate | adopted | rolledBack
  deriving DecidableEq, Repr

inductive PlanRun where
  | baseline | candidate
  deriving DecidableEq, Repr

/-- The places where the device is asked for something. Each is reached at most once. -/
inductive DeviceCall where
  | synchronize (run : PlanRun)
  | planResult (run : PlanRun)
  | snapshot (name : String)
  | leftRows (head : String)
  | rightRows (head : String)
  | leftMinusRight (head : String)
  | leftMinusRightRows (head : String)
  | rightMinusLeft (head : String)
  | rightMinusLeftRows (head : String)
  | output
  deriving DecidableEq, Repr

/-- The executor's surroundings in one adaptive run. -/
structure AdaptiveEnvironment (V : Type) where
  routes : RuleRoutes V
  executeRecursiveScc : ExecutorState V → List CompiledRule → ExecutorState V × Result Unit
  /-- The names of the stored relations, in the order of the hash map. -/
  storedNames : ExecutorState V → List String
  diffFullRow : Buffer V → Buffer V → Buffer V
  /-- `adaptive_reoptimization_enabled`, from the configuration and the process environment. -/
  enabled : Result Bool
  /-- Whether the plan's joins were observed, and whether one was off by the set ratio. -/
  observed : Bool
  misplanned : Bool
  faults : DeviceCall → Option XlogError

/-- What is left of a run: the store, the action that was taken and the answer. -/
structure AdaptiveOutcome (V : Type) where
  state : ExecutorState V
  action : Option AdaptiveReoptimizationAction
  answer : Result (Buffer V)

-- Heads

def addHeads (names : List String) (rules : List CompiledRule) : List String :=
  rules.foldl (fun names rule => if rule.head ∈ names then names else names ++ [rule.head]) names

def planHeadNames (plan : ExecutionPlan) : List String :=
  let ofStrata := plan.strata.foldl
    (fun names stratum => stratum.sccs.foldl
      (fun names sccId => addHeads names ((plan.rulesByScc[sccId]?).getD [])) names)
    []
  if ofStrata.isEmpty then plan.rulesByScc.foldl addHeads [] else ofStrata

section

variable {V : Type} (env : AdaptiveEnvironment V)

def AdaptiveEnvironment.call (site : DeviceCall) : Result Unit :=
  match env.faults site with
  | some error => .error error
  | none => .ok ()

-- Steps

def runPlan (plan : ExecutionPlan) (state : ExecutorState V) : ExecutorState V × Result Unit :=
  executeStrata env.routes env.executeRecursiveScc plan state

/-- The empty result of a plan is not kept. -/
def executePlan (run : PlanRun) (plan : ExecutionPlan) (state : ExecutorState V)
    : ExecutorState V × Result Unit :=
  match runPlan env plan state with
  | (state, .error error) => (state, .error error)
  | (state, .ok ()) =>
      (state, do
        env.call (.synchronize run)
        env.call (.planResult run))

def adaptiveReoptimizationDecision : Result AdaptiveReoptimizationAction := do
  let enabled ← env.enabled
  if !enabled then .ok .disabled
  else if !env.observed then .ok .skipped
  else .ok (if env.misplanned then .attemptCandidate else .skipped)

/-- The copy of one relation, if it is stored. -/
def copyStored (state : ExecutorState V) (name : String) : Result (List (String × Buffer V)) :=
  match state.store name with
  | some buffer => do
      env.call (.snapshot name)
      .ok [(name, buffer)]
  | none => .ok []

def cloneStoreSnapshot (state : ExecutorState V) : Result (List (String × Buffer V)) := do
  let copies ← (env.storedNames state).mapM (copyStored env state)
  .ok copies.flatten

def restoreStoreSnapshot (state : ExecutorState V) (snapshot : List (String × Buffer V))
    : ExecutorState V :=
  let removed := (env.storedNames state).foldl
    (fun state name => if name ∈ snapshot.map Prod.fst then state else state.storeRemove name) state
  snapshot.foldl (fun state copy => state.storePut copy.1 copy.2) removed

def restoreStatsSnapshot (state : ExecutorState V) (cardinalities : RelId → Option Nat)
    : ExecutorState V :=
  { state with cardinalities }

def cloneFinalPlanOutput (plan : ExecutionPlan) (state : ExecutorState V) : Result (Buffer V) :=
  match (planHeadNames plan).getLast? with
  | some name =>
      match state.store name with
      | none => .error (.execution ("adaptive reoptimization output missing: " ++ name))
      | some output => do
          env.call .output
          .ok output
  | none => do
      env.call .output
      .ok (Buffer.empty ⟨[]⟩)

def buffersGpuSetEquivalent (head : String) (left right : Buffer V) : Result Bool :=
  if left.schema ≠ right.schema then .ok false
  else do
    env.call (.leftRows head)
    env.call (.rightRows head)
    if left.rows.length ≠ right.rows.length then .ok false
    else do
      env.call (.leftMinusRight head)
      env.call (.leftMinusRightRows head)
      if (env.diffFullRow left right).rows.length ≠ 0 then .ok false
      else do
        env.call (.rightMinusLeft head)
        env.call (.rightMinusLeftRows head)
        .ok ((env.diffFullRow right left).rows.length = 0)

def planOutputsMatch (baselineSnapshot : String → Option (Buffer V)) (state : ExecutorState V)
    : List String → Result Bool
  | [] => .ok true
  | name :: names =>
      match baselineSnapshot name, state.store name with
      | none, _ => .ok false
      | some _, none => .ok false
      | some baseline, some candidate => do
          let equivalent ← buffersGpuSetEquivalent env name baseline candidate
          if equivalent then planOutputsMatch baselineSnapshot state names else .ok false

-- The adaptive run

/-- The store and the statistics as the baseline left them, and the baseline's answer. -/
def rollBack (baselinePlan : ExecutionPlan) (snapshot : List (String × Buffer V))
    (cardinalities : RelId → Option Nat) (state : ExecutorState V) : AdaptiveOutcome V :=
  let state := restoreStatsSnapshot (restoreStoreSnapshot env state snapshot) cardinalities
  ⟨state, some .rolledBack, cloneFinalPlanOutput env baselinePlan state⟩

def attemptCandidate (baselinePlan candidatePlan : ExecutionPlan) (state : ExecutorState V)
    : AdaptiveOutcome V :=
  match cloneStoreSnapshot env state with
  | .error error => ⟨state, some .attemptCandidate, .error error⟩
  | .ok snapshot =>
      match executePlan env .candidate candidatePlan state with
      | (after, .error _) => rollBack env baselinePlan snapshot state.cardinalities after
      | (after, .ok ()) =>
          let baselineSnapshot := fun name => snapshot.lookup name
          match planOutputsMatch env baselineSnapshot after (planHeadNames baselinePlan) with
          | .error error => ⟨after, some .attemptCandidate, .error error⟩
          | .ok false => rollBack env baselinePlan snapshot state.cardinalities after
          | .ok true => ⟨after, some .adopted, cloneFinalPlanOutput env candidatePlan after⟩

def executePlanWithAdaptiveCandidate (baselinePlan candidatePlan : ExecutionPlan)
    (state : ExecutorState V) : AdaptiveOutcome V :=
  match executePlan env .baseline baselinePlan state with
  | (state, .error error) => ⟨state, none, .error error⟩
  | (state, .ok ()) =>
      match adaptiveReoptimizationDecision env with
      | .error error => ⟨state, none, .error error⟩
      | .ok .disabled => ⟨state, some .disabled, cloneFinalPlanOutput env baselinePlan state⟩
      | .ok .skipped => ⟨state, some .skipped, cloneFinalPlanOutput env baselinePlan state⟩
      | .ok .attemptCandidate => attemptCandidate env baselinePlan candidatePlan state
      | .ok .adopted | .ok .rolledBack =>
          ⟨state, none, .error (.panic ("internal error: entered unreachable code: "
            ++ "decision replay never returns terminal adaptive actions"))⟩

end

end Xlog.Runtime
