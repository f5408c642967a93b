import Xlog.Runtime.Executor

/-! The evaluation of strata whose components are not recursive. The results of successive rules for one
head wait until the head changes, or until a rule reads it, and are then merged into the store at once.
-/

namespace Xlog.Runtime

open Xlog.Core Xlog.Ir

/-- What the evaluation of a rule and the merge of its results ask of the provider. -/
structure RuleRoutes (V : Type) where
  unionManyGpu : List (Buffer V) → Result (Buffer V)
  /-- The rows that a buffer has room for. -/
  rowCap : Buffer V → Nat
  executeNode : ExecutorState V → RirNode → Result (Buffer V)
  dispatchChain : ExecutorState V → RirNode → Result (Option (Buffer V))
  /-- Triangle, 4-cycle and the cliques, in the order they are tried. -/
  dispatchWcoj : List (ExecutorState V → CompiledRule → Result (Option (Buffer V)))
  dispatchFreeJoin : ExecutorState V → RirNode → Result (Option (Buffer V))

section

variable {V : Type} (routes : RuleRoutes V)

def RuleRoutes.isEmpty (buffer : Buffer V) : Bool := routes.rowCap buffer = 0

-- Evaluation of a rule

def firstDispatch (state : ExecutorState V) (rule : CompiledRule)
    : List (ExecutorState V → CompiledRule → Result (Option (Buffer V)))
      → Result (Option (Buffer V))
  | [] => .ok none
  | dispatcher :: dispatchers => do
      match ← dispatcher state rule with
      | some buffer => .ok (some buffer)
      | none => firstDispatch state rule dispatchers

def bodyToExecute : RirNode → RirNode
  | .multiWayJoin _ _ _ fallback _ _ | .chainJoin _ _ _ _ _ fallback => fallback
  | other => other

/-- A rule's result, and whether its rows are already sorted and distinct. -/
def dispatchRule (state : ExecutorState V) (rule : CompiledRule) : Result (Buffer V × Bool) := do
  match ← routes.dispatchChain state rule.body with
  | some buffer => .ok (buffer, false)
  | none =>
      match ← firstDispatch state rule routes.dispatchWcoj with
      | some buffer => .ok (buffer, true)
      | none =>
          match ← routes.dispatchFreeJoin state rule.body with
          | some buffer => .ok (buffer, false)
          | none => do
              let buffer ← routes.executeNode state (bodyToExecute rule.body)
              .ok (buffer, false)

/-- The body is nothing but a scan of the rule's own head. -/
def carriesHead (names : RelId → Option String) (rule : CompiledRule) : Bool :=
  match rule.body with
  | .scan rel => names rel = some rule.head
  | _ => false

/-- Whether the rule has to see what the rules before it add to its head. -/
def bodyReadsOwnHead (names : RelId → Option String) (rule : CompiledRule) : Bool :=
  !carriesHead names rule && (collectScanRels rule.body).any fun rel => names rel = some rule.head

-- Installation of a batch

/-- The stored relation, if it has room for rows. -/
def existingRows (state : ExecutorState V) (head : String) : Option (Buffer V) :=
  (state.store head).filter fun buffer => !routes.isEmpty buffer

def installPlainHeadBatch (state : ExecutorState V) (head : String) (results : List (Buffer V))
    : Result (ExecutorState V) :=
  let nonEmpty := results.filter fun buffer => !routes.isEmpty buffer
  match existingRows routes state head with
  | some existing =>
      if nonEmpty.isEmpty then .ok state
      else do
        let merged ← routes.unionManyGpu (existing :: nonEmpty)
        .ok (state.storePut head merged)
  | none =>
      if nonEmpty.isEmpty then
        match state.store head with
        | some _ => .ok state
        | none =>
            match results with
            | first :: _ => .ok (state.storePut head first)
            | [] => .error (.execution ("No results collected for head " ++ head))
      else do
        let merged ← routes.unionManyGpu nonEmpty
        .ok (state.storePut head merged)

def installDispatchedHeadBatch (state : ExecutorState V) (head : String)
    (results : List (Buffer V × Bool)) : Result (ExecutorState V) :=
  match existingRows routes state head, results with
  | some existing, results => do
      let merged ← routes.unionManyGpu (existing :: results.map Prod.fst)
      .ok (state.storePut head merged)
  | none, [(result, alreadyDeduped)] =>
      if alreadyDeduped || routes.isEmpty result then .ok (state.storePut head result)
      else do
        let merged ← routes.unionManyGpu [result]
        .ok (state.storePut head merged)
  | none, results => do
      let merged ← routes.unionManyGpu (results.map Prod.fst)
      .ok (state.storePut head merged)

-- Components

/-- How the rules of a component are evaluated, and how a head's results are merged. -/
structure Arm (V : Type) where
  evaluate : ExecutorState V → CompiledRule → Result (Buffer V × Bool)
  install : ExecutorState V → String → List (Buffer V × Bool) → Result (ExecutorState V)

def plainArm : Arm V where
  evaluate := fun state rule => do
    let buffer ← routes.executeNode state rule.body
    .ok (buffer, false)
  install := fun state head results => installPlainHeadBatch routes state head (results.map Prod.fst)

def dispatchedArm : Arm V where
  evaluate := dispatchRule routes
  install := installDispatchedHeadBatch routes

variable (arm : Arm V)

/-- Merges what waits before the rule is evaluated, unless it adds to the same head and need not see it. -/
def Arm.flushBefore (state : ExecutorState V) (pendingHead : Option String)
    (pending : List (Buffer V × Bool)) (rule : CompiledRule)
    : Result (ExecutorState V × List (Buffer V × Bool)) :=
  match pendingHead with
  | none => .ok (state, pending)
  | some head =>
      if head ≠ rule.head || !pending.isEmpty && bodyReadsOwnHead state.getRelName rule then do
        let state ← arm.install state head pending
        .ok (state, [])
      else .ok (state, pending)

/-- The rules in order, from a state with waiting results. An error leaves the state it happened in. -/
def Arm.executeRules (state : ExecutorState V) (pendingHead : Option String)
    (pending : List (Buffer V × Bool)) : List CompiledRule → ExecutorState V × Result Unit
  | [] =>
      match pendingHead with
      | none => (state, .ok ())
      | some head =>
          match arm.install state head pending with
          | .error error => (state, .error error)
          | .ok state => (state, .ok ())
  | rule :: rules =>
      match arm.flushBefore state pendingHead pending rule with
      | .error error => (state, .error error)
      | .ok (state, pending) =>
          match arm.evaluate state rule with
          | .error error => (state, .error error)
          | .ok result => executeRules state (some rule.head) (pending ++ [result]) rules

def executeNonRecursiveScc (state : ExecutorState V) (rules : List CompiledRule)
    : ExecutorState V × Result Unit :=
  (plainArm routes).executeRules state none [] rules

/-- The arm of `execute_stratum_impl` for a component that is not recursive. -/
def executeNonRecursiveArm (state : ExecutorState V) (rules : List CompiledRule)
    : ExecutorState V × Result Unit :=
  (dispatchedArm routes).executeRules state none [] rules

end

-- Plans

structure Scc where
  id : Nat
  isRecursive : Bool

structure Stratum where
  id : Nat
  sccs : List Nat

structure ExecutionPlan where
  sccs : List Scc
  strata : List Stratum
  rulesByScc : List (List CompiledRule)

section

variable {V : Type} (routes : RuleRoutes V)
variable (executeRecursiveScc : ExecutorState V → List CompiledRule → ExecutorState V × Result Unit)

def executeScc (plan : ExecutionPlan) (state : ExecutorState V) (sccId : Nat)
    : ExecutorState V × Result Unit :=
  match plan.rulesByScc[sccId]? with
  | none => (state, .ok ())
  | some rules =>
      if (plan.sccs[sccId]?.map Scc.isRecursive).getD false then executeRecursiveScc state rules
      else executeNonRecursiveArm routes state rules

/-- One step after the other, up to the first error. -/
def inOrder {α : Type} (step : ExecutorState V → α → ExecutorState V × Result Unit)
    (state : ExecutorState V) : List α → ExecutorState V × Result Unit
  | [] => (state, .ok ())
  | item :: items =>
      match step state item with
      | (state, .ok ()) => inOrder step state items
      | (state, .error error) => (state, .error error)

def executeStratumImpl (plan : ExecutionPlan) (state : ExecutorState V) (stratum : Stratum)
    : ExecutorState V × Result Unit :=
  inOrder (executeScc routes executeRecursiveScc plan) state stratum.sccs

/-- The strata of a plan in order. -/
def executeStrata (plan : ExecutionPlan) (state : ExecutorState V)
    : ExecutorState V × Result Unit :=
  inOrder (executeStratumImpl routes executeRecursiveScc plan) state plan.strata

end

end Xlog.Runtime
