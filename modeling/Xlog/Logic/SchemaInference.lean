import Xlog.Logic.Fixpoint

/-! Type inference over the predicates of a recursive component, the typed gate in front of the component's
evaluator, and the planner that consults both. Maps are functions; rule groups are in key order.
-/

namespace Xlog.Logic

-- Inference

/-- Two rules give a head column different types. -/
structure ColumnConflict where
  predicate : String
  column : Nat
  firstRuleIndex : Nat
  firstType : ScalarType
  secondRuleIndex : Nat
  secondType : ScalarType
  deriving DecidableEq, Repr

/-- Why inference gives no schemas; it panics on a group without a schema. -/
inductive InferenceError where
  | conflictingPredicateColumnType (conflict : ColumnConflict)
  | panicked
  deriving DecidableEq, Repr

/-- The columns of each predicate, with the types known so far. -/
abbrev InferredSchemas := String → Option (List (Option ScalarType))

structure InferenceState where
  schemas : InferredSchemas
  /-- The rule that first typed a column. -/
  origins : String → Nat → Option Nat
  changed : Bool

/-- The first type known for a variable among the arguments of an atom. -/
def Atom.variableType (atom : Atom) (wanted : String) (negated : Bool)
    (columnType : Atom → Nat → Bool → Option ScalarType) : Option ScalarType :=
  atom.terms.zipIdx.findSome? fun arg =>
    match arg.1 with
    | .var name => if name = wanted then columnType atom arg.2 negated else none
    | _ => none

/-- The first type known for a variable among the ordinary atoms of the body, in source order. -/
def Rule.inferredHeadVariableType (rule : Rule) (wanted : String)
    (columnType : Atom → Nat → Bool → Option ScalarType) : Option ScalarType :=
  rule.body.findSome? fun
    | .positive atom => atom.variableType wanted false columnType
    | .negated atom => atom.variableType wanted true columnType
    | .epistemic _ | .comparison _ | .isExpr _ | .univ _ => none

/-- The type of a column, from the base relations before the inferred schemas. -/
def columnTypeOf (base : RefRelationStore) (schemas : InferredSchemas) (atom : Atom)
    (index : Nat) (negated : Bool) : Option ScalarType :=
  if negated then none
  else
    ((base atom.predicate).bind fun relation => relation.schema[index]?).or
      ((schemas atom.predicate).bind fun schema => schema[index]?.join)

/-- One column of a rule's head. Columns past the schema are skipped. -/
def inferColumn (base : RefRelationStore) (predicate : String) (rule : Rule) (ruleIndex : Nat)
    (state : InferenceState) (column : Term × Nat) : Except InferenceError InferenceState :=
  match column.1 with
  | .var name =>
      match rule.inferredHeadVariableType name (columnTypeOf base state.schemas) with
      | none => .ok state
      | some derived =>
          match state.schemas predicate with
          | none => .error .panicked
          | some schema =>
              match schema[column.2]? with
              | none => .ok state
              | some none =>
                  .ok
                    { schemas :=
                        Function.update state.schemas predicate
                          (some (schema.set column.2 (some derived)))
                      origins :=
                        Function.update state.origins predicate
                          (Function.update (state.origins predicate) column.2 (some ruleIndex))
                      changed := true }
              | some (some existing) =>
                  if existing = derived then .ok state
                  else
                    .error (.conflictingPredicateColumnType
                      ⟨predicate, column.2, (state.origins predicate column.2).getD 0, existing,
                        ruleIndex, derived⟩)
  | _ => .ok state

def inferRule (base : RefRelationStore) (predicate : String) (state : InferenceState)
    (entry : Rule × Nat) : Except InferenceError InferenceState :=
  entry.1.head.terms.zipIdx.foldlM (inferColumn base predicate entry.1 entry.2) state

def inferGroup (base : RefRelationStore) (state : InferenceState) (group : String × List Rule)
    : Except InferenceError InferenceState :=
  group.2.zipIdx.foldlM (inferRule base group.1) state

/-- The rounds left, up to the first without a change: the schemas and whether there was one. -/
def inferRounds (rules : RuleGroups) (base : RefRelationStore)
    : Nat → InferredSchemas → (String → Nat → Option Nat)
      → Except InferenceError (InferredSchemas × Bool)
  | 0, schemas, _ => .ok (schemas, false)
  | rounds + 1, schemas, origins => do
      let state ← rules.foldlM (inferGroup base) ⟨schemas, origins, false⟩
      if state.changed then inferRounds rules base rounds state.schemas state.origins
      else .ok (state.schemas, true)

/-- A predicate's schema at the start: the head's columns, none of them typed. -/
def insertInitialSchema (schemas : InferredSchemas) (group : String × List Rule)
    : InferredSchemas :=
  Function.update schemas group.1
    (some (List.replicate ((headArity group.2).getD 0) none))

def initialSchemas (rules : RuleGroups) : InferredSchemas :=
  rules.foldl insertInitialSchema fun _ => none

def totalColumns (rules : RuleGroups) : Nat :=
  (rules.map fun group => (headArity group.2).getD 0).sum

/-- The schemas after the last round, and whether that round made no change. -/
def inferToFixpoint (rules : RuleGroups) (base : RefRelationStore)
    : Except InferenceError (InferredSchemas × Bool) :=
  inferRounds rules base (totalColumns rules + 1) (initialSchemas rules) fun _ _ => none

def inferSccPredicateSchemas (rules : RuleGroups) (base : RefRelationStore)
    : Except InferenceError InferredSchemas := do
  let (schemas, _) ← inferToFixpoint rules base
  return schemas

-- The typed gate

/-- Two body atoms give a variable different types. -/
structure VariableConflict where
  var : String
  firstPredicate : String
  firstPosition : Nat
  firstType : ScalarType
  secondPredicate : String
  secondPosition : Nat
  secondType : ScalarType
  deriving DecidableEq, Repr

structure FirstSite where
  predicate : String
  position : Nat
  ty : ScalarType
  deriving DecidableEq, Repr

/-- The types of an atom's positions; a predicate that is not known gives none. -/
def positionTypes (base : RefRelationStore) (inferred : InferredSchemas) (predicate : String)
    (position : Nat) : Option ScalarType :=
  match base predicate with
  | some relation => relation.schema[position]?
  | none => (inferred predicate).bind fun schema => schema[position]?.join

def recordSite (base : RefRelationStore) (inferred : InferredSchemas) (predicate : String)
    (sites : String → Option FirstSite) (arg : Term × Nat)
    : Except VariableConflict (String → Option FirstSite) :=
  match arg.1 with
  | .var name =>
      match positionTypes base inferred predicate arg.2 with
      | none => .ok sites
      | some ty =>
          match sites name with
          | none => .ok (Function.update sites name (some ⟨predicate, arg.2, ty⟩))
          | some prior =>
              if prior.ty = ty then .ok sites
              else
                .error ⟨name, prior.predicate, prior.position, prior.ty, predicate, arg.2, ty⟩
  | _ => .ok sites

def deriveVertexTypesWithInference (rule : Rule) (base : RefRelationStore)
    (inferred : InferredSchemas) : Except VariableConflict (String → Option ScalarType) := do
  let sites ←
    rule.positiveAtoms.foldlM (fun sites atom =>
      atom.terms.zipIdx.foldlM (recordSite base inferred atom.predicate) sites) fun _ => none
  return fun name => (sites name).map FirstSite.ty

/-- A structural boundary, or a join key of a type that the executor does not support. -/
inductive TypedBoundary where
  | structural (boundary : Boundary)
  | unsupportedKeyType (var : String) (ty : ScalarType)
  deriving DecidableEq

inductive TypedEligibility where
  | eligible
  | ineligible (boundaries : List TypedBoundary)
  deriving DecidableEq

def Eligibility.boundaries : Eligibility → List Boundary
  | .eligible => []
  | .ineligible boundaries => boundaries

def wcojSupportedKeyTypes : List ScalarType := [.u32, .u64, .symbol]

/-- The vertices in two or more edges. -/
def joinKeyVertexIds (hg : HypergraphRule) : List VertexId :=
  (List.range hg.vertexCount).filter fun vid =>
    2 ≤ hg.hyperedges.countP fun edge => vid ∈ edge.vertices

def unsupportedKey (hg : HypergraphRule) (vertexTypes : String → Option ScalarType)
    (vid : VertexId) : Option TypedBoundary := do
  let vertex ← hg.vertices[vid]?
  let ty ← vertexTypes vertex.name
  if ty ∈ wcojSupportedKeyTypes then none else some (.unsupportedKeyType vertex.name ty)

def analyzeTyped (hg : HypergraphRule) (vertexTypes : String → Option ScalarType)
    (context : ExecutorContext) : TypedEligibility :=
  let boundaries :=
    (analyze hg context).boundaries.map TypedBoundary.structural
    ++ (joinKeyVertexIds hg).filterMap (unsupportedKey hg vertexTypes)
  if boundaries.isEmpty then .eligible else .ineligible boundaries

/-- The errors of inference and of the gate. -/
inductive TypedGateError where
  | inferenceConflict (conflict : ColumnConflict)
  | conflictingVariableType (conflict : VariableConflict)
  | ineligible (boundaries : List TypedBoundary)
  deriving DecidableEq

def typedGateWithInference (rule : Rule) (base : RefRelationStore) (inferred : InferredSchemas)
    : Except TypedGateError Unit :=
  match deriveVertexTypesWithInference rule base inferred with
  | .error conflict => .error (.conflictingVariableType conflict)
  | .ok vertexTypes =>
      match analyzeTyped (HypergraphRule.fromRule rule) vertexTypes .hashFallback with
      | .eligible => .ok ()
      | .ineligible boundaries => .error (.ineligible boundaries)

-- The evaluator

/-- An error before the evaluation, one of the evaluation itself, or a panic. -/
inductive TypedSccError where
  | gate (predicate : String) (ruleIndex : Nat) (source : TypedGateError)
  | structural (error : SccFixpointError)
  | panicked

def misgrouped (rules : RuleGroups) : Bool :=
  rules.any fun group => group.2.any fun rule => rule.head.predicate ≠ group.1

def gateRule (base : RefRelationStore) (inferred : InferredSchemas) (predicate : String)
    (entry : Rule × Nat) : Except TypedSccError Unit :=
  match typedGateWithInference entry.1 base inferred with
  | .error source => .error (.gate predicate entry.2 source)
  | .ok () => .ok ()

def gateRules (base : RefRelationStore) (inferred : InferredSchemas) (rules : RuleGroups)
    : Except TypedSccError Unit :=
  rules.forM fun group => group.2.zipIdx.forM (gateRule base inferred group.1)

def evaluateStructurally (rules : RuleGroups) (base : RefRelationStore) (order : VariableOrder)
    (config : FixpointConfig) : Except TypedSccError RefRelationStore :=
  match evaluateSccFixpoint rules base order config with
  | .error error => .error (.structural error)
  | .ok relations => .ok relations

def evaluateSccFixpointTyped (rules : RuleGroups) (base : RefRelationStore)
    (order : VariableOrder) (config : FixpointConfig)
    : Except TypedSccError RefRelationStore :=
  if misgrouped rules then evaluateStructurally rules base order config
  else
    match inferSccPredicateSchemas rules base with
    | .error (.conflictingPredicateColumnType conflict) =>
        .error (.gate conflict.predicate conflict.secondRuleIndex (.inferenceConflict conflict))
    | .error .panicked => .error .panicked
    | .ok inferred => do
        gateRules base inferred rules
        evaluateStructurally rules base order config

-- The planner

inductive RulePlan where
  | multiwayCandidate (headPredicate : String) (hypergraph : HypergraphRule)
      (variableOrder : List VertexId)
  | binaryFallback (headPredicate : String) (boundaries : List TypedBoundary)

def RulePlan.isMultiway : RulePlan → Bool
  | .multiwayCandidate .. => true
  | .binaryFallback .. => false

inductive PlanError where
  | conflictingVariableType (conflict : VariableConflict)
  | inferenceConflict (conflict : ColumnConflict)
  | ruleHeadPredicateMismatch (groupKey : String) (ruleIndex : Nat) (observed : String)
  | panicked

def checkRuleHead (groupKey : String) (entry : Rule × Nat) : Except PlanError Unit :=
  if entry.1.head.predicate ≠ groupKey then
    .error (.ruleHeadPredicateMismatch groupKey entry.2 entry.1.head.predicate)
  else .ok ()

def checkRuleHeads (rules : RuleGroups) : Except PlanError Unit :=
  rules.forM fun group => group.2.zipIdx.forM (checkRuleHead group.1)

def planSccRule (base : RefRelationStore) (inferred : InferredSchemas) (rule : Rule)
    : Except PlanError RulePlan :=
  match deriveVertexTypesWithInference rule base inferred with
  | .error conflict => .error (.conflictingVariableType conflict)
  | .ok vertexTypes =>
      let hypergraph := HypergraphRule.fromRule rule
      match analyzeTyped hypergraph vertexTypes .hashFallback with
      | .eligible =>
          .ok (.multiwayCandidate rule.head.predicate hypergraph
            (appearanceOrder.order hypergraph))
      | .ineligible boundaries => .ok (.binaryFallback rule.head.predicate boundaries)

def planSccGroup (base : RefRelationStore) (inferred : InferredSchemas)
    (group : String × List Rule) : Except PlanError (String × List RulePlan) := do
  let plans ← group.2.mapM (planSccRule base inferred)
  return (group.1, plans)

def planSccRules (rules : RuleGroups) (base : RefRelationStore)
    : Except PlanError (List (String × List RulePlan)) := do
  checkRuleHeads rules
  match inferSccPredicateSchemas rules base with
  | .error (.conflictingPredicateColumnType conflict) => .error (.inferenceConflict conflict)
  | .error .panicked => .error .panicked
  | .ok inferred => rules.mapM (planSccGroup base inferred)

end Xlog.Logic
