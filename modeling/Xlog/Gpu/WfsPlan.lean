import Mathlib.Data.Finset.Card
import Mathlib.Data.List.Sort
import Mathlib.Data.String.Basic
import Xlog.Foundation.Assoc
import Xlog.Logic.ArithmeticValue
import Xlog.Logic.Desugar

/-! The relational well-founded plan and its alternating loop. In its programs every negated literal is
dropped, or it reads a relation that is frozen for the pass. Maps are kept in the order of insertion; the
compiler and the execution of its plans are parameters, and relations are finite sets of rows.
-/

namespace Xlog.Gpu

open Xlog.Core Xlog.Foundation Xlog.Logic

/-- The inferred columns of the predicates. -/
abbrev Schemas := String → Option Schema

-- Predicates and names

def negatedPredicate : BodyLiteral → Option String
  | .negated atom => some atom.predicate
  | _ => none

def wfsNegatedPredicates (program : Program) : List String :=
  let bodies := program.rules.map Rule.body ++ program.constraints.map Constraint.body
  (bodies.flatten.filterMap negatedPredicate).dedup.insertionSort (· ≤ ·)

/-- The heads of the rules that are no facts. -/
def wfsIntensionalPredicates (program : Program) : List String :=
  (program.properRules.map (·.head.predicate)).dedup.insertionSort (· ≤ ·)

def plainName (start pred : String) : String := start ++ "_" ++ pred

def suffixedName (start pred : String) (suffix : Nat) : String :=
  start ++ "_" ++ suffix.repr ++ "_" ++ pred

/-- The first free name. The source counts the suffix up without a bound: one of the first
`reserved.length + 1` names is free.
-/
def freshName (reserved : List String) (start pred : String) : String :=
  if plainName start pred ∈ reserved then
    (((List.range (reserved.length + 1)).map (suffixedName start pred)).find?
      (· ∉ reserved)).getD (plainName start pred)
  else plainName start pred

/-- The names already given, each reserved for the next ones. -/
def addFixedName (start : String) (state : List String × List (String × String))
    (pred : String) : List String × List (String × String) :=
  let candidate := freshName state.1 start pred
  (candidate :: state.1, state.2 ++ [(pred, candidate)])

def wfsFixedNames (program : Program) (predicates : List String) (start : String)
    : List (String × String) :=
  (predicates.foldl (addFixedName start) (program.predicates.map PredDecl.name, [])).2

-- Transforms

/-- What becomes of the negated literals. -/
inductive WfsNegationTransform where
  | drop
  | rename (names : List (String × String)) (sourceSchemas : Schemas)

/-- The literal over the frozen relation; a nullary one reads the unit marker. -/
def fixedAtom (name : String) (atom : Atom) : Atom :=
  ⟨name, if atom.terms.isEmpty then [.integer 1] else atom.terms⟩

def transformWfsLiteral (negation : WfsNegationTransform) (literal : BodyLiteral)
    : Result (Option BodyLiteral) :=
  match literal, negation with
  | .negated _, .drop => .ok none
  | .negated atom, .rename names _ =>
      match names.lookup atom.predicate with
      | some name => .ok (some (.negated (fixedAtom name atom)))
      | none =>
          .error (.execution ("missing WFS fixed relation name for " ++ atom.predicate))
  | literal, _ => .ok (some literal)

def transformWfsBody (body : List BodyLiteral) (negation : WfsNegationTransform)
    : Result (List BodyLiteral) := do
  let transformed ← body.mapM (transformWfsLiteral negation)
  .ok (transformed.filterMap id)

/-- `1 = 1`. -/
def unitLiteral : BodyLiteral := .comparison ⟨.integer 1, .eq, .integer 1⟩

/-- A body emptied by the transform keeps a unit: an empty one would be a fact. -/
def wfsTransformRule (negation : WfsNegationTransform) (rule : Rule) : Result Rule := do
  let body ← transformWfsBody rule.body negation
  .ok { rule with body := if !rule.isFact && body.isEmpty then [unitLiteral] else body }

def wfsTransformConstraint (negation : WfsNegationTransform) (constraint : Constraint)
    : Result Constraint := do
  let body ← transformWfsBody constraint.body negation
  .ok { constraint with body }

/-- The declaration of a frozen relation: the columns of its source, or the unit marker. -/
def fixedDecl (program : Program) (source fixed : String) (schema : Schema) : PredDecl :=
  let isPrivate :=
    ((program.predicates.find? (·.name = source)).map PredDecl.isPrivate).getD false
  let columns : List PredColumn :=
    if schema.arity = 0 then [⟨some "present", .scalar .u32⟩]
    else schema.columns.map fun column => ⟨some column.1, .scalar column.2⟩
  ⟨fixed, columns.map PredColumn.typ, columns, isPrivate⟩

def addWfsFixedPredicates (program : Program) (names : List (String × String))
    (sourceSchemas : Schemas) : Result Program :=
  let existing := program.predicates.map PredDecl.name
  names.foldlM (fun program entry =>
    if entry.2 ∈ existing then
      .error (.unsupportedEpistemicConstruct "GPU WFS fixed relation name"
        ("internal fixed relation " ++ entry.2 ++ " collides with a declared predicate"))
    else
      match sourceSchemas entry.1 with
      | none =>
          .error (.unsupportedEpistemicConstruct "GPU WFS fixed relation schema"
            ("ordinary schema inference produced no schema for negated predicate " ++ entry.1))
      | some schema =>
          let decl := fixedDecl program entry.1 entry.2 schema
          .ok { program with predicates := program.predicates ++ [decl] })
    program

def wfsTransformProgram (program : Program) (negation : WfsNegationTransform)
    : Result Program := do
  let rules ← program.rules.mapM (wfsTransformRule negation)
  let constraints ← program.constraints.mapM (wfsTransformConstraint negation)
  let out := { program with rules, constraints }
  match negation with
  | .drop => .ok out
  | .rename names sourceSchemas => addWfsFixedPredicates out names sourceSchemas

/-- The program with every atom positive, from which the columns are inferred. -/
def inferenceProgram (program : Program) : Program :=
  let positive : BodyLiteral → BodyLiteral
    | .negated atom => .positive atom
    | literal => literal
  { program with
    rules := program.rules.map fun rule => { rule with body := rule.body.map positive } }

-- Stores

structure Buffer (V : Type) where
  schema : Schema
  rows : Finset (List V)
  width : ∀ row ∈ rows, row.length = schema.arity

abbrev RelationStore (V : Type) := String → Option (Buffer V)

section

variable {V : Type}

def Buffer.empty (schema : Schema) : Buffer V :=
  ⟨schema, ∅, fun _ h => absurd h (Finset.notMem_empty _)⟩

/-- The unit tuple as a row of one column. -/
def Buffer.unit (schema : Schema) (marker : V) (unary : schema.arity = 1) : Buffer V :=
  ⟨schema, {[marker]}, fun row h => by rw [Finset.mem_singleton.mp h, unary]; rfl⟩

def RelationStore.put (store : RelationStore V) (name : String) (buffer : Buffer V)
    : RelationStore V :=
  Function.update store name (some buffer)

/-- `str::starts_with`. -/
def startsWith (name start : String) : Bool := start.toList.isPrefixOf name.toList

-- Plans

/-- A compiled program with the columns of its predicates. -/
structure GpuOrdinaryPass (Plan : Type) where
  plan : Plan
  schemas : Schemas

structure EpistemicWfsGpuPlan (Plan : Type) where
  overapprox : GpuOrdinaryPass Plan
  lower : GpuOrdinaryPass Plan
  upper : GpuOrdinaryPass Plan
  intensionalPredicates : List String
  upperFixedNames : List (String × String)
  lowerFixedNames : List (String × String)
  maxIterations : Nat

variable {Plan : Type}

section

variable (compile : Program → Result (GpuOrdinaryPass Plan))

def inferWfsSourceSchemas (program : Program) : Result Schemas := do
  .ok (← compile (inferenceProgram program)).schemas

/-- Constraints are evaluated in the lower pass alone. -/
def compileEpistemicWfsGpuPlan (program : Program) : Result (EpistemicWfsGpuPlan Plan) := do
  let negated := wfsNegatedPredicates program
  let upperFixedNames := wfsFixedNames program negated "__wfs_upper"
  let lowerFixedNames := wfsFixedNames program negated "__wfs_lower"
  let sourceSchemas ← inferWfsSourceSchemas compile program
  let overapproxProgram ← wfsTransformProgram program .drop
  let lowerProgram ← wfsTransformProgram program (.rename upperFixedNames sourceSchemas)
  let upperProgram ← wfsTransformProgram program (.rename lowerFixedNames sourceSchemas)
  .ok {
    overapprox := ← compile { overapproxProgram with constraints := [] }
    lower := ← compile lowerProgram
    upper := ← compile { upperProgram with constraints := [] }
    intensionalPredicates := wfsIntensionalPredicates program
    upperFixedNames
    lowerFixedNames
    maxIterations := max (program.directives.maxRecursionDepth.getD 1000) 1
  }

end

-- Passes

/-- What the loop takes from its surroundings: the executor, the unit marker and the columns
of the whole program.
-/
structure GpuContext (V Plan : Type) where
  executePlan : Plan → RelationStore V → Result (RelationStore V)
  marker : V
  programSchemas : Schemas

variable (context : GpuContext V Plan)

def gpuCloneOrEmpty (schemas : Schemas) (sourceName targetName : String)
    (store : RelationStore V) : Result (Buffer V) :=
  match (schemas targetName).or (context.programSchemas targetName) with
  | none => .error (.execution ("missing iterative GPU relation schema for " ++ targetName))
  | some targetSchema =>
      match store sourceName with
      | none => .ok (.empty targetSchema)
      | some buffer =>
          if h : buffer.schema.arity = 0 ∧ targetSchema.arity = 1 then
            if buffer.rows.card = 0 then .ok (.empty targetSchema)
            else .ok (.unit targetSchema context.marker h.2)
          else .ok buffer

/-- The relations a pass starts from: its own ones, those of the base store with their rows.
Query and constraint relations are outputs of the pass.
-/
def seededStore (pass : GpuOrdinaryPass Plan) (base : RelationStore V) : RelationStore V :=
  fun name =>
    (pass.schemas name).map fun schema =>
      if startsWith name "__xlog_query_" || startsWith name "__xlog_constraint_" then
        .empty schema
      else (base name).getD (.empty schema)

/-- Each frozen relation is filled from a relation of a store. -/
def addFixedRelations (pass : GpuOrdinaryPass Plan)
    (fixedRelations : List (String × String × RelationStore V)) (store : RelationStore V)
    : Result (RelationStore V) :=
  fixedRelations.foldlM (fun store entry => do
    let buffer ← gpuCloneOrEmpty context pass.schemas entry.1 entry.2.1 entry.2.2
    .ok (store.put entry.2.1 buffer)) store

def runGpuOrdinaryPass (pass : GpuOrdinaryPass Plan) (base : RelationStore V)
    (fixedRelations : List (String × String × RelationStore V)) : Result (RelationStore V) := do
  let store ← addFixedRelations context pass fixedRelations (seededStore pass base)
  context.executePlan pass.plan store

end

-- The alternating loop

section

variable {V Plan : Type} [DecidableEq V] (context : GpuContext V Plan)

def buffersGpuSetEquivalent (left right : Buffer V) : Bool :=
  left.schema = right.schema && left.rows.card = right.rows.card
    && (left.rows \ right.rows).card = 0 && (right.rows \ left.rows).card = 0

def gpuStoresEquivalent (schemas : Schemas) (left right : RelationStore V)
    : List String → Result Bool
  | [] => .ok true
  | pred :: predicates => do
      let leftBuf ← gpuCloneOrEmpty context schemas pred pred left
      let rightBuf ← gpuCloneOrEmpty context schemas pred pred right
      if buffersGpuSetEquivalent leftBuf rightBuf then
        gpuStoresEquivalent schemas left right predicates
      else .ok false

structure WfsStores (V : Type) where
  lower : RelationStore V
  upper : RelationStore V

def withStore (names : List (String × String)) (store : RelationStore V)
    : List (String × String × RelationStore V) :=
  names.map fun entry => (entry.1, entry.2, store)

variable (wfs : EpistemicWfsGpuPlan Plan) (base : RelationStore V)

/-- One lower pass against the upper store and one upper pass against the new lower store. -/
def wfsRound (stores : WfsStores V) : Result (WfsStores V) := do
  let lower ← runGpuOrdinaryPass context wfs.lower base
    (withStore wfs.upperFixedNames stores.upper)
  let upper ← runGpuOrdinaryPass context wfs.upper base (withStore wfs.lowerFixedNames lower)
  .ok ⟨lower, upper⟩

def wfsStoresEquivalent (left right : RelationStore V) : Result Bool :=
  gpuStoresEquivalent context wfs.lower.schemas left right wfs.intensionalPredicates

def wfsLoop : Nat → WfsStores V → Result (WfsStores V)
  | 0, _ =>
      .error (.execution ("GPU-backed WFS did not converge within " ++ wfs.maxIterations.repr
        ++ " alternating-fixpoint iterations; raise #pragma max_recursion_depth only when the "
        ++ "finite relation domain requires it"))
  | iterations + 1, stores => do
      let next ← wfsRound context wfs base stores
      let lowerConverged ← wfsStoresEquivalent context wfs stores.lower next.lower
      let upperConverged ← wfsStoresEquivalent context wfs stores.upper next.upper
      if lowerConverged && upperConverged then .ok next else wfsLoop iterations next

/-- The stores at convergence. -/
def wfsFixpointStores : Result (WfsStores V) := do
  let upper ← runGpuOrdinaryPass context wfs.overapprox base []
  wfsLoop context wfs base wfs.maxIterations ⟨base, upper⟩

def runWfsGpuFixpoint : Result (RelationStore V) := do
  .ok (← wfsFixpointStores context wfs base).lower

end

end Xlog.Gpu
