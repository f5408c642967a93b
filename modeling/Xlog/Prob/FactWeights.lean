import Xlog.Foundation.FailingWrites
import Xlog.Foundation.StableSort
import Xlog.Prob.Canonical

/-! The weights of the probabilistic facts of an exact program and their replacement in place. The tables
live on the device, where every write can fail and leave anything behind.
-/

namespace Xlog.Prob

open Xlog.Core Xlog.Foundation

/-- The arithmetic of probabilities `P` and of their logarithms `L`. -/
structure FactWeightOps (P L : Type) where
  /-- Finite and within 0 and 1. -/
  isProbability : P → Bool
  /-- `1.0 - prob` -/
  complement : P → P
  ln : P → L
  zero : L
  negInfinity : L
  display : P → String
  displayError : XlogError → String

/-- What a CNF variable stands for. -/
inductive ProbVarInfo (P : Type) where
  | fact (atom : GroundAtom) (prob : P)
  | choice (choices : List (GroundAtom × P)) (choiceIndex : Nat) (prob : P)
  | other
  deriving DecidableEq, Repr

def ProbVarInfo.isFact {P : Type} : ProbVarInfo P → Bool
  | .fact .. => true
  | _ => false

section

variable {P L : Type} (ops : FactWeightOps P L)

/-- The logarithms of both weights; evidence makes the other value impossible. -/
def factLogWeights (prob : P) (evidence : Option Bool) : L × L :=
  let logTrue := ops.ln prob
  let logFalse := ops.ln (ops.complement prob)
  match evidence with
  | some true => (logTrue, ops.negInfinity)
  | some false => (ops.negInfinity, logFalse)
  | none => (logTrue, logFalse)

-- Compiled programs

/-- A leaf with its CNF variable. -/
structure WeightedLeaf (P : Type) where
  var : Nat
  atom : GroundAtom
  prob : P

/-- A choice with its CNF variable and its conditional probabilities. -/
structure WeightedChoice (P : Type) where
  var : Nat
  choices : List (GroundAtom × P)
  choiceIndex : Nat
  condTrue : P
  condFalse : P

inductive WeightTable where
  | logTrue | logFalse
  deriving DecidableEq, Repr

abbrev WeightCell := WeightTable × Nat

/-- The identity of a materialized circuit. -/
structure ExactCircuitWitness where
  circuitGeneration : Nat
  compilerInvocations : Nat
  materializations : Nat
  diskCacheRestores : Nat
  gpuCacheHits : Nat
  cacheSlot : Nat
  deriving DecidableEq, Repr

/-- What is compiled: the leaves and the choices that have a CNF variable, in the order of their
identifiers, the evidence on variables, and the place of the circuit in the cache.
-/
structure ExactSource (P : Type) where
  leaves : List (WeightedLeaf P)
  choices : List (WeightedChoice P)
  evidence : Nat → Option Bool
  maxVar : Nat
  varCap : Nat
  witness : ExactCircuitWitness

structure GpuExactState (L : Type) where
  weights : WeightCell → L
  varCap : Nat
  witness : ExactCircuitWitness
  invalidReason : Option String

structure ExactDdnnfProgram (P L : Type) where
  gpu : Option (GpuExactState L)
  usesCountLift : Bool
  maxVar : Nat
  probVarEntries : List (Nat × ProbVarInfo P)
  fixedEvidenceByVar : Nat → Option Bool

def WeightedLeaf.entry (leaf : WeightedLeaf P) : Nat × ProbVarInfo P :=
  (leaf.var, .fact leaf.atom leaf.prob)

def WeightedChoice.entry (choice : WeightedChoice P) : Nat × ProbVarInfo P :=
  (choice.var, .choice choice.choices choice.choiceIndex choice.condTrue)

/-- The entries in construction order, the leaves first. -/
def ExactSource.entries (source : ExactSource P) : List (Nat × ProbVarInfo P) :=
  source.leaves.map WeightedLeaf.entry ++ source.choices.map WeightedChoice.entry

def fillLeaf (table : Nat → L × L) (leaves : List (WeightedLeaf P)) : Nat → L × L :=
  leaves.foldl
    (fun table leaf =>
      Function.update table leaf.var (ops.ln leaf.prob, ops.ln (ops.complement leaf.prob)))
    table

def fillChoice (table : Nat → L × L) (choices : List (WeightedChoice P)) : Nat → L × L :=
  choices.foldl
    (fun table choice =>
      Function.update table choice.var (ops.ln choice.condTrue, ops.ln choice.condFalse))
    table

def applyEvidence (evidence : Nat → Option Bool) (table : Nat → L × L) (var : Nat) : L × L :=
  match evidence var with
  | some true => ((table var).1, ops.negInfinity)
  | some false => (ops.negInfinity, (table var).2)
  | none => table var

def buildWeights (source : ExactSource P) : Nat → L × L :=
  applyEvidence ops source.evidence
    (fillChoice ops (fillLeaf ops (fun _ => (ops.zero, ops.zero)) source.leaves) source.choices)

def varStride (varCap : Nat) : Nat := varCap + 1

/-- The tables of the cache with the weights of one circuit in its slot. -/
def storeWeights (slotStart maxVar : Nat) (weights : Nat → L × L) : WeightCell → L
  | (table, index) =>
      if slotStart ≤ index ∧ index ≤ slotStart + maxVar then
        match table with
        | .logTrue => (weights (index - slotStart)).1
        | .logFalse => (weights (index - slotStart)).2
      else ops.zero

def compileCircuit (source : ExactSource P) : ExactDdnnfProgram P L where
  gpu := some {
    weights := storeWeights ops (source.witness.cacheSlot * varStride source.varCap) source.maxVar
      (buildWeights ops source)
    varCap := source.varCap
    witness := source.witness
    invalidReason := none }
  usesCountLift := false
  maxVar := source.maxVar
  probVarEntries := stablePass Prod.fst source.entries
  fixedEvidenceByVar := source.evidence

/-- A program whose queries and evidence ask for no circuit, or for a lifted count. -/
def compileWithoutCircuit (usesCountLift : Bool) : ExactDdnnfProgram P L where
  gpu := none
  usesCountLift := usesCountLift
  maxVar := 0
  probVarEntries := []
  fixedEvidenceByVar := fun _ => none

-- Reading

/-- The dense map, where the last entry of a variable counts. -/
def ExactDdnnfProgram.probVarMap (program : ExactDdnnfProgram P L) : List (ProbVarInfo P) :=
  let capacity := if program.maxVar = 0 then 0 else program.maxVar + 1
  program.probVarEntries.foldl (fun dense entry => dense.set entry.1 entry.2)
    (List.replicate capacity .other)

def GpuExactState.ensureUsable (state : GpuExactState L) : Result Unit :=
  match state.invalidReason with
  | some reason =>
      .error (.execution
        ("Exact GPU circuit state is permanently invalid after a failed device rollback: " ++ reason))
  | none => .ok ()

def ExactDdnnfProgram.ensureUsable (program : ExactDdnnfProgram P L) : Result Unit :=
  match program.gpu with
  | some state => state.ensureUsable
  | none => .ok ()

def ExactDdnnfProgram.gpuState (program : ExactDdnnfProgram P L) : Result (GpuExactState L) :=
  match program.gpu with
  | some state => .ok state
  | none =>
      .error (.execution "Exact inference GPU error: program has no compiled circuit")

def ExactDdnnfProgram.circuitWitness (program : ExactDdnnfProgram P L)
    : Result ExactCircuitWitness := do
  let state ← program.gpuState
  state.ensureUsable
  .ok state.witness

def ExactDdnnfProgram.checkedProbVarMap (program : ExactDdnnfProgram P L)
    : Result (List (ProbVarInfo P)) := do
  program.ensureUsable
  .ok program.probVarMap

-- Updates

/-- A batch: one probability for each of its variables, in the order of the variables. -/
structure FactUpdates (P : Type) where
  entries : List (Nat × P)
  sorted : entries.Pairwise fun left right => left.1 < right.1

structure FactWeightChange (P : Type) where
  entryIndex : Nat
  var : Nat
  oldProb : P
  newProb : P
  evidence : Option Bool

/-- The last position at which the test is true. -/
def rposition {α : Type} (test : α → Bool) : List α → Option Nat
  | [] => none
  | item :: items =>
      match rposition test items with
      | some index => some (index + 1)
      | none => if test item then some 0 else none

def factEntryIndex (entries : List (Nat × ProbVarInfo P)) (var : Nat) : Option Nat :=
  rposition (fun entry => entry.1 = var && entry.2.isFact) entries

def planChange (program : ExactDdnnfProgram P L) (dense : List (ProbVarInfo P)) (update : Nat × P)
    : Result (FactWeightChange P) :=
  let (var, newProb) := update
  if var = 0 then
    .error (.compilation "Cannot update CNF variable 0: exact variables are 1-indexed")
  else if var > program.maxVar ∨ var ≥ dense.length then
    let maxVar := program.maxVar
    .error (.compilation s!"Cannot update CNF variable {var}: valid range is 1..={maxVar}")
  else if !ops.isProbability newProb then
    let got := ops.display newProb
    .error (.compilation
      s!"Probability for CNF variable {var} must be finite and within [0, 1], got {got}")
  else
    match dense[var]? with
    | some (.fact _ prob) =>
        match factEntryIndex program.probVarEntries var with
        | some entryIndex =>
            .ok ⟨entryIndex, var, prob, newProb, program.fixedEvidenceByVar var⟩
        | none =>
            .error (.compilation s!"CNF variable {var} fact metadata is unavailable")
    | some (.choice ..) =>
        .error (.unsupportedEpistemicConstruct "mutable exact fact probabilities"
          (s!"CNF variable {var} is an annotated-disjunction choice; "
            ++ "only independent probabilistic facts are mutable"))
    | some .other | none =>
        .error (.unsupportedEpistemicConstruct "mutable exact fact probabilities"
          (s!"CNF variable {var} is compiler-introduced or unmapped; "
            ++ "only independent probabilistic facts are mutable"))

/-- The writes of a batch, both weights of a variable after each other. -/
def changeWrites (slotStart : Nat) (prob : FactWeightChange P → P)
    (changes : List (FactWeightChange P)) : List (WeightCell × L) :=
  changes.flatMap fun change =>
    let index := slotStart + change.var
    let weights := factLogWeights ops (prob change) change.evidence
    [((.logTrue, index), weights.1), ((.logFalse, index), weights.2)]

def setEntryProb (newProb : P) : Nat × ProbVarInfo P → Nat × ProbVarInfo P
  | (var, .fact atom _) => (var, .fact atom newProb)
  | entry => entry

def commitChange (entries : List (Nat × ProbVarInfo P)) (change : FactWeightChange P)
    : List (Nat × ProbVarInfo P) :=
  entries.modify change.entryIndex (setEntryProb change.newProb)

/-- What becomes of the device writes of a batch and of its rollback. -/
structure DeviceOutcomes (L : Type) where
  writes : Nat → WriteOutcome XlogError L
  rollbackWrites : Nat → WriteOutcome XlogError L

/-- The weights of all changes, or on a failure those from before, or an invalid state. -/
def writeChanges (program : ExactDdnnfProgram P L) (state : GpuExactState L)
    (changes : List (FactWeightChange P)) (outcomes : DeviceOutcomes L)
    : ExactDdnnfProgram P L × Result Unit :=
  if varStride state.varCap ≥ u32Bound then
    (program, .error (.compilation "GpuCircuitCache var_cap overflow"))
  else
    let slotStart := state.witness.cacheSlot * varStride state.varCap
    let newWrites := changeWrites ops slotStart FactWeightChange.newProb changes
    match attemptWrites outcomes.writes 0 state.weights newWrites with
    | (weights, none) =>
        ({ program with
            gpu := some { state with weights := weights }
            probVarEntries := changes.foldl commitChange program.probVarEntries }, .ok ())
    | (weights, some writeError) =>
        let oldWrites := changeWrites ops slotStart FactWeightChange.oldProb changes
        match attemptWrites outcomes.rollbackWrites 0 weights oldWrites with
        | (weights, none) =>
            ({ program with gpu := some { state with weights := weights } }, .error writeError)
        | (weights, some rollbackError) =>
            let combined := "Fact probability device update failed (" ++ ops.displayError writeError
              ++ "); rollback also failed (" ++ ops.displayError rollbackError ++ ")"
            ({ program with
                gpu := some { state with weights := weights, invalidReason := some combined } },
              .error (.kernel combined))

def setFactProbabilities (program : ExactDdnnfProgram P L) (updates : FactUpdates P)
    (outcomes : DeviceOutcomes L) : ExactDdnnfProgram P L × Result Unit :=
  if program.usesCountLift then
    (program, .error (.unsupportedEpistemicConstruct "mutable exact fact probabilities"
      "GPU count-lift exact programs do not expose CNF fact variables"))
  else
    match program.gpuState with
    | .error error => (program, .error error)
    | .ok state =>
        match state.ensureUsable with
        | .error error => (program, .error error)
        | .ok () =>
            match updates.entries.mapM (planChange ops program program.probVarMap) with
            | .error error => (program, .error error)
            | .ok [] => (program, .ok ())
            | .ok changes => writeChanges ops program state changes outcomes

-- Prepared programs

/-- The program behind all handles of one prepared program. -/
structure PreparedConditionedState (P L : Type) where
  exact : ExactDdnnfProgram P L
  initialCircuit : ExactCircuitWitness
  successfulReuses : Nat

structure PreparedCircuitSnapshot where
  circuit : ExactCircuitWitness
  successfulReuses : Nat
  deriving DecidableEq, Repr

def PreparedConditionedState.snapshot (state : PreparedConditionedState P L)
    : Result PreparedCircuitSnapshot := do
  state.exact.ensureUsable
  let circuit ← state.exact.circuitWitness
  if circuit.circuitGeneration ≠ state.initialCircuit.circuitGeneration
      ∨ circuit.cacheSlot ≠ state.initialCircuit.cacheSlot then
    .error (.compilation "Prepared conditioned circuit identity changed after preparation")
  else .ok ⟨circuit, state.successfulReuses⟩

def u64Bound : Nat := 2 ^ 64

def PreparedConditionedState.recordSuccessfulReuse (state : PreparedConditionedState P L)
    : Result (PreparedConditionedState P L) := do
  let _before ← state.snapshot
  if state.successfulReuses + 1 ≥ u64Bound then
    .error (.compilation "Prepared conditioned circuit reuse counter overflowed")
  else
    let state := { state with successfulReuses := state.successfulReuses + 1 }
    let _after ← state.snapshot
    .ok state

/-- An evaluation of the circuit, with or without gradients. -/
def PreparedConditionedState.evaluate {R : Type} (run : ExactDdnnfProgram P L → Result R)
    (state : PreparedConditionedState P L) : Result (PreparedConditionedState P L × R) := do
  let _before ← state.snapshot
  let result ← run state.exact
  let state ← state.recordSuccessfulReuse
  .ok (state, result)

def PreparedConditionedState.probVarMap (state : PreparedConditionedState P L)
    : Result (List (ProbVarInfo P)) := do
  let _snapshot ← state.snapshot
  state.exact.checkedProbVarMap

def PreparedConditionedState.circuitWitness (state : PreparedConditionedState P L)
    : Result PreparedCircuitSnapshot :=
  state.snapshot

def PreparedConditionedState.setFactProbabilities (state : PreparedConditionedState P L)
    (updates : FactUpdates P) (outcomes : DeviceOutcomes L)
    : PreparedConditionedState P L × Result Unit :=
  match state.snapshot with
  | .error error => (state, .error error)
  | .ok before =>
      let (exact, updated) := Prob.setFactProbabilities ops state.exact updates outcomes
      let state := { state with exact }
      let changed := fun text =>
        match state.snapshot with
        | .error error => (state, .error error)
        | .ok after =>
            if before ≠ after then (state, .error (.compilation text)) else (state, updated)
      match updated with
      | .ok () =>
          changed
            "Fact probability update changed the prepared circuit identity or compile ledger"
      | .error error =>
          match exact.ensureUsable with
          | .error _ => (state, .error error)
          | .ok () =>
              changed ("Failed fact probability update changed the prepared circuit identity "
                ++ "or compile ledger")

end

end Xlog.Prob
