import Xlog.Cuda.SemanticCommands

/-! Retirement of roots, read-only queries, and the dispatch of a launch to its command.
-/

namespace Xlog.Cuda.SemanticGraph

-- Retirement

/-- A mark on a sealed record is a one in its owner word. -/
def Record.mark {α : Type} (record : Record α) : Record α :=
  if record.state = .sealed then { record with owner := 1 } else record

def Store.markStatement (s : Store) (slot : Nat) : Store :=
  { s with statements := Function.update s.statements slot (s.statements slot).mark }

def Store.markVersion (s : Store) (slot : Nat) : Store :=
  let supportSlot := (s.versions slot).body.supportSlot
  { s with
    versions := Function.update s.versions slot (s.versions slot).mark
    supports := Function.update s.supports supportSlot (s.supports supportSlot).mark }

/-- The store with the marks so far, and the refusal that stopped the trace. -/
abbrev Traced := Store × Option Receipt

def traceLinks (statementSlot : Nat) (candidate mark : Bool) (receipt : Receipt)
    : Nat → Nat → Store → Traced
  | 0, encoded, s =>
      if encoded = 0 then (s, none)
      else (s, some (receipt.fail .corruptLineage versionKind (encoded - 1) 0 0
        s.capacities.versions 13))
  | steps + 1, encoded, s =>
      if encoded = 0 then (s, none)
      else
        let slot := encoded - 1
        match validateVersionLink s statementSlot slot receipt with
        | .error refusal => (s, some refusal)
        | .ok _ =>
            let version := s.versions slot
            let support := s.supports version.body.supportSlot
            if s.foreign candidate version ∨ s.foreign candidate support then
              (s, some (receipt.fail .corruptLineage versionKind slot version.generation
                version.generation s.capacities.versions 12))
            else
              traceLinks statementSlot candidate mark receipt steps version.body.previous
                (if mark then s.markVersion slot else s)

/-- The loop of `trace_retirement_heads` over the slots that are left. -/
def traceHeads (heads : Nat → Nat) (candidate mark : Bool) (receipt : Receipt)
    : Nat → Nat → Store → Traced
  | 0, _, s => (s, none)
  | left + 1, slot, s =>
      if heads slot = 0 then traceHeads heads candidate mark receipt left (slot + 1) s
      else
        let statement := s.statements slot
        if s.foreign candidate statement ∨ ¬statement.state.isLive then
          (s, some (receipt.fail .corruptLineage statementKind slot statement.generation
            statement.generation s.capacities.statements 11))
        else
          let marked := if mark then s.markStatement slot else s
          match traceLinks slot candidate mark receipt s.capacities.versions (heads slot) marked with
          | (s, some refusal) => (s, some refusal)
          | (s, none) => traceHeads heads candidate mark receipt left (slot + 1) s

def traceRoots (excluded : Option Nat) (mark : Bool) (receipt : Receipt)
    : Nat → Nat → Store → Traced
  | 0, _, s => (s, none)
  | left + 1, slot, s =>
      if (s.roots slot).state = .free ∨ excluded = some slot then
        traceRoots excluded mark receipt left (slot + 1) s
      else
        match validateRoot s slot (s.roots slot).generation receipt with
        | .error refusal => (s, some refusal)
        | .ok _ =>
            match traceHeads (s.rootHeads slot) false mark receipt s.capacities.statements 0 s with
            | (s, some refusal) => (s, some refusal)
            | (s, none) => traceRoots excluded mark receipt left (slot + 1) s

def traceRetirementRoots (s : Store) (excluded : Option Nat) (mark : Bool) (receipt : Receipt)
    : Traced :=
  match traceRoots excluded mark receipt s.capacities.roots 0 s with
  | (s, some refusal) => (s, some refusal)
  | (s, none) =>
      if s.candidate.state = .free then (s, none)
      else
        match validateCandidate s 0 s.candidate.generation receipt,
          validateRoot s s.candidate.baseSlot s.candidate.baseGeneration receipt with
        | .error refusal, _ => (s, some refusal)
        | .ok _, .error refusal => (s, some refusal)
        | .ok _, .ok _ =>
            traceHeads s.candidateHeads true mark receipt s.capacities.statements 0 s

/-- The first sealed record below the capacity that meets a condition on owner and generation. -/
def findSealed {α : Type} (records : Nat → Record α) (capacity : Nat)
    (refused : Nat → Nat → Bool) : Option Nat :=
  (List.range capacity).find? fun slot =>
    (records slot).state = .sealed ∧ refused (records slot).owner (records slot).generation

def refuseSealed {α : Type} (records : Nat → Record α) (kind capacity : Nat)
    (refused : Nat → Nat → Bool) (status : Status) (detail : Nat) (receipt : Receipt)
    : Checked Unit :=
  match findSealed records capacity refused with
  | none => .ok ()
  | some slot => .error (receipt.fail status kind slot (records slot).generation
      (records slot).generation capacity detail)

def Store.refuseSealed (s : Store) (refused : Nat → Nat → Bool) (status : Status) (detail : Nat)
    (receipt : Receipt) : Checked Unit := do
  SemanticGraph.refuseSealed s.statements statementKind s.capacities.statements refused status
    detail receipt
  SemanticGraph.refuseSealed s.supports supportKind s.capacities.supports refused status detail
    receipt
  SemanticGraph.refuseSealed s.versions versionKind s.capacities.versions refused status detail
    receipt

/-- Sealed records without a mark are freed when the trace was complete. Marks are cleared. -/
def Record.reclaim {α : Type} (ready : Bool) (record : Record α) : Record α :=
  if record.state ≠ .sealed then record
  else if ready ∧ record.owner = 0 then
    { record with state := .free, generation := bump record.generation, owner := 0 }
  else { record with owner := 0 }

def Store.reclaimed (s : Store) (ready : Bool) : Store :=
  { s with
    statements := fun slot => (s.statements slot).reclaim ready
    supports := fun slot => (s.supports slot).reclaim ready
    versions := fun slot => (s.versions slot).reclaim ready }

/-- The checks of a retirement before it writes marks. -/
def checkRetirement (s : Store) (command : Command) (receipt : Receipt) : Checked Unit := do
  validateRoot s command.slot command.generation receipt
  validateRoot s command.targetSlot command.targetGeneration receipt
  refuseIf (command.slot = 0 ∨ command.slot = command.targetSlot
      ∨ (s.candidate.state = .live ∧ s.candidate.baseSlot = command.slot
        ∧ s.candidate.baseGeneration = command.generation))
    (receipt.fail .inactive rootKind command.slot command.generation command.generation
      s.capacities.roots 0)
  refuseIf (command.generation = wordMax)
    (receipt.fail .generationExhausted rootKind command.slot command.generation
      command.generation s.capacities.roots 1)
  match traceRetirementRoots s none false receipt with
  | (_, some refusal) => .error refusal
  | (_, none) => s.refuseSealed (fun owner _ => owner ≠ 0) .corruptLineage 14 receipt

/-- The trace with marks, and the check that every record without one can be freed. -/
def markRetirement (s : Store) (slot : Nat) (receipt : Receipt) : Traced :=
  match traceRetirementRoots s (some slot) true receipt with
  | (s, some refusal) => (s, some refusal)
  | (s, none) =>
      match s.refuseSealed (fun owner generation => owner = 0 ∧ generation = wordMax)
        .generationExhausted 1 receipt with
      | .error refusal => (s, some refusal)
      | .ok _ => (s, none)

def retireRoot (s : Store) (command : Command) (receipt : Receipt) : Store × Receipt :=
  match checkRetirement s command receipt with
  | .error refusal => (s, refusal)
  | .ok _ =>
      match markRetirement s command.slot receipt with
      | (s, some refusal) => (s.reclaimed false, refusal)
      | (s, none) =>
          let s := s.reclaimed true
          let root := s.roots command.slot
          let root : Root := { root with state := .free, generation := bump root.generation }
          ({ s with
              roots := Function.update s.roots command.slot root
              rootHeads := Function.update s.rootHeads command.slot fun _ => 0 },
            { receipt with rootSlot := command.slot, rootGeneration := root.generation })

-- Queries

def snapshot (s : Store) (command : Command) (receipt : Receipt) : Checked Receipt := do
  let (extents, _) ← validateView s command receipt
  .ok (receipt.fillView command extents)

def truth (s : Store) (command : Command) (receipt : Receipt) : Checked Receipt := do
  let (extents, heads) ← validateView s command receipt
  let receipt := { receipt.fillView command extents with statement := command.statement }
  match ← findStatement s heads command.statement receipt with
  | none => .ok receipt
  | some slot =>
      validateHead s slot (heads slot) receipt
      .ok ((receipt.fillStatement s slot).fillVersion s (heads slot - 1))

/-- A live record with the generation of the handle. -/
def validateTarget {α : Type} (records : Nat → Record α) (kind capacity slot generation : Nat)
    (receipt : Receipt) : Checked Unit := do
  refuseIf (capacity ≤ slot) (receipt.fail .slotOutOfRange kind slot generation 0 capacity 0)
  refuseIf ((records slot).generation ≠ generation)
    (receipt.fail .staleGeneration kind slot generation (records slot).generation capacity 0)
  refuseIf (¬(records slot).state.isLive)
    (receipt.fail .inactive kind slot generation (records slot).generation capacity
      (records slot).state.code)

def inspectStatement (s : Store) (command : Command) (receipt : Receipt) : Checked Receipt := do
  let (_, heads) ← validateView s command receipt
  let slot := command.targetSlot
  validateTarget s.statements statementKind s.capacities.statements slot command.targetGeneration
    receipt
  refuseIf (heads slot = 0)
    (receipt.fail .notReachable statementKind slot command.targetGeneration
      (s.statements slot).generation s.capacities.statements 0)
  validateHead s slot (heads slot) receipt
  .ok (receipt.fillStatement s slot)

/-- The loop of `chain_contains`. -/
def chainContains (s : Store) (statementSlot : Nat) (isTarget : Nat → Record VersionBody → Bool)
    (receipt : Receipt) : Nat → Nat → Checked Bool
  | 0, encoded => do
      refuseIf (encoded ≠ 0)
        (receipt.fail .corruptLineage versionKind (encoded - 1) 0 0 s.capacities.versions 10)
      .ok false
  | steps + 1, encoded =>
      if encoded = 0 then .ok false
      else do
        validateVersionLink s statementSlot (encoded - 1) receipt
        let version := s.versions (encoded - 1)
        if isTarget (encoded - 1) version then .ok true
        else chainContains s statementSlot isTarget receipt steps version.body.previous

def validateReachable {α : Type} (s : Store) (records : Nat → Record α) (heads : Nat → Nat)
    (kind capacity slot generation statementSlot : Nat)
    (isTarget : Nat → Record VersionBody → Bool) (receipt : Receipt) : Checked Unit := do
  let unreachable := receipt.fail .notReachable kind slot generation (records slot).generation
    capacity 0
  refuseIf (s.capacities.statements ≤ statementSlot ∨ heads statementSlot = 0) unreachable
  let found ← chainContains s statementSlot isTarget receipt s.capacities.versions
    (heads statementSlot)
  refuseIf (found = false) unreachable

def inspectSupport (s : Store) (command : Command) (receipt : Receipt) : Checked Receipt := do
  let (_, heads) ← validateView s command receipt
  let slot := command.targetSlot
  let generation := command.targetGeneration
  validateTarget s.supports supportKind s.capacities.supports slot generation receipt
  validateReachable s s.supports heads supportKind s.capacities.supports slot generation
    (s.supports slot).body.statementSlot
    (fun _ version => version.body.supportSlot = slot ∧ version.body.supportGeneration = generation)
    receipt
  .ok (receipt.fillSupport s slot)

def inspectVersion (s : Store) (command : Command) (receipt : Receipt) : Checked Receipt := do
  let (_, heads) ← validateView s command receipt
  let slot := command.targetSlot
  let generation := command.targetGeneration
  validateTarget s.versions versionKind s.capacities.versions slot generation receipt
  validateReachable s s.versions heads versionKind s.capacities.versions slot generation
    (s.versions slot).body.statementSlot
    (fun found version => found = slot ∧ version.generation = generation) receipt
  .ok (receipt.fillVersion s slot)

-- Launches

structure ResidentHandle where
  owner : Nat
  kind : Nat
  slot : Nat
  generation : Nat

structure TruthValue where
  status : Status
  truth : Nat
  owner : Nat

structure DecodedInput where
  statement : DecodedStatement
  support : DecodedSupport

inductive Admission where
  | hostCommand
  | emptyRootHandle
  | fork
  | insertSupport
  | forkTruth
  | seal
  | consumeTruth
  | materializeDecoded
  | preflightTransition
  | rootTruth
  | discard
  | unknown (code : Nat)
  deriving DecidableEq

/-- The pointers of a launch, `none` for null ones. -/
structure Descriptor where
  expectedOwner : Nat
  abiGeneration : Nat
  admission : Admission
  command : Option Command := none
  handle : Option ResidentHandle := none
  sourceReceipt : Option Receipt := none
  decodedInput : Option DecodedInput := none
  decodedStatement : Option DecodedStatement := none
  decodedSupport : Option DecodedSupport := none
  output : Bool := false

/-- What a launch writes: the arena, the receipt, and the banks that its admission owns. -/
structure Executed where
  store : Store
  receipt : Receipt
  handle : Option ResidentHandle := none
  truth : Option TruthValue := none
  decoded : Option DecodedInput := none

/-- `kAbiGeneration`. -/
def abiGeneration : Nat := 7

-- Admission

def loadResidentHandle (d : Descriptor) (expectedKind : Nat) (receipt : Receipt)
    : Checked (Nat × Nat) := do
  let accept (owner kind slot generation : Nat) : Checked (Nat × Nat) := do
    refuseIf (owner ≠ d.expectedOwner)
      (receipt.fail .foreignOwner expectedKind slot owner d.expectedOwner 0 0)
    refuseIf (kind ≠ expectedKind)
      (receipt.fail .invalidCommand expectedKind slot kind expectedKind 0 2)
    .ok (slot, generation)
  match d.handle, d.sourceReceipt with
  | some handle, none => accept handle.owner handle.kind handle.slot handle.generation
  | none, some source => do
      refuseIf (source.owner ≠ d.expectedOwner)
        (receipt.fail .foreignOwner expectedKind 0 source.owner d.expectedOwner 0 0)
      refuseIf (source.status ≠ .ok) source
      accept source.owner source.kind source.slot source.presented
  | _, _ => .error (receipt.fail .invalidCommand expectedKind 0 0 0 0 1)

/-- The authority over the candidate goes from the source receipt to the new one. -/
def inheritCandidateAcquisition (d : Descriptor) (slot generation : Nat) (receipt : Receipt)
    : Checked Receipt :=
  let refusal := receipt.fail .invalidCommand forkKind slot generation 0 0 11
  match d.sourceReceipt with
  | none => .error refusal
  | some source =>
      if source.acquiredGeneration = 0 ∨ source.acquiredSlot ≠ slot
          ∨ source.acquiredGeneration ≠ generation then
        .error refusal
      else
        .ok { receipt with acquiredSlot := slot, acquiredGeneration := generation }

def loadCandidate (d : Descriptor) (receipt : Receipt) : Checked (Nat × Nat × Receipt) := do
  let (slot, generation) ← loadResidentHandle d forkKind receipt
  let receipt ← inheritCandidateAcquisition d slot generation receipt
  .ok (slot, generation, receipt)

/-- A command to run, or work on the banks alone. -/
inductive Task where
  | run (command : Command) (retainRefusal : Bool)
  | emptyRootHandle
  | consumeTruth
  | materializeDecoded (input : DecodedInput)

def admitCandidateTerminal (d : Descriptor) (receipt : Receipt) (operation : Operation)
    : Checked (Receipt × Task) := do
  let terminal : Checked (Receipt × Task) := do
    let (slot, generation, receipt) ← loadCandidate d receipt
    .ok (receipt, .run { operation, owner := d.expectedOwner, slot, generation } false)
  match d.sourceReceipt with
  | none => terminal
  | some source =>
      if source.status = .ok then terminal
      else do
        refuseIf (source.owner ≠ d.expectedOwner)
          (receipt.fail .foreignOwner forkKind 0 source.owner d.expectedOwner 0 0)
        -- without an acquisition the candidate is not the lane's to retire
        refuseIf (source.acquiredGeneration = 0) source
        .ok (receipt, .run
          { operation := .discard, owner := d.expectedOwner
            slot := source.acquiredSlot, generation := source.acquiredGeneration }
          (operation = .seal))

def admitInsertion (digests : Digests) (d : Descriptor) (receipt : Receipt)
    : Checked (Receipt × Task) := do
  let (slot, generation, receipt) ← loadCandidate d receipt
  match d.decodedStatement, d.decodedSupport with
  | some statement, some support =>
      .ok (receipt, .run
        { operation := .insertSupport, owner := d.expectedOwner, slot, generation
          polarity := support.polarity
          statementRecord := statement.record
          supportRecord := support.record
          statement := statement.identity
          support := digests.support statement.identity support
          reconstruction := statement.reconstruction } false)
  | _, _ => .error (receipt.fail .invalidCommand supportKind 0 0 0 0 5)

def admitTruth (d : Descriptor) (viewKind : Nat) (handle : Nat × Nat) (receipt : Receipt)
    : Checked (Receipt × Task) :=
  match d.decodedStatement with
  | none => .error (receipt.fail .invalidCommand statementKind 0 0 0 0 6)
  | some statement =>
      .ok (receipt, .run
        { operation := .truth, owner := d.expectedOwner, viewKind
          slot := handle.1, generation := handle.2, statement := statement.identity } false)

/-- The command of a launch on a root. A refused base is not an acquisition. -/
def admitRoot (d : Descriptor) (receipt : Receipt) (operation : Operation)
    : Checked (Receipt × Task) :=
  match loadResidentHandle d rootKind receipt with
  | .error refusal => .error { refusal with acquiredSlot := 0, acquiredGeneration := 0 }
  | .ok (slot, generation) =>
      .ok (receipt, .run { operation, owner := d.expectedOwner, slot, generation } false)

/-- The command of a launch by its admission. -/
def admitLaunch (digests : Digests) (d : Descriptor) (receipt : Receipt) : Checked (Receipt × Task) :=
  match d.admission with
  | .hostCommand =>
      match d.command with
      | none => .error (receipt.fail .invalidCommand rootKind 0 0 0 0 3)
      | some command => .ok (receipt, .run command false)
  | .emptyRootHandle =>
      if d.handle.isNone ∨ d.sourceReceipt.isSome then
        .error (receipt.fail .invalidCommand rootKind 0 0 0 0 4)
      else .ok (receipt, .emptyRootHandle)
  | .fork => admitRoot d receipt .fork
  | .preflightTransition => admitRoot d receipt .preflightTransition
  | .insertSupport => admitInsertion digests d receipt
  | .forkTruth => do
      let (slot, generation, receipt) ← loadCandidate d receipt
      admitTruth d forkKind (slot, generation) receipt
  | .rootTruth => do
      let handle ← loadResidentHandle d rootKind receipt
      admitTruth d rootKind handle receipt
  | .discard => admitCandidateTerminal d receipt .discard
  | .seal => admitCandidateTerminal d receipt .seal
  | .consumeTruth => .ok (receipt, .consumeTruth)
  | .materializeDecoded =>
      match d.decodedInput, d.decodedStatement, d.decodedSupport with
      | some input, some _, some _ => .ok (receipt, .materializeDecoded input)
      | _, _, _ => .error (receipt.fail .invalidCommand statementKind 0 0 0 0 10)
  | .unknown code => .error (receipt.fail .invalidCommand rootKind 0 code 0 0 7)

-- Dispatch

/-- A refused command leaves the store. -/
def settle (s : Store) (result : Checked (Store × Receipt)) : Store × Receipt :=
  match result with
  | .ok after => after
  | .error refusal => (s, refusal)

def settleQuery (s : Store) (result : Checked Receipt) : Store × Receipt :=
  match result with
  | .ok receipt => (s, receipt)
  | .error refusal => (s, refusal)

def runCommand (digests : Digests) (s : Store) (command : Command) (receipt : Receipt)
    : Store × Receipt :=
  match command.operation with
  | .preflightTransition => settle s (preflightTransition s command receipt)
  | .fork => settle s (forkRoot s command receipt)
  | .insertSupport => settle s (insertSupport digests s command receipt)
  | .discard => settle s (discard s command receipt)
  | .seal => settle s (sealCandidate s command receipt)
  | .retireRoot => retireRoot s command receipt
  | .snapshot => settleQuery s (snapshot s command receipt)
  | .truth => settleQuery s (truth s command receipt)
  | .inspectStatement => settleQuery s (inspectStatement s command receipt)
  | .inspectSupport => settleQuery s (inspectSupport s command receipt)
  | .inspectVersion => settleQuery s (inspectVersion s command receipt)
  | operation => (s, receipt.fail .invalidCommand rootKind 0 operation.code 0 0 0)

/-- The handle words of a successful resident command. -/
def publishHandle (admission : Admission) (command : Command) (receipt : Receipt) : Receipt :=
  match admission with
  | .fork =>
      { receipt with
        kind := forkKind, slot := receipt.forkSlot, presented := receipt.forkGeneration
        acquiredSlot := receipt.forkSlot, acquiredGeneration := receipt.forkGeneration }
  | .insertSupport =>
      { receipt with kind := forkKind, slot := command.slot, presented := command.generation }
  | .discard => { receipt with acquiredSlot := 0, acquiredGeneration := 0 }
  | .seal | .preflightTransition =>
      { receipt with
        kind := rootKind, slot := receipt.rootSlot, presented := receipt.rootGeneration }
  | _ => receipt

/-- The command with what follows it: a refused seal and the seal of a refused lane discard the
candidate and keep the refusal.
-/
def runAdmitted (digests : Digests) (d : Descriptor) (s : Store) (command : Command)
    (retainRefusal : Bool) (receipt : Receipt) : Store × Receipt :=
  let (after, result) := runCommand digests s command receipt
  if d.admission = .seal ∧ retainRefusal = false ∧ result.status ≠ .ok then
    let cleanup : Command :=
      { operation := .discard, owner := d.expectedOwner
        slot := command.slot, generation := command.generation }
    let (after, cleaned) := settle after (discard after cleanup { owner := d.expectedOwner })
    (after, if cleaned.status = .ok then result else cleaned)
  else if retainRefusal then
    (after, if result.status = .ok then d.sourceReceipt.getD result else result)
  else
    (after, if result.status = .ok then publishHandle d.admission command result else result)

def consumeTruth (d : Descriptor) (s : Store) (initial : Option TruthValue) (receipt : Receipt)
    : Executed :=
  match d.sourceReceipt, initial with
  | some source, some output =>
      if source.owner ≠ d.expectedOwner then
        { store := s
          receipt := receipt.fail .foreignOwner statementKind 0 source.owner d.expectedOwner 0 0
          truth := some { output with status := .foreignOwner } }
      else if source.status ≠ .ok then
        { store := s, receipt := source, truth := some { output with status := source.status } }
      else if 3 < source.truth then
        { store := s
          receipt := receipt.fail .corruptLineage statementKind 0 source.truth 0 0 9
          truth := some { output with status := .corruptLineage } }
      else
        { store := s, receipt, truth := some { output with status := .ok, truth := source.truth } }
  | _, _ =>
      { store := s, receipt := receipt.fail .invalidCommand statementKind 0 0 0 0 8
        truth := initial }

def emptyRootHandle (d : Descriptor) (s : Store) (initial : Option ResidentHandle)
    (receipt : Receipt) : Executed :=
  let generation := (s.roots 0).generation
  match validateRoot s 0 generation receipt with
  | .error refusal => { store := s, receipt := refusal, handle := initial }
  | .ok _ =>
      { store := s
        receipt := { receipt with kind := rootKind, slot := 0, presented := generation }
        handle := some ⟨d.expectedOwner, rootKind, 0, generation⟩ }

/-- The command that the control words are checked for. -/
def Task.command (d : Descriptor) : Task → Command
  | .run command _ => command
  | _ => { owner := d.expectedOwner }

def runTask (digests : Digests) (d : Descriptor) (s : Store) (handle : Option ResidentHandle)
    (truth : Option TruthValue) (receipt : Receipt) : Task → Executed
  | .run command retainRefusal =>
      let (after, receipt) := runAdmitted digests d s command retainRefusal receipt
      { store := after, receipt }
  | .emptyRootHandle => emptyRootHandle d s handle receipt
  | .consumeTruth => consumeTruth d s truth receipt
  | .materializeDecoded input => { store := s, receipt, decoded := some input }

/-- One launch of the kernel. -/
def execute (digests : Digests) (s : Store) (d : Descriptor) : Executed :=
  let receipt : Receipt := { owner := d.expectedOwner }
  let handle : Option ResidentHandle :=
    if d.admission = .emptyRootHandle ∧ d.handle.isSome then some ⟨d.expectedOwner, 0, noSlot, 0⟩
    else none
  let truth : Option TruthValue :=
    if d.admission = .consumeTruth ∧ d.output then some ⟨.invalidCommand, 0, d.expectedOwner⟩
    else none
  if d.abiGeneration ≠ abiGeneration then
    { store := s
      receipt := receipt.fail .arenaMismatch rootKind 0 d.abiGeneration abiGeneration 0 0 }
  else if ¬s.capacities.Valid then
    { store := s
      receipt := receipt.fail .arenaMismatch rootKind 0 s.capacities.arenaWords 0 0 0
      handle, truth }
  else
    match admitLaunch digests d receipt with
    | .error refusal => { store := s, receipt := refusal, handle, truth }
    | .ok (receipt, task) =>
        if (task.command d).operation = .initializeArena then
          let (after, receipt) := initializeArena digests s d.expectedOwner receipt
          { store := after, receipt }
        else
          match validateControl s d.expectedOwner (task.command d) receipt with
          | .error refusal => { store := s, receipt := refusal, handle, truth }
          | .ok _ => runTask digests d s handle truth receipt task

end Xlog.Cuda.SemanticGraph
