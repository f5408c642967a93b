import Xlog.Cuda.SemanticStore

/-! The commands of the semantic store, from an empty store on: forks, insertions, terminals,
retirement of roots and the read-only queries.
-/

namespace Xlog.Cuda.SemanticGraph

-- Initialization and reserve

def emptyRecord {α : Type} (body : α) : Record α := ⟨.free, 1, 0, body⟩

/-- Free tables, and the empty root in the first slot. -/
def initialStore (digests : Digests) (capacities : Capacities) (owner : Nat) : Store where
  capacities := capacities
  control := ⟨magic, owner, capacities, capacities.arenaWords⟩
  roots slot :=
    if slot = 0 then
      ⟨.sealed, 1, noSlot, ⟨0, 0, 0, digests.root zeroIdentity zeroIdentity 0 0 0⟩⟩
    else ⟨.free, 1, 0, ⟨0, 0, 0, zeroIdentity⟩⟩
  candidate := ⟨.free, 1, 0, 0, ⟨0, 0, 0, zeroIdentity⟩⟩
  statements _ := emptyRecord zeroIdentity
  supports _ := emptyRecord ⟨0, 0, 0, zeroIdentity, 0, 0, []⟩
  versions _ := emptyRecord ⟨0, 0, 0, 0, 0, 0, zeroIdentity, 0⟩
  rootHeads _ _ := 0
  candidateHeads _ := 0

def initializeArena (digests : Digests) (s : Store) (owner : Nat) (receipt : Receipt)
    : Store × Receipt :=
  let s := initialStore digests s.capacities owner
  (s, { receipt with rootSlot := 0, rootGeneration := 1, extents := (s.roots 0).extents })

def preflightCandidateRetirement (s : Store) (receipt : Receipt) : Checked Unit :=
  refuseIf (s.candidate.generation = wordMax)
    (receipt.fail .generationExhausted forkKind 0 s.candidate.generation s.candidate.generation
      1 0)

/-- The free slots up to a limit, each with room for the retirements that its place needs. -/
def reserve (kind capacity limit : Nat) (state : Nat → RecordState) (generation : Nat → Nat)
    (retirements : Nat → Nat) (receipt : Receipt) : Nat → Nat → Nat → Checked Nat
  | 0, _, found => .ok found
  | left + 1, slot, found =>
      if limit ≤ found then .ok found
      else if state slot ≠ .free then
        reserve kind capacity limit state generation retirements receipt left (slot + 1) found
      else do
        refuseIf (wordMax - retirements found < generation slot)
          (receipt.fail .generationExhausted kind slot (generation slot) (generation slot) capacity
            (retirements found))
        reserve kind capacity limit state generation retirements receipt left (slot + 1) (found + 1)

def reserveRoots (s : Store) (receipt : Receipt) : Checked Unit := do
  let found ← reserve rootKind s.capacities.roots 2 (fun slot => (s.roots slot).state)
    (fun slot => (s.roots slot).generation) (fun _ => 1) receipt s.capacities.roots 0 0
  refuseIf (found < 2) (receipt.fail .rootCapacity rootKind 0 0 0 s.capacities.roots 2)

/-- Two lanes take two records each. A record of the first lane may be retired and taken again. -/
def reserveRecords {α : Type} (records : Nat → Record α) (kind capacity : Nat) (status : Status)
    (receipt : Receipt) : Checked Unit := do
  let found ← reserve kind capacity 4 (fun slot => (records slot).state)
    (fun slot => (records slot).generation) (fun found => if found < 2 then 2 else 1) receipt
    capacity 0 0
  refuseIf (found < 4) (receipt.fail status kind 0 0 0 capacity 4)

/-- The statements of the base can take another support. -/
def reserveHeads (s : Store) (heads : Nat → Nat) (receipt : Receipt) : Nat → Nat → Checked Unit
  | 0, _ => .ok ()
  | left + 1, slot =>
      if heads slot = 0 then reserveHeads s heads receipt left (slot + 1)
      else do
        let statement := s.statements slot
        refuseIf (statement.state ≠ .sealed)
          (receipt.fail .corruptLineage statementKind slot statement.generation
            statement.generation s.capacities.statements statement.state.code)
        validateHead s slot (heads slot) receipt
        refuseIf (statement.generation = wordMax)
          (receipt.fail .generationExhausted statementKind slot statement.generation
            statement.generation s.capacities.statements 1)
        reserveHeads s heads receipt left (slot + 1)

def reserveExtents (s : Store) (slot : Nat) (receipt : Receipt) : Checked Unit := do
  let root := s.roots slot
  let check (extent word : Nat) : Checked Unit := refuseIf (halfMax - 2 < extent)
    (receipt.fail .corruptLineage rootKind slot root.generation root.generation
      s.capacities.roots word)
  check root.extents.statements 3
  check root.extents.supports 4
  check root.extents.versions 5

def preflightTransition (s : Store) (command : Command) (receipt : Receipt)
    : Checked (Store × Receipt) := do
  validateRoot s command.slot command.generation receipt
  refuseIf (s.candidate.state ≠ .free)
    (receipt.fail .inactive forkKind 0 s.candidate.generation s.candidate.generation 1
      s.candidate.state.code)
  refuseIf (wordMax - 2 < s.candidate.generation)
    (receipt.fail .generationExhausted forkKind 0 s.candidate.generation s.candidate.generation
      1 2)
  reserveExtents s command.slot receipt
  reserveRoots s receipt
  reserveRecords s.statements statementKind s.capacities.statements .statementCapacity receipt
  reserveRecords s.supports supportKind s.capacities.supports .supportCapacity receipt
  reserveRecords s.versions versionKind s.capacities.versions .versionCapacity receipt
  reserveHeads s (s.rootHeads command.slot) receipt s.capacities.statements 0
  .ok (s, { receipt with
    rootSlot := command.slot
    rootGeneration := (s.roots command.slot).generation
    extents := (s.roots command.slot).extents })

-- Forks and insertions

/-- The store with a candidate over a root. -/
def Store.forked (s : Store) (slot : Nat) : Store :=
  let root := s.roots slot
  { s with
    candidate := ⟨.live, s.candidate.generation, slot, root.generation, root.extents⟩
    candidateHeads := s.rootHeads slot }

def forkRoot (s : Store) (command : Command) (receipt : Receipt) : Checked (Store × Receipt) := do
  validateRoot s command.slot command.generation receipt
  refuseIf (s.candidate.state ≠ .free)
    (receipt.fail .inactive forkKind 0 s.candidate.generation s.candidate.generation 1
      s.candidate.state.code)
  preflightCandidateRetirement s receipt
  let after := s.forked command.slot
  .ok (after, { receipt with
    forkSlot := 0
    forkGeneration := after.candidate.generation
    extents := after.candidate.extents })

/-- The places that an insertion writes. -/
structure Attachment where
  newStatement : Bool
  statementSlot : Nat
  supportSlot : Nat
  versionSlot : Nat
  encodedHead : Nat

/-- The writes of an insertion that passed every check. -/
def attach (digests : Digests) (s : Store) (command : Command) (a : Attachment) : Store :=
  let owner := s.candidate.generation
  let statement := s.statements a.statementSlot
  let support := s.supports a.supportSlot
  let version := s.versions a.versionSlot
  let extents := s.candidate.extents
  let truth := s.headTruth a.encodedHead ||| (if command.polarity = 1 then 1 else 2)
  let identity := digests.version (s.headIdentity a.encodedHead) command.support truth
  let statementExtent := (extents.statements + a.newStatement.toNat) % 2 ^ 32
  let supportExtent := (extents.supports + 1) % 2 ^ 32
  let versionExtent := (extents.versions + 1) % 2 ^ 32
  { s with
    statements :=
      if a.newStatement then
        Function.update s.statements a.statementSlot
          { statement with state := .staged, owner, body := command.statement }
      else s.statements
    supports := Function.update s.supports a.supportSlot
      { support with
        state := .staged
        owner
        body :=
          { statementSlot := a.statementSlot
            statementGeneration := statement.generation
            polarity := command.polarity
            identity := command.support
            statementRecord := command.statementRecord
            supportRecord := command.supportRecord
            reconstruction := command.reconstruction } }
    versions := Function.update s.versions a.versionSlot
      { version with
        state := .staged
        owner
        body :=
          { statementSlot := a.statementSlot
            statementGeneration := statement.generation
            supportSlot := a.supportSlot
            supportGeneration := support.generation
            previous := a.encodedHead
            truth
            identity
            ordinal := versionExtent } }
    candidate := { s.candidate with
      extents := ⟨statementExtent, supportExtent, versionExtent,
        digests.root extents.digest identity statementExtent supportExtent versionExtent⟩ }
    candidateHeads := Function.update s.candidateHeads a.statementSlot (a.versionSlot + 1) }

def checkAttachment (s : Store) (command : Command) (a : Attachment) (receipt : Receipt)
    : Checked Unit := do
  let check (kind slot generation : Nat) : Checked Unit := refuseIf (generation = wordMax)
    (receipt.fail .generationExhausted kind slot generation generation 0 0)
  check statementKind a.statementSlot (s.statements a.statementSlot).generation
  check supportKind a.supportSlot (s.supports a.supportSlot).generation
  check versionKind a.versionSlot (s.versions a.versionSlot).generation
  let extents := s.candidate.extents
  refuseIf (extents.statements = halfMax ∨ extents.supports = halfMax ∨ extents.versions = halfMax)
    (receipt.fail .corruptLineage forkKind 0 s.candidate.generation s.candidate.generation 1 8)
  refuseIf (command.polarity ≠ 1 ∧ command.polarity ≠ 2)
    (receipt.fail .invalidCommand supportKind a.supportSlot command.polarity 0 0 9)

def findFreeOr {α : Type} (records : Nat → Record α) (capacity : Nat) (refusal : Receipt)
    : Checked Nat :=
  match findFree (fun slot => (records slot).state) capacity with
  | some slot => .ok slot
  | none => .error refusal

/-- The slot of the statement of an insertion, which is found or free. -/
def statementPlace (s : Store) (existing : Option Nat) (receipt : Receipt) : Checked Nat :=
  match existing with
  | some slot => .ok slot
  | none =>
      findFreeOr s.statements s.capacities.statements
        (receipt.fail .statementCapacity statementKind 0 0 0 s.capacities.statements 0)

/-- An insertion of a support that the statement does not have. -/
def attachSupport (digests : Digests) (s : Store) (command : Command) (existing : Option Nat)
    (receipt : Receipt) : Checked (Store × Receipt) := do
  let statementSlot ← statementPlace s existing receipt
  let supportSlot ← findFreeOr s.supports s.capacities.supports
    (receipt.fail .supportCapacity supportKind 0 0 0 s.capacities.supports 0)
  let versionSlot ← findFreeOr s.versions s.capacities.versions
    (receipt.fail .versionCapacity versionKind 0 0 0 s.capacities.versions 0)
  let a : Attachment :=
    { newStatement := existing.isNone
      statementSlot
      supportSlot
      versionSlot
      encodedHead := if existing.isNone then 0 else s.candidateHeads statementSlot }
  checkAttachment s command a receipt
  let after := attach digests s command a
  let receipt := { receipt with
    outcome := .inserted
    insertion := a.newStatement.toNat ||| (s.headTruth a.encodedHead <<< 1) }
  .ok (after, ((receipt.fillStatement after statementSlot).fillSupport after supportSlot).fillVersion
    after versionSlot)

/-- The version that already has the support, with the current truth of the statement. -/
def reportUnchanged (s : Store) (statementSlot versionSlot : Nat) (receipt : Receipt) : Receipt :=
  let receipt := ((receipt.fillStatement s statementSlot).fillSupport s
    (s.versions versionSlot).body.supportSlot).fillVersion s versionSlot
  { receipt with
    outcome := .unchanged
    insertion := s.headTruth (s.candidateHeads statementSlot) <<< 1 }

def insertSupport (digests : Digests) (s : Store) (command : Command) (receipt : Receipt)
    : Checked (Store × Receipt) := do
  validateCandidate s command.slot command.generation receipt
  refuseIf (halfMax < command.statementRecord ∨ halfMax < command.supportRecord)
    (receipt.fail .invalidCommand supportKind 0 0 0 0 10)
  refuseIf (command.statementRecord ≠ halfMax ∧ ∃ word ∈ command.reconstruction, word ≠ 0)
    (receipt.fail .invalidCommand statementKind 0 0 0 0 19)
  let existing ← findStatement s s.candidateHeads command.statement receipt
  match existing with
  | none => attachSupport digests s command none receipt
  | some slot =>
      let version ← findEventVersion digests s slot (s.candidateHeads slot) command.support receipt
      match version with
      | some version => .ok (s, reportUnchanged s slot version receipt)
      | none => attachSupport digests s command (some slot) receipt

-- Terminals

def Record.stagedBy {α : Type} (record : Record α) (owner : Nat) : Prop :=
  record.state = .staged ∧ record.owner = owner

instance {α : Type} (record : Record α) (owner : Nat) : Decidable (record.stagedBy owner) :=
  inferInstanceAs (Decidable (_ ∧ _))

/-- The first record below the capacity that the owner staged in the last generation. -/
def findExhausted {α : Type} (records : Nat → Record α) (capacity owner : Nat) : Option Nat :=
  (List.range capacity).find? fun slot =>
    (records slot).stagedBy owner ∧ (records slot).generation = wordMax

def refuseExhausted {α : Type} (records : Nat → Record α) (kind capacity owner : Nat)
    (receipt : Receipt) : Checked Unit :=
  match findExhausted records capacity owner with
  | none => .ok ()
  | some slot => .error (receipt.fail .generationExhausted kind slot (records slot).generation
      (records slot).generation capacity 0)

def preflightDiscard (s : Store) (receipt : Receipt) : Checked Unit := do
  preflightCandidateRetirement s receipt
  let owner := s.candidate.generation
  refuseExhausted s.statements statementKind s.capacities.statements owner receipt
  refuseExhausted s.supports supportKind s.capacities.supports owner receipt
  refuseExhausted s.versions versionKind s.capacities.versions owner receipt

def Record.retire {α : Type} (owner : Nat) (record : Record α) : Record α :=
  if record.stagedBy owner then
    { record with state := .free, generation := bump record.generation, owner := 0 }
  else record

def Record.seal {α : Type} (owner : Nat) (record : Record α) : Record α :=
  if record.stagedBy owner then { record with state := .sealed, owner := 0 } else record

/-- The candidate is free again, under the next generation. -/
def Store.release (s : Store) : Store :=
  { s with
    candidate := { s.candidate with state := .free, generation := bump s.candidate.generation }
    candidateHeads := fun _ => 0 }

def Store.discarded (s : Store) : Store :=
  let owner := s.candidate.generation
  Store.release { s with
    statements := fun slot => (s.statements slot).retire owner
    supports := fun slot => (s.supports slot).retire owner
    versions := fun slot => (s.versions slot).retire owner }

def discard (s : Store) (command : Command) (receipt : Receipt) : Checked (Store × Receipt) := do
  validateCandidate s command.slot command.generation receipt
  preflightDiscard s receipt
  let after := s.discarded
  .ok (after, { receipt with forkSlot := 0, forkGeneration := after.candidate.generation })

/-- The store with the candidate as a root in a free slot. -/
def Store.sealedAt (s : Store) (rootSlot : Nat) : Store :=
  let owner := s.candidate.generation
  let root : Root :=
    { s.roots rootSlot with
      state := .sealed, base := s.candidate.baseSlot, extents := s.candidate.extents }
  Store.release { s with
    statements := fun slot => (s.statements slot).seal owner
    supports := fun slot => (s.supports slot).seal owner
    versions := fun slot => (s.versions slot).seal owner
    roots := Function.update s.roots rootSlot root
    rootHeads := Function.update s.rootHeads rootSlot s.candidateHeads }

def sealCandidate (s : Store) (command : Command) (receipt : Receipt) : Checked (Store × Receipt) := do
  validateCandidate s command.slot command.generation receipt
  preflightCandidateRetirement s receipt
  let baseSlot := s.candidate.baseSlot
  let baseGeneration := s.candidate.baseGeneration
  validateRoot s baseSlot baseGeneration receipt
  let extents := s.candidate.extents
  let base := s.roots baseSlot
  if extents.statements = base.extents.statements ∧ extents.supports = base.extents.supports
      ∧ extents.versions = base.extents.versions then
    refuseIf (extents.digest ≠ base.extents.digest)
      (receipt.fail .corruptLineage rootKind baseSlot baseGeneration baseGeneration 0 0)
    let (after, receipt) ← discard s command receipt
    .ok (after, { receipt with
      outcome := .unchanged
      rootSlot := baseSlot, rootGeneration := baseGeneration, extents := base.extents })
  else
    match findFree (fun slot => (s.roots slot).state) s.capacities.roots with
    | none => .error (receipt.fail .rootCapacity rootKind 0 0 0 s.capacities.roots 0)
    | some rootSlot =>
        let after := s.sealedAt rootSlot
        .ok (after, { receipt with
          outcome := .inserted
          rootSlot, rootGeneration := (after.roots rootSlot).generation
          forkSlot := 0, forkGeneration := after.candidate.generation
          extents := (after.roots rootSlot).extents })

end Xlog.Cuda.SemanticGraph
