import Mathlib.Logic.Function.Basic
import Mathlib.Algebra.Ring.Nat

/-! The device store of semantic records: roots over statements, supports and versions, one
candidate, and the receipt that a command fills in. Validations refuse a command by the receipt
that they fail with.
-/

namespace Xlog.Cuda.SemanticGraph

-- Words

/-- `UINT64_MAX`. -/
def wordMax : Nat := 2 ^ 64 - 1

/-- `UINT32_MAX`. -/
def halfMax : Nat := 2 ^ 32 - 1

/-- The word after an increment. -/
def bump (generation : Nat) : Nat := (generation + 1) % 2 ^ 64

/-- The slot that is none, `kNull`. -/
def noSlot : Nat := wordMax

def magic : Nat := 0x584c4f4753484731

/-- The four words of a digest. -/
abbrev Identity := Nat × Nat × Nat × Nat

def zeroIdentity : Identity := (0, 0, 0, 0)

-- Records

inductive RecordState where
  | free
  | live
  | staged
  | sealed
  deriving DecidableEq, Repr

def RecordState.code : RecordState → Nat
  | .free => 0
  | .live => 1
  | .staged => 2
  | .sealed => 3

def RecordState.isLive (state : RecordState) : Bool := state = .staged || state = .sealed

/-- The words that every table has first: state, generation and staging owner. -/
structure Record (α : Type) where
  state : RecordState
  generation : Nat
  owner : Nat
  body : α

structure SupportBody where
  statementSlot : Nat
  statementGeneration : Nat
  polarity : Nat
  identity : Identity
  statementRecord : Nat
  supportRecord : Nat
  reconstruction : List Nat

/-- A version links to the version before it by its slot plus one. -/
structure VersionBody where
  statementSlot : Nat
  statementGeneration : Nat
  supportSlot : Nat
  supportGeneration : Nat
  previous : Nat
  truth : Nat
  identity : Identity
  ordinal : Nat

structure Extents where
  statements : Nat
  supports : Nat
  versions : Nat
  digest : Identity
  deriving DecidableEq

structure Root where
  state : RecordState
  generation : Nat
  base : Nat
  extents : Extents

structure Candidate where
  state : RecordState
  generation : Nat
  baseSlot : Nat
  baseGeneration : Nat
  extents : Extents

structure Capacities where
  roots : Nat
  statements : Nat
  supports : Nat
  versions : Nat
  deriving DecidableEq

structure Control where
  magic : Nat
  owner : Nat
  capacities : Capacities
  arenaWords : Nat
  deriving DecidableEq

/-- The arena under the layout of the capacities. A table is a function of the slot, and only the
slots below its capacity exist. A head is the slot of a version plus one, or zero.
-/
structure Store where
  capacities : Capacities
  control : Control
  roots : Nat → Root
  candidate : Candidate
  statements : Nat → Record Identity
  supports : Nat → Record SupportBody
  versions : Nat → Record VersionBody
  rootHeads : Nat → Nat → Nat
  candidateHeads : Nat → Nat

/-- The words of an arena: control, roots, candidate, records and heads. -/
def Capacities.arenaWords (c : Capacities) : Nat :=
  16 + c.roots * 16 + 16 + c.statements * 8 + c.supports * 17 + c.versions * 16
    + c.roots * c.statements + c.statements

/-- The check of `build_layout`. -/
def Capacities.Valid (c : Capacities) : Prop :=
  (c.roots ≠ 0 ∧ c.statements ≠ 0 ∧ c.supports ≠ 0 ∧ c.versions ≠ 0)
  ∧ (c.roots ≤ halfMax ∧ c.statements ≤ halfMax ∧ c.supports ≤ halfMax ∧ c.versions ≤ halfMax)
  ∧ c.arenaWords ≤ wordMax

instance (c : Capacities) : Decidable c.Valid :=
  inferInstanceAs (Decidable ((_ ∧ _) ∧ (_ ∧ _) ∧ _))

-- Commands and receipts

inductive Status where
  | ok
  | foreignOwner
  | slotOutOfRange
  | staleGeneration
  | inactive
  | notReachable
  | statementCapacity
  | supportCapacity
  | versionCapacity
  | rootCapacity
  | generationExhausted
  | corruptLineage
  | invalidCommand
  | arenaMismatch
  deriving DecidableEq, Repr

inductive Outcome where
  | none
  | inserted
  | unchanged
  deriving DecidableEq, Repr

def rootKind : Nat := 1
def forkKind : Nat := 2
def statementKind : Nat := 3
def supportKind : Nat := 4
def versionKind : Nat := 5

inductive Operation where
  | none
  | initializeArena
  | fork
  | insertSupport
  | discard
  | seal
  | snapshot
  | truth
  | inspectStatement
  | inspectSupport
  | inspectVersion
  | preflightTransition
  | retireRoot
  | unknown (code : Nat)
  deriving DecidableEq, Repr

def Operation.code : Operation → Nat
  | .none => 0
  | .initializeArena => 1
  | .fork => 2
  | .insertSupport => 3
  | .discard => 4
  | .seal => 5
  | .snapshot => 6
  | .truth => 7
  | .inspectStatement => 8
  | .inspectSupport => 9
  | .inspectVersion => 10
  | .preflightTransition => 11
  | .retireRoot => 12
  | .unknown code => code

/-- The words of a command that some operation reads. -/
structure Command where
  operation : Operation := .none
  owner : Nat := 0
  viewKind : Nat := 0
  slot : Nat := 0
  generation : Nat := 0
  targetSlot : Nat := 0
  targetGeneration : Nat := 0
  polarity : Nat := 0
  statementRecord : Nat := 0
  supportRecord : Nat := 0
  statement : Identity := zeroIdentity
  support : Identity := zeroIdentity
  reconstruction : List Nat := []

structure Receipt where
  status : Status := .ok
  outcome : Outcome := .none
  truth : Nat := 0
  rootSlot : Nat := 0
  rootGeneration : Nat := 0
  forkSlot : Nat := 0
  forkGeneration : Nat := 0
  statementSlot : Nat := 0
  statementGeneration : Nat := 0
  supportSlot : Nat := 0
  supportGeneration : Nat := 0
  versionSlot : Nat := 0
  versionGeneration : Nat := 0
  extents : Extents := ⟨0, 0, 0, zeroIdentity⟩
  statement : Identity := zeroIdentity
  support : Identity := zeroIdentity
  version : Identity := zeroIdentity
  insertion : Nat := 0
  kind : Nat := 0
  slot : Nat := 0
  presented : Nat := 0
  current : Nat := 0
  capacity : Nat := 0
  detail : Nat := 0
  owner : Nat := 0
  acquiredSlot : Nat := 0
  acquiredGeneration : Nat := 0
  deriving DecidableEq

/-- The words of a refusal. -/
def Receipt.fail (receipt : Receipt) (status : Status) (kind slot presented current capacity
    detail : Nat) : Receipt :=
  { receipt with status, kind, slot, presented, current, capacity, detail }

/-- A command goes on, or stops with the receipt of its refusal. -/
abbrev Checked := Except Receipt

def refuseIf (refused : Prop) [Decidable refused] (receipt : Receipt) : Checked Unit :=
  if refused then .error receipt else .ok ()

-- Digests

structure DecodedStatement where
  identity : Identity
  record : Nat
  reconstruction : List Nat

structure DecodedSupport where
  polarity : Nat
  provenance : Identity
  source : Identity
  context : Identity
  scope : Identity
  record : Nat

/-- The hashes of the store. Nothing below depends on what they compute. -/
structure Digests where
  support : Identity → DecodedSupport → Identity
  version : Identity → Identity → Nat → Identity
  root : Identity → Identity → Nat → Nat → Nat → Identity

-- Validation of handles

def validateControl (s : Store) (expectedOwner : Nat) (command : Command) (receipt : Receipt)
    : Checked Unit := do
  refuseIf (s.control.magic ≠ magic ∨ s.control.owner ≠ expectedOwner)
    (receipt.fail .foreignOwner rootKind 0 expectedOwner s.control.owner 0 s.control.magic)
  refuseIf (s.control.capacities ≠ s.capacities ∨ s.control.arenaWords ≠ s.capacities.arenaWords)
    (receipt.fail .arenaMismatch rootKind 0 s.capacities.arenaWords s.control.arenaWords 0 0)
  refuseIf (command.owner ≠ expectedOwner)
    (receipt.fail .foreignOwner rootKind 0 command.owner expectedOwner 0 0)

def validateRoot (s : Store) (slot generation : Nat) (receipt : Receipt) : Checked Unit := do
  refuseIf (s.capacities.roots ≤ slot)
    (receipt.fail .slotOutOfRange rootKind slot generation 0 s.capacities.roots 0)
  refuseIf ((s.roots slot).generation ≠ generation)
    (receipt.fail .staleGeneration rootKind slot generation (s.roots slot).generation
      s.capacities.roots 0)
  refuseIf ((s.roots slot).state ≠ .sealed)
    (receipt.fail .inactive rootKind slot generation (s.roots slot).generation
      s.capacities.roots (s.roots slot).state.code)

def validateCandidate (s : Store) (slot generation : Nat) (receipt : Receipt)
    : Checked Unit := do
  refuseIf (slot ≠ 0) (receipt.fail .slotOutOfRange forkKind slot generation 0 1 0)
  refuseIf (s.candidate.generation ≠ generation)
    (receipt.fail .staleGeneration forkKind slot generation s.candidate.generation 1 0)
  refuseIf (s.candidate.state ≠ .live)
    (receipt.fail .inactive forkKind slot generation s.candidate.generation 1
      s.candidate.state.code)

/-- The extents and heads of the root or the candidate that a command views. -/
def validateView (s : Store) (command : Command) (receipt : Receipt)
    : Checked (Extents × (Nat → Nat)) := do
  if command.viewKind = rootKind then
    validateRoot s command.slot command.generation receipt
    .ok ((s.roots command.slot).extents, s.rootHeads command.slot)
  else if command.viewKind = forkKind then
    validateCandidate s command.slot command.generation receipt
    .ok (s.candidate.extents, s.candidateHeads)
  else
    .error (receipt.fail .invalidCommand rootKind command.slot command.generation 0 0
      command.viewKind)

-- Validation of lineage

def validateHead (s : Store) (statementSlot encodedHead : Nat) (receipt : Receipt)
    : Checked Unit := do
  if encodedHead = 0 then
    .ok ()
  else
    let slot := encodedHead - 1
    refuseIf (s.capacities.statements ≤ statementSlot ∨ s.capacities.versions ≤ slot)
      (receipt.fail .corruptLineage versionKind slot 0 0 s.capacities.versions 1)
    let version := s.versions slot
    let statement := s.statements statementSlot
    refuseIf (¬statement.state.isLive ∨ statement.generation = 0 ∨ ¬version.state.isLive
        ∨ version.generation = 0 ∨ version.body.statementSlot ≠ statementSlot
        ∨ version.body.statementGeneration ≠ statement.generation)
      (receipt.fail .corruptLineage versionKind slot version.body.statementGeneration
        statement.generation s.capacities.versions 2)

/-- The loop of `find_statement` over the slots that are left. -/
def findStatementFrom (s : Store) (heads : Nat → Nat) (identity : Identity) (receipt : Receipt)
    : Nat → Nat → Checked (Option Nat)
  | 0, _ => .ok none
  | left + 1, slot =>
      if heads slot = 0 then
        findStatementFrom s heads identity receipt left (slot + 1)
      else do
        let statement := s.statements slot
        refuseIf (¬statement.state.isLive)
          (receipt.fail .corruptLineage statementKind slot statement.generation
            statement.generation s.capacities.statements 3)
        validateHead s slot (heads slot) receipt
        if statement.body = identity then .ok (some slot)
        else findStatementFrom s heads identity receipt left (slot + 1)

def findStatement (s : Store) (heads : Nat → Nat) (identity : Identity) (receipt : Receipt)
    : Checked (Option Nat) :=
  findStatementFrom s heads identity receipt s.capacities.statements 0

def validateVersionLink (s : Store) (statementSlot slot : Nat) (receipt : Receipt)
    : Checked Unit := do
  refuseIf (s.capacities.statements ≤ statementSlot ∨ s.capacities.versions ≤ slot)
    (receipt.fail .corruptLineage versionKind slot 0 0 s.capacities.versions 4)
  let version := s.versions slot
  let statement := s.statements statementSlot
  refuseIf (¬statement.state.isLive ∨ statement.generation = 0 ∨ ¬version.state.isLive
      ∨ version.generation = 0 ∨ version.body.statementSlot ≠ statementSlot
      ∨ version.body.statementGeneration ≠ statement.generation
      ∨ s.capacities.supports ≤ version.body.supportSlot)
    (receipt.fail .corruptLineage versionKind slot version.body.statementGeneration
      statement.generation s.capacities.versions 5)
  let support := s.supports version.body.supportSlot
  refuseIf (¬support.state.isLive ∨ support.generation = 0
      ∨ support.generation ≠ version.body.supportGeneration
      ∨ support.body.statementSlot ≠ statementSlot
      ∨ support.body.statementGeneration ≠ statement.generation)
    (receipt.fail .corruptLineage supportKind version.body.supportSlot
      version.body.supportGeneration support.generation s.capacities.supports 6)

/-- A record of a root is sealed. A record of the candidate may be staged by its owner. -/
def Store.foreign {α : Type} (s : Store) (candidate : Bool) (record : Record α) : Prop :=
  (candidate = false ∧ record.state ≠ .sealed)
  ∨ (record.state = .staged ∧ record.owner ≠ s.candidate.generation)

instance {α : Type} (s : Store) (candidate : Bool) (record : Record α) :
    Decidable (s.foreign candidate record) :=
  inferInstanceAs (Decidable ((_ ∧ _) ∨ (_ ∧ _)))

/-- The identity and truth of the version behind a head or link. -/
def Store.headIdentity (s : Store) (encoded : Nat) : Identity :=
  if encoded = 0 then zeroIdentity else (s.versions (encoded - 1)).body.identity

def Store.headTruth (s : Store) (encoded : Nat) : Nat :=
  if encoded = 0 then 0 else (s.versions (encoded - 1)).body.truth

/-- The body of the loop of `visit_support_chain`. -/
def validateChainLink (digests : Digests) (s : Store) (statementSlot : Nat) (candidate : Bool)
    (newerOrdinal slot : Nat) (receipt : Receipt) : Checked Unit := do
  validateVersionLink s statementSlot slot receipt
  let version := s.versions slot
  let support := s.supports version.body.supportSlot
  refuseIf (s.foreign candidate version ∨ s.foreign candidate support ∨ version.generation = 0
      ∨ support.generation = 0 ∨ version.body.ordinal = 0 ∨ newerOrdinal ≤ version.body.ordinal
      ∨ (support.body.polarity ≠ 1 ∧ support.body.polarity ≠ 2)
      ∨ halfMax < support.body.statementRecord ∨ halfMax < support.body.supportRecord)
    (receipt.fail .corruptLineage versionKind slot version.generation version.generation
      s.capacities.versions 17)
  refuseIf (support.body.statementRecord ≠ halfMax ∧ ∃ word ∈ support.body.reconstruction, word ≠ 0)
    (receipt.fail .corruptLineage supportKind version.body.supportSlot support.generation
      support.generation s.capacities.supports 19)
  if version.body.previous ≠ 0 then
    validateVersionLink s statementSlot (version.body.previous - 1) receipt
  let previousTruth := s.headTruth version.body.previous
  refuseIf (3 < previousTruth ∨ version.body.truth ≠ previousTruth ||| support.body.polarity
      ∨ version.body.identity ≠ digests.version (s.headIdentity version.body.previous)
        support.body.identity (previousTruth ||| support.body.polarity))
    (receipt.fail .corruptLineage versionKind slot version.generation version.generation
      s.capacities.versions 18)

/-- The versions from a head on, the newest first, each given to the visitor. -/
def visitLinks {α : Type} (digests : Digests) (s : Store) (statementSlot : Nat) (candidate : Bool)
    (visit : α → Nat → Record VersionBody → Record SupportBody → α) (receipt : Receipt)
    : Nat → Nat → Nat → α → Checked α
  | 0, encoded, _, seen => do
      refuseIf (encoded ≠ 0)
        (receipt.fail .corruptLineage versionKind (encoded - 1) 0 0 s.capacities.versions 7)
      .ok seen
  | steps + 1, encoded, newerOrdinal, seen => do
      if encoded = 0 then
        .ok seen
      else
        let version := s.versions (encoded - 1)
        validateChainLink digests s statementSlot candidate newerOrdinal (encoded - 1) receipt
        visitLinks digests s statementSlot candidate visit receipt steps version.body.previous
          version.body.ordinal
          (visit seen (encoded - 1) version (s.supports version.body.supportSlot))

def visitSupportChain {α : Type} (digests : Digests) (s : Store) (statementSlot encodedHead : Nat)
    (candidate : Bool) (visit : α → Nat → Record VersionBody → Record SupportBody → α) (seen : α)
    (receipt : Receipt) : Checked α := do
  refuseIf (s.capacities.statements ≤ statementSlot)
    (receipt.fail .corruptLineage statementKind statementSlot 0 0 s.capacities.statements 15)
  let statement := s.statements statementSlot
  refuseIf (s.foreign candidate statement ∨ ¬statement.state.isLive ∨ statement.generation = 0)
    (receipt.fail .corruptLineage statementKind statementSlot statement.generation
      statement.generation s.capacities.statements 16)
  visitLinks digests s statementSlot candidate visit receipt s.capacities.versions encodedHead
    wordMax seen

/-- The oldest version of the chain whose support has the identity. -/
def findEventVersion (digests : Digests) (s : Store) (statementSlot encodedHead : Nat)
    (supportIdentity : Identity) (receipt : Receipt) : Checked (Option Nat) :=
  visitSupportChain digests s statementSlot encodedHead true
    (fun found slot _ support =>
      if support.body.identity = supportIdentity then some slot else found) none receipt

/-- The first free slot. -/
def findFree (state : Nat → RecordState) (capacity : Nat) : Option Nat :=
  (List.range capacity).find? fun slot => state slot = .free

-- Filling receipts

def Receipt.fillView (receipt : Receipt) (command : Command) (extents : Extents) : Receipt :=
  let receipt := { receipt with
    kind := command.viewKind, slot := command.slot, presented := command.generation
    extents }
  if command.viewKind = rootKind then
    { receipt with rootSlot := command.slot, rootGeneration := command.generation }
  else
    { receipt with forkSlot := command.slot, forkGeneration := command.generation }

def Receipt.fillStatement (receipt : Receipt) (s : Store) (slot : Nat) : Receipt :=
  { receipt with
    statementSlot := slot
    statementGeneration := (s.statements slot).generation
    statement := (s.statements slot).body }

def Receipt.fillSupport (receipt : Receipt) (s : Store) (slot : Nat) : Receipt :=
  { receipt with
    supportSlot := slot
    supportGeneration := (s.supports slot).generation
    support := (s.supports slot).body.identity }

def Receipt.fillVersion (receipt : Receipt) (s : Store) (slot : Nat) : Receipt :=
  { receipt with
    truth := (s.versions slot).body.truth
    versionSlot := slot
    versionGeneration := (s.versions slot).generation
    version := (s.versions slot).body.identity }

end Xlog.Cuda.SemanticGraph
