import Xlog.Cuda.SemanticLane

/-! A resident edit lane is all or nothing: a fork, insertions and truths that each take the
receipt before them, and a terminal. The authority over the candidate goes from receipt to receipt.
-/

namespace Xlog.Cuda.SemanticGraph

open Xlog.Foundation

-- Resident lanes

/-- An edit of a lane with its decoded input. -/
inductive LaneStep where
  | insertSupport (statement : Option DecodedStatement) (support : Option DecodedSupport)
  | forkTruth (statement : Option DecodedStatement)

/-- A lane over the root of a handle or of a receipt. -/
structure ResidentLane where
  owner : Nat
  handle : Option ResidentHandle
  base : Option Receipt
  steps : List LaneStep
  sealing : Bool

def ResidentLane.forkDescriptor (lane : ResidentLane) : Descriptor :=
  { expectedOwner := lane.owner
    abiGeneration
    admission := .fork
    handle := lane.handle
    sourceReceipt := lane.base }

def LaneStep.descriptor (owner : Nat) (source : Receipt) : LaneStep → Descriptor
  | .insertSupport statement support =>
      { expectedOwner := owner
        abiGeneration
        admission := .insertSupport
        sourceReceipt := some source
        decodedStatement := statement
        decodedSupport := support }
  | .forkTruth statement =>
      { expectedOwner := owner
        abiGeneration
        admission := .forkTruth
        sourceReceipt := some source
        decodedStatement := statement }

def ResidentLane.terminalDescriptor (lane : ResidentLane) (source : Receipt) : Descriptor :=
  { expectedOwner := lane.owner
    abiGeneration
    admission := if lane.sealing then .seal else .discard
    sourceReceipt := some source }

/-- The launches of the steps, each with the receipt and the store of the launch before it. -/
def runSteps (digests : Digests) (owner : Nat) : List LaneStep → Executed → List Executed
  | [], _ => []
  | step :: rest, before =>
      let launched := execute digests before.store (step.descriptor owner before.receipt)
      launched :: runSteps digests owner rest launched

structure LaneRun where
  fork : Executed
  steps : List Executed
  terminal : Executed

def LaneRun.launches (run : LaneRun) : List Executed := run.fork :: run.steps ++ [run.terminal]

def runResidentLane (digests : Digests) (lane : ResidentLane) (s : Store) : LaneRun :=
  let fork := execute digests s lane.forkDescriptor
  let steps := runSteps digests lane.owner lane.steps fork
  let last := steps.getLastD fork
  { fork, steps, terminal := execute digests last.store (lane.terminalDescriptor last.receipt) }

/-- The event that a step inserts when its input is there. -/
def LaneStep.event (digests : Digests) : LaneStep → Option Event
  | .insertSupport (some statement) (some support) =>
      some (statement.identity, digests.support statement.identity support)
  | _ => none

def ResidentLane.events (digests : Digests) (lane : ResidentLane) : List Event :=
  lane.steps.filterMap (LaneStep.event digests)

-- Launches

section

variable {digests : Digests} {s : Store} {d : Descriptor} {receipt : Receipt}

/-- A launch that was refused admission writes its receipt only. -/
theorem execute_refused (h : Sound digests s) (abi : d.abiGeneration = abiGeneration)
    {refusal : Receipt}
    (admitted : admitLaunch digests d { owner := d.expectedOwner } = .error refusal)
    : (execute digests s d).store = s ∧ (execute digests s d).receipt = refusal := by
  rw [execute]
  dsimp only
  rw [if_neg (not_not.mpr abi), if_neg (not_not.mpr h.capacities), admitted]
  exact ⟨rfl, rfl⟩

/-- An admitted command runs when the control words are those of its owner. -/
theorem execute_admitted (h : Sound digests s) (abi : d.abiGeneration = abiGeneration)
    {command : Command} {retainRefusal : Bool}
    (admitted : admitLaunch digests d { owner := d.expectedOwner }
      = .ok (receipt, .run command retainRefusal))
    (operation : command.operation ≠ .initializeArena)
    (hcontrol : s.control.owner = d.expectedOwner) (hcommand : command.owner = d.expectedOwner)
    : (execute digests s d).store = (runAdmitted digests d s command retainRefusal receipt).1
      ∧ (execute digests s d).receipt
        = (runAdmitted digests d s command retainRefusal receipt).2 := by
  rw [execute]
  dsimp only
  rw [if_neg (not_not.mpr abi), if_neg (not_not.mpr h.capacities), admitted]
  dsimp only
  rw [Task.command, if_neg operation, validateControl_ok h hcontrol hcommand]
  exact ⟨rfl, rfl⟩

/-- The control words refuse an admitted command of another owner. -/
theorem execute_foreign (h : Sound digests s) (abi : d.abiGeneration = abiGeneration)
    {command : Command} {retainRefusal : Bool}
    (admitted : admitLaunch digests d { owner := d.expectedOwner }
      = .ok (receipt, .run command retainRefusal))
    (operation : command.operation ≠ .initializeArena)
    (hcontrol : s.control.owner ≠ d.expectedOwner)
    : (execute digests s d).store = s ∧ receipt.Refusal (execute digests s d).receipt := by
  have hends := @validateControl_ends s command receipt d.expectedOwner
  rw [execute]
  dsimp only
  rw [if_neg (not_not.mpr abi), if_neg (not_not.mpr h.capacities), admitted]
  dsimp only
  rw [Task.command, if_neg operation]
  cases hcheck : validateControl s d.expectedOwner command receipt with
  | error refusal =>
      rw [hcheck] at hends
      exact ⟨rfl, hends⟩
  | ok _ =>
      rw [hcheck] at hends
      exact absurd hends hcontrol

variable {command : Command} {after : Store} {result : Receipt}

/-- A command that succeeded publishes its handle. -/
theorem runAdmitted_ok (run : runCommand digests s command receipt = (after, result))
    (hstatus : result.status = .ok)
    : runAdmitted digests d s command false receipt
      = (after, publishHandle d.admission command result) := by
  rw [runAdmitted, run]
  dsimp only
  rw [if_neg (by simp [hstatus]), if_neg (by simp), if_pos hstatus]

theorem runAdmitted_refused (run : runCommand digests s command receipt = (after, result))
    (hstatus : result.status ≠ .ok) (hadmission : d.admission ≠ .seal)
    : runAdmitted digests d s command false receipt = (after, result) := by
  rw [runAdmitted, run]
  dsimp only
  rw [if_neg (by simp [hadmission]), if_neg (by simp), if_neg hstatus]

/-- A cleanup that succeeded keeps the refusal of the lane. -/
theorem runAdmitted_retained (run : runCommand digests s command receipt = (after, result))
    (hstatus : result.status = .ok)
    : runAdmitted digests d s command true receipt = (after, d.sourceReceipt.getD result) := by
  rw [runAdmitted, run]
  dsimp only
  rw [if_neg (by simp), if_pos rfl, if_pos hstatus]

/-- A refused seal discards the candidate and keeps its refusal. -/
theorem runAdmitted_cleanup (run : runCommand digests s command receipt = (after, result))
    (hstatus : result.status ≠ .ok) (hadmission : d.admission = .seal) {cleanedStore : Store}
    {cleaned : Receipt}
    (cleanup : discard after
      { operation := .discard, owner := d.expectedOwner
        slot := command.slot, generation := command.generation } { owner := d.expectedOwner }
      = .ok (cleanedStore, cleaned))
    (hcleaned : cleaned.status = .ok)
    : runAdmitted digests d s command false receipt = (cleanedStore, result) := by
  rw [runAdmitted, run]
  dsimp only
  rw [if_pos ⟨hadmission, rfl, hstatus⟩, cleanup]
  change (cleanedStore, if cleaned.status = .ok then result else cleaned) = _
  rw [if_pos hcleaned]

end

-- Receipts of a lane

/-- A receipt with the authority over the candidate of a generation. -/
structure Receipt.Holds (receipt : Receipt) (owner generation : Nat) : Prop where
  owner : receipt.owner = owner
  acquiredSlot : receipt.acquiredSlot = 0
  acquiredGeneration : receipt.acquiredGeneration = generation

/-- A receipt that succeeded and names the candidate. -/
structure Receipt.Names (receipt : Receipt) (owner generation : Nat) : Prop
    extends receipt.Holds owner generation where
  status : receipt.status = .ok
  kind : receipt.kind = forkKind
  slot : receipt.slot = 0
  presented : receipt.presented = generation

/-- The receipt of a command in a lane, before the command. -/
def laneReceipt (owner generation : Nat) : Receipt :=
  { owner, acquiredSlot := 0, acquiredGeneration := generation }

section

variable {digests : Digests} {base s : Store} {slot owner generation : Nat} {done : List Event}
  {source receipt : Receipt} {d : Descriptor}

theorem laneReceipt_holds : (laneReceipt owner generation).Holds owner generation :=
  ⟨rfl, rfl, rfl⟩

theorem Receipt.Refusal.holds {refusal : Receipt} (h : receipt.Refusal refusal)
    (holds : receipt.Holds owner generation)
    : refusal.Holds owner generation :=
  ⟨h.owner.trans holds.owner, h.acquiredSlot.trans holds.acquiredSlot,
    h.acquiredGeneration.trans holds.acquiredGeneration⟩

/-- A receipt that names the candidate loads its handle and its authority. -/
theorem loadCandidate_ok (hsource : source.Names owner generation) (hne : generation ≠ 0)
    (howner : d.expectedOwner = owner) (hhandle : d.handle = none)
    (hreceipt : d.sourceReceipt = some source)
    : loadCandidate d { owner := d.expectedOwner }
      = .ok (0, generation, laneReceipt owner generation) := by
  have hload : loadResidentHandle d forkKind { owner := d.expectedOwner } = .ok (0, generation) := by
    rw [loadResidentHandle, hhandle, hreceipt]
    dsimp only
    rw [refuseIf_ok (by simp [hsource.owner, howner]), ok_bind,
      refuseIf_ok (not_not.mpr hsource.status), ok_bind, refuseIf_ok (by simp [hsource.owner, howner]),
      ok_bind, refuseIf_ok (not_not.mpr hsource.kind), ok_bind, hsource.slot, hsource.presented]
  rw [loadCandidate, hload, ok_bind]
  dsimp only
  rw [inheritCandidateAcquisition, hreceipt]
  dsimp only
  rw [if_neg (by simp [hsource.acquiredSlot, hsource.acquiredGeneration, hne]), howner]
  rfl

/-- A refused receipt goes on as it is. -/
theorem loadCandidate_refused (hstatus : source.status ≠ .ok) (howner : source.owner = owner)
    (hexpected : d.expectedOwner = owner) (hhandle : d.handle = none)
    (hreceipt : d.sourceReceipt = some source)
    : loadCandidate d { owner := d.expectedOwner } = .error source := by
  rw [loadCandidate, loadResidentHandle, hhandle, hreceipt]
  dsimp only
  rw [refuseIf_ok (by simp [howner, hexpected]), ok_bind, refuseIf, if_pos hstatus]
  rfl

end

-- Steps

section

variable {digests : Digests} {base s : Store} {slot owner generation : Nat} {done : List Event}
  {source receipt : Receipt} {command : Command}

/-- A truth over the candidate succeeds and names the candidate. -/
theorem truth_ok (h : Sound digests s)
    (candidate : s.CandidateValid command.slot command.generation)
    (view : command.viewKind = forkKind)
    : ∃ result, truth s command receipt = .ok result ∧ receipt.Result result
        ∧ result.kind = forkKind ∧ result.slot = command.slot
        ∧ result.presented = command.generation := by
  have hview := (h.live candidate.live).view
  have hfill : ∀ extents, receipt.Result (receipt.fillView command extents)
      ∧ (receipt.fillView command extents).kind = forkKind
      ∧ (receipt.fillView command extents).slot = command.slot
      ∧ (receipt.fillView command extents).presented = command.generation := by
    intro extents
    rw [Receipt.fillView]
    dsimp only
    rw [view, if_neg (by decide)]
    exact ⟨⟨rfl, rfl, rfl, rfl⟩, rfl, rfl, rfl⟩
  obtain ⟨⟨hstatus, howner, hslot, hgeneration⟩, hkind, hslot', hpresented⟩ :=
    hfill s.candidate.extents
  rw [truth, validateView, view, if_neg (by decide), if_pos rfl, validateCandidate_ok candidate,
    ok_bind, ok_bind]
  dsimp only
  generalize receipt.fillView command s.candidate.extents = filled at *
  obtain ⟨found, hfind, _⟩ := @findStatement_ok digests s true s.candidateHeads _
    { filled with statement := command.statement } h.generations hview.lineage command.statement
  rw [hfind, ok_bind]
  cases found with
  | none => exact ⟨_, rfl, ⟨hstatus, howner, hslot, hgeneration⟩, hkind, hslot', hpresented⟩
  | some found =>
      dsimp only
      rw [validateHead_ok h.generations hview.lineage found, ok_bind]
      exact ⟨_, rfl, ⟨hstatus, howner, hslot, hgeneration⟩, hkind, hslot', hpresented⟩

/-- A launch in a lane went on with the lane, or was refused and changed nothing. -/
structure Stepped (digests : Digests) (base s : Store) (slot owner : Nat) (done : List Event)
    (event : Option Event) (launched : Executed) : Prop where
  holds : launched.receipt.Holds owner base.candidate.generation
  outcome
    : (launched.receipt.Names owner base.candidate.generation
        ∧ Editing digests base launched.store slot (event.toList ++ done))
      ∨ (launched.receipt.status ≠ .ok ∧ launched.store = s)

theorem Editing.refused {event : Option Event} {launched : Executed}
    (refusal : (laneReceipt owner base.candidate.generation).Refusal launched.receipt)
    (store : launched.store = s)
    : Stepped digests base s slot owner done event launched :=
  ⟨refusal.holds laneReceipt_holds, Or.inr ⟨refusal.status, store⟩⟩

theorem Editing.insertSupport (h : Editing digests base s slot done)
    (hcontrol : s.control.owner = owner) (hne : base.candidate.generation ≠ 0)
    (hsource : source.Names owner base.candidate.generation)
    (statement : Option DecodedStatement) (support : Option DecodedSupport)
    : Stepped digests base s slot owner done
        ((LaneStep.insertSupport statement support).event digests)
        (execute digests s ((LaneStep.insertSupport statement support).descriptor owner source)) := by
  let d := (LaneStep.insertSupport statement support).descriptor owner source
  have hload := @loadCandidate_ok owner _ source d hsource hne rfl rfl rfl
  have hmissing : (statement = none ∨ support = none) →
      admitLaunch digests d { owner := d.expectedOwner }
        = .error ((laneReceipt owner base.candidate.generation).fail .invalidCommand supportKind
          0 0 0 0 5) := by
    intro hnone
    change admitInsertion digests d { owner := d.expectedOwner } = _
    rw [admitInsertion, hload, ok_bind]
    rcases hnone with rfl | rfl
    · rfl
    · cases statement <;> rfl
  have hrefused : (statement = none ∨ support = none) →
      Stepped digests base s slot owner done
        ((LaneStep.insertSupport statement support).event digests) (execute digests s d) := by
    intro hnone
    obtain ⟨hstore, hreceipt⟩ := execute_refused h.sound rfl (hmissing hnone)
    refine Editing.refused ?_ hstore
    rw [hreceipt]
    exact refusal_fail (by simp)
  cases statement with
  | none => exact hrefused (Or.inl rfl)
  | some statement =>
      cases support with
      | none => exact hrefused (Or.inr rfl)
      | some support =>
          let command : Command :=
            { operation := .insertSupport, owner, slot := 0
              generation := base.candidate.generation
              polarity := support.polarity
              statementRecord := statement.record
              supportRecord := support.record
              statement := statement.identity
              support := digests.support statement.identity support
              reconstruction := statement.reconstruction }
          have hadmitted : admitLaunch digests d { owner := d.expectedOwner }
              = .ok (laneReceipt owner base.candidate.generation, .run command false) := by
            change admitInsertion digests d { owner := d.expectedOwner } = _
            rw [admitInsertion, hload, ok_bind]
            rfl
          obtain ⟨hstore, hreceipt⟩ := execute_admitted h.sound rfl hadmitted (by simp [command])
            hcontrol rfl
          have hends := @insertSupport_ends digests s command
            (laneReceipt owner base.candidate.generation) h.sound
          change Stepped digests base s slot owner done _ (execute digests s d)
          have hrun : runCommand digests s command (laneReceipt owner base.candidate.generation)
              = settle s (SemanticGraph.insertSupport digests s command
                (laneReceipt owner base.candidate.generation)) := rfl
          cases hresult : SemanticGraph.insertSupport digests s command
              (laneReceipt owner base.candidate.generation) with
          | error refusal =>
              rw [hresult] at hends hrun
              rw [runAdmitted_refused hrun hends.status (by simp [d, LaneStep.descriptor])]
                at hstore hreceipt
              refine Editing.refused ?_ hstore
              rw [hreceipt]
              exact hends
          | ok result =>
              rw [hresult] at hends hrun
              obtain ⟨hstatus, howner, hslot, hgeneration⟩ := hends.receipt
              rw [runAdmitted_ok hrun hstatus] at hstore hreceipt
              have hnames : (execute digests s d).receipt.Names owner base.candidate.generation := by
                rw [hreceipt]
                exact ⟨⟨howner, hslot, hgeneration⟩, hstatus, rfl, rfl, rfl⟩
              refine ⟨hnames.toHolds, Or.inl ⟨hnames, ?_⟩⟩
              rw [hstore]
              exact h.insert hends

theorem Editing.forkTruth (h : Editing digests base s slot done)
    (hcontrol : s.control.owner = owner) (hne : base.candidate.generation ≠ 0)
    (hsource : source.Names owner base.candidate.generation)
    (statement : Option DecodedStatement)
    : Stepped digests base s slot owner done ((LaneStep.forkTruth statement).event digests)
        (execute digests s ((LaneStep.forkTruth statement).descriptor owner source)) := by
  let d := (LaneStep.forkTruth statement).descriptor owner source
  have hload := @loadCandidate_ok owner _ source d hsource hne rfl rfl rfl
  have hadmit : admitLaunch digests d { owner := d.expectedOwner }
      = admitTruth d forkKind (0, base.candidate.generation)
          (laneReceipt owner base.candidate.generation) := by
    change (loadCandidate d { owner := d.expectedOwner } >>= _) = _
    rw [hload, ok_bind]
  cases statement with
  | none =>
      obtain ⟨hstore, hreceipt⟩ := execute_refused h.sound rfl hadmit
      refine Editing.refused ?_ hstore
      rw [hreceipt]
      exact refusal_fail (by simp)
  | some statement =>
      let command : Command :=
        { operation := .truth, owner, viewKind := forkKind, slot := 0
          generation := base.candidate.generation, statement := statement.identity }
      obtain ⟨hstore, hreceipt⟩ := @execute_admitted digests s d _ h.sound rfl command false hadmit
        (by simp [command]) hcontrol rfl
      obtain ⟨result, hresult, ⟨hstatus, howner, hslot, hgeneration⟩, hkind, hslot', hpresented⟩ :=
        @truth_ok digests s (laneReceipt owner base.candidate.generation) command h.sound
          h.candidateValid rfl
      have hrun : runCommand digests s command (laneReceipt owner base.candidate.generation)
          = (s, result) := by
        change settleQuery s (truth s command _) = _
        rw [hresult]
        rfl
      rw [runAdmitted_ok hrun hstatus] at hstore hreceipt
      have hnames : (execute digests s d).receipt.Names owner base.candidate.generation := by
        rw [hreceipt]
        exact ⟨⟨howner, hslot, hgeneration⟩, hstatus, hkind, hslot', hpresented⟩
      change Stepped digests base s slot owner done _ (execute digests s d)
      refine ⟨hnames.toHolds, Or.inl ⟨hnames, ?_⟩⟩
      rw [hstore]
      exact h

theorem Editing.step (h : Editing digests base s slot done)
    (hcontrol : s.control.owner = owner) (hne : base.candidate.generation ≠ 0)
    (hsource : source.Names owner base.candidate.generation) (step : LaneStep)
    : Stepped digests base s slot owner done (step.event digests)
        (execute digests s (step.descriptor owner source)) := by
  cases step with
  | insertSupport statement support => exact h.insertSupport hcontrol hne hsource statement support
  | forkTruth statement => exact h.forkTruth hcontrol hne hsource statement

/-- After a refusal a step changes nothing and carries the refusal. -/
theorem step_refused (h : Sound digests s) (hstatus : source.status ≠ .ok)
    (howner : source.owner = owner) (step : LaneStep)
    : (execute digests s (step.descriptor owner source)).store = s
      ∧ (execute digests s (step.descriptor owner source)).receipt = source := by
  cases step with
  | insertSupport statement support =>
      refine execute_refused h rfl ?_
      let d := (LaneStep.insertSupport statement support).descriptor owner source
      change admitInsertion digests d { owner := d.expectedOwner } = _
      rw [admitInsertion, loadCandidate_refused hstatus howner rfl rfl rfl]
      rfl
  | forkTruth statement =>
      refine execute_refused h rfl ?_
      let d := (LaneStep.forkTruth statement).descriptor owner source
      change (loadCandidate d { owner := d.expectedOwner } >>= _) = _
      rw [loadCandidate_refused hstatus howner rfl rfl rfl]
      rfl

end

-- Terminals

/-- What a terminal of a lane that succeeded so far leaves. -/
structure Ended (base : Store) (slot : Nat) (events : List Event) (sealing : Bool)
    (launched : Executed) : Prop where
  refused : launched.receipt.status ≠ .ok → sealing = true ∧ Restored base launched.store
  discarded : launched.receipt.status = .ok → sealing = false → Restored base launched.store
  unchanged
    : launched.receipt.status = .ok → sealing = true
      → (∀ event ∈ events, base.Holds (base.rootHeads slot) event)
      → Restored base launched.store ∧ launched.receipt.kind = rootKind
        ∧ launched.receipt.slot = slot ∧ launched.receipt.presented = (base.roots slot).generation
  added
    : launched.receipt.status = .ok → sealing = true
      → (∃ event ∈ events, ¬base.Holds (base.rootHeads slot) event)
      → ∃ rootSlot, NewRoot base launched.store slot rootSlot events
        ∧ launched.receipt.kind = rootKind ∧ launched.receipt.slot = rootSlot
        ∧ launched.receipt.presented = (base.roots rootSlot).generation

section

variable {digests : Digests} {base s : Store} {slot : Nat} {done : List Event} {source : Receipt}
  {lane : ResidentLane}

theorem discard_editing (h : Editing digests base s slot done) {owner : Nat} {receipt : Receipt}
    : ∃ result, discard s
        { operation := .discard, owner, slot := 0, generation := base.candidate.generation } receipt
        = .ok (s.discarded, result) ∧ receipt.Result result := by
  obtain ⟨result, hresult⟩ := @discard_ok digests s
    { operation := .discard, owner, slot := 0, generation := base.candidate.generation } receipt
    h.sound h.candidateValid
  have hdiscards := ends_ok discard_ends hresult
  refine ⟨result.2, ?_, ?_⟩
  · rw [hresult, ← hdiscards.store]
  · rw [hdiscards.receipt]
    exact ⟨rfl, rfl, rfl, rfl⟩

/-- The terminal of a refused lane restores the base. A seal reports the refusal. -/
theorem Editing.terminal_refused (h : Editing digests base s slot done) (sound : Sound digests base)
    (free : base.candidate.state = .free) (hcontrol : s.control.owner = lane.owner)
    (holds : source.Holds lane.owner base.candidate.generation) (hstatus : source.status ≠ .ok)
    : Restored base (execute digests s (lane.terminalDescriptor source)).store
      ∧ (lane.sealing = true
        → (execute digests s (lane.terminalDescriptor source)).receipt = source)
      ∧ (lane.sealing = false
        → (execute digests s (lane.terminalDescriptor source)).receipt.status = .ok) := by
  have hne := sound.generation.1
  let d := lane.terminalDescriptor source
  let command : Command :=
    { operation := .discard, owner := lane.owner, slot := 0
      generation := base.candidate.generation }
  obtain ⟨result, hresult, hkept⟩ := @discard_editing digests base s slot done h lane.owner
    { owner := lane.owner }
  have hrun : runCommand digests s command { owner := lane.owner } = (s.discarded, result) := by
    change settle s (discard s command _) = _
    rw [hresult]
    rfl
  have hterminal : ∀ operation, admitCandidateTerminal d { owner := lane.owner } operation
      = .ok ({ owner := lane.owner }, .run command (operation = .seal)) := by
    intro operation
    rw [admitCandidateTerminal]
    change (if source.status = .ok then _ else _) = _
    rw [if_neg hstatus, refuseIf_ok (show ¬source.owner ≠ d.expectedOwner from
      not_not.mpr holds.owner), ok_bind, refuseIf_ok (by rw [holds.acquiredGeneration]; exact hne),
      ok_bind, holds.acquiredSlot, holds.acquiredGeneration]
    rfl
  have hrestored := h.discarded sound free
  cases hsealing : lane.sealing with
  | true =>
      have hadmission : d.admission = .seal := if_pos hsealing
      have hadmitted : admitLaunch digests d { owner := d.expectedOwner }
          = .ok ({ owner := lane.owner }, .run command true) := by
        rw [admitLaunch, hadmission]
        exact hterminal .seal
      obtain ⟨hstore, hreceipt⟩ := execute_admitted h.sound rfl hadmitted (by simp [command])
        hcontrol rfl
      rw [runAdmitted_retained hrun hkept.status] at hstore hreceipt
      refine ⟨?_, fun _ => hreceipt, by simp⟩
      change Restored base (execute digests s d).store
      rw [hstore]
      exact hrestored
  | false =>
      have hadmission : d.admission = .discard := if_neg (by simp [hsealing])
      have hadmitted : admitLaunch digests d { owner := d.expectedOwner }
          = .ok ({ owner := lane.owner }, .run command false) := by
        rw [admitLaunch, hadmission]
        exact hterminal .discard
      obtain ⟨hstore, hreceipt⟩ := execute_admitted h.sound rfl hadmitted (by simp [command])
        hcontrol rfl
      rw [runAdmitted_ok hrun hkept.status, hadmission] at hstore hreceipt
      refine ⟨?_, by simp, fun _ => ?_⟩
      · change Restored base (execute digests s d).store
        rw [hstore]
        exact hrestored
      · change (execute digests s d).receipt.status = .ok
        rw [hreceipt]
        exact hkept.status

/-- The terminal of a lane that succeeded so far. -/
theorem Editing.terminal (h : Editing digests base s slot done) (sound : Sound digests base)
    (free : base.candidate.state = .free) (hcontrol : s.control.owner = lane.owner)
    (hsource : source.Names lane.owner base.candidate.generation)
    : Ended base slot done lane.sealing (execute digests s (lane.terminalDescriptor source)) := by
  have hne := sound.generation.1
  let d := lane.terminalDescriptor source
  let receipt := laneReceipt lane.owner base.candidate.generation
  have hload := @loadCandidate_ok lane.owner _ source d hsource hne rfl rfl rfl
  have hterminal : ∀ operation, admitCandidateTerminal d { owner := lane.owner } operation
      = .ok (receipt, .run { operation, owner := lane.owner, slot := 0
                             generation := base.candidate.generation } false) := by
    intro operation
    rw [admitCandidateTerminal]
    change (if source.status = .ok then loadCandidate d { owner := d.expectedOwner } >>= _ else _) = _
    rw [if_pos hsource.status, hload, ok_bind]
    rfl
  have hrestored := h.discarded sound free
  change Ended base slot done lane.sealing (execute digests s d)
  cases hsealing : lane.sealing with
  | false =>
      have hadmission : d.admission = .discard := if_neg (by simp [hsealing])
      obtain ⟨result, hresult, hkept⟩ := @discard_editing digests base s slot done h lane.owner
        receipt
      have hadmitted := hterminal .discard
      rw [show admitCandidateTerminal d { owner := lane.owner } .discard
        = admitLaunch digests d { owner := d.expectedOwner } by rw [admitLaunch, hadmission]; rfl]
        at hadmitted
      obtain ⟨hstore, hreceipt⟩ := execute_admitted h.sound rfl hadmitted (by simp) hcontrol rfl
      have hrun : runCommand digests s
          { operation := .discard, owner := lane.owner, slot := 0
            generation := base.candidate.generation } receipt = (s.discarded, result) := by
        rw [runCommand, hresult]
        rfl
      rw [runAdmitted_ok hrun hkept.status, hadmission] at hstore hreceipt
      have hok : (execute digests s d).receipt.status = .ok := by
        rw [hreceipt]
        exact hkept.status
      refine ⟨fun hnot => absurd hok hnot, fun _ _ => ?_, by simp, by simp⟩
      rw [hstore]
      exact hrestored
  | true =>
      have hadmission : d.admission = .seal := if_pos hsealing
      let command : Command :=
        { operation := .seal, owner := lane.owner, slot := 0
          generation := base.candidate.generation }
      have hends := @sealCandidate_ends s command receipt
      have hrun : runCommand digests s command receipt = settle s (sealCandidate s command receipt) :=
        rfl
      have hadmitted := hterminal .seal
      rw [show admitCandidateTerminal d { owner := lane.owner } .seal
        = admitLaunch digests d { owner := d.expectedOwner } by rw [admitLaunch, hadmission]; rfl]
        at hadmitted
      obtain ⟨hstore, hreceipt⟩ := execute_admitted h.sound rfl hadmitted (by simp) hcontrol rfl
      cases hresult : sealCandidate s command receipt with
      | error refusal =>
          rw [hresult] at hends hrun
          obtain ⟨cleaned, hcleaned, hkept⟩ := @discard_editing digests base s slot done h
            lane.owner { owner := lane.owner }
          rw [runAdmitted_cleanup hrun hends.status hadmission hcleaned hkept.status]
            at hstore hreceipt
          have hnot : (execute digests s d).receipt.status ≠ .ok := by
            rw [hreceipt]
            exact hends.status
          refine ⟨fun _ => ⟨rfl, ?_⟩, fun hok => absurd hok hnot, fun hok => absurd hok hnot,
            fun hok => absurd hok hnot⟩
          rw [hstore]
          exact hrestored
      | ok result =>
          rw [hresult] at hends hrun
          have hstatus := hends.receipt.status
          rw [runAdmitted_ok hrun hstatus, hadmission] at hstore hreceipt
          have hok : (execute digests s d).receipt.status = .ok := by
            rw [hreceipt]
            exact hstatus
          have hpublished : (execute digests s d).receipt.kind = rootKind
              ∧ (execute digests s d).receipt.slot = result.2.rootSlot
              ∧ (execute digests s d).receipt.presented = result.2.rootGeneration := by
            rw [hreceipt]
            exact ⟨rfl, rfl, rfl⟩
          refine ⟨fun hnot => absurd hok hnot, fun _ hdiscard => absurd hdiscard (by simp), ?_, ?_⟩
          · intro _ _ hall
            obtain ⟨_, hafter, _, hslot, hgeneration⟩ := hends.outcome.resolve_right
              fun ⟨hchanged, _⟩ => hchanged (h.unchanged_iff.mpr hall)
            rw [hslot, hgeneration, h.baseSlot, h.baseGeneration] at hpublished
            refine ⟨?_, hpublished⟩
            rw [hstore, hafter]
            exact hrestored
          · rintro _ _ ⟨event, hmem, hnew⟩
            obtain ⟨_, rootSlot, hfound, hafter, _, hslot, hgeneration⟩ :=
              hends.outcome.resolve_left fun ⟨hsame, _⟩ =>
                hnew (h.unchanged_iff.mp hsame event hmem)
            rw [hslot, hgeneration, h.roots.1] at hpublished
            refine ⟨rootSlot, ?_, hpublished⟩
            rw [hstore, hafter]
            exact h.sealed sound free hfound

end

-- Forks

/-- A fork that started the lane over the root of its handle. -/
structure Started (digests : Digests) (s : Store) (lane : ResidentLane) (slot : Nat)
    (launched : Executed) : Prop where
  handle
    : ∃ generation, loadResidentHandle lane.forkDescriptor rootKind { owner := lane.owner }
        = .ok (slot, generation) ∧ s.RootValid slot generation
  free : s.candidate.state = .free
  owner : s.control.owner = lane.owner
  names : launched.receipt.Names lane.owner s.candidate.generation
  editing : Editing digests s launched.store slot []

/-- A receipt without authority over a candidate. -/
structure Receipt.Foreign (receipt : Receipt) (owner : Nat) : Prop where
  status : receipt.status ≠ .ok
  owner : receipt.owner = owner
  acquiredGeneration : receipt.acquiredGeneration = 0

section

variable {digests : Digests} {s : Store} {source : Receipt} {lane : ResidentLane}

theorem loadResidentHandle_ends {d : Descriptor} {kind : Nat}
    : Ends (fun refusal => refusal.status ≠ .ok ∧ refusal.owner = d.expectedOwner) (fun _ => True)
        (loadResidentHandle d kind { owner := d.expectedOwner }) := by
  have hfail : ∀ {status : Status} {kind slot presented current capacity detail : Nat},
      status ≠ .ok →
      (Receipt.fail { owner := d.expectedOwner } status kind slot presented current capacity
          detail).status ≠ .ok
        ∧ (Receipt.fail { owner := d.expectedOwner } status kind slot presented current capacity
          detail).owner = d.expectedOwner :=
    fun hstatus => ⟨hstatus, rfl⟩
  have haccept : ∀ owner found slot generation,
      Ends (fun refusal => refusal.status ≠ .ok ∧ refusal.owner = d.expectedOwner) (fun _ => True)
        (do
          refuseIf (owner ≠ d.expectedOwner)
            (Receipt.fail { owner := d.expectedOwner } .foreignOwner kind slot owner
              d.expectedOwner 0 0)
          refuseIf (found ≠ kind)
            (Receipt.fail { owner := d.expectedOwner } .invalidCommand kind slot found kind 0 2)
          .ok (slot, generation) : Checked (Nat × Nat)) := by
    intro owner found slot generation
    refine (refuseIf_ends (hfail (by simp))).bind fun _ _ => ?_
    exact (refuseIf_ends (hfail (by simp))).bind fun _ _ => trivial
  rw [loadResidentHandle.eq_def]
  split
  · exact haccept _ _ _ _
  · refine (refuseIf_ends (hfail (by simp))).bind fun _ howner => ?_
    rw [refuseIf]
    split
    · next hstatus => exact ⟨hstatus, not_not.mp howner⟩
    · exact haccept _ _ _ _
  · exact hfail (by simp)

/-- A fork starts the lane, or it is refused without authority and changes nothing. -/
theorem fork_launched (h : Sound digests s)
    : (∃ slot, Started digests s lane slot (execute digests s lane.forkDescriptor))
      ∨ ((execute digests s lane.forkDescriptor).receipt.Foreign lane.owner
        ∧ (execute digests s lane.forkDescriptor).store = s) := by
  let d := lane.forkDescriptor
  have hload := @loadResidentHandle_ends d rootKind
  cases hhandle : loadResidentHandle d rootKind { owner := d.expectedOwner } with
  | error refusal =>
      rw [hhandle] at hload
      have hadmitted : admitLaunch digests d { owner := d.expectedOwner }
          = .error { refusal with acquiredSlot := 0, acquiredGeneration := 0 } := by
        change admitRoot d { owner := d.expectedOwner } .fork = _
        rw [admitRoot, hhandle]
      obtain ⟨hstore, hreceipt⟩ := execute_refused h rfl hadmitted
      refine Or.inr ⟨?_, hstore⟩
      change (execute digests s d).receipt.Foreign lane.owner
      rw [hreceipt]
      exact ⟨hload.1, hload.2, rfl⟩
  | ok handle =>
      obtain ⟨slot, generation⟩ := handle
      let command : Command := { operation := .fork, owner := lane.owner, slot, generation }
      have hadmitted : admitLaunch digests d { owner := d.expectedOwner }
          = .ok ({ owner := d.expectedOwner }, .run command false) := by
        change admitRoot d { owner := d.expectedOwner } .fork = _
        rw [admitRoot, hhandle]
        rfl
      have hforeign : ∀ {refusal : Receipt},
          (Receipt.Refusal { owner := d.expectedOwner } refusal) → refusal.Foreign lane.owner :=
        fun refused => ⟨refused.status, refused.owner, refused.acquiredGeneration⟩
      by_cases hcontrol : s.control.owner = lane.owner
      · obtain ⟨hstore, hreceipt⟩ := execute_admitted h rfl hadmitted (by simp [command]) hcontrol
          rfl
        have hends := @forkRoot_ends s command { owner := d.expectedOwner }
        have hrun : runCommand digests s command { owner := d.expectedOwner }
            = settle s (forkRoot s command { owner := d.expectedOwner }) := rfl
        cases hresult : forkRoot s command { owner := d.expectedOwner } with
        | error refusal =>
            rw [hresult] at hends hrun
            rw [runAdmitted_refused hrun hends.status (by simp [d, ResidentLane.forkDescriptor])]
              at hstore hreceipt
            refine Or.inr ⟨?_, hstore⟩
            change (execute digests s d).receipt.Foreign lane.owner
            rw [hreceipt]
            exact hforeign hends
        | ok result =>
            rw [hresult] at hends hrun
            have hstatus : result.2.status = .ok := by rw [hends.receipt]
            rw [runAdmitted_ok hrun hstatus, hends.receipt] at hstore hreceipt
            refine Or.inl ⟨slot, ⟨generation, hhandle, hends.root⟩, hends.free, hcontrol, ?_, ?_⟩
            · change (execute digests s d).receipt.Names lane.owner s.candidate.generation
              rw [hreceipt]
              exact ⟨⟨rfl, rfl, rfl⟩, rfl, rfl, rfl, rfl⟩
            · change Editing digests s (execute digests s d).store slot []
              rw [hstore]
              exact hends.editing h
      · obtain ⟨hstore, hrefusal⟩ := execute_foreign h rfl hadmitted (by simp [command]) hcontrol
        exact Or.inr ⟨hforeign hrefusal, hstore⟩

/-- Without authority a terminal changes nothing and reports the refusal. -/
theorem terminal_foreign (h : Sound digests s) (hsource : source.Foreign lane.owner)
    : (execute digests s (lane.terminalDescriptor source)).store = s
      ∧ (execute digests s (lane.terminalDescriptor source)).receipt = source := by
  let d := lane.terminalDescriptor source
  have hterminal : ∀ operation, admitCandidateTerminal d { owner := d.expectedOwner } operation
      = .error source := by
    intro operation
    rw [admitCandidateTerminal]
    change (if source.status = .ok then _ else _) = _
    rw [if_neg hsource.status, refuseIf_ok (show ¬source.owner ≠ d.expectedOwner from
      not_not.mpr hsource.owner), ok_bind, refuseIf, if_pos hsource.acquiredGeneration]
    rfl
  refine execute_refused h rfl ?_
  change admitLaunch digests d { owner := d.expectedOwner } = _
  cases hsealing : lane.sealing with
  | true =>
      rw [admitLaunch, show d.admission = .seal from if_pos hsealing]
      exact hterminal .seal
  | false =>
      rw [admitLaunch, show d.admission = .discard from if_neg (by simp [hsealing])]
      exact hterminal .discard

end

-- Runs

section

variable {digests : Digests} {base s : Store} {slot owner : Nat} {done : List Event}
  {steps : List LaneStep} {before : Executed}

theorem getLastD_mem {α : Type} (items : List α) (first : α)
    : items.getLastD first = first ∨ items.getLastD first ∈ items := by
  cases items with
  | nil => exact Or.inl rfl
  | cons item items =>
      refine Or.inr ?_
      rw [List.getLastD_cons, List.getLastD_eq_getLast?]
      cases hlast : items.getLast? with
      | none => simp
      | some last => exact List.mem_cons_of_mem _ (List.mem_of_getLast? hlast)

theorem getLastD_append_cons {α : Type} (items later : List α) (item first : α)
    : (items ++ item :: later).getLastD first = later.getLastD item := by
  simp [List.getLastD_eq_getLast?, List.getLast?_append, List.getLast?_cons]

/-- After a refusal no step changes anything, by induction on the steps. -/
theorem runSteps_refused (h : Sound digests before.store) (hstatus : before.receipt.status ≠ .ok)
    (howner : before.receipt.owner = owner)
    : ∀ launched ∈ runSteps digests owner steps before,
        launched.store = before.store ∧ launched.receipt = before.receipt := by
  induction steps generalizing before with
  | nil => simp [runSteps]
  | cons step rest ih =>
      obtain ⟨hstore, hreceipt⟩ := step_refused h hstatus howner step
      rw [runSteps]
      intro launched hmem
      rcases List.mem_cons.mp hmem with rfl | hmem
      · exact ⟨hstore, hreceipt⟩
      · have hlater := ih (by rw [hstore]; exact h) (by rw [hreceipt]; exact hstatus)
          (by rw [hreceipt]; exact howner) launched hmem
        rw [hstore, hreceipt] at hlater
        exact hlater

/-- A store of the lane that a launch left, with the authority in its receipt. -/
structure OnLane (digests : Digests) (base : Store) (slot owner : Nat) (done : List Event)
    (launched : Executed) : Prop where
  editing : Editing digests base launched.store slot done
  holds : launched.receipt.Holds owner base.candidate.generation

/-- Steps that all succeed insert their events, by induction on the steps. -/
theorem runSteps_ok (hcontrol : base.control.owner = owner)
    (hne : base.candidate.generation ≠ 0)
    (editing : Editing digests base before.store slot done)
    (names : before.receipt.Names owner base.candidate.generation)
    (ok : ∀ launched ∈ runSteps digests owner steps before, launched.receipt.status = .ok)
    : ∃ events, (∀ event, event ∈ events
          ↔ event ∈ done ∨ event ∈ steps.filterMap (LaneStep.event digests))
        ∧ Editing digests base ((runSteps digests owner steps before).getLastD before).store slot
            events
        ∧ ((runSteps digests owner steps before).getLastD before).receipt.Names owner
            base.candidate.generation := by
  induction steps generalizing before done with
  | nil => exact ⟨done, by simp, editing, names⟩
  | cons step rest ih =>
      have hstep := editing.step (by rw [editing.control]; exact hcontrol) hne names step
      rw [runSteps] at ok ⊢
      obtain ⟨hnames, hediting⟩ := hstep.outcome.resolve_right
        fun hrefused => hrefused.1 (ok _ List.mem_cons_self)
      obtain ⟨events, hevents, hlast⟩ := ih hediting hnames
        fun launched hmem => ok launched (List.mem_cons_of_mem _ hmem)
      refine ⟨events, fun event => ?_, ?_⟩
      · rw [hevents, List.mem_append, List.filterMap_cons]
        cases step.event digests with
        | none => simp
        | some inserted =>
            simp only [Option.toList_some, List.mem_cons]
            tauto
      · rw [List.getLastD_cons]
        exact hlast

/-- The first refusal of a run leaves the store and stays, by induction on the steps. -/
theorem runSteps_split (hcontrol : base.control.owner = owner)
    (hne : base.candidate.generation ≠ 0)
    (editing : Editing digests base before.store slot done)
    (names : before.receipt.Names owner base.candidate.generation)
    {earlier later : List Executed} {refused : Executed}
    (split : runSteps digests owner steps before = earlier ++ refused :: later)
    (ok : ∀ launched ∈ earlier, launched.receipt.status = .ok)
    (hstatus : refused.receipt.status ≠ .ok)
    : (∃ events, OnLane digests base slot owner events refused)
      ∧ refused.store = (earlier.getLastD before).store
      ∧ ∀ launched ∈ later, launched.store = refused.store ∧ launched.receipt = refused.receipt := by
  induction steps generalizing before done earlier with
  | nil => simp [runSteps] at split
  | cons step rest ih =>
      have hstep := editing.step (by rw [editing.control]; exact hcontrol) hne names step
      rw [runSteps] at split
      cases earlier with
      | nil =>
          obtain ⟨rfl, hlater⟩ := List.cons_eq_cons.mp split
          obtain ⟨_, hstore⟩ := hstep.outcome.resolve_left fun hok => hstatus hok.1.status
          have hsound := editing.sound
          rw [← hstore] at hsound editing
          refine ⟨⟨done, editing, hstep.holds⟩, hstore, ?_⟩
          rw [← hlater]
          exact runSteps_refused hsound hstatus hstep.holds.owner
      | cons first earlier =>
          obtain ⟨hfirst, hrest⟩ := List.cons_eq_cons.mp split
          obtain ⟨hnames, hediting⟩ := hstep.outcome.resolve_right
            fun hrefused => hrefused.1 (by rw [hfirst]; exact ok first List.mem_cons_self)
          obtain ⟨honlane, hstore, hlater⟩ := ih hediting hnames hrest
            fun launched hmem => ok launched (List.mem_cons_of_mem _ hmem)
          refine ⟨honlane, ?_, hlater⟩
          rw [List.getLastD_cons, ← hfirst]
          exact hstore

theorem NewRoot.congr {after : Store} {rootSlot : Nat} {events events' : List Event}
    (h : NewRoot base after slot rootSlot events)
    (same : ∀ event, event ∈ events ↔ event ∈ events')
    : NewRoot base after slot rootSlot events' :=
  { h with contents := fun event => by rw [h.contents, same] }

theorem Ended.congr {events events' : List Event} {sealing : Bool} {launched : Executed}
    (h : Ended base slot events sealing launched) (same : ∀ event, event ∈ events ↔ event ∈ events')
    : Ended base slot events' sealing launched := by
  refine ⟨h.refused, h.discarded, fun hok hseal hall => ?_, fun hok hseal hnew => ?_⟩
  · exact h.unchanged hok hseal fun event hmem => hall event ((same event).mp hmem)
  · obtain ⟨event, hmem, hnot⟩ := hnew
    obtain ⟨rootSlot, hroot, hreceipt⟩ := h.added hok hseal ⟨event, (same event).mpr hmem, hnot⟩
    exact ⟨rootSlot, hroot.congr same, hreceipt⟩

end

/-- What a resident lane does to the store that it starts on. -/
structure AllOrNothing (digests : Digests) (lane : ResidentLane) (s : Store) (run : LaneRun)
    : Prop where
  /-- A refused fork is reported by every launch, and none of them changes anything. -/
  forkRefused
    : run.fork.receipt.status ≠ .ok
      → ∀ launched ∈ run.launches, launched.store = s ∧ launched.receipt = run.fork.receipt
  /-- The first refused step changes nothing and stays, and the terminal restores the store. -/
  stepRefused
    : ∀ earlier refused later, run.steps = earlier ++ refused :: later
      → run.fork.receipt.status = .ok
      → (∀ launched ∈ earlier, launched.receipt.status = .ok)
      → refused.receipt.status ≠ .ok
      → refused.store = (earlier.getLastD run.fork).store
        ∧ (∀ launched ∈ later,
          launched.store = refused.store ∧ launched.receipt = refused.receipt)
        ∧ Restored s run.terminal.store
        ∧ (lane.sealing = true → run.terminal.receipt = refused.receipt)
        ∧ (lane.sealing = false → run.terminal.receipt.status = .ok)
  /-- Without a refused step the lane ends over the root that its fork named. -/
  ended
    : run.fork.receipt.status = .ok
      → (∀ launched ∈ run.steps, launched.receipt.status = .ok)
      → ∃ slot generation,
          loadResidentHandle lane.forkDescriptor rootKind { owner := lane.owner }
            = .ok (slot, generation)
          ∧ s.RootValid slot generation ∧ s.candidate.state = .free
          ∧ Ended s slot (lane.events digests) lane.sealing run.terminal

/-- A resident lane is all or nothing in every reachable store. -/
theorem runResidentLane_allOrNothing {digests : Digests} {s : Store} (h : Reachable digests s)
    (lane : ResidentLane)
    : AllOrNothing digests lane s (runResidentLane digests lane s) := by
  have hsound := h.sound
  have hne := hsound.generation.1
  rcases @fork_launched digests s lane hsound with ⟨slot, hstarted⟩ | ⟨hforeign, hstore⟩
  · have hstatus := hstarted.names.status
    refine ⟨fun hnot => absurd hstatus hnot, ?_, ?_⟩
    · intro earlier refused later hsplit _ hok hrefused
      obtain ⟨⟨events, honlane⟩, hsame, hlater⟩ := runSteps_split hstarted.owner hne
        hstarted.editing hstarted.names hsplit hok hrefused
      refine ⟨hsame, hlater, ?_⟩
      have hlast : ((runResidentLane digests lane s).steps.getLastD
            (runResidentLane digests lane s).fork).store = refused.store
          ∧ ((runResidentLane digests lane s).steps.getLastD
            (runResidentLane digests lane s).fork).receipt = refused.receipt := by
        rw [hsplit, getLastD_append_cons]
        rcases getLastD_mem later refused with heq | hmem
        · rw [heq]
          exact ⟨rfl, rfl⟩
        · exact hlater _ hmem
      have hterminal := @Editing.terminal_refused _ _ _ _ _ _ lane honlane.editing hsound hstarted.free
        (by rw [honlane.editing.control]; exact hstarted.owner) honlane.holds hrefused
      rw [← hlast.1, ← hlast.2] at hterminal
      rw [← hlast.2]
      exact hterminal
    · intro _ hok
      obtain ⟨generation, hhandle, hroot⟩ := hstarted.handle
      obtain ⟨events, hevents, hediting, hnames⟩ := runSteps_ok hstarted.owner hne
        hstarted.editing hstarted.names hok
      refine ⟨slot, generation, hhandle, hroot, hstarted.free, ?_⟩
      exact (hediting.terminal hsound hstarted.free (by rw [hediting.control]; exact hstarted.owner)
        hnames).congr fun event => by rw [hevents]; simp [ResidentLane.events]
  · have hstatus := hforeign.status
    refine ⟨fun _ => ?_, fun _ _ _ _ hok => absurd hok hstatus, fun hok => absurd hok hstatus⟩
    have hsteps := @runSteps_refused digests lane.owner lane.steps
      (execute digests s lane.forkDescriptor) (by rw [hstore]; exact hsound) hstatus hforeign.owner
    have hlast : ((runResidentLane digests lane s).steps.getLastD
          (runResidentLane digests lane s).fork).store = s
        ∧ ((runResidentLane digests lane s).steps.getLastD
          (runResidentLane digests lane s).fork).receipt
          = (execute digests s lane.forkDescriptor).receipt := by
      rcases getLastD_mem (runResidentLane digests lane s).steps
        (runResidentLane digests lane s).fork with heq | hmem
      · rw [heq]
        exact ⟨hstore, rfl⟩
      · obtain ⟨hstore', hreceipt'⟩ := hsteps _ hmem
        exact ⟨hstore'.trans hstore, hreceipt'⟩
    intro launched hmem
    rcases List.mem_cons.mp hmem with rfl | hmem
    · exact ⟨hstore, rfl⟩
    · rcases List.mem_append.mp hmem with hmem | hmem
      · obtain ⟨hstore', hreceipt'⟩ := hsteps launched hmem
        exact ⟨hstore'.trans hstore, hreceipt'⟩
      · rw [List.mem_singleton.mp hmem]
        have hterminal := @terminal_foreign digests
          ((runResidentLane digests lane s).steps.getLastD
            (runResidentLane digests lane s).fork).store
          ((runResidentLane digests lane s).steps.getLastD
            (runResidentLane digests lane s).fork).receipt lane
          (by rw [hlast.1]; exact hsound) (by rw [hlast.2]; exact hforeign)
        exact ⟨hterminal.1.trans hlast.1, hterminal.2.trans hlast.2⟩

/-- A lane over the empty root that inserts a support, and then one whose polarity is refused. -/
def refusedLane : ResidentLane where
  owner := 7
  handle := some ⟨7, rootKind, 0, 1⟩
  base := none
  steps :=
    [.insertSupport (some ⟨(1, 0, 0, 0), 0, []⟩) (some ⟨1, zeroIdentity, zeroIdentity, zeroIdentity,
        zeroIdentity, 0⟩),
      .insertSupport (some ⟨(2, 0, 0, 0), 0, []⟩) (some ⟨3, zeroIdentity, zeroIdentity, zeroIdentity,
        zeroIdentity, 0⟩)]
  sealing := true

/-- The words of a discarded insertion stay in the record that it freed. -/
theorem runResidentLane_leaves_words
    : ¬∀ (digests : Digests) (s : Store), Reachable digests s → ∀ lane : ResidentLane,
        (∃ refused ∈ (runResidentLane digests lane s).steps, refused.receipt.status ≠ .ok)
        → ∀ slot, slot < s.capacities.statements
          → ∃ generation, (runResidentLane digests lane s).terminal.store.statements slot
            = { s.statements slot with generation } := by
  intro h
  let s := initialStore plainDigests ⟨4, 4, 4, 4⟩ 7
  have hrefused : (runResidentLane plainDigests refusedLane s).steps.map
      (fun launched => launched.receipt.status) = [.ok, .invalidCommand] := by decide +kernel
  have hexists : ∃ refused ∈ (runResidentLane plainDigests refusedLane s).steps,
      refused.receipt.status ≠ .ok := by
    have hmem : Status.invalidCommand ∈ (runResidentLane plainDigests refusedLane s).steps.map
        fun launched => launched.receipt.status := by
      rw [hrefused]
      simp
    obtain ⟨refused, hmem, hstatus⟩ := List.mem_map.mp hmem
    exact ⟨refused, hmem, by rw [hstatus]; simp⟩
  obtain ⟨generation, hrecord⟩ := h plainDigests s (.empty (by decide +kernel) 7) refusedLane hexists
    0 (by decide +kernel)
  have hbody : ((runResidentLane plainDigests refusedLane s).terminal.store.statements 0).body
      = (s.statements 0).body := by rw [hrecord]
  exact absurd hbody (by decide +kernel)

/-- The refused lane on an empty store. -/
theorem runResidentLane_allOrNothing_refused
    : let s := initialStore plainDigests ⟨4, 4, 4, 4⟩ 7
      AllOrNothing plainDigests refusedLane s (runResidentLane plainDigests refusedLane s) :=
  runResidentLane_allOrNothing (.empty (by decide +kernel) 7) refusedLane

end Xlog.Cuda.SemanticGraph
