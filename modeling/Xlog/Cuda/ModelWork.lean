import Mathlib.Data.Finset.Insert
import Xlog.Foundation.Loop

/-! Model work: the admitted plan of a cold model report with its cursor, and the recording that its
producers charge. Units are logical operations, counted in 64-bit words.
-/

namespace Xlog.Cuda.ModelWork

open Xlog.Foundation

-- Kinds and geometry

/-- `u64::MAX` -/
def wordMax : Nat := 18446744073709551615

def checkedAdd (error : String) (a b : Nat) : Except String Nat :=
  if a + b ≤ wordMax then .ok (a + b) else .error error

def checkedMul (error : String) (a b : Nat) : Except String Nat :=
  if a * b ≤ wordMax then .ok (a * b) else .error error

inductive ModelWorkKind where
  | pointwise
  | reduction
  | scan
  | fill
  | contraction
  | softmax
  | logSoftmax
  | logSumExp
  | scatter
  | gather
  | copyBytes
  | cast
  | sortKeys
  | bucketQueries
  | savedCopyBytes
  | modelInvocation
  deriving DecidableEq, Repr

def ModelWorkKind.code : ModelWorkKind → Nat
  | .pointwise => 1
  | .reduction => 2
  | .scan => 3
  | .fill => 4
  | .contraction => 5
  | .softmax => 6
  | .logSoftmax => 7
  | .logSumExp => 8
  | .scatter => 9
  | .gather => 10
  | .copyBytes => 11
  | .cast => 12
  | .sortKeys => 13
  | .bucketQueries => 14
  | .savedCopyBytes => 15
  | .modelInvocation => 16

def ModelWorkKind.fromCode : Nat → Option ModelWorkKind
  | 1 => some .pointwise
  | 2 => some .reduction
  | 3 => some .scan
  | 4 => some .fill
  | 5 => some .contraction
  | 6 => some .softmax
  | 7 => some .logSoftmax
  | 8 => some .logSumExp
  | 9 => some .scatter
  | 10 => some .gather
  | 11 => some .copyBytes
  | 12 => some .cast
  | 13 => some .sortKeys
  | 14 => some .bucketQueries
  | 15 => some .savedCopyBytes
  | 16 => some .modelInvocation
  | _ => none

def ModelWorkKind.geometryUnits (kind : ModelWorkKind) (dimensions : List Nat)
    : Except String Nat :=
  if 8 < dimensions.length then .error "model work geometry exceeds eight dimensions"
  else if kind = .modelInvocation then
    if dimensions.isEmpty then .ok 0
    else .error "model invocation requires empty geometry"
  else if 0 ∈ dimensions then .ok 0
  else
    dimensions.foldlM (checkedMul "model work geometry exceeds the exact u64 counter") 1

/-- The dimensions in their array of eight words. -/
def padded (dimensions : List Nat) : List Nat :=
  dimensions ++ List.replicate (8 - dimensions.length) 0

-- Events

/-- An event of a recording. Its slot `actual` is zero for an exact geometry. -/
structure ModelWorkEvent where
  kind : Nat
  witness : Nat
  tensor : Nat
  rank : Nat
  dimensions : List Nat
  actual : Nat
  dimensions_length : dimensions.length = 8
  deriving DecidableEq

/-- What makes the coordinates or the geometry of an event noncanonical. -/
def ModelWorkEvent.noncanonical (event : ModelWorkEvent) (kind : ModelWorkKind) : Bool :=
  8 < event.rank
  || (event.dimensions.drop event.rank).any (· ≠ 0)
  || (kind = .savedCopyBytes
      && (event.witness = wordMax
        || event.tensor = wordMax
        || event.actual ≠ 0
        || event.rank = 0
        || !(event.dimensions.getD (event.rank - 1) 0 ∈ [1, 2, 4, 8])))
  || (kind ≠ .savedCopyBytes && (event.witness ≠ wordMax || event.tensor ≠ wordMax))

/-- A model invocation without its own aligned device slot. -/
def ModelWorkEvent.slotless (event : ModelWorkEvent) : Bool :=
  event.rank ≠ 0
  || event.actual = 0
  || event.actual % 8 ≠ 0
  || wordMax - 24 < event.actual

def ModelWorkEvent.units (event : ModelWorkEvent) : Except String Nat :=
  match ModelWorkKind.fromCode event.kind with
  | none => .error "model work unit kind is unknown"
  | some kind =>
      if event.noncanonical kind then
        .error "model work event has noncanonical geometry or occurrence coordinates"
      else if kind = .modelInvocation ∧ event.slotless then
        .error "model invocation requires its original scalar native device slot"
      else
        kind.geometryUnits (event.dimensions.take event.rank)

-- Plans

structure ModelWorkGeometry where
  kind : ModelWorkKind
  rank : Nat
  dimensions : List Nat
  deriving DecidableEq, Repr

/-- The geometry of a planned operation with its units. -/
def ModelWorkGeometry.new (kind : ModelWorkKind) (dimensions : List Nat)
    : Except String (ModelWorkGeometry × Nat) :=
  if kind = .savedCopyBytes then
    .error "saved copies require their original native witness producer"
  else do
    let units ← kind.geometryUnits dimensions
    return (⟨kind, dimensions.length, padded dimensions⟩, units)

structure ModelWorkPlan where
  events : List ModelWorkGeometry
  regionEnds : List Nat
  recordedIndices : List Nat
  bound : Nat
  calls : Nat
  next : Nat
  deriving DecidableEq, Repr

namespace ModelWorkPlan

def countCall (kind : ModelWorkKind) (calls : Nat) : Except String Nat :=
  if kind = .modelInvocation then
    checkedAdd "model operation plan exceeds the exact u64 call bound" calls 1
  else .ok calls

/-- The loop body of `new`, over the events so far with their bound and calls. -/
def addOperation (plan : ModelWorkPlan) (operation : ModelWorkKind × List Nat)
    : Except String ModelWorkPlan := do
  let (event, units) ← ModelWorkGeometry.new operation.1 operation.2
  let bound ← checkedAdd "model operation plan exceeds the exact u64 work bound" plan.bound units
  let calls ← countCall operation.1 plan.calls
  return { plan with events := plan.events ++ [event], bound := bound, calls := calls }

def new (capacity : Nat) (operations : List (ModelWorkKind × List Nat)) (regionEnds : List Nat)
    (regionCount : Nat)
    : Except String ModelWorkPlan :=
  if capacity < operations.length ∨ wordMax < operations.length then
    .error "model operation plan exceeds its original event capacity"
  else if regionEnds.length ≠ regionCount
      ∨ (regionEnds.zip regionEnds.tail).any (fun ends => ends.2 < ends.1)
      ∨ regionEnds.getLast?.any (· ≠ operations.length) then
    .error "cold operation boundaries changed the original region roster or extent"
  else
    operations.foldlM addOperation ⟨[], regionEnds, [], 0, 0, 0⟩

/-- The bounds of a region: it starts where the one before it ends. -/
def region (plan : ModelWorkPlan) (index : Nat) : Except String (Nat × Nat) :=
  match plan.regionEnds[index]? with
  | none => .error "cold recording lost its original region boundary"
  | some stop => .ok (if index = 0 then 0 else plan.regionEnds.getD (index - 1) 0, stop)

/-- The check that the region of a registration, if it has one, contains an index. -/
def requireInRegion (plan : ModelWorkPlan) (index : Nat) : Option Nat → Except String Unit
  | none => .ok ()
  | some region => do
      let (start, stop) ← plan.region region
      if index < start ∨ stop ≤ index then
        throw "cold model registration crossed its original region span"

def requireNextAt (plan : ModelWorkPlan) (offset : Nat) (kind : ModelWorkKind)
    (dimensions : List Nat) (region : Option Nat)
    : Except String Unit := do
  let index ←
    checkedAdd "model operation group exceeds its original plan extent" plan.next offset
  plan.requireInRegion index region
  if plan.events[index]?.any
      (fun event => event.kind = kind ∧ event.dimensions.take event.rank = dimensions) then
    return ()
  else
    throw "model registration changed its admitted operation order or geometry"

def requireNext (plan : ModelWorkPlan) (kind : ModelWorkKind) (dimensions : List Nat)
    (region : Option Nat)
    : Except String Unit :=
  plan.requireNextAt 0 kind dimensions region

def consume (plan : ModelWorkPlan) : ModelWorkPlan :=
  { plan with recordedIndices := plan.recordedIndices ++ [plan.next], next := plan.next + 1 }

def requireRegionStart (plan : ModelWorkPlan) (index : Nat) : Except String Unit := do
  let (start, _) ← plan.region index
  if plan.next ≠ start then
    throw "cold region did not begin at its original operation boundary"

def requireRegionEnd (plan : ModelWorkPlan) (index : Nat) : Except String Unit := do
  let (_, stop) ← plan.region index
  if plan.next ≠ stop then
    throw "successful cold region did not consume its complete admitted span"

def skipUnenteredRegion (plan : ModelWorkPlan) (index : Nat) : Except String ModelWorkPlan := do
  plan.requireRegionStart index
  let (_, stop) ← plan.region index
  return { plan with next := stop }

/-- The loop of `cursorProjection` over the recorded indices, from a position on. -/
def skippedFrom (next : Nat) : Nat → List Nat → Except String (List (Nat × Nat))
  | position, [] => .ok (if position < next then [(position, next)] else [])
  | position, recorded :: rest =>
      if recorded < position ∨ next ≤ recorded then
        .error "cold cursor lost its original consumed occurrence order"
      else do
        let skipped ← skippedFrom next (recorded + 1) rest
        return (if position < recorded then [(position, recorded)] else []) ++ skipped

structure CursorProjection where
  start : Nat
  stop : Nat
  next : Nat
  recorded : Nat
  skipped : List (Nat × Nat)
  deriving DecidableEq, Repr

def cursorProjection (plan : ModelWorkPlan) (region : Option Nat)
    : Except String CursorProjection := do
  let (start, stop) ←
    match region with
    | some index => plan.region index
    | none => pure (0, plan.events.length)
  let skipped ← skippedFrom plan.next 0 plan.recordedIndices
  return ⟨start, stop, plan.next, plan.recordedIndices.length, skipped⟩

/-- Whether an event has the kind, the rank and the dimensions of a planned one. -/
def Matches (event : ModelWorkEvent) (planned : ModelWorkGeometry) : Prop :=
  event.kind = planned.kind.code
  ∧ event.rank = planned.rank
  ∧ event.dimensions = planned.dimensions

instance (event : ModelWorkEvent) (planned : ModelWorkGeometry)
    : Decidable (Matches event planned) :=
  inferInstanceAs (Decidable (_ ∧ _ ∧ _))

def requireRecordedTrace (plan : ModelWorkPlan) (recorded : List ModelWorkEvent)
    : Except String Unit :=
  if recorded.length ≠ plan.recordedIndices.length
      ∨ !(recorded.zip plan.recordedIndices).all
        (fun pair => plan.events[pair.2]?.any (Matches pair.1 ·)) then
    .error "cold model report changed its authenticated admitted operation trace"
  else .ok ()

end ModelWorkPlan

-- Recordings

structure ModelWorkRecording where
  capacity : Nat
  events : List ModelWorkEvent
  saved : Finset (Nat × Nat)
  bound : Nat
  minimum : Nat
  frozen : Bool
  deriving DecidableEq

namespace ModelWorkRecording

def new (capacity : Nat) : Except String ModelWorkRecording :=
  if capacity = 0 then .error "model work requires a positive cold event capacity"
  else .ok ⟨capacity, [], ∅, 0, 0, false⟩

/-- A push leaves the recording as its writes have made it, whatever it answers. The minimum is
added to without a check.
-/
def push (recording : ModelWorkRecording) (event : ModelWorkEvent)
    : ModelWorkRecording × Except String Unit :=
  if recording.frozen then (recording, .error "original model work is already frozen")
  else if recording.events.length = recording.capacity then
    (recording, .error "model work exceeds its cold event capacity")
  else
    match event.units >>=
        checkedAdd "model work sum exceeds the exact u64 counter" recording.bound with
    | .error error => (recording, .error error)
    | .ok bound =>
        let saved := event.kind = ModelWorkKind.savedCopyBytes.code
        if saved ∧ (event.witness, event.tensor) ∈ recording.saved then
          (recording, .error "saved-tensor occurrence was already charged")
        else
          ({ recording with
            events := recording.events ++ [event]
            saved :=
              if saved then insert (event.witness, event.tensor) recording.saved
              else recording.saved
            minimum :=
              if event.actual = 0 then
                (recording.minimum + (bound - recording.bound)) % (wordMax + 1)
              else recording.minimum
            bound := bound }, .ok ())

def freezeCold (recording : ModelWorkRecording) : ModelWorkRecording × Except String Nat :=
  if recording.frozen then
    (recording, .error "original cold model work is already frozen")
  else ({ recording with frozen := true }, .ok recording.bound)

def freeze (recording : ModelWorkRecording) : ModelWorkRecording × Except String Nat :=
  if recording.frozen ∨ recording.events.isEmpty ∨ recording.bound = 0 then
    (recording, .error "model work requires one nonempty original recording and a single freeze")
  else recording.freezeCold

end ModelWorkRecording

end Xlog.Cuda.ModelWork
