import Mathlib.Data.List.Dedup
import Mathlib.Data.List.Sort
import Xlog.Core.Error
import Xlog.Logic.Ast

/-! Ordered batches of relation updates, coalesced into one net update of each relation without a look
at its contents: an incoming tuple cancels the pending occurrence in the other direction. Rows compare
byte for byte, and the host knows the row count of every buffer that the coalescer makes.
-/

namespace Xlog.Gpu.DeltaBatch

open Xlog.Core
open Xlog.Logic (ScalarType)

-- Buffers

structure CudaBuffer (Row : Type) where
  types : List ScalarType
  rows : List Row
  deriving DecidableEq, Repr

section Provider

variable {Row : Type} [LinearOrder Row]

/-- The rows in order, each one once. -/
def distinctRows (rows : List Row) : List Row := rows.dedup.insertionSort (· ≤ ·)

def dedupFullRow (input : CudaBuffer Row) : CudaBuffer Row :=
  { input with rows := distinctRows input.rows }

/-- The rows of `a` that `b` has not; an empty `a` is not compared. -/
def diffFullRow (a b : CudaBuffer Row) : Result (CudaBuffer Row) :=
  if a.rows.isEmpty then .ok ⟨a.types, []⟩
  else if a.types ≠ b.types then .error (.kernel "Diff requires compatible schemas")
  else .ok ⟨a.types, distinctRows (a.rows.filter (· ∉ b.rows))⟩

def unionGpu (a b : CudaBuffer Row) : Result (CudaBuffer Row) :=
  if a.types ≠ b.types then .error (.kernel "Union requires compatible schemas")
  else .ok ⟨a.types, distinctRows (a.rows ++ b.rows)⟩

def nonEmptyBuffer (buffer : CudaBuffer Row) : Option (CudaBuffer Row) :=
  if buffer.rows.isEmpty then none else some buffer

def bufferRows (buffer : CudaBuffer Row) : Nat := buffer.rows.length

end Provider

-- Updates

/-- The side of an update that a tuple comes from. -/
inductive RelationDeltaDirection where
  | insert
  | delete
  deriving DecidableEq, Repr

def RelationDeltaDirection.opposite : RelationDeltaDirection → RelationDeltaDirection
  | .insert => .delete
  | .delete => .insert

/-- An update of one relation, also one that is pending. -/
structure RelationDelta (Row : Type) where
  insert : Option (CudaBuffer Row)
  delete : Option (CudaBuffer Row)
  deriving DecidableEq, Repr

def RelationDelta.side {Row : Type} (delta : RelationDelta Row)
    : RelationDeltaDirection → Option (CudaBuffer Row)
  | .insert => delta.insert
  | .delete => delta.delete

def RelationDelta.setSide {Row : Type} (delta : RelationDelta Row)
    (direction : RelationDeltaDirection) (buffer : Option (CudaBuffer Row)) : RelationDelta Row :=
  match direction with
  | .insert => { delta with insert := buffer }
  | .delete => { delta with delete := buffer }

/-- The tuples that were cancelled when one side of an update came in. -/
structure RelationDeltaCancellation (Row : Type) where
  updateIndex : Nat
  incomingDirection : RelationDeltaDirection
  tuples : CudaBuffer Row
  deriving DecidableEq, Repr

-- The coalescer

/-- What the merge of one update reads and writes; `cancellations` is there for a captured relation. -/
structure Merge (Row : Type) where
  pending : RelationDelta Row
  canceledRows : Nat
  cancellations : Option (List (RelationDeltaCancellation Row))

section Coalescer

variable {Row : Type} [LinearOrder Row]

def mergeOptionalBuffer (existing : Option (CudaBuffer Row)) (incoming : CudaBuffer Row)
    : Result (Option (CudaBuffer Row)) :=
  match nonEmptyBuffer incoming with
  | none => .ok (existing.bind nonEmptyBuffer)
  | some incoming =>
      match existing.bind nonEmptyBuffer with
      | some existing => do
          let union ← unionGpu existing incoming
          .ok (nonEmptyBuffer union)
      | none => .ok (some incoming)

def captureCanceledTuples (incoming incomingAfterCancellation : CudaBuffer Row)
    (updateIndex : Nat) (incomingDirection : RelationDeltaDirection)
    : Option (List (RelationDeltaCancellation Row))
      → Result (Option (List (RelationDeltaCancellation Row)))
  | none => .ok none
  | some cancellations => do
      let intersection ← diffFullRow incoming incomingAfterCancellation
      match nonEmptyBuffer intersection with
      | some tuples => .ok (some (cancellations ++ [⟨updateIndex, incomingDirection, tuples⟩]))
      | none => .ok (some cancellations)

/-- Merge one side of an update into the pending one: what the other side has pending is cancelled, and
the rest is added to its own side.
-/
def mergeDelta (direction : RelationDeltaDirection) (delta : CudaBuffer Row) (updateIndex : Nat)
    (state : Merge Row) : Result (Merge Row) :=
  let incoming := dedupFullRow delta
  match (state.pending.side direction.opposite).bind nonEmptyBuffer with
  | none => do
      let merged ← mergeOptionalBuffer (state.pending.side direction) incoming
      let pending := (state.pending.setSide direction.opposite none).setSide direction merged
      .ok { state with pending := pending }
  | some other => do
      let otherAfter ← diffFullRow other incoming
      let incomingAfter ← diffFullRow incoming other
      let cancellations ← captureCanceledTuples incoming incomingAfter updateIndex direction
        state.cancellations
      let merged ← mergeOptionalBuffer (state.pending.side direction) incomingAfter
      let kept := state.pending.setSide direction.opposite (nonEmptyBuffer otherAfter)
      .ok {
        pending := kept.setSide direction merged
        canceledRows := state.canceledRows + (bufferRows other - bufferRows otherAfter)
        cancellations := cancellations }

def mergeInsertDelta (insert : CudaBuffer Row) (updateIndex : Nat) (state : Merge Row)
    : Result (Merge Row) :=
  mergeDelta .insert insert updateIndex state

def mergeDeleteDelta (delete : CudaBuffer Row) (updateIndex : Nat) (state : Merge Row)
    : Result (Merge Row) :=
  mergeDelta .delete delete updateIndex state

/-- Merge a side that an update may lack. -/
def mergeSide (merge : CudaBuffer Row → Nat → Merge Row → Result (Merge Row))
    (side : Option (CudaBuffer Row)) (updateIndex : Nat) (state : Merge Row)
    : Result (Merge Row) :=
  match side with
  | some buffer => merge buffer updateIndex state
  | none => .ok state

/-- The pending updates, the captured cancellations and the number of cancelled rows. -/
structure Coalescing (Row : Type) where
  pending : String → RelationDelta Row
  cancellations : String → List (RelationDeltaCancellation Row)
  canceledRows : Nat

def Coalescing.start : Coalescing Row := ⟨fun _ => ⟨none, none⟩, fun _ => [], 0⟩

/-- Merge one update of the batch: its insertions before its deletions. -/
def coalesceUpdate (captureRelations : List String) (state : Coalescing Row)
    (update : (String × RelationDelta Row) × Nat) : Result (Coalescing Row) := do
  let name := update.1.1
  let delta := update.1.2
  let opened : Merge Row :=
    ⟨state.pending name, state.canceledRows, if name ∈ captureRelations then some [] else none⟩
  let inserted ← mergeSide mergeInsertDelta delta.insert update.2 opened
  let merged ← mergeSide mergeDeleteDelta delta.delete update.2 inserted
  let captured := state.cancellations name ++ merged.cancellations.getD []
  .ok {
    pending := Function.update state.pending name merged.pending
    cancellations := Function.update state.cancellations name captured
    canceledRows := merged.canceledRows }

/-- The net update of a relation, when there is anything left of it. -/
def netDelta (pending : RelationDelta Row) : Option (RelationDelta Row) :=
  let insert := pending.insert.bind nonEmptyBuffer
  let delete := pending.delete.bind nonEmptyBuffer
  if insert.isNone && delete.isNone then none else some ⟨insert, delete⟩

structure PreparedRelationDeltaReportSeed where
  inputDeltaCount : Nat
  changedRelations : Nat
  coalescedInsertRows : Nat
  coalescedDeleteRows : Nat
  canceledRows : Nat
  deriving DecidableEq, Repr

structure PreparedRelationDeltaBatch (Row : Type) where
  deltas : List (String × RelationDelta Row)
  cancellations : String → List (RelationDeltaCancellation Row)
  reportSeed : PreparedRelationDeltaReportSeed

def coalesceRelationDeltaBatchWithCancellationCapture
    (deltaBatch : List (String × RelationDelta Row)) (captureRelations : List String)
    : Result (PreparedRelationDeltaBatch Row) := do
  let final ← deltaBatch.zipIdx.foldlM (coalesceUpdate captureRelations) .start
  let names := (deltaBatch.map Prod.fst).dedup
  let deltas := names.filterMap fun name => (netDelta (final.pending name)).map (name, ·)
  let rowsOf (side : Option (CudaBuffer Row)) := (side.map bufferRows).getD 0
  .ok {
    deltas := deltas
    cancellations := final.cancellations
    reportSeed := {
      inputDeltaCount := deltaBatch.length
      changedRelations := deltas.length
      coalescedInsertRows := (deltas.map fun entry => rowsOf entry.2.insert).sum
      coalescedDeleteRows := (deltas.map fun entry => rowsOf entry.2.delete).sum
      canceledRows := final.canceledRows } }

-- Applying updates

abbrev RelationStore (Row : Type) := String → Option (CudaBuffer Row)

def deleteRows (existing : CudaBuffer Row) : Option (CudaBuffer Row) → Result (CudaBuffer Row)
  | some delete => diffFullRow existing delete
  | none => .ok existing

def insertRows (existing : CudaBuffer Row) : Option (CudaBuffer Row) → Result (CudaBuffer Row)
  | some insert => unionGpu existing insert
  | none => .ok existing

/-- One update as the runtime applies it: delete, then insert. -/
def applyRelationDelta (store : RelationStore Row) (update : String × RelationDelta Row)
    : Result (RelationStore Row) := do
  let name := update.1
  let delta := update.2
  let some types := ((store name).map (·.types)).or
      ((delta.insert.map (·.types)).or (delta.delete.map (·.types)))
    | throw (.execution s!"Delta update for {name} has no existing relation and no schema")
  let existing := (store name).getD ⟨types, []⟩
  let deleted ← deleteRows existing delta.delete
  let updated ← insertRows deleted delta.insert
  .ok (Function.update store name (some updated))

/-- Updates one after the other. -/
def applyRelationDeltas (store : RelationStore Row) (updates : List (String × RelationDelta Row))
    : Result (RelationStore Row) :=
  updates.foldlM applyRelationDelta store

/-- The relations after the net updates of a batch. -/
def cloneProspectiveBaseForPreparedDeltaBatch (store : RelationStore Row)
    (prepared : PreparedRelationDeltaBatch Row) : Result (RelationStore Row) :=
  applyRelationDeltas store prepared.deltas

end Coalescer

end Xlog.Gpu.DeltaBatch
