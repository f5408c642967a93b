import Xlog.Core.Error
import Xlog.Ir.Semantics
import Xlog.Logic.ArithmeticValue

/-! The executor's relations and what it asks of its provider. Buffers are lists of rows of
their schema's width; the kernels and the evaluation of a plan node are parameters.
-/

namespace Xlog.Runtime

open Xlog.Core Xlog.Ir Xlog.Logic

-- Buffers

structure Buffer (V : Type) where
  schema : Schema
  rows : Relation V
  width : ∀ row ∈ rows, row.length = schema.arity

def Buffer.empty {V : Type} (schema : Schema) : Buffer V :=
  ⟨schema, [], fun _ h => absurd h List.not_mem_nil⟩

@[simp] theorem Buffer.empty_rows {V : Type} (schema : Schema)
    : (Buffer.empty schema : Buffer V).rows = [] :=
  rfl

/-- A rule with what the planner says about its result. -/
structure RirMeta where
  schema : Schema

structure CompiledRule extends Ir.CompiledRule where
  info : RirMeta

-- State

/-- The parts of the executor that hold or name relations. -/
structure ExecutorState (V : Type) where
  store : String → Option (Buffer V)
  relNames : List (RelId × String)
  nameToRel : String → Option RelId
  /-- The registered relations of the statistics with their row counts. -/
  cardinalities : RelId → Option Nat

section

variable {V : Type}

def ExecutorState.storePut (state : ExecutorState V) (name : String) (buffer : Buffer V)
    : ExecutorState V :=
  { state with store := Function.update state.store name (some buffer) }

def ExecutorState.storeRemove (state : ExecutorState V) (name : String) : ExecutorState V :=
  { state with store := Function.update state.store name none }

def ExecutorState.getRelName (state : ExecutorState V) (relId : RelId) : Option String :=
  state.relNames.lookup relId

end

-- Scans

mutual
/-- The scanned relations, with repetitions; of a physical route only its inputs. -/
def collectScanRels : RirNode → List RelId
  | .unit => []
  | .scan rel => [rel]
  | .filter input _ | .project input _ => collectScanRels input
  | .join left right _ _ _ | .chainJoin left right _ _ _ _ | .diff left right =>
      collectScanRels left ++ collectScanRels right
  | .groupBy input _ _ | .distinct input _ => collectScanRels input
  | .union inputs => collectScanRelsList inputs
  | .fixpoint _ base recursive _ _ => collectScanRels base ++ collectScanRels recursive
  | .tensorMaskedJoin spec => spec.relIndex.map Prod.fst
  | .multiWayJoin inputs _ _ _ _ _ => collectScanRelsList inputs

def collectScanRelsList : List RirNode → List RelId
  | [] => []
  | input :: inputs => collectScanRels input ++ collectScanRelsList inputs
end

end Xlog.Runtime
