import Mathlib.Data.List.Perm.Basic
import Xlog.Foundation.Resolution

/-! The two kernels that verify a refutation. One closes the dependencies of the final clause by
a reverse scan, the other replays every needed clause, each block on its own stamped map. The
threads of a block insert the literals of a phase in any order.
-/

namespace Xlog.Solve

open Xlog.Foundation.Cnf

-- Buffers

/-- Values of `uint32_t` wrap around. -/
def u32 (n : Nat) : Nat := n % 2 ^ 32

def sub32 (a b : Nat) : Nat := u32 (a + (2 ^ 32 - u32 b))

/-- The value of these 32 bits as `int32_t`. -/
def toInt32 (n : Nat) : Int :=
  if u32 n < 2 ^ 31 then u32 n else (u32 n : Int) - 2 ^ 32

/-- Clause offsets and literals, whatever is read at each index. -/
structure ClauseArena where
  offsets : Nat → Nat
  lits : Nat → Int

/-- The view of a clause: its literals from its offset up to the next one. -/
def ClauseArena.clause (arena : ClauseArena) (id : Nat) : Clause :=
  let s := arena.offsets id
  let e := arena.offsets (u32 (id + 1))
  (List.range (sub32 e s)).map fun k => arena.lits (s + k)

/-- What the host hands to both kernels. It launches one block at least. -/
structure ProofInput where
  compileNeeded : Nat
  base : ClauseArena
  numClauses : Nat
  learned : ClauseArena
  learnedCount : Nat
  proofOffsets : Nat → Nat
  proofData : Nat → Nat
  neededCap : Nat
  scratchCap : Nat
  gridDim : Nat
  gridDim_pos : 0 < gridDim

namespace ProofInput

variable (input : ProofInput)

/-- The formula that is claimed to be unsatisfiable. -/
def formula : List Clause :=
  (List.range input.numClauses).map input.base.clause

/-- `sat_get_clause`, whose clause numbers are signed. -/
def getClause (id : Nat) : Clause :=
  if toInt32 id < toInt32 input.numClauses then input.base.clause (u32 id)
  else input.learned.clause (sub32 (u32 id) input.numClauses)

/-- The conflict clause and the number of steps of a proof, when its length fits. -/
def header (i : Nat) : Option (Nat × Nat) :=
  let poff := input.proofOffsets i
  let pend := input.proofOffsets (u32 (i + 1))
  if pend < u32 (poff + 2) then none
  else
    let conflictClause := input.proofData poff
    let steps := input.proofData (u32 (poff + 1))
    let expect := u32 (2 + 2 * steps)
    if u32 (poff + expect) ≠ pend then none else some (conflictClause, steps)

def pivotVar (i s : Nat) : Nat :=
  input.proofData (u32 (input.proofOffsets i + 2 + 2 * s))

def reasonClause (i s : Nat) : Nat :=
  input.proofData (u32 (input.proofOffsets i + 2 + 2 * s + 1))

-- sat_proof_mark_needed

/-- `mark_clause`. Without a value the kernel traps. -/
def markClause (needed : Nat → Bool) (id : Nat) : Option (Nat → Bool) :=
  if id < input.numClauses then some needed
  else
    let lid := sub32 id input.numClauses
    if lid ≥ input.learnedCount then none else some (Function.update needed lid true)

def markReason (i : Nat) (needed : Nat → Bool) (s : Nat) : Option (Nat → Bool) :=
  if input.reasonClause i s = 0xFFFFFFFF then none
  else input.markClause needed (input.reasonClause i s)

/-- One turn of the reverse scan. -/
def markTurn (needed : Nat → Bool) (i : Nat) : Option (Nat → Bool) := do
  if needed i = false then return needed
  let (conflictClause, steps) ← input.header i
  let needed ← input.markClause needed conflictClause
  (List.range steps).foldlM (input.markReason i) needed

def markFrom : Nat → (Nat → Bool) → Option (Nat → Bool)
  | 0, needed => some needed
  | i + 1, needed => do markFrom i (← input.markTurn needed i)

/-- `sat_proof_mark_needed` on a zeroed array. -/
def markNeeded : Option (Nat → Bool) :=
  if input.compileNeeded = 0 then some fun _ => false
  else if input.learnedCount = 0 then some fun _ => false
  else if input.learnedCount > input.neededCap then none
  else
    input.markFrom input.learnedCount
      (Function.update (fun _ => false) (input.learnedCount - 1) true)

end ProofInput

-- sat_proof_check

/-- A literal of a merge: of the current clause, or of the reason clause. -/
structure MergeItem where
  ofReason : Bool
  lit : Int
  deriving DecidableEq, Repr

/-- The order in which the threads insert the literals of each phase of each clause. -/
structure Schedule where
  order : Nat → Nat → List MergeItem → List MergeItem
  perm : ∀ i phase items, (order i phase items).Perm items

/-- One literal after the other. -/
def Schedule.inOrder : Schedule where
  order _ _ items := items
  perm _ _ _ := .refl _

/-- What the block of a clause shares while it fills a literal buffer. -/
structure MergeState where
  map : Nat → Nat
  out : List Int := []
  curPos : Bool := false
  curNeg : Bool := false
  reasonPos : Bool := false
  reasonNeg : Bool := false

def litSign (lit : Int) : Nat :=
  if 0 < lit then 1 else 2

/-- `map_insert_lit`. Without a value the block fails at its next barrier. -/
def MergeState.insertLit (state : MergeState) (stamp scratchCap : Nat) (lit : Int)
    : Option MergeState :=
  let old := state.map lit.natAbs
  if old / 4 = stamp then
    if old % 4 ≠ litSign lit then none else some state
  else if state.out.length ≥ scratchCap then none
  else
    some
      { state with
        map := Function.update state.map lit.natAbs (stamp * 4 + litSign lit)
        out := state.out ++ [lit] }

/-- A thread's turn on one literal of a phase that loads a clause. -/
def MergeState.load (stamp scratchCap : Nat) (state : MergeState) (item : MergeItem)
    : Option MergeState :=
  if item.lit.natAbs = 0 ∨ item.lit.natAbs ≥ scratchCap then none
  else state.insertLit stamp scratchCap item.lit

/-- A thread's turn on one literal of a phase that resolves on the pivot. -/
def MergeState.merge (stamp scratchCap pivotVar : Nat) (state : MergeState) (item : MergeItem)
    : Option MergeState :=
  if item.lit.natAbs = pivotVar then
    some
      { state with
        curPos := state.curPos || (!item.ofReason && decide (0 < item.lit))
        curNeg := state.curNeg || (!item.ofReason && !decide (0 < item.lit))
        reasonPos := state.reasonPos || (item.ofReason && decide (0 < item.lit))
        reasonNeg := state.reasonNeg || (item.ofReason && !decide (0 < item.lit)) }
  else state.load stamp scratchCap item

/-- The complementary pivot literals are there. -/
def MergeState.pivotOk (state : MergeState) : Bool :=
  (state.curPos && state.reasonNeg) || (state.curNeg && state.reasonPos)

/-- The map of a block with its stamp, and the literals of the current buffer. -/
structure BlockState where
  stamp : Nat := 1
  map : Nat → Nat := fun _ => 0
  cur : List Int := []

def stampMax : Nat := 0x3FFFFFFF

namespace ProofInput

variable (input : ProofInput) (schedule : Schedule)

/-- The literals of a clause from the arenas, which must fit a buffer. -/
def fetchClause (id : Nat) : Option Clause :=
  let clause := input.getClause id
  if clause.length > input.scratchCap then none else some clause

def asItems (ofReason : Bool) (clause : List Int) : List MergeItem :=
  clause.map fun lit => ⟨ofReason, lit⟩

/-- The conflict clause goes into the first buffer under a fresh stamp. -/
def loadConflict (i conflictClause : Nat) (block : BlockState) : Option BlockState := do
  if block.stamp ≥ stampMax - 2 then none
  else
    let stamp := block.stamp + 1
    let clause ← input.fetchClause conflictClause
    let items := schedule.order i 0 (asItems false clause)
    let state : MergeState := { map := block.map }
    let state ← items.foldlM (MergeState.load stamp input.scratchCap) state
    return { stamp := stamp, map := state.map, cur := state.out }

/-- One resolution step, from the current buffer to the other one. -/
def replayStep (i : Nat) (block : BlockState) (s : Nat) : Option BlockState := do
  if block.stamp ≥ stampMax - 2 then none
  else
    let stamp := block.stamp + 1
    let reasonClause := input.reasonClause i s
    if reasonClause = 0xFFFFFFFF then none
    else if reasonClause ≥ u32 (input.numClauses + i) then none
    else
      let clause ← input.fetchClause reasonClause
      let items :=
        schedule.order i (s + 1) (asItems false block.cur ++ asItems true clause)
      let state : MergeState := { map := block.map }
      let state
        ← items.foldlM (MergeState.merge stamp input.scratchCap (input.pivotVar i s)) state
      if state.pivotOk = false then none
      else return { stamp := stamp, map := state.map, cur := state.out }

/-- The stored clause shows literals of the replayed one, as many as that has. -/
def matchesStored (i : Nat) (block : BlockState) : Bool :=
  let stored := input.learned.clause i
  stored.length = block.cur.length
    && stored.all fun lit =>
        decide (lit.natAbs ≠ 0) && decide (lit.natAbs < input.scratchCap)
          && decide (block.map lit.natAbs / 4 = block.stamp)
          && decide (block.map lit.natAbs % 4 = litSign lit)

/-- The replay of one learned clause. -/
def replayClause (block : BlockState) (i : Nat) : Option BlockState := do
  let (conflictClause, steps) ← input.header i
  if conflictClause ≥ u32 (input.numClauses + i) then none
  else
    let block ← input.loadConflict schedule i conflictClause block
    let block ← (List.range steps).foldlM (input.replayStep schedule i) block
    if input.matchesStored i block then return block else none

/-- A turn of a block's loop. -/
def checkTurn (needed : Nat → Bool) (block : BlockState) (i : Nat) : Option BlockState :=
  if needed i = false then some block else input.replayClause schedule block i

/-- The clauses of one block, a grid apart. -/
def checkBlock (needed : Nat → Bool) (blockIdx : Nat) : Option BlockState :=
  ((List.range input.learnedCount).filter fun i => i % input.gridDim = blockIdx).foldlM
    (input.checkTurn schedule needed) {}

/-- The count is in range and the last learned clause is empty. -/
def certificateOk : Bool :=
  input.learnedCount ≠ 0 && decide (input.learnedCount ≤ input.neededCap)
    && decide
        (sub32 (input.learned.offsets input.learnedCount)
          (input.learned.offsets (input.learnedCount - 1)) = 0)

/-- `sat_proof_check`: what it leaves in `out_ok`, which the host has set. -/
def proofCheck (needed : Nat → Bool) : Bool :=
  if input.compileNeeded = 0 then true
  else
    input.certificateOk
      && (List.range input.gridDim).all fun blockIdx =>
          (input.checkBlock schedule needed blockIdx).isSome

/-- Neither kernel traps or fails. -/
def accepts : Bool :=
  match input.markNeeded with
  | none => false
  | some needed => input.proofCheck schedule needed

end ProofInput

end Xlog.Solve
