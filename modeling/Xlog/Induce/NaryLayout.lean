import Xlog.Induce.NaryReference

/-! The flat device encoding of a pattern batch, column-major candidate relations, and the iterative walk
that scores one pattern over them. An index out of range is no answer.
-/

namespace Xlog.Induce

-- Layouts

def NARY_MAX_BODY_ATOMS : Nat := 8

def NARY_MAX_JOIN_VARS : Nat := 8

def NARY_MAX_ATOM_ARITY : Nat := 8

def NARY_MAX_HEAD_ARITY : Nat := 8

def JOIN_FLAG : BitVec 32 := 1 <<< 31

inductive NaryLayoutError where
  | emptyBatch
  | emptyBody (pattern : Nat)
  | tooManyBodyAtoms (pattern atoms : Nat)
  | atomArityOutOfRange (pattern atom arity : Nat)
  | joinIndexOutOfRange (pattern atom join : Nat)
  | headIndexOutOfRange (pattern atom head : Nat)
  | headArityOutOfRange (pattern headArity : Nat)
  deriving DecidableEq, Repr

/-- Why a batch has no layout: a typed refusal, or a count that leaves 32 bits. -/
inductive LayoutFailure where
  | refused (error : NaryLayoutError)
  | panicked
  deriving DecidableEq, Repr

/-- One pattern batch as parallel flat arrays. -/
structure NaryPatternBatchLayout where
  headArity : List Nat
  joinCount : List Nat
  bodyOffset : List Nat
  bodyLen : List Nat
  atomCandidateSlot : List Nat
  atomArity : List Nat
  atomBindingOffset : List Nat
  bindingCodes : List (BitVec 32)
  deriving DecidableEq, Repr

def bindingCode : PatternVar → BitVec 32
  | .head i => BitVec.ofNat 32 i
  | .join j => JOIN_FLAG ||| BitVec.ofNat 32 j

/-- The conversion of a count to 32 bits. -/
def countU32 (count : Nat) : Except LayoutFailure Nat :=
  if count < 4294967296 then .ok count else .error .panicked

/-- The check of one binding, and the join count it leaves. -/
def checkBinding (p a headArity joins : Nat) : PatternVar → Except LayoutFailure Nat
  | .head i =>
      if headArity ≤ i then .error (.refused (.headIndexOutOfRange p a i)) else .ok joins
  | .join j =>
      if NARY_MAX_JOIN_VARS ≤ j then .error (.refused (.joinIndexOutOfRange p a j))
      else .ok (max joins (j + 1))

def flattenBinding (p a headArity : Nat) (state : NaryPatternBatchLayout × Nat)
    (binding : PatternVar)
    : Except LayoutFailure (NaryPatternBatchLayout × Nat) := do
  let joins ← checkBinding p a headArity state.2 binding
  return ({ state.1 with bindingCodes := state.1.bindingCodes ++ [bindingCode binding] }, joins)

def flattenAtom (p headArity : Nat) (state : NaryPatternBatchLayout × Nat)
    (entry : BodyAtomPattern × Nat)
    : Except LayoutFailure (NaryPatternBatchLayout × Nat) := do
  let (layout, joins) := state
  let (atom, a) := entry
  let arity := atom.bindings.length
  if arity = 0 ∨ NARY_MAX_ATOM_ARITY < arity then
    .error (.refused (.atomArityOutOfRange p a arity))
  else do
    let bindingOffset ← countU32 layout.bindingCodes.length
    let layout :=
      { layout with
        atomCandidateSlot := layout.atomCandidateSlot ++ [atom.candidateSlot]
        atomArity := layout.atomArity ++ [arity]
        atomBindingOffset := layout.atomBindingOffset ++ [bindingOffset] }
    atom.bindings.foldlM (flattenBinding p a headArity) (layout, joins)

def flattenPattern (layout : NaryPatternBatchLayout) (entry : NaryRulePattern × Nat)
    : Except LayoutFailure NaryPatternBatchLayout := do
  let (pattern, p) := entry
  if pattern.body = [] then .error (.refused (.emptyBody p))
  else if NARY_MAX_BODY_ATOMS < pattern.body.length then
    .error (.refused (.tooManyBodyAtoms p pattern.body.length))
  else if NARY_MAX_HEAD_ARITY < pattern.headArity then
    .error (.refused (.headArityOutOfRange p pattern.headArity))
  else do
    let bodyOffset ← countU32 layout.atomCandidateSlot.length
    let bodyLen ← countU32 pattern.body.length
    let layout :=
      { layout with
        headArity := layout.headArity ++ [pattern.headArity]
        bodyOffset := layout.bodyOffset ++ [bodyOffset]
        bodyLen := layout.bodyLen ++ [bodyLen] }
    let (layout, joins) ←
      pattern.body.zipIdx.foldlM (flattenAtom p pattern.headArity) (layout, 0)
    return { layout with joinCount := layout.joinCount ++ [joins] }

def NaryPatternBatchLayout.empty : NaryPatternBatchLayout :=
  ⟨[], [], [], [], [], [], [], []⟩

def flattenPatterns (patterns : List NaryRulePattern)
    : Except LayoutFailure NaryPatternBatchLayout :=
  if patterns = [] then .error (.refused .emptyBatch)
  else patterns.zipIdx.foldlM flattenPattern .empty

-- Relations

/-- An array write, which fails out of range. -/
def writeAt {α : Type} (values : List α) (index : Nat) (value : α) : Option (List α) :=
  if index < values.length then some (values.set index value) else none

/-- One candidate relation, column by column. -/
structure FlatRelation where
  arity : Nat
  rowCount : Nat
  values : List Nat
  deriving DecidableEq, Repr

/-- The transposition of one row of so many. -/
def writeRow (rowCount arity : Nat) (values : List Nat) (entry : Row × Nat)
    : Option (List Nat) :=
  if entry.1.length ≠ arity then none
  else
    entry.1.zipIdx.foldlM
      (fun values cell => writeAt values (cell.2 * rowCount + entry.2) cell.1) values

def FlatRelation.fromRows (rows : List Row) (arity : Nat) : Option FlatRelation := do
  let values ←
    rows.zipIdx.foldlM (writeRow rows.length arity) (List.replicate (rows.length * arity) 0)
  if rows.length < 4294967296 then some ⟨arity, rows.length, values⟩ else none

-- The walk

/-- What the loop over the positions of a row leaves. -/
structure RowScan where
  matched : Bool
  joins : List Nat
  bound : BitVec 32
  mask : BitVec 32
  deriving DecidableEq, Repr

/-- What the atom of one depth reads: its relation, its arity and the offset of its codes. -/
structure AtomView where
  relation : FlatRelation
  arity : Nat
  bindingOffset : Nat
  deriving DecidableEq, Repr

/-- The loop over the positions of one row, which ends at the first that does not match. -/
def matchRow (bindingCodes : List (BitVec 32)) (tuple : Row) (view : AtomView) (row : Nat)
    : List Nat → List Nat → BitVec 32 → BitVec 32 → Option RowScan
  | [], joins, bound, mask => some ⟨true, joins, bound, mask⟩
  | position :: rest, joins, bound, mask => do
      let value ← view.relation.values[position * view.relation.rowCount + row]?
      let code ← bindingCodes[view.bindingOffset + position]?
      let index := (code &&& 0xFF).toNat
      if code &&& JOIN_FLAG ≠ 0 then
        let bit := (1 : BitVec 32) <<< index
        if bound &&& bit ≠ 0 then do
          let held ← joins[index]?
          if held ≠ value then some ⟨false, joins, bound, mask⟩
          else matchRow bindingCodes tuple view row rest joins bound mask
        else do
          let joins ← writeAt joins index value
          matchRow bindingCodes tuple view row rest joins (bound ||| bit) (mask ||| bit)
      else do
        let fixed ← tuple[index]?
        if fixed ≠ value then some ⟨false, joins, bound, mask⟩
        else matchRow bindingCodes tuple view row rest joins bound mask

/-- The state of a walk. A join value counts only while its bit is set in `bound`. -/
structure WalkState where
  joins : List Nat
  bound : BitVec 32
  rowCursor : List Nat
  depthMask : List (BitVec 32)
  depth : Nat
  deriving DecidableEq, Repr

/-- A row that matches takes the walk one atom deeper. -/
def descend (bodyLen : Nat) (state : WalkState) (scan : RowScan) : Option WalkState := do
  let depthMask ← writeAt state.depthMask state.depth scan.mask
  let depth := state.depth + 1
  let rowCursor ←
    if depth < bodyLen then writeAt state.rowCursor depth 0 else some state.rowCursor
  return ⟨scan.joins, scan.bound, rowCursor, depthMask, depth⟩

/-- The loop over the rows that the cursor has left: whether one of them matches. -/
def scanRows (bindingCodes : List (BitVec 32)) (tuple : Row) (bodyLen : Nat) (view : AtomView)
    : Nat → WalkState → Option (Bool × WalkState)
  | 0, state => some (false, state)
  | left + 1, state => do
      let row ← state.rowCursor[state.depth]?
      let scan ←
        matchRow bindingCodes tuple view row (List.range view.arity) state.joins state.bound 0
      if scan.matched then do
        let state ← descend bodyLen state scan
        return (true, state)
      else do
        let rowCursor ← writeAt state.rowCursor state.depth (row + 1)
        scanRows bindingCodes tuple bodyLen view left
          { state with joins := scan.joins, bound := scan.bound &&& ~~~scan.mask,
                       rowCursor := rowCursor }

/-- An exhausted depth takes the walk back to the next row of the depth above, or ends it. -/
def unwind (state : WalkState) : Option (Bool ⊕ WalkState) :=
  match state.depth with
  | 0 => some (.inl false)
  | depth + 1 => do
      let mask ← state.depthMask[depth]?
      let row ← state.rowCursor[depth]?
      let rowCursor ← writeAt state.rowCursor depth (row + 1)
      return .inr { state with depth := depth, bound := state.bound &&& ~~~mask,
                               rowCursor := rowCursor }

/-- One turn of the outer loop: the answer or the next state. -/
def walkStep (layout : NaryPatternBatchLayout) (bodyOffset bodyLen : Nat)
    (candidates : List FlatRelation) (tuple : Row) (state : WalkState)
    : Option (Bool ⊕ WalkState) :=
  if state.depth = bodyLen then some (.inl true)
  else do
    let atom := bodyOffset + state.depth
    let slot ← layout.atomCandidateSlot[atom]?
    let relation ← candidates[slot]?
    let arity ← layout.atomArity[atom]?
    let bindingOffset ← layout.atomBindingOffset[atom]?
    let row ← state.rowCursor[state.depth]?
    let (descended, state) ←
      scanRows layout.bindingCodes tuple bodyLen ⟨relation, arity, bindingOffset⟩
        (relation.rowCount - row) state
    if descended then return .inr state else unwind state

/-- The outer loop, for so many turns: no answer yet is an inner `none`. -/
def walk (step : WalkState → Option (Bool ⊕ WalkState))
    : Nat → WalkState → Option (Option Bool)
  | 0, _ => some none
  | fuel + 1, state => do
      match ← step state with
      | .inl answer => return some answer
      | .inr state => walk step fuel state

def WalkState.start : WalkState where
  joins := List.replicate NARY_MAX_JOIN_VARS 0
  bound := 0
  rowCursor := List.replicate NARY_MAX_BODY_ATOMS 0
  depthMask := List.replicate NARY_MAX_BODY_ATOMS 0
  depth := 0

def scorePatternFlat (layout : NaryPatternBatchLayout) (patternIndex : Nat)
    (candidates : List FlatRelation) (tuple : Row) (fuel : Nat)
    : Option (Option Bool) := do
  let bodyOffset ← layout.bodyOffset[patternIndex]?
  let bodyLen ← layout.bodyLen[patternIndex]?
  walk (walkStep layout bodyOffset bodyLen candidates tuple) fuel .start

end Xlog.Induce
