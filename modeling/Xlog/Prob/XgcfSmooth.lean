import Mathlib.Data.List.Sort
import Xlog.Prob.Xgcf

/-! Smoothing of a circuit: every branch of a disjunction or decision is padded with
tautologies over the random variables that only its siblings mention.
-/

namespace Xlog.Prob

open Xlog.Core

-- Sorted lists

/-- Merge two sorted lists without repetition; the fuel bounds the steps. -/
def mergeUnionFrom : Nat → List Nat → List Nat → List Nat
  | _, [], b => b
  | _, a, [] => a
  | 0, _, _ => []
  | fuel + 1, va :: a, vb :: b =>
      if va = vb then va :: mergeUnionFrom fuel a b
      else if va < vb then va :: mergeUnionFrom fuel a (vb :: b)
      else vb :: mergeUnionFrom fuel (va :: a) b

def mergeUnionSorted (a b : List Nat) : List Nat := mergeUnionFrom (a.length + b.length) a b

/-- The elements of the first sorted list that are not in the second. -/
def sortedDifference : List Nat → List Nat → List Nat
  | [], _ => []
  | va :: a, b =>
      match b.dropWhile (· < va) with
      | vb :: b' => if vb = va then sortedDifference a b' else va :: sortedDifference a (vb :: b')
      | [] => va :: sortedDifference a []

def insertSortedUnique (sorted : List Nat) (var : Nat) : List Nat :=
  if var ∈ sorted then sorted else sorted.orderedInsert (· ≤ ·) var

-- Support

/-- The largest variable; literals and decisions without a variable are refused. -/
def maxVarInCircuit (g : Xgcf) : Result Nat := do
  let maxVar ← g.nodes.foldlM (fun maxVar node =>
    match node with
    | .lit literal =>
        if literal = 0 then
          .error (.compilation "XGCF invariant violation: LIT node has lit=0")
        else .ok (max maxVar literal.natAbs)
    | _ => .ok maxVar) 0
  g.nodes.foldlM (fun maxVar node =>
    match node with
    | .decision var _ _ =>
        if var = 0 then
          .error (.compilation "XGCF invariant violation: DECISION node has var=0")
        else .ok (max maxVar var)
    | _ => .ok maxVar) maxVar

def isRandom (isRandomVar : List Bool) (var : Nat) : Bool := isRandomVar.getD var false

/-- The random variables of a gate, sorted, from those of its children. -/
def nodeSupport (isRandomVar : List Bool) (support : Nat → List Nat) (idx : Nat)
    : XgcfNode → Result (List Nat)
  | .const0 | .const1 => .ok []
  | .lit literal =>
      if literal = 0 then
        .error (.compilation s!"XGCF invariant violation: LIT node {idx} has lit=0")
      else .ok (if isRandom isRandomVar literal.natAbs then [literal.natAbs] else [])
  | .and children | .or children =>
      .ok (children.foldl (fun acc child => mergeUnionSorted acc (support child)) [])
  | .decision var childFalse childTrue =>
      if var = 0 then
        .error (.compilation s!"XGCF invariant violation: DECISION node {idx} has var=0")
      else
        let acc := mergeUnionSorted (support childFalse) (support childTrue)
        .ok (if isRandom isRandomVar var then insertSortedUnique acc var else acc)

def computeRandomSupport (g : Xgcf) (isRandomVar : List Bool) : Result (Nat → List Nat) :=
  g.order.foldlM (fun support idx => do
    let vars ← nodeSupport isRandomVar support idx (g.node idx)
    return Function.update support idx vars) fun _ => []

-- Building

/-- The circuit under construction, with one gate for each literal and each tautology. -/
structure XgcfSmoothBuilder where
  nodes : List XgcfNode
  oldToNew : Nat → Option Nat
  litCache : List (Int × Nat)
  tautologyCache : List (Nat × Nat)
  const0 : Nat
  const1 : Nat

namespace XgcfSmoothBuilder

/-- The two constants come first. -/
def new : XgcfSmoothBuilder where
  nodes := [.const0, .const1]
  oldToNew := fun _ => none
  litCache := []
  tautologyCache := []
  const0 := 0
  const1 := 1

def pushBaseNode (b : XgcfSmoothBuilder) (node : XgcfNode) : Result (Nat × XgcfSmoothBuilder) :=
  if b.nodes.length < u32Bound then
    .ok (b.nodes.length, { b with nodes := b.nodes ++ [node] })
  else .error (.panic "XGCF node index overflow")

def getLitNode (b : XgcfSmoothBuilder) (literal : Int) : Result (Nat × XgcfSmoothBuilder) :=
  if literal = 0 then .error (.compilation "Cannot create XGCF LIT for 0 literal")
  else
    match b.litCache.lookup literal with
    | some idx => .ok (idx, b)
    | none => do
        let (idx, b) ← b.pushBaseNode (.lit literal)
        return (idx, { b with litCache := (literal, idx) :: b.litCache })

/-- Sorted, without repetition. -/
def sortDedup (children : List Nat) : List Nat := (children.insertionSort (· ≤ ·)).dedup

def pushAnd (b : XgcfSmoothBuilder) (children : List Nat) : Result (Nat × XgcfSmoothBuilder) :=
  if b.const0 ∈ children then .ok (b.const0, b)
  else
    match sortDedup (children.filter (· ≠ b.const1)) with
    | [] => .ok (b.const1, b)
    | [only] => .ok (only, b)
    | kept => b.pushBaseNode (.and kept)

def pushOr (b : XgcfSmoothBuilder) (children : List Nat) : Result (Nat × XgcfSmoothBuilder) :=
  match sortDedup (children.filter (· ≠ b.const0)) with
  | [] => .ok (b.const0, b)
  | [only] => .ok (only, b)
  | kept => b.pushBaseNode (.or kept)

def pushDecision (b : XgcfSmoothBuilder) (var childFalse childTrue : Nat)
    : Result (Nat × XgcfSmoothBuilder) :=
  if var = 0 then .error (.compilation "Cannot create XGCF DECISION with var=0")
  else b.pushBaseNode (.decision var childFalse childTrue)

def tautologyDecision (b : XgcfSmoothBuilder) (var : Nat) : Result (Nat × XgcfSmoothBuilder) :=
  match b.tautologyCache.lookup var with
  | some idx => .ok (idx, b)
  | none => do
      let (idx, b) ← b.pushDecision var b.const1 b.const1
      return (idx, { b with tautologyCache := (var, idx) :: b.tautologyCache })

/-- The tautologies of the missing random variables. -/
def tautologies (isRandomVar : List Bool) (b : XgcfSmoothBuilder)
    : List Nat → Result (List Nat × XgcfSmoothBuilder)
  | [] => .ok ([], b)
  | var :: vars =>
      if isRandom isRandomVar var then do
        let (idx, b) ← b.tautologyDecision var
        let (rest, b) ← tautologies isRandomVar b vars
        return (idx :: rest, b)
      else tautologies isRandomVar b vars

/-- A branch in conjunction with the tautologies of the variables it misses. -/
def padMissing (isRandomVar : List Bool) (b : XgcfSmoothBuilder) (child : Nat)
    (missing : List Nat) : Result (Nat × XgcfSmoothBuilder) :=
  if missing.isEmpty then .ok (child, b)
  else do
    let (padding, b) ← b.tautologies isRandomVar missing
    b.pushAnd (child :: padding)

def mapped (b : XgcfSmoothBuilder) (child : Nat) (missingText : String) : Result Nat :=
  match b.oldToNew child with
  | some idx => .ok idx
  | none => .error (.compilation missingText)

/-- The padded children of a disjunction. -/
def wrapChildren (isRandomVar : List Bool) (support : Nat → List Nat) (idx : Nat)
    (b : XgcfSmoothBuilder) : List Nat → Result (List Nat × XgcfSmoothBuilder)
  | [] => .ok ([], b)
  | child :: children => do
      let childNew ← b.mapped child
        s!"XGCF smoothing error: missing mapped child {child} for OR node {idx}"
      let (wrapped, b) ←
        b.padMissing isRandomVar childNew (sortedDifference (support idx) (support child))
      let (rest, b) ← wrapChildren isRandomVar support idx b children
      return (wrapped :: rest, b)

/-- The new gate of an old one whose children are mapped. -/
def smoothNode (isRandomVar : List Bool) (support : Nat → List Nat) (b : XgcfSmoothBuilder)
    (idx : Nat) : XgcfNode → Result (Nat × XgcfSmoothBuilder)
  | .const0 => .ok (b.const0, b)
  | .const1 => .ok (b.const1, b)
  | .lit literal => b.getLitNode literal
  | .and children => do
      let news ← children.mapM fun child => b.mapped child
        s!"XGCF smoothing error: missing mapped child {child} for AND node {idx}"
      b.pushAnd news
  | .or children => do
      let (wrapped, b) ← b.wrapChildren isRandomVar support idx children
      b.pushOr wrapped
  | .decision var childFalse childTrue => do
      let childFalseNew ← b.mapped childFalse
        s!"XGCF smoothing error: missing mapped decision false child {childFalse} for node {idx}"
      let childTrueNew ← b.mapped childTrue
        s!"XGCF smoothing error: missing mapped decision true child {childTrue} for node {idx}"
      let unionChildren := mergeUnionSorted (support childFalse) (support childTrue)
      if var ∈ unionChildren then
        .error (.compilation
          s!"XGCF smoothing error: decision var {var} appears in child support at node {idx}")
      else do
        let (newFalse, b) ← b.padMissing isRandomVar childFalseNew
          (sortedDifference unionChildren (support childFalse))
        let (newTrue, b) ← b.padMissing isRandomVar childTrueNew
          (sortedDifference unionChildren (support childTrue))
        b.pushDecision var newFalse newTrue

def smoothStep (isRandomVar : List Bool) (support : Nat → List Nat) (g : Xgcf)
    (b : XgcfSmoothBuilder) (idx : Nat) : Result XgcfSmoothBuilder := do
  let (newIdx, b) ← b.smoothNode isRandomVar support idx (g.node idx)
  return { b with oldToNew := Function.update b.oldToNew idx (some newIdx) }

end XgcfSmoothBuilder

-- Levels

/-- The finished levels and the gates on the current path. -/
structure LevelTables where
  levels : Nat → Option Nat
  visiting : Nat → Bool

namespace Xgcf

/-- One more than the highest child, the children computed in order. -/
def aboveChildren (compute : LevelTables → Nat → Result (Nat × LevelTables))
    (children : List Nat) (s : LevelTables) : Result (Nat × LevelTables) := do
  let (maxChild, s) ← children.foldlM (fun (maxChild, s) child => do
    let (lvl, s) ← compute s child
    return (max maxChild lvl, s)) (0, s)
  return (maxChild + 1, s)

/-- The level of a gate, its children computed first. -/
def nodeLevelOf (compute : LevelTables → Nat → Result (Nat × LevelTables)) (s : LevelTables)
    : XgcfNode → Result (Nat × LevelTables)
  | .const0 | .const1 | .lit _ => .ok (0, s)
  | .and children | .or children => aboveChildren compute children s
  | .decision _ childFalse childTrue => do
      let (lf, s) ← compute s childFalse
      let (lt, s) ← compute s childTrue
      return (max lf lt + 1, s)

/-- The recursive search; the fuel bounds the depth of the call stack. -/
def levelOf (nodes : List XgcfNode) : Nat → LevelTables → Nat → Result (Nat × LevelTables)
  | 0, _, _ => .error (.panic "stack overflow")
  | fuel + 1, s, idx =>
      match s.levels idx with
      | some lvl => .ok (lvl, s)
      | none =>
          if s.visiting idx then
            .error (.compilation s!"XGCF levelize error: cycle detected at node {idx}")
          else do
            let entered := { s with visiting := Function.update s.visiting idx true }
            let (lvl, s) ← nodeLevelOf (levelOf nodes fuel) entered (nodes.getD idx .const0)
            return (lvl, ⟨Function.update s.levels idx (some lvl),
              Function.update s.visiting idx false⟩)

/-- The gates reachable from the roots, by level and then by index. -/
def levelize (nodes : List XgcfNode) (roots : List Nat) : Result (List (List Nat)) := do
  let s ← roots.foldlM (fun s root => do
    let (_, s) ← levelOf nodes (nodes.length + 1) s root
    return s) ⟨fun _ => none, fun _ => false⟩
  let indices := List.range nodes.length
  let maxLevel := (indices.filterMap s.levels).foldl max 0
  return indices.foldl (fun buckets i =>
    match s.levels i with
    | some lvl => buckets.modify lvl (· ++ [i])
    | none => buckets) (List.replicate (maxLevel + 1) [])

-- Smoothing

/-- The length of the flat child table. -/
def childTableLen (nodes : List XgcfNode) : Nat :=
  (nodes.map fun node =>
    match node with
    | .and children | .or children => children.length
    | _ => 0).sum

def smooth (g : Xgcf) (isRandomVar : List Bool) (support : Nat → List Nat) : Result Xgcf := do
  let b ← g.order.foldlM (XgcfSmoothBuilder.smoothStep isRandomVar support g) .new
  -- offsets into a longer child table would wrap; the model ends there
  if u32Bound ≤ childTableLen b.nodes then .error (.panic "XGCF child table overflow")
  else do
    let roots ← g.roots.mapM fun root =>
      b.mapped root s!"XGCF smoothing error: missing mapped root node {root}"
    let levels ← levelize b.nodes roots
    return ⟨b.nodes, roots, levels⟩

def smoothRandomVars (g : Xgcf) (isRandomVar : List Bool) : Result Xgcf := do
  let maxVar ← maxVarInCircuit g
  if isRandomVar.length ≤ maxVar then
    .error (.compilation
      s!"XGCF smoothing expects is_random_var len >= {maxVar + 1}, got {isRandomVar.length}")
  else do
    let support ← computeRandomSupport g isRandomVar
    g.smooth isRandomVar support

end Xgcf

end Xlog.Prob
