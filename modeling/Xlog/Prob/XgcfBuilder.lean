import Xlog.Prob.Ddnnf
import Xlog.Prob.XgcfSmooth

/-! The conversion of decision-DNNF circuits: a disjunction of two edges that differ in the sign of exactly
one variable becomes a decision on this variable.
-/

namespace Xlog.Prob

open Xlog.Core

/-- The circuit under construction, whose gates are made as in smoothing, and the converted nodes. -/
structure XgcfBuilder where
  gates : XgcfSmoothBuilder
  ddnnfCache : List (Nat × Nat)

-- The decision variable

def insertSign (map : List (Nat × Bool)) (lit : Int) : Result (List (Nat × Bool)) :=
  let var := lit.natAbs
  let sign := decide (0 < lit)
  match map.lookup var with
  | none => .ok ((var, sign) :: map)
  | some prev =>
      if prev ≠ sign then
        .error (.compilation s!"XGCF build error: conflicting literals {var} and {lit} in same branch")
      else .ok map

/-- The signs of the variables of an edge. -/
def signMap (lits : List Int) : Result (List (Nat × Bool)) := lits.foldlM insertSign []

/-- The only variable with different signs, with the edge of its truth and that of its falsity. -/
def inferDecisionVar (e0 e1 : DdnnfEdge) : Result (Option (Nat × DdnnfEdge × DdnnfEdge)) := do
  let m0 ← signMap e0.lits
  let m1 ← signMap e1.lits
  match m0.filter fun entry => m1.lookup entry.1 = some (!entry.2) with
  | [(var, edge0IsTrue)] => .ok (some (if edge0IsTrue then (var, e0, e1) else (var, e1, e0)))
  | _ => .ok none

namespace XgcfBuilder

def new : XgcfBuilder := ⟨.new, []⟩

def getLitNode (b : XgcfBuilder) (lit : Int) : Result (Nat × XgcfBuilder) := do
  let (idx, gates) ← b.gates.getLitNode lit
  .ok (idx, { b with gates })

def pushAnd (b : XgcfBuilder) (children : List Nat) : Result (Nat × XgcfBuilder) := do
  let (idx, gates) ← b.gates.pushAnd children
  .ok (idx, { b with gates })

def pushOr (b : XgcfBuilder) (children : List Nat) : Result (Nat × XgcfBuilder) := do
  let (idx, gates) ← b.gates.pushOr children
  .ok (idx, { b with gates })

def pushDecision (b : XgcfBuilder) (var childFalse childTrue : Nat) : Result (Nat × XgcfBuilder) := do
  let (idx, gates) ← b.gates.pushDecision var childFalse childTrue
  .ok (idx, { b with gates })

-- Edges

/-- The gates of the literals, without the first that is the dropped one, and whether it was there. -/
def convertLits (dropLit : Option Int) (dropped : Bool) (b : XgcfBuilder)
    : List Int → Result (List Nat × Bool × XgcfBuilder)
  | [] => .ok ([], dropped, b)
  | lit :: lits =>
      if !dropped && dropLit = some lit then convertLits dropLit true b lits
      else do
        let (idx, b) ← b.getLitNode lit
        let (rest, dropped, b) ← convertLits dropLit dropped b lits
        .ok (idx :: rest, dropped, b)

def convertDdnnfEdgeBranch (convert : XgcfBuilder → Nat → Result (Nat × XgcfBuilder)) (b : XgcfBuilder)
    (edge : DdnnfEdge) (dropLit : Option Int) : Result (Nat × XgcfBuilder) := do
  let (child, b) ← convert b edge.target
  let (lits, dropped, b) ← convertLits dropLit false b edge.lits
  match dropLit with
  | some lit =>
      if !dropped then
        let source := edge.source
        let target := edge.target
        .error (.compilation (s!"XGCF build error: expected to drop literal {lit} on edge "
          ++ s!"{source}->{target} but not present"))
      else b.pushAnd (child :: lits)
  | none => b.pushAnd (child :: lits)

def convertBranches (convert : XgcfBuilder → Nat → Result (Nat × XgcfBuilder)) (b : XgcfBuilder)
    : List DdnnfEdge → Result (List Nat × XgcfBuilder)
  | [] => .ok ([], b)
  | edge :: edges => do
      let (idx, b) ← convertDdnnfEdgeBranch convert b edge none
      let (rest, b) ← convertBranches convert b edges
      .ok (idx :: rest, b)

-- Nodes

def convertAnd (convert : XgcfBuilder → Nat → Result (Nat × XgcfBuilder)) (b : XgcfBuilder)
    (out : List DdnnfEdge) : Result (Nat × XgcfBuilder) := do
  let (children, b) ← convertBranches convert b out
  b.pushAnd children

def convertOr (convert : XgcfBuilder → Nat → Result (Nat × XgcfBuilder)) (b : XgcfBuilder)
    (out : List DdnnfEdge) : Result (Nat × XgcfBuilder) := do
  let (children, b) ← convertBranches convert b out
  b.pushOr children

def convertDecision (convert : XgcfBuilder → Nat → Result (Nat × XgcfBuilder)) (b : XgcfBuilder)
    (var : Nat) (edgeTrue edgeFalse : DdnnfEdge) : Result (Nat × XgcfBuilder) := do
  let (childTrue, b) ← convertDdnnfEdgeBranch convert b edgeTrue (some (var : Int))
  let (childFalse, b) ← convertDdnnfEdgeBranch convert b edgeFalse (some (-(var : Int)))
  b.pushDecision var childFalse childTrue

def convertDisjunction (convert : XgcfBuilder → Nat → Result (Nat × XgcfBuilder)) (b : XgcfBuilder)
    : List DdnnfEdge → Result (Nat × XgcfBuilder)
  | [e0, e1] => do
      match ← inferDecisionVar e0 e1 with
      | some (var, edgeTrue, edgeFalse) => convertDecision convert b var edgeTrue edgeFalse
      | none => convertOr convert b [e0, e1]
  | out => convertOr convert b out

def convertKind (convert : XgcfBuilder → Nat → Result (Nat × XgcfBuilder)) (ddnnf : DecisionDnnf)
    (b : XgcfBuilder) (id : Nat) : DdnnfNodeKind → Result (Nat × XgcfBuilder)
  | .true => .ok (b.gates.const1, b)
  | .false => .ok (b.gates.const0, b)
  | .and =>
      match outgoingEdges ddnnf.edges id with
      | none => .error (.compilation s!"XGCF build error: AND node {id} has no outgoing edges")
      | some out => convertAnd convert b out
  | .or =>
      match outgoingEdges ddnnf.edges id with
      | none => .error (.compilation s!"XGCF build error: OR node {id} has no outgoing edges")
      | some out => convertDisjunction convert b out

/-- The fuel bounds the depth of the call stack. -/
def convertDdnnfNode (ddnnf : DecisionDnnf) : Nat → XgcfBuilder → Nat → Result (Nat × XgcfBuilder)
  | 0, _, _ => .error (.panic "stack overflow")
  | fuel + 1, b, id =>
      match b.ddnnfCache.lookup id with
      | some idx => .ok (idx, b)
      | none =>
          match ddnnf.nodeKind id with
          | none => .error (.compilation s!"XGCF build error: unknown DDNNF node {id}")
          | some kind => do
              let (idx, b) ← convertKind (convertDdnnfNode ddnnf fuel) ddnnf b id kind
              .ok (idx, { b with ddnnfCache := (id, idx) :: b.ddnnfCache })

end XgcfBuilder

def Xgcf.fromDdnnf (ddnnf : DecisionDnnf) : Result Xgcf := do
  let (root, b) ← XgcfBuilder.convertDdnnfNode ddnnf ddnnf.nodes.length .new ddnnf.root
  -- offsets into a longer child table would wrap; the model ends there
  if u32Bound ≤ childTableLen b.gates.nodes then .error (.panic "XGCF child table overflow")
  else do
    let levels ← levelize b.gates.nodes [root]
    .ok ⟨b.gates.nodes, [root], levels⟩

end Xlog.Prob
