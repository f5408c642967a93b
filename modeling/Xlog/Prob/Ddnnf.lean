import Mathlib.Data.List.Sort
import Xlog.Prob.Xgcf

/-! Decision-DNNF circuits: their text format and their weighted count. Texts are lists of characters, and
an index into the edges is the edge itself.
-/

namespace Xlog.Prob

open Xlog.Core

inductive DdnnfNodeKind where
  | or | and | true | false
  deriving DecidableEq, Repr

/-- An edge with its literals, which stand in conjunction with its target. -/
structure DdnnfEdge where
  source : Nat
  target : Nat
  lits : List Int
  deriving DecidableEq, Repr

structure DecisionDnnf where
  root : Nat
  nodes : List (Nat × DdnnfNodeKind)
  edges : List DdnnfEdge
  maxVar : Nat
  deriving DecidableEq, Repr

def DecisionDnnf.nodeKind (ddnnf : DecisionDnnf) (id : Nat) : Option DdnnfNodeKind :=
  ddnnf.nodes.lookup id

/-- The entry of the map from nodes to their edges; nodes without edges have none. -/
def outgoingEdges (edges : List DdnnfEdge) (id : Nat) : Option (List DdnnfEdge) :=
  match edges.filter fun edge => edge.source = id with
  | [] => none
  | out => some out

-- Numbers

def parseDigits (digits : List Char) : Option Nat :=
  if digits.isEmpty then none
  else
    digits.foldlM
      (fun value digit => if digit.isDigit then some (10 * value + (digit.toNat - 48)) else none) 0

def parseU32 (token : List Char) : Option Nat :=
  let digits := match token with
    | '+' :: rest => rest
    | token => token
  (parseDigits digits).filter fun value => value < u32Bound

def parseI32 (token : List Char) : Option Int :=
  match token with
  | '-' :: digits => do
      let value ← parseDigits digits
      if value ≤ 2 ^ 31 then some (-(value : Int)) else none
  | '+' :: digits => do
      let value ← parseDigits digits
      if value < 2 ^ 31 then some (value : Int) else none
  | digits => do
      let value ← parseDigits digits
      if value < 2 ^ 31 then some (value : Int) else none

-- Records

/-- The records of the lines so far. -/
structure DdnnfRecords where
  nodes : List (Nat × DdnnfNodeKind)
  edges : List DdnnfEdge
  maxVar : Nat

def parseError {α : Type} (lineNo : Nat) (text : String) : Result α :=
  .error (.compilation (s!"Decision-DNNF parse error at line {lineNo}: " ++ text))

def parseNodeRecord (lineNo : Nat) (records : DdnnfRecords) (kind : DdnnfNodeKind)
    : List (List Char) → Result DdnnfRecords
  | [] => parseError lineNo "node record missing id"
  | token :: _ =>
      match parseU32 token with
      | none =>
          parseError lineNo ("invalid node id '" ++ String.ofList token ++ "'")
      | some id =>
          if id ∈ records.nodes.map Prod.fst then parseError lineNo s!"duplicate node id {id}"
          else .ok { records with nodes := records.nodes ++ [(id, kind)] }

def parseLits (lineNo : Nat) (maxVar : Nat) : List (List Char) → Result (List Int × Nat)
  | [] => .ok ([], maxVar)
  | token :: tokens =>
      match parseI32 token with
      | none => parseError lineNo ("invalid literal '" ++ String.ofList token ++ "'")
      | some lit =>
          if lit = 0 then parseError lineNo "literal cannot be 0"
          else do
            let (lits, maxVar) ← parseLits lineNo (max maxVar lit.natAbs) tokens
            .ok (lit :: lits, maxVar)

def parseEdgeRecord (lineNo : Nat) (records : DdnnfRecords) : List (List Char) → Result DdnnfRecords
  | source :: target :: tokens =>
      match parseU32 source with
      | none => parseError lineNo ("invalid edge src '" ++ String.ofList source ++ "'")
      | some sourceId =>
          match parseU32 target with
          | none => parseError lineNo ("invalid edge dst '" ++ String.ofList target ++ "'")
          | some targetId => do
              let (lits, maxVar) ← parseLits lineNo records.maxVar tokens
              .ok { records with edges := records.edges ++ [⟨sourceId, targetId, lits⟩], maxVar }
  | _ => parseError lineNo "edge record missing dst"

/-- The tokens of a line, which end in `0`. -/
def parseRecord (lineNo : Nat) (records : DdnnfRecords) (tokens : List (List Char))
    : Result DdnnfRecords :=
  if tokens.isEmpty then .ok records
  else if tokens.getLast? ≠ some ['0'] then parseError lineNo "missing 0 terminator"
  else
    match tokens.dropLast with
    | [] => parseError lineNo "empty record before terminator"
    | ['o'] :: rest => parseNodeRecord lineNo records .or rest
    | ['a'] :: rest => parseNodeRecord lineNo records .and rest
    | ['t'] :: rest => parseNodeRecord lineNo records .true rest
    | ['f'] :: rest => parseNodeRecord lineNo records .false rest
    | tokens => parseEdgeRecord lineNo records tokens

/-- `char::is_whitespace` -/
def isWhitespace (c : Char) : Bool :=
  let code := c.toNat
  (9 ≤ code && code ≤ 13) || code == 32 || code == 0x85 || code == 0xA0 || code == 0x1680
  || (0x2000 ≤ code && code ≤ 0x200A) || code == 0x2028 || code == 0x2029 || code == 0x202F
  || code == 0x205F || code == 0x3000

def splitWhitespace (line : List Char) : List (List Char) :=
  (line.splitOnP isWhitespace).filter fun token => !token.isEmpty

def parseLines (lineNo : Nat) (records : DdnnfRecords) : List (List Char) → Result DdnnfRecords
  | [] => .ok records
  | line :: lines => do
      let records ← parseRecord lineNo records (splitWhitespace line)
      parseLines (lineNo + 1) records lines

-- Checks

def checkEdge (nodes : List (Nat × DdnnfNodeKind)) (edge : DdnnfEdge) : Result Unit :=
  match nodes.lookup edge.source, nodes.lookup edge.target with
  | none, _ =>
      let source := edge.source
      .error (.compilation s!"Decision-DNNF parse error: edge references unknown src node {source}")
  | some _, none =>
      let target := edge.target
      .error (.compilation s!"Decision-DNNF parse error: edge references unknown dst node {target}")
  | some .or, some _ | some .and, some _ => .ok ()
  | some .true, some _ | some .false, some _ =>
      let source := edge.source
      .error (.compilation
        s!"Decision-DNNF parse error: leaf node {source} cannot have outgoing edges")

/-- `{:?}` of a vector of numbers -/
def debugNats (numbers : List Nat) : String :=
  "[" ++ ", ".intercalate (numbers.map toString) ++ "]"

def inferRoot (nodes : List (Nat × DdnnfNodeKind)) (edges : List DdnnfEdge) : Result Nat :=
  let declared := (nodes.map Prod.fst).insertionSort (· ≤ ·)
  match declared.filter fun id => id ∉ edges.map DdnnfEdge.target with
  | [only] => .ok only
  | [] =>
      .error (.compilation "Decision-DNNF parse error: could not infer root (no root candidates)")
  | many =>
      .error (.compilation
        ("Decision-DNNF parse error: could not infer unique root (candidates: "
          ++ debugNats many ++ ")"))

/-- The edges that a node combines; leaves combine none. -/
def edgesBelow (nodes : List (Nat × DdnnfNodeKind)) (edges : List DdnnfEdge) (id : Nat)
    : List DdnnfEdge :=
  match nodes.lookup id with
  | some .or | some .and => (outgoingEdges edges id).getD []
  | _ => []

/-- The nodes on the current path and the finished ones, the last finished first. -/
structure DfsTables where
  visiting : List Nat
  visited : List Nat

/-- The search for a cycle; the fuel bounds the depth of the call stack. -/
def dfs (nodes : List (Nat × DdnnfNodeKind)) (edges : List DdnnfEdge)
    : Nat → DfsTables → Nat → Result DfsTables
  | 0, _, _ => .error (.panic "stack overflow")
  | fuel + 1, tables, id =>
      if id ∈ tables.visited then .ok tables
      else if id ∈ tables.visiting then
        .error (.compilation s!"Decision-DNNF parse error: cycle detected at node {id}")
      else
        match nodes.lookup id with
        | none =>
            .error (.compilation
              s!"Decision-DNNF parse error: unknown node {id} during cycle check")
        | some _kind => do
            let entered : DfsTables := { tables with visiting := id :: tables.visiting }
            let left ← (edgesBelow nodes edges id).foldlM
              (fun tables edge => dfs nodes edges fuel tables edge.target) entered
            .ok ⟨left.visiting.erase id, id :: left.visited⟩

def checkAcyclic (root : Nat) (nodes : List (Nat × DdnnfNodeKind)) (edges : List DdnnfEdge)
    : Result Unit := do
  let _tables ← dfs nodes edges (nodes.length + 1) ⟨[], []⟩ root
  .ok ()

def DecisionDnnf.parseStr (input : List Char) : Result DecisionDnnf := do
  let records ← parseLines 1 ⟨[], [], 0⟩ (input.splitOn '\n')
  if records.nodes.isEmpty then
    .error (.compilation "Decision-DNNF parse error: no nodes found")
  else do
    records.edges.forM (checkEdge records.nodes)
    let root ← inferRoot records.nodes records.edges
    checkAcyclic root records.nodes records.edges
    .ok ⟨root, records.nodes, records.edges, records.maxVar⟩

-- The weighted count

section

variable {K : Type} [CommSemiring K] (wt wf : Nat → K)

def litWeight (lit : Int) : K := if 0 < lit then wt lit.natAbs else wf lit.natAbs

def litsWeight (lits : List Int) : K := (lits.map (litWeight wt wf)).prod

/-- The value of a node over a semiring in place of log space; values are not remembered. -/
def DecisionDnnf.evalNode (ddnnf : DecisionDnnf) : Nat → Nat → Result K
  | 0, _ => .error (.panic "stack overflow")
  | fuel + 1, id =>
      match ddnnf.nodeKind id with
      | none => .error (.compilation s!"Decision-DNNF eval error: unknown node {id}")
      | some .true => .ok 1
      | some .false => .ok 0
      | some .and =>
          match outgoingEdges ddnnf.edges id with
          | none => .error (.compilation s!"Decision-DNNF eval error: AND node {id} has no children")
          | some out => do
              let values ← out.mapM fun edge => do
                let child ← evalNode ddnnf fuel edge.target
                .ok (litsWeight wt wf edge.lits * child)
              .ok values.prod
      | some .or =>
          match outgoingEdges ddnnf.edges id with
          | none => .error (.compilation s!"Decision-DNNF eval error: OR node {id} has no children")
          | some out => do
              let values ← out.mapM fun edge => do
                let child ← evalNode ddnnf fuel edge.target
                .ok (litsWeight wt wf edge.lits * child)
              .ok values.sum

def DecisionDnnf.evalWmc (ddnnf : DecisionDnnf) : Result K :=
  ddnnf.evalNode wt wf ddnnf.nodes.length ddnnf.root

end

end Xlog.Prob
