import Mathlib.Data.List.MinMax
import Mathlib.Data.Prod.Lex
import Mathlib.Data.Finset.Sort
import Xlog.Foundation.UnionFind

/-! The constraint graph of a joint solve: its connected components by a union-find over the edges, and
for each a bound on its treewidth by min-degree elimination.
-/

namespace Xlog.Cuda.ConstraintGraph

open Xlog.Foundation

-- Components

inductive SolveStrategy where
  | exactDp
  | branchAndBound
  deriving DecidableEq, Repr

structure Component where
  vars : List Nat
  edges : List (Nat × Nat)
  widthBound : Nat
  deriving DecidableEq, Repr

def Component.strategy (component : Component) (pinnedWidth : Nat) : SolveStrategy :=
  if component.widthBound ≤ pinnedWidth then .exactDp else .branchAndBound

-- Elimination

/-- The map from the variables that are left, in order, to their neighbours. -/
structure Adjacency where
  keys : List Nat
  neighbors : Nat → Finset Nat

namespace Adjacency

/-- A change to the neighbours of a variable, which has to be in the map. -/
def getMut (adj : Adjacency) (v : Nat) (change : Finset Nat → Finset Nat) : Option Adjacency :=
  if v ∈ adj.keys then
    some { adj with neighbors := Function.update adj.neighbors v (change (adj.neighbors v)) }
  else none

def connect (adj : Adjacency) (edge : Nat × Nat) : Option Adjacency := do
  let adj ← adj.getMut edge.1 (insert edge.2)
  adj.getMut edge.2 (insert edge.1)

/-- The variable of least degree, and among those the least. -/
def minDegree (adj : Adjacency) : Option Nat :=
  adj.keys.argmin fun v => toLex ((adj.neighbors v).card, v)

/-- The fill edges at one of the neighbours of an eliminated variable. -/
def fill (v : Nat) (neighbors : List Nat) (adj : Adjacency) (n : Nat) : Option Adjacency :=
  adj.getMut n fun set =>
    neighbors.foldl (fun set m => if m ≠ n then insert m set else set) (set.erase v)

/-- One round of the elimination, with the degree of the variable that it removes. -/
def eliminateOne (adj : Adjacency) : Option (Nat × Adjacency) := do
  let v ← adj.minDegree
  let neighbors := (adj.neighbors v).sort (· ≤ ·)
  let filled ← neighbors.foldlM (fill v neighbors) adj
  return (neighbors.length, { filled with keys := filled.keys.filter (· ≠ v) })

/-- The rounds until no variable is left, of which there are no more than the fuel. -/
def eliminate : Nat → Adjacency → Nat → Option Nat
  | 0, adj, width => if adj.keys.isEmpty then some width else none
  | fuel + 1, adj, width =>
      if adj.keys.isEmpty then some width
      else do
        let (degree, rest) ← adj.eliminateOne
        eliminate fuel rest (max width degree)

end Adjacency

def eliminationWidthBound (vars : List Nat) (edges : List (Nat × Nat)) : Option Nat := do
  let adj ← edges.foldlM Adjacency.connect ⟨vars, fun _ => ∅⟩
  adj.eliminate vars.length 0

-- The graph

structure Graph where
  numVariables : Nat
  edges : List (Nat × Nat)
  deriving DecidableEq, Repr

/-- An edge from the lower to the higher variable; its assertions panic. -/
def normalizeEdge (numVariables : Nat) (edge : Nat × Nat) : Option (Nat × Nat) :=
  if edge.1 < numVariables ∧ edge.2 < numVariables then
    if edge.1 ≠ edge.2 then some (min edge.1 edge.2, max edge.1 edge.2) else none
  else none

def Graph.new (numVariables : Nat) (edges : List (Nat × Nat)) : Option Graph := do
  let edges ← edges.mapM (normalizeEdge numVariables)
  return ⟨numVariables, edges⟩

/-- Put an item with the root of an element of it, which compresses a path. -/
def place {ι : Type} (element : ι → Nat) (state : List Nat × List (List ι)) (item : ι)
    : List Nat × List (List ι) :=
  let found := UnionFind.find state.1 (element item)
  (found.2, state.2.modify found.1 (· ++ [item]))

/-- Sorted as pairs and without duplicates. -/
def sortEdges (edges : List (Nat × Nat)) : List (Nat × Nat) :=
  (((edges.map toLex).insertionSort (· ≤ ·)).dedup).map ofLex

def Graph.decompose (graph : Graph) : Option (List Component) :=
  let n := graph.numVariables
  let parent := UnionFind.unionAllMin (UnionFind.singletons n) graph.edges
  let members := (List.range n).foldl (place id) (parent, List.replicate n [])
  let componentEdges := graph.edges.foldl (place Prod.fst) (members.1, List.replicate n [])
  ((List.range n).filter fun root => !(members.2.getD root []).isEmpty).mapM fun root => do
    let vars := members.2.getD root []
    let edges := sortEdges (componentEdges.2.getD root [])
    let widthBound ← eliminationWidthBound vars edges
    return ⟨vars, edges, widthBound⟩

end Xlog.Cuda.ConstraintGraph
