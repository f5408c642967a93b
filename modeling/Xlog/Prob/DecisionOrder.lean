import Xlog.Foundation.Marginal
import Xlog.Foundation.Renaming
import Xlog.Prob.Provenance

/-! The host-side decision-order hint. Leaf and choice variables are renumbered by descending
structural fanout in the provenance graph, and the tables keyed by them are rewritten along.
A table access that finds nothing and an index outside the arena panic, which is `none` here.
-/

namespace Xlog.Prob.DecisionOrder

open Xlog.Core Xlog.Logic Xlog.Foundation

variable {P : Type}

/-- One Bernoulli stage of an annotated disjunction. -/
structure ChoiceSource (P : Type) where
  choices : List (GroundAtom × P)
  choiceIndex : Nat
  sourceId : Option Nat
  deriving DecidableEq

/-- The provenance the hint rewrites, with every table keyed by variables. The pass moves
probabilities and computes none.
-/
structure Provenance (P : Type) where
  pir : PirGraph
  leafProbs : Std.TreeMap LeafId P
  choiceProbs : Std.TreeMap ChoiceVarId (P × P)
  tupleFormulas : List (GroundAtom × PirNodeId)
  queries : List GroundAtom
  evidence : List (GroundAtom × Bool)
  leafAtoms : Std.TreeMap LeafId GroundAtom
  choiceSources : Std.TreeMap ChoiceVarId (ChoiceSource P)
  aggregateLifting : List AggregateLiftReport
  schemas : List (String × Schema)

-- Fanout

/-- One more parent reference to a node. -/
def countRef (refs : List Nat) (child : PirNodeId) : Option (List Nat) :=
  refs[child]?.map fun count => refs.set child (count + 1)

/-- Parent-reference count per node. -/
def nodeRefs (nodes : List PirNode) : Option (List Nat) :=
  nodes.foldlM (fun refs node => node.children.foldlM countRef refs)
    (List.replicate nodes.length 0)

def leafOf : PirNode → Option LeafId
  | .lit leaf | .negLit leaf => some leaf
  | .const _ | .and _ | .or _ | .decision _ _ _ => none

def choiceOf : PirNode → Option ChoiceVarId
  | .decision var _ _ => some var
  | .const _ | .lit _ | .negLit _ | .and _ | .or _ => none

/-- Add a node's references to the score of the variable it mentions. -/
def scoreNode (varOf : PirNode → Option Nat) (refs : List Nat) (scores : Std.TreeMap Nat Nat)
    (entry : PirNode × Nat) : Option (Std.TreeMap Nat Nat) :=
  match varOf entry.1 with
  | none => some scores
  | some var => refs[entry.2]?.map fun count =>
      scores.alter var fun score => some (score.getD 0 + count)

/-- Total references to the nodes that mention a variable; known variables start at zero. -/
def scores (varOf : PirNode → Option Nat) (known : List Nat) (nodes : List PirNode)
    (refs : List Nat) : Option (Std.TreeMap Nat Nat) :=
  nodes.zipIdx.foldlM (scoreNode varOf refs)
    (Std.TreeMap.ofList (known.map fun var => (var, 0)))

def leafScore (provenance : Provenance P) (refs : List Nat) : Option (Std.TreeMap Nat Nat) :=
  scores leafOf provenance.leafProbs.keys provenance.pir.nodes refs

def choiceScore (provenance : Provenance P) (refs : List Nat)
    : Option (Std.TreeMap Nat Nat) :=
  scores choiceOf provenance.choiceProbs.keys provenance.pir.nodes refs

-- Renumbering

/-- Descending score, ties by ascending identifier. -/
def Before (one two : Nat × Nat) : Prop := two.2 < one.2 ∨ one.2 = two.2 ∧ one.1 ≤ two.1

instance : DecidableRel Before := fun one two => by unfold Before; infer_instance

/-- The variables in the order of their scores. -/
def ranked (scores : Std.TreeMap Nat Nat) : List Nat :=
  (scores.toList.insertionSort Before).map Prod.fst

/-- The dense ranks of the variables, which are 32-bit identifiers again. -/
def rankMap (scores : Std.TreeMap Nat Nat) : Std.TreeMap Nat Nat :=
  positionNames 32 (ranked scores)

/-- Rewrite the variable of a node; node identifiers are untouched. -/
def renameNode (leafName : LeafId → LeafId) (choiceName : ChoiceVarId → ChoiceVarId)
    : PirNode → PirNode
  | .lit leaf => .lit (leafName leaf)
  | .negLit leaf => .negLit (leafName leaf)
  | .decision var childFalse childTrue => .decision (choiceName var) childFalse childTrue
  | .const value => .const value
  | .and children => .and children
  | .or children => .or children

/-- Rewrite the nodes and the side tables along the two maps. -/
def renumber (leafMap choiceMap : Std.TreeMap Nat Nat) (provenance : Provenance P)
    : Option (Provenance P) := do
  let leafProbs ← renameKeys leafMap provenance.leafProbs
  let leafAtoms ← renameKeys leafMap provenance.leafAtoms
  let choiceProbs ← renameKeys choiceMap provenance.choiceProbs
  let choiceSources ← renameKeys choiceMap provenance.choiceSources
  some
    { provenance with
      pir := ⟨provenance.pir.nodes.map (renameNode (nameOf leafMap) (nameOf choiceMap))⟩
      leafProbs, leafAtoms, choiceProbs, choiceSources }

/-- Renumber leaf and choice variables by descending fanout. -/
def applyDecisionOrderHint (provenance : Provenance P) : Option (Provenance P) := do
  let refs ← nodeRefs provenance.pir.nodes
  let leafScore ← leafScore provenance refs
  let choiceScore ← choiceScore provenance refs
  renumber (rankMap leafScore) (rankMap choiceScore) provenance

-- Meaning

namespace Provenance

/-- The leaves with a probability or a node. -/
def leaves (provenance : Provenance P) : Finset LeafId :=
  (provenance.leafProbs.keys ++ provenance.pir.nodes.filterMap leafOf).toFinset

/-- The choice variables with probabilities or a node. -/
def choices (provenance : Provenance P) : Finset ChoiceVarId :=
  (provenance.choiceProbs.keys ++ provenance.pir.nodes.filterMap choiceOf).toFinset

/-- Identifiers are 32-bit numbers. -/
structure Ids32 (provenance : Provenance P) : Prop where
  leaves : ∀ leaf ∈ provenance.leaves, leaf < 2 ^ 32
  choices : ∀ var ∈ provenance.choices, var < 2 ^ 32

/-- References stay inside the arena, and atoms and sources describe variables that have a
probability or a node.
-/
structure Closed (provenance : Provenance P) : Prop where
  children : provenance.pir.WellFormed
  leafAtoms : ∀ leaf ∈ provenance.leafAtoms, leaf ∈ provenance.leaves
  choiceSources : ∀ var ∈ provenance.choiceSources, var ∈ provenance.choices

/-- The weighted count of a formula over all leaves and choices, for any reading of the
tables' entries as weights of the two values.
-/
def weightedCount {K : Type*} [CommSemiring K] (leafWeight : Option P → Bool → K)
    (choiceWeight : Option (P × P) → Bool → K) (provenance : Provenance P) (id : PirNodeId)
    : K :=
  marginal (fun leaf => leafWeight provenance.leafProbs[leaf]? true)
    (fun leaf => leafWeight provenance.leafProbs[leaf]? false) provenance.leaves
    fun trueLeaves =>
      marginal (fun var => choiceWeight provenance.choiceProbs[var]? true)
        (fun var => choiceWeight provenance.choiceProbs[var]? false) provenance.choices
        fun trueChoices =>
          if provenance.pir.eval
              ⟨fun leaf => leaf ∈ trueLeaves, fun var => var ∈ trueChoices⟩ id then 1
          else 0

end Provenance

/-- One provenance is the other with its variables renamed, each bijectively: every table
says of the new name what it said of the old one, and what is not keyed by variables is
the same.
-/
structure Renumbered (provenance hinted : Provenance P) (leafName : LeafId → LeafId)
    (choiceName : ChoiceVarId → ChoiceVarId) : Prop where
  leaves : Set.BijOn leafName provenance.leaves hinted.leaves
  choices : Set.BijOn choiceName provenance.choices hinted.choices
  nodes : hinted.pir.nodes = provenance.pir.nodes.map (renameNode leafName choiceName)
  leafProbs : ∀ leaf ∈ provenance.leaves,
    hinted.leafProbs[leafName leaf]? = provenance.leafProbs[leaf]?
  leafAtoms : ∀ leaf ∈ provenance.leaves,
    hinted.leafAtoms[leafName leaf]? = provenance.leafAtoms[leaf]?
  choiceProbs : ∀ var ∈ provenance.choices,
    hinted.choiceProbs[choiceName var]? = provenance.choiceProbs[var]?
  choiceSources : ∀ var ∈ provenance.choices,
    hinted.choiceSources[choiceName var]? = provenance.choiceSources[var]?
  closed : hinted.Closed
  tupleFormulas : hinted.tupleFormulas = provenance.tupleFormulas
  queries : hinted.queries = provenance.queries
  evidence : hinted.evidence = provenance.evidence
  aggregateLifting : hinted.aggregateLifting = provenance.aggregateLifting
  schemas : hinted.schemas = provenance.schemas

end Xlog.Prob.DecisionOrder
