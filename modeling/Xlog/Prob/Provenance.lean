import Xlog.Foundation.Bernoulli
import Xlog.Prob.Canonical
import Xlog.Prob.PirGrowth

/-! What provenance extraction hands to the exact engine: the graph, a formula for every
tuple, and the weights of the leaves. Probabilities are kept as the rational numbers that
the floats stand for.
-/

namespace Xlog.Prob

open Xlog.Core Xlog.Logic

inductive AggregateLiftStatus where
  | fired
  | fallbackExactEnumeration
  | declined
  deriving DecidableEq, Repr

/-- One aggregate-lifting decision; the texts and counters that nothing reads are left out. -/
structure AggregateLiftReport where
  predicate : String
  groupKey : List Value
  operator : String
  deterministicRows : Nat
  uncertainRows : Nat
  status : AggregateLiftStatus
  deriving DecidableEq, Repr

/-- The result of extraction. Maps are association lists with distinct keys. -/
structure Provenance where
  pir : PirGraph
  leafProbs : List (LeafId × ℚ)
  choiceProbs : List (ChoiceVarId × (ℚ × ℚ))
  tupleFormulas : List (GroundAtom × PirNodeId)
  queries : List GroundAtom
  evidence : List (GroundAtom × Bool)
  aggregateLifting : List AggregateLiftReport
  schemas : List (String × Schema)
  /-- The graph was grown by pushing nodes. -/
  sound : pir.Sound
  leavesDistinct : (leafProbs.map Prod.fst).Nodup
  /-- `validate_prob` has passed on every leaf. -/
  leavesValid : ∀ entry ∈ leafProbs, 0 ≤ entry.2 ∧ entry.2 ≤ 1

namespace Provenance

def canonicalAtom (intern : String → Nat) (provenance : Provenance) (atom : GroundAtom)
    : Result GroundAtom := do
  let args ← canonicalizePublicValues intern atom.predicate atom.args provenance.schemas
  .ok ⟨atom.predicate, args⟩

/-- The formula of a ground query, after canonicalization. -/
def queryFormula (intern : String → Nat) (provenance : Provenance) (predicate : String)
    (args : List Value) : Option PirNodeId :=
  match provenance.canonicalAtom intern ⟨predicate, args⟩ with
  | .error _ => none
  | .ok atom => provenance.tupleFormulas.lookup atom

/-- The leaves that have a weight. -/
def leaves (provenance : Provenance) : Finset LeafId :=
  (provenance.leafProbs.map Prod.fst).toFinset

/-- The weight of a leaf; leaves without an entry never weigh anything. -/
def leafProb (provenance : Provenance) (leaf : LeafId) : ℚ :=
  (provenance.leafProbs.lookup leaf).getD 0

end Provenance

/-- The world in which exactly the given leaves are true. -/
def leafWorld (trues : Finset LeafId) : World := ⟨fun leaf => leaf ∈ trues, fun _ => false⟩

/-- The total weight of the leaf assignments that satisfy a formula. -/
def Provenance.satisfyingWeight (provenance : Provenance) (root : PirNodeId) : ℚ :=
  Foundation.probability provenance.leafProb provenance.leaves
    fun trues => provenance.pir.eval (leafWorld trues) root = true

end Xlog.Prob
