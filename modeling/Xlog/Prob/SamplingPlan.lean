import Xlog.Prob.AnnotatedDisjunction

/-! The Monte-Carlo sampling plan: one Bernoulli variable for each probabilistic fact and a
chain of them for each annotated disjunction, and the facts that a sample of them makes true.
-/

namespace Xlog.Prob.Disjunction

open Xlog.Core Xlog.Foundation

structure ProbFactSpec where
  varIdx : Nat
  atom : GroundAtom

structure AdSpec where
  decisionVars : List Nat
  choices : List GroundAtom
  hasNone : Bool

/-- The probabilities of the variables and what they decide. -/
structure SamplingPlan where
  probs : List ℚ
  factSpecs : List ProbFactSpec
  adSpecs : List AdSpec

-- Compilation

def addProbFact (display : ℚ → String) (plan : SamplingPlan) (pf : ProbFact)
    : Result SamplingPlan := do
  validateProb display pf.prob "probabilistic fact"
  let atom ← atomKeyFromGroundAtom pf.atom
  .ok { plan with
    probs := plan.probs ++ [pf.prob]
    factSpecs := plan.factSpecs ++ [⟨plan.probs.length, atom⟩] }

/-- The key of a choice with a valid probability. -/
def choiceAtom (display : ℚ → String) (pf : ProbFact) : Result GroundAtom := do
  validateProb display pf.prob "annotated disjunction choice"
  atomKeyFromGroundAtom pf.atom

structure SampleChain where
  probs : List ℚ
  decisionVars : List Nat
  remaining : ℚ

def sampleStep (display : ℚ → String) (chain : SampleChain) (p : ℚ) : Result SampleChain := do
  let condTrue := share chain.remaining p
  validateProb display condTrue "annotated disjunction conditional"
  .ok
    { probs := chain.probs ++ [condTrue]
      decisionVars := chain.decisionVars ++ [chain.probs.length]
      remaining := chain.remaining - p }

/-- The decisions of a disjunction: all outcomes but the last have one. -/
def sampleChain (display : ℚ → String) (probsFull : List ℚ) (chain : SampleChain)
    : Result SampleChain :=
  let m := probsFull.length
  if 1 < m then (probsFull.take (m - 1)).foldlM (sampleStep display) chain else .ok chain

def addDisjunction (display : ℚ → String) (plan : SamplingPlan) (ad : AnnotatedDisjunction)
    : Result SamplingPlan :=
  if ad.choices = [] then
    .error (.compilation "Annotated disjunction must contain at least one choice")
  else do
    let choiceAtoms ← ad.choices.mapM (choiceAtom display)
    if 1 + eps < ad.sum then
      .error (.compilation
        s!"Annotated disjunction probabilities sum to {display ad.sum} (> 1.0)")
    else do
      let hasNone : Bool := eps < 1 - ad.sum
      let probsFull := if hasNone then ad.probs ++ [max (1 - ad.sum) 0] else ad.probs
      let chain ← sampleChain display probsFull ⟨plan.probs, [], 1⟩
      .ok { plan with
        probs := chain.probs
        adSpecs := plan.adSpecs ++ [⟨chain.decisionVars, choiceAtoms, hasNone⟩] }

def compileSamplingPlan (display : ℚ → String) (probFacts : List ProbFact)
    (annotatedDisjunctions : List AnnotatedDisjunction) : Result SamplingPlan := do
  let plan ← probFacts.foldlM (addProbFact display) ⟨[], [], []⟩
  annotatedDisjunctions.foldlM (addDisjunction display) plan

-- Samples

/-- The relations of a sample, each with its tuples. -/
abbrev SampleStore := List (String × List (List Value))

def insertTuple (store : SampleStore) (atom : GroundAtom) : SampleStore :=
  let tuples := (store.lookup atom.predicate).getD []
  store.filter (·.1 ≠ atom.predicate)
    ++ [(atom.predicate, if atom.args ∈ tuples then tuples else tuples ++ [atom.args])]

/-- A variable is true when its byte is not zero; missing bytes are. -/
def bit (bits : List UInt8) (var : Nat) : Bool := bits[var]?.getD 0 ≠ 0

def applyProbFact (bits : List UInt8) (store : SampleStore) (pf : ProbFactSpec) : SampleStore :=
  if bit bits pf.varIdx then insertTuple store pf.atom else store

/-- The outcome of a disjunction: the first true decision, else what is left over. -/
def selectedOutcome (bits : List UInt8) (ad : AdSpec) : Option Nat :=
  match ad.decisionVars.findIdx? (bit bits) with
  | some i => some i
  | none => if ad.hasNone then none else some (ad.choices.length - 1)

def applyDisjunction (bits : List UInt8) (store : SampleStore) (ad : AdSpec)
    : Result SampleStore :=
  match selectedOutcome bits ad with
  | none => .ok store
  | some outcome =>
      match ad.choices[outcome]? with
      | none => .error (.compilation "Annotated disjunction outcome index out of range")
      | some atom => .ok (insertTuple store atom)

def applySampleFacts (plan : SamplingPlan) (store : SampleStore) (bits : List UInt8)
    : Result SampleStore :=
  plan.adSpecs.foldlM (applyDisjunction bits) (plan.factSpecs.foldl (applyProbFact bits) store)

/-- A tuple is in its relation. -/
def Holds (store : SampleStore) (atom : GroundAtom) : Prop :=
  ∃ tuples, store.lookup atom.predicate = some tuples ∧ atom.args ∈ tuples

end Xlog.Prob.Disjunction
