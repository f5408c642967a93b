import Xlog.Foundation.StickBreaking
import Xlog.Prob.Binding
import Xlog.Prob.DecisionOrder
import Xlog.Prob.PirBuilderStates

/-! Annotated disjunctions as chains of Bernoulli decisions. Probabilities are kept as the
rational numbers that the floats stand for; how one is printed in an error is a parameter.
-/

namespace Xlog.Prob.Disjunction

open Xlog.Core Xlog.Foundation
open Xlog.Logic (Atom Schema Term)
open Xlog.Prob.DecisionOrder (ChoiceSource)

structure ProbFact where
  prob : ℚ
  atom : Atom

structure AnnotatedDisjunction where
  choices : List ProbFact

namespace AnnotatedDisjunction

def probs (ad : AnnotatedDisjunction) : List ℚ := ad.choices.map ProbFact.prob

def sum (ad : AnnotatedDisjunction) : ℚ := ad.probs.sum

end AnnotatedDisjunction

/-- The tolerance for sums of probabilities. -/
def eps : ℚ := 1 / 10 ^ 12

def validateProb (display : ℚ → String) (p : ℚ) (what : String) : Result Unit :=
  if 0 ≤ p ∧ p ≤ 1 then .ok ()
  else .error (.compilation
    s!"Invalid probability {display p} for {what} (expected 0<=p<=1)")

-- Presentation

/-- A canonical symbol is presented as the source spells it. -/
def presentValue (schema : Schema) (entry : (Value × Term) × Nat) : Value :=
  match schema.columnType entry.2, entry.1.1 with
  | some .symbol, .symbol canonical =>
      match entry.1.2 with
      | .string source => .string source
      | .symbol source => .symbol source
      | _ => .symbol canonical
  | _, value => value

def presentationAtomFromCanonical (source canonical : Atom) (schemas : List (String × Schema))
    : Result GroundAtom :=
  if source.predicate ≠ canonical.predicate ∨ source.terms.length ≠ canonical.terms.length then
    .error (.compilation "Probabilistic source and canonical atoms do not correspond")
  else
    match schemas.lookup canonical.predicate with
    | none => .error (.compilation
        s!"Probabilistic presentation requires a schema for predicate '{canonical.predicate}'")
    | some schema => do
        let atom ← atomKeyFromGroundAtom canonical
        .ok ⟨atom.predicate, (atom.args.zip source.terms).zipIdx.map (presentValue schema)⟩

-- The chain of decisions

/-- The variables handed out so far, with the probabilities of being true and false and what
they decide.
-/
structure ChoiceTables where
  nextChoice : Nat
  choiceProbs : Std.TreeMap ChoiceVarId (ℚ × ℚ)
  choiceSources : Std.TreeMap ChoiceVarId (ChoiceSource ℚ)

structure Chain where
  tables : ChoiceTables
  vars : List ChoiceVarId
  remaining : ℚ

/-- The chain with a decision that is true with the given probability. -/
def Chain.extend (chain : Chain) (explicitChoices : List (GroundAtom × ℚ)) (entry : ℚ × Nat)
    (condTrue : ℚ) : Chain where
  tables :=
    { nextChoice := chain.tables.nextChoice + 1
      choiceProbs := chain.tables.choiceProbs.insert chain.tables.nextChoice
        (condTrue, 1 - condTrue)
      choiceSources := chain.tables.choiceSources.insert chain.tables.nextChoice
        ⟨explicitChoices, entry.2, none⟩ }
  vars := chain.vars ++ [chain.tables.nextChoice]
  remaining := chain.remaining - entry.1

/-- One decision: an outcome against the ones after it. -/
def decisionStep (display : ℚ → String) (explicitChoices : List (GroundAtom × ℚ))
    (chain : Chain) (entry : ℚ × Nat) : Result Chain := do
  let condTrue := share chain.remaining entry.1
  validateProb display condTrue "annotated disjunction conditional"
  if u32Bound ≤ chain.tables.nextChoice + 1 then
    .error (.compilation "annotated disjunction choice id overflow")
  else .ok (chain.extend explicitChoices entry condTrue)

/-- The literals of an outcome: the decisions before its own fail and its own succeeds. -/
def outcomeConds : PirBuilder → List ChoiceVarId → Nat → List PirNodeId × PirBuilder
  | b, [], _ => ([], b)
  | b, var :: _, 0 =>
      let (id, b) := b.choiceLit var true
      ([id], b)
  | b, var :: vars, i + 1 =>
      let (id, b) := b.choiceLit var false
      let (ids, b) := outcomeConds b vars i
      (id :: ids, b)

/-- The formulas of the outcomes with the given numbers. -/
def outcomeFormulas (vars : List ChoiceVarId)
    : PirBuilder → List Nat → List PirNodeId × PirBuilder
  | b, [] => ([], b)
  | b, i :: rest =>
      let (conds, b) := outcomeConds b vars i
      let (id, b) := b.and conds
      let (ids, b) := outcomeFormulas vars b rest
      (id :: ids, b)

/-- The decision variables and outcome formulas of a disjunction, with what they were added
to.
-/
structure Compiled where
  vars : List ChoiceVarId
  outcomeFormulas : List PirNodeId
  tables : ChoiceTables
  builder : PirBuilder

def checkChoice (display : ℚ → String) (pf : ProbFact) : Result Unit := do
  validateProb display pf.prob "annotated disjunction choice"
  let _ ← atomKeyFromGroundAtom pf.atom
  .ok ()

/-- An explicit head as the source presents it, with its declared probability. -/
def explicitChoice (schemas : List (String × Schema)) (pair : ProbFact × ProbFact)
    : Result (GroundAtom × ℚ) := do
  let atom ← presentationAtomFromCanonical pair.2.atom pair.1.atom schemas
  .ok (atom, pair.1.prob)

/-- The probabilities of the outcomes, with that of the none branch when it has any. -/
def fullProbs (probs : List ℚ) : List ℚ :=
  let noneProb := max (1 - probs.sum) 0
  if eps < noneProb then probs ++ [noneProb] else probs

def compileAnnotatedDisjunction (display : ℚ → String) (ad sourceAd : AnnotatedDisjunction)
    (schemas : List (String × Schema)) (tables : ChoiceTables) (b : PirBuilder)
    : Result Compiled := do
  ad.choices.forM (checkChoice display)
  let explicitChoices ← (ad.choices.zip sourceAd.choices).mapM (explicitChoice schemas)
  if 1 + eps < ad.sum then
    .error (.compilation
      s!"Annotated disjunction probabilities sum to {display ad.sum} (> 1.0)")
  else
    let probs := fullProbs ad.probs
    let m := probs.length
    if m = 1 then .ok ⟨[], [b.constTrue], tables, b⟩
    else do
      let chain ← (probs.zipIdx.take (m - 1)).foldlM (decisionStep display explicitChoices)
        ⟨tables, [], 1⟩
      let (formulas, b) := outcomeFormulas chain.vars b (List.range ad.choices.length)
      .ok ⟨chain.vars, formulas, chain.tables, b⟩

end Xlog.Prob.Disjunction
