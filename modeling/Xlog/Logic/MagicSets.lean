import Mathlib
import Xlog.Logic.Desugar

/-! The magic-set rewriting of bound recursive queries: seeds, adornments closed over the rules, and the
rules that carry the bound arguments.
-/

namespace Xlog.Logic

open Xlog.Core

-- Terms

mutual
def termIsBound (bound : List String) : Term → Bool
  | .var name => name ∈ bound
  | .list items => termsAreBound bound items
  | .cons head tail => termIsBound bound head && termIsBound bound tail
  | .compound _ args => termsAreBound bound args
  | .integer _ | .float _ | .string _ | .symbol _ | .predRef _ => true
  | .anonymous | .aggregate _ => false

def termsAreBound (bound : List String) : List Term → Bool
  | [] => true
  | term :: terms => termIsBound bound term && termsAreBound bound terms
end

mutual
def termHasAggregate : Term → Bool
  | .aggregate _ => true
  | .list items => termsHaveAggregate items
  | .cons head tail => termHasAggregate head || termHasAggregate tail
  | .compound _ args => termsHaveAggregate args
  | .var _ | .anonymous | .integer _ | .float _ | .string _ | .symbol _ | .predRef _ => false

def termsHaveAggregate : List Term → Bool
  | [] => false
  | term :: terms => termHasAggregate term || termsHaveAggregate terms
end

/-- `==` of doubles: no NaN equals itself, and the two zeros are equal. -/
def F64.same (a b : F64) : Bool :=
  (a = b && a &&& 0x7FFFFFFFFFFFFFFF ≤ 0x7FF0000000000000)
  || (a ||| b) &&& 0x7FFFFFFFFFFFFFFF = 0

mutual
/-- `==` of terms. -/
def Term.same : Term → Term → Bool
  | .var name, .var name' | .predRef name, .predRef name' => name = name'
  | .anonymous, .anonymous => true
  | .integer value, .integer value' => value = value'
  | .float bits, .float bits' => bits.same bits'
  | .string value, .string value' => value = value'
  | .symbol id, .symbol id' => id = id'
  | .list items, .list items' => Term.sameList items items'
  | .cons head tail, .cons head' tail' => head.same head' && tail.same tail'
  | .compound functor args, .compound functor' args' =>
      functor = functor' && Term.sameList args args'
  | .aggregate expr, .aggregate expr' => expr = expr'
  | _, _ => false

def Term.sameList : List Term → List Term → Bool
  | [], [] => true
  | term :: terms, term' :: terms' => term.same term' && Term.sameList terms terms'
  | _, _ => false
end

def Atom.same (a b : Atom) : Bool := a.predicate = b.predicate && Term.sameList a.terms b.terms

def isSupportedMagicTerm : Term → Bool
  | .integer _ | .float _ | .string _ | .symbol _ => true
  | _ => false

/-- A supported term is no variable. -/
def isSeedTerm (term : Term) : Bool := isSupportedMagicTerm term

-- Recursive predicates

def Rule.bodyPredicates (rule : Rule) : List String :=
  rule.body.filterMap fun literal => literal.atom.map Atom.predicate

def dependencies (rules : List Rule) (pred : String) : List String :=
  (rules.filter (·.head.predicate = pred)).flatMap Rule.bodyPredicates

/-- The search of `reaches` with its calls as a stack of predicates to look at. The fuel counts them.
-/
def reaches (rules : List Rule) (target : String) : Nat → List String → List String → Bool
  | _, [], _ => false
  | 0, _ :: _, _ => false
  | fuel + 1, pred :: pending, seen =>
      if pred = target then true
      else if pred ∈ seen then reaches rules target fuel pending seen
      else reaches rules target fuel (dependencies rules pred ++ pending) (pred :: seen)

def recursivePredicates (rules : List Rule) : List String :=
  (rules.map (·.head.predicate)).filter fun pred =>
    reaches rules pred ((dependencies rules pred).length + (rules.flatMap Rule.bodyPredicates).length)
      (dependencies rules pred) []

-- Seeds and adornments

structure Adornment where
  pred : String
  pattern : List Bool
  deriving DecidableEq, Repr

structure Seed where
  pred : String
  pattern : List Bool
  terms : List Term

def adornmentKey (pattern : List Bool) : String :=
  String.ofList (pattern.map fun bound => if bound then 'b' else 'f')

/-- The derived debug texts, by which equal seeds and equal generated rules are found. -/
structure DebugText where
  terms : List Term → String
  rule : Rule → String

/-- The terms at the bound places. -/
def boundTerms (atom : Atom) (pattern : List Bool) : List Term :=
  ((atom.terms.zip pattern).filter Prod.snd).map Prod.fst

/-- One query of `collect_query_seeds`. -/
def querySeed (text : DebugText) (recursive : List String) (seeds : List Seed × List String)
    (query : Query)
    : List Seed × List String :=
  let pattern := query.atom.terms.map isSeedTerm
  let terms := boundTerms query.atom pattern
  let key := query.atom.predicate ++ ":" ++ adornmentKey pattern ++ ":" ++ text.terms terms
  if query.atom.predicate ∉ recursive ∨ ¬ pattern.any id
      ∨ ¬ (query.atom.terms.zip pattern).all (fun (term, bound) => !bound || isSupportedMagicTerm term)
      ∨ key ∈ seeds.2 then seeds
  else (seeds.1 ++ [⟨query.atom.predicate, pattern, terms⟩], key :: seeds.2)

def collectQuerySeeds (text : DebugText) (program : Program) : List Seed :=
  (program.queries.foldl (querySeed text (recursivePredicates program.rules)) ([], [])).1

/-- The insertion of an ordered set. -/
def insertOrdered {α : Type} [DecidableEq α] (le : α → α → Bool) (items : List α) (item : α)
    : List α :=
  if item ∈ items then items else items.orderedInsert (fun a b => le a b = true) item

def Adornment.le (a b : Adornment) : Bool :=
  a.pred < b.pred || (a.pred = b.pred && decide (a.pattern ≤ b.pattern))

def initialAdornments (seeds : List Seed) : List Adornment :=
  seeds.foldl (fun out seed => insertOrdered Adornment.le out ⟨seed.pred, seed.pattern⟩) []

def magicError {α : Type} (message : String) : Result α :=
  .error (.compilation ("magic_sets error: " ++ message))

def headBoundVariables (atom : Atom) (pattern : List Bool) : List String :=
  Term.variablesList (boundTerms atom pattern)

def atomAdornment (atom : Atom) (bound : List String) : List Bool :=
  atom.terms.map (termIsBound bound)

/-- The adornment of a call, which needs a bound argument. -/
def callPattern (atom : Atom) (bound : List String) : Result (List Bool) :=
  let pattern := atomAdornment atom bound
  if pattern.any id then .ok pattern
  else magicError ("recursive call " ++ atom.predicate ++ "/" ++ atom.terms.length.repr
    ++ " has no bound argument under supported SIPS")

def discoverBodyAdornments (targets : List String) (bound : List String)
    : List BodyLiteral → Result (List Adornment)
  | [] => .ok []
  | .positive atom :: body => do
      let found ← if atom.predicate ∈ targets then do
          .ok [⟨atom.predicate, ← callPattern atom bound⟩]
        else .ok []
      .ok (found ++ (← discoverBodyAdornments targets (bound ++ Term.variablesList atom.terms) body))
  | .comparison _ :: body | .epistemic _ :: body | .isExpr _ :: body | .negated _ :: body
  | .univ _ :: body => discoverBodyAdornments targets bound body

/-- The rules of each adorned predicate. -/
def adornedRules (rules : List Rule) (adornments : List Adornment) : List (Adornment × Rule) :=
  adornments.flatMap fun adornment =>
    (rules.filter (·.head.predicate = adornment.pred)).map (adornment, ·)

/-- Some adornments more, and whether one is new. -/
def extendAdornments (state : Bool × List Adornment) (discovered : List Adornment)
    : Bool × List Adornment :=
  discovered.foldl (fun (changed, adornments) adornment =>
    (changed || adornment ∉ adornments, insertOrdered Adornment.le adornments adornment)) state

/-- One round over a snapshot. -/
def expandRound (targets : List String) (rules : List Rule) (adornments : List Adornment)
    : Result (Bool × List Adornment) :=
  (adornedRules rules adornments).foldlM (fun state (adornment, rule) => do
    .ok (extendAdornments state (← discoverBodyAdornments targets
      (headBoundVariables rule.head adornment.pattern) rule.body))) (false, adornments)

/-- The rounds up to one without a change. -/
def expandRounds (targets : List String) (rules : List Rule)
    : Nat → List Adornment → Result (List Adornment)
  | 0, adornments => .ok adornments
  | fuel + 1, adornments => do
      let (changed, adornments) ← expandRound targets rules adornments
      if changed then expandRounds targets rules fuel adornments else .ok adornments

def allPatterns : Nat → List (List Bool)
  | 0 => [[]]
  | arity + 1 => (allPatterns arity).flatMap fun pattern => [false :: pattern, true :: pattern]

/-- Every adornment that a positive literal can have. -/
def literalAdornments (rules : List Rule) : List Adornment :=
  rules.flatMap fun rule => rule.body.flatMap fun
    | .positive atom => (allPatterns atom.terms.length).map (⟨atom.predicate, ·⟩)
    | _ => []

/-- Each round but the last finds a new adornment. -/
def expandAdornments (targets : List String) (rules : List Rule) (adornments : List Adornment)
    : Result (List Adornment) :=
  expandRounds targets rules ((literalAdornments rules).length + 1) adornments

-- Rules

def magicPredicate (pred : String) (pattern : List Bool) : String :=
  "__xlog_magic_" ++ pred ++ "_" ++ adornmentKey pattern

def magicAtomFor (atom : Atom) (pattern : List Bool) : Atom :=
  ⟨magicPredicate atom.predicate pattern, boundTerms atom pattern⟩

def pushUniqueRule (text : DebugText) (out : List Rule × List String) (rule : Rule)
    : List Rule × List String :=
  if text.rule rule ∈ out.2 then out else (out.1 ++ [rule], text.rule rule :: out.2)

/-- A rule whose body is its own head is left out. -/
def isTrivial (earlier : List BodyLiteral) (head : Atom) : Bool :=
  match earlier with
  | [.positive atom] => atom.same head
  | _ => false

/-- The demands that a rule makes on its calls, each from the literals before the call. -/
def propagateCalls (targets : List String) (bound : List String) (earlier : List BodyLiteral)
    : List BodyLiteral → Result (List Rule)
  | [] => .ok []
  | .positive atom :: body => do
      let generated ← if atom.predicate ∈ targets then do
          let head := magicAtomFor atom (← callPattern atom bound)
          .ok (if isTrivial earlier head then [] else [⟨head, earlier⟩])
        else .ok []
      .ok (generated ++ (← propagateCalls targets (bound ++ Term.variablesList atom.terms)
        (earlier ++ [.positive atom]) body))
  | .comparison _ :: body | .epistemic _ :: body | .isExpr _ :: body | .negated _ :: body
  | .univ _ :: body => propagateCalls targets bound earlier body

def propagationRules (targets : List String) (rule : Rule) (headPattern : List Bool)
    : Result (List Rule) :=
  propagateCalls targets (headBoundVariables rule.head headPattern)
    [.positive (magicAtomFor rule.head headPattern)] rule.body

def rewriteRules (text : DebugText) (rules : List Rule) (targets : List String)
    (adornments : List Adornment) (seeds : List Seed)
    : Result (List Rule) := do
  let seeded := seeds.foldl (fun out seed =>
    pushUniqueRule text out ⟨⟨magicPredicate seed.pred seed.pattern, seed.terms⟩, []⟩) ([], [])
  let (generated, _) ← (adornedRules rules adornments).foldlM (fun out (adornment, rule) => do
    .ok ((← propagationRules targets rule adornment.pattern).foldl (pushUniqueRule text) out)) seeded
  .ok (rules.filter (·.head.predicate ∉ targets) ++ generated
    ++ (adornedRules rules adornments).map fun (adornment, rule) =>
      ⟨rule.head, .positive (magicAtomFor rule.head adornment.pattern) :: rule.body⟩)

-- Unsupported shapes

def bodyLiteralHasAggregate : BodyLiteral → Bool
  | .positive atom | .negated atom => termsHaveAggregate atom.terms
  | .epistemic literal => termsHaveAggregate literal.atom.terms
  | .comparison comparison => termHasAggregate comparison.left || termHasAggregate comparison.right
  | .isExpr _ => false
  | .univ univ => termHasAggregate univ.term || termHasAggregate univ.parts

def BodyLiteral.isNegated : BodyLiteral → Bool
  | .negated _ => true
  | _ => false

def outside (what : String) : String := what ++ " is outside the supported magic_sets subset"

def literalReasons (recursive : List String) (head : String) : BodyLiteral → List String
  | .positive atom =>
      (if atom.predicate ∈ recursive ∧ atom.predicate ≠ head then
        [outside ("mutual recursion through " ++ atom.predicate)] else [])
      ++ (if "__xlog_meta_".isPrefixOf atom.predicate || "__xlog_list_".isPrefixOf atom.predicate then
        [outside ("meta/list helper " ++ atom.predicate ++ " in recursive rule")] else [])
  | .negated _ => []
  | .comparison _ | .epistemic _ | .isExpr _ | .univ _ =>
      [outside ("non-positive literal in recursive rule for " ++ head)]

def ruleReasons (recursive : List String) (rule : Rule) : List String :=
  (if rule.body.any BodyLiteral.isNegated then
    [outside ("negation in recursive rule for " ++ rule.head.predicate)] else [])
  ++ (if rule.hasAggregation || rule.body.any bodyLiteralHasAggregate then
    [outside ("aggregation in recursive rule for " ++ rule.head.predicate)] else [])
  ++ rule.body.flatMap (literalReasons recursive rule.head.predicate)

def orderedTexts (texts : List String) : List String :=
  texts.foldl (insertOrdered fun a b => decide (a ≤ b)) []

def unsupportedTargetReasons (rules : List Rule) (targets recursive : List String) : List String :=
  orderedTexts ((rules.filter (·.head.predicate ∈ targets)).flatMap (ruleReasons recursive))

-- The pass

inductive MagicSetStatus where
  | disabled | applied | declined
  deriving DecidableEq, Repr

structure MagicSetReport where
  status : MagicSetStatus
  generatedPredicates : List String
  adornedPredicates : List String
  declinedReasons : List String

structure MagicSetRewrite where
  program : Program
  report : MagicSetReport

def withStatus (program : Program) (status : MagicSetStatus) : MagicSetRewrite :=
  ⟨program, status, [], [], []⟩

def declineOrError (program : Program) (mode : MagicSetsMode) (reasons : List String)
    : Result MagicSetRewrite :=
  match mode with
  | .on => magicError ("; ".intercalate reasons)
  | .auto | .off => .ok ⟨program, .declined, [], [], reasons⟩

def rewriteEnabled (text : DebugText) (program : Program) (mode : MagicSetsMode)
    : Result MagicSetRewrite :=
  let recursive := recursivePredicates program.rules
  let seeds := collectQuerySeeds text program
  let targets := seeds.map Seed.pred
  let unsafeReasons := unsupportedTargetReasons program.rules targets recursive
  if seeds.isEmpty then
    declineOrError program mode ["no bound recursive query eligible for magic_sets"]
  else if program.isProbabilisticProfile then
    declineOrError program mode
      ["probabilistic profiles are handled outside deterministic magic_sets"]
  else if unsafeReasons ≠ [] then declineOrError program mode unsafeReasons
  else do
    let adornments ← expandAdornments targets program.rules (initialAdornments seeds)
    let rules ← rewriteRules text program.rules targets adornments seeds
    .ok ⟨{ program with rules }, .applied,
      orderedTexts (adornments.map fun a => magicPredicate a.pred a.pattern),
      orderedTexts (adornments.map fun a => a.pred ++ "/" ++ adornmentKey a.pattern), []⟩

def rewriteMagicSets (text : DebugText) (program : Program) : Result MagicSetRewrite :=
  match program.directives.magicSets with
  | none | some .off => .ok (withStatus program .disabled)
  | some mode => rewriteEnabled text program mode

end Xlog.Logic
