import Mathlib.Data.List.Basic

/-! The abstract syntax of programs. Floating-point literals are kept as their bit patterns;
symbols are the numbers of the interner.
-/

namespace Xlog.Logic

/-- The bits of an IEEE 754 double. -/
abbrev F64 := UInt64

inductive ScalarType where
  | u32 | u64 | i32 | i64 | f32 | f64 | bool | symbol
  deriving DecidableEq, Repr

inductive AggOp where
  | count | sum | min | max | logSumExp
  deriving DecidableEq, Repr

structure AggExpr where
  op : AggOp
  var : String
  deriving DecidableEq, Repr

/-- A term of an atom. -/
inductive Term where
  | var (name : String)
  | anonymous
  | integer (value : Int)
  | float (bits : F64)
  | string (value : String)
  | symbol (id : Nat)
  | list (items : List Term)
  | cons (head tail : Term)
  | compound (functor : String) (args : List Term)
  | predRef (name : String)
  | aggregate (expr : AggExpr)
  deriving Repr, Inhabited

inductive CompOp where
  | eq | ne | lt | le | gt | ge
  deriving DecidableEq, Repr

/-- An arithmetic expression. -/
inductive ArithExpr where
  | var (name : String)
  | integer (value : Int)
  | float (bits : F64)
  | add (left right : ArithExpr)
  | sub (left right : ArithExpr)
  | mul (left right : ArithExpr)
  | div (left right : ArithExpr)
  | mod (left right : ArithExpr)
  | abs (expr : ArithExpr)
  | min (left right : ArithExpr)
  | max (left right : ArithExpr)
  | pow (left right : ArithExpr)
  | cast (expr : ArithExpr) (typ : ScalarType)
  | funcCall (name : String) (args : List ArithExpr)
  | conditional (condLeft : ArithExpr) (condOp : CompOp) (condRight thenExpr elseExpr : ArithExpr)
  deriving Repr, Inhabited

structure IsExpr where
  target : String
  expr : ArithExpr
  deriving Repr

structure Atom where
  predicate : String
  terms : List Term
  deriving Repr, Inhabited

inductive EpistemicOp where
  | know | possible
  deriving DecidableEq, Repr

structure EpistemicLiteral where
  op : EpistemicOp
  negated : Bool
  atom : Atom
  deriving Repr

structure Comparison where
  left : Term
  op : CompOp
  right : Term
  deriving Repr

structure Univ where
  term : Term
  parts : Term
  deriving Repr

/-- A literal of a rule body. -/
inductive BodyLiteral where
  | positive (atom : Atom)
  | negated (atom : Atom)
  | epistemic (literal : EpistemicLiteral)
  | comparison (comparison : Comparison)
  | isExpr (expr : IsExpr)
  | univ (univ : Univ)
  deriving Repr

/-- The atom of a literal, if it has one. -/
def BodyLiteral.atom : BodyLiteral → Option Atom
  | .positive atom | .negated atom => some atom
  | .epistemic literal => some literal.atom
  | .comparison _ | .isExpr _ | .univ _ => none

structure Rule where
  head : Atom
  body : List BodyLiteral
  deriving Repr

def Term.isAggregate : Term → Bool
  | .aggregate _ => true
  | _ => false

/-- A literal constant, the only kind of ground term. -/
def Term.isConstant : Term → Bool
  | .integer _ | .float _ | .string _ | .symbol _ => true
  | _ => false

def Rule.isFact (rule : Rule) : Bool := rule.body.isEmpty

def Rule.hasAggregation (rule : Rule) : Bool :=
  rule.head.terms.any Term.isAggregate

structure Constraint where
  authoredIndex : Option Nat
  body : List BodyLiteral
  deriving Repr

structure Query where
  atom : Atom
  deriving Repr

structure ProbFact where
  prob : F64
  atom : Atom
  deriving Repr

structure AnnotatedDisjunction where
  choices : List ProbFact
  deriving Repr

structure Evidence where
  atom : Atom
  value : Bool
  deriving Repr

structure ProbQuery where
  atom : Atom
  deriving Repr

structure LearnableRule where
  maskName : String
  head : Atom
  body : List BodyLiteral
  deriving Repr

inductive ProbEngine where
  | exactDdnnf | mc
  deriving DecidableEq, Repr

inductive ProbCache where
  | on | off
  deriving DecidableEq, Repr

inductive EpistemicMode where
  | g91 | faeel
  deriving DecidableEq, Repr

inductive ProbMethod where
  | rejection | evidenceClamping
  deriving DecidableEq, Repr

inductive MagicSetsMode where
  | auto | on | off
  deriving DecidableEq, Repr

/-- The pragmas set in a program. -/
structure Directives where
  probEngine : Option ProbEngine
  probCache : Option ProbCache
  probSamples : Option Nat
  probSeed : Option Nat
  probConfidence : Option F64
  probMethod : Option ProbMethod
  probMaxNonmonotoneIterations : Option Nat
  maxRecursionDepth : Option Nat
  epistemicMode : Option EpistemicMode
  magicSets : Option MagicSetsMode
  deriving DecidableEq, Repr

def Directives.default : Directives :=
  ⟨none, none, none, none, none, none, none, none, none, none⟩

/-- A type in a declaration. -/
inductive TypeRef where
  | scalar (typ : ScalarType)
  | domain (name : String)
  | list (item : TypeRef)
  | term
  | compound
  | predRef
  deriving DecidableEq, Repr

structure PredColumn where
  name : Option String
  typ : TypeRef
  deriving DecidableEq, Repr

structure PredDecl where
  name : String
  types : List TypeRef
  columns : List PredColumn
  isPrivate : Bool
  deriving DecidableEq, Repr

def PredDecl.arity (decl : PredDecl) : Nat :=
  if decl.columns.isEmpty then decl.types.length else decl.columns.length

/-- A program, as far as its statements are read by the modelled functions. -/
structure Program where
  predicates : List PredDecl
  rules : List Rule
  constraints : List Constraint
  queries : List Query
  probFacts : List ProbFact
  annotatedDisjunctions : List AnnotatedDisjunction
  evidence : List Evidence
  probQueries : List ProbQuery
  learnableRules : List LearnableRule
  directives : Directives
  deriving Repr

def Program.empty : Program :=
  ⟨[], [], [], [], [], [], [], [], [], .default⟩

def Program.properRules (program : Program) : List Rule :=
  program.rules.filter fun rule => !rule.isFact

def Program.isProbabilisticProfile (program : Program) : Bool :=
  !program.probFacts.isEmpty
  || !program.annotatedDisjunctions.isEmpty
  || !program.evidence.isEmpty
  || !program.probQueries.isEmpty
  || program.directives.probEngine.isSome
  || program.directives.probCache.isSome
  || program.directives.probSamples.isSome
  || program.directives.probSeed.isSome
  || program.directives.probConfidence.isSome
  || program.directives.probMethod.isSome
  || program.directives.probMaxNonmonotoneIterations.isSome

end Xlog.Logic
