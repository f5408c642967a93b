import Xlog.Foundation.AlternatingFixpoint
import Xlog.Gpu.WfsPlan

/-! What programs and passes stand for: the ground rules of a program under a reading of its
terms, and the contract between the compiler and the executor.
-/

namespace Xlog.Gpu

open Xlog.Core Xlog.Foundation Xlog.Logic

/-- A predicate with a row. -/
abbrev GroundAtom (V : Type) := String × List V

/-- The tuples of a store. -/
def atomsOf {V : Type} (store : RelationStore V) : Set (GroundAtom V) :=
  { a | ∃ buffer, store a.1 = some buffer ∧ a.2 ∈ buffer.rows }

/-- The values of the terms under an assignment of the variables, and which literals other
than atoms hold there. An anonymous term has any value.
-/
structure Reading (V : Type) where
  Assignment : Type
  term : Assignment → Term → V → Prop
  literal : Assignment → BodyLiteral → Prop

section

variable {V : Type} (reading : Reading V)

/-- A tuple is an instance of an atom. -/
def Stands (assignment : reading.Assignment) (atom : Atom) (a : GroundAtom V) : Prop :=
  a.1 = atom.predicate ∧ List.Forall₂ (reading.term assignment) atom.terms a.2

/-- The literals of a body that are no atoms hold. -/
def BuiltinsHold (assignment : reading.Assignment) (body : List BodyLiteral) : Prop :=
  ∀ literal ∈ body, literal.ordinaryAtom = none → reading.literal assignment literal

/-- One tuple at least for each positive atom, and every tuple of the negated ones. -/
structure Instantiates (assignment : reading.Assignment) (body : List BodyLiteral)
    (pos neg : Set (GroundAtom V)) : Prop where
  matched : ∀ atom, .positive atom ∈ body → ∃ a ∈ pos, Stands reading assignment atom a
  only : ∀ a ∈ pos, ∃ atom, .positive atom ∈ body ∧ Stands reading assignment atom a
  negated : neg = { a | ∃ atom, .negated atom ∈ body ∧ Stands reading assignment atom a }
  builtins : BuiltinsHold reading assignment body

/-- The ground instances of a rule. -/
def instances (rule : Rule) : Set (NormalRule (GroundAtom V)) :=
  { g | ∃ assignment, Stands reading assignment rule.head g.head
    ∧ Instantiates reading assignment rule.body g.pos g.neg }

/-- The instances of the rules, and facts. -/
def groundRules (rules : List Rule) (facts : Set (GroundAtom V))
    : Set (NormalRule (GroundAtom V)) :=
  { g | ∃ rule ∈ rules, g ∈ instances reading rule } ∪ { g | ∃ a ∈ facts, g = ⟨a, ∅, ∅⟩ }

/-- A body holds in a partial interpretation: positive atoms have a true tuple, negated ones
only false tuples.
-/
def BodyHolds (interp : Set (GroundAtom V) × Set (GroundAtom V)) (body : List BodyLiteral)
    : Prop :=
  ∃ assignment, BuiltinsHold reading assignment body
    ∧ (∀ atom, .positive atom ∈ body → ∃ a ∈ interp.1, Stands reading assignment atom a)
    ∧ ∀ atom, .negated atom ∈ body → ∀ a, Stands reading assignment atom a → a ∈ interp.2

-- Purpose

/-- The rules of a program over the tuples that a store has for its predicates. -/
def modelRules (source : Program) (base : RelationStore V)
    : Set (NormalRule (GroundAtom V)) :=
  groundRules reading source.rules { a | a ∈ atomsOf base ∧ a.1 ∈ source.mentioned }

/-- The stores hold the well-founded model: the true tuples below, those that are not false
above, and each constraint relation has a tuple exactly when its body holds.
-/
structure HoldWellFoundedModel (source : Program) (base : RelationStore V)
    (stores : WfsStores V) : Prop where
  lower : ∀ a, a.1 ∈ source.mentioned
    → (a ∈ atomsOf stores.lower ↔ a ∈ (wellFoundedModel (modelRules reading source base)).1)
  upper : ∀ a, a.1 ∈ source.mentioned
    → (a ∈ atomsOf stores.upper ↔ a ∉ (wellFoundedModel (modelRules reading source base)).2)
  constraints : ∀ constraint ∈ source.constraints, ∀ index,
    constraint.authoredIndex = some index
    → ((∃ row, (constraintRelation index, row) ∈ atomsOf stores.lower)
      ↔ BodyHolds reading (wellFoundedModel (modelRules reading source base)) constraint.body)

/-- The loop computes the well-founded model: what it returns after any number of rounds is
right, and enough rounds return.
-/
def ComputesWellFoundedModel {Plan : Type} [DecidableEq V] (context : GpuContext V Plan)
    (source : Program) (base : RelationStore V) (wfs : EpistemicWfsGpuPlan Plan) : Prop :=
  (∀ maxIterations stores,
    wfsFixpointStores context { wfs with maxIterations } base = .ok stores
    → HoldWellFoundedModel reading source base stores)
  ∧ ∃ rounds, ∀ maxIterations ≥ rounds, ∃ stores,
    wfsFixpointStores context { wfs with maxIterations } base = .ok stores

/-- The program without its negated literals and its constraints: the predicates that every
pass mentions.
-/
def positivePart (program : Program) : Program :=
  { program with
    rules := program.rules.map fun rule =>
      { rule with body := rule.body.filter fun literal => (negatedPredicate literal).isNone }
    constraints := [] }

-- Contract

/-- Every predicate is used with one number of columns. -/
structure HasArity (program : Program) (arity : String → Nat) : Prop where
  atoms : ∀ atom ∈ program.atoms, atom.terms.length = arity atom.predicate
  declared : ∀ decl ∈ program.predicates, decl.arity = arity decl.name

/-- No rule derives tuples of a predicate that is negated. -/
def NegationFrozen (program : Program) : Prop :=
  ∀ rule ∈ program.rules, ∀ atom, .negated atom ∈ rule.body
    → ∀ other ∈ program.rules, other.head.predicate ≠ atom.predicate

/-- What is assumed of a compiled program: its constraints have distinct indices, it has the
columns of the predicates it mentions and of no further predicate of the source, and its
execution leaves the least model over the given store.
-/
structure PassEvaluates {Plan : Type} (context : GpuContext V Plan) (source program : Program)
    (pass : GpuOrdinaryPass Plan) : Prop where
  identities : (program.constraints.map Constraint.authoredIndex).Nodup
  desugars : ∃ desugared, desugarQueriesAndConstraints program = .ok desugared
  mentioned : ∀ desugared, desugarQueriesAndConstraints program = .ok desugared
    → ∀ name ∈ desugared.mentioned, ∃ schema, pass.schemas name = some schema
  fresh : ∀ desugared, desugarQueriesAndConstraints program = .ok desugared
    → ∀ name ∈ source.mentioned, name ∉ desugared.mentioned → pass.schemas name = none
  arity : ∀ arity, HasArity program arity → ∀ name ∈ program.mentioned, ∀ schema,
    pass.schemas name = some schema → schema.arity = arity name
  evaluates : ∀ desugared, desugarQueriesAndConstraints program = .ok desugared
    → NegationFrozen desugared
    → ∀ store : RelationStore V, (∀ name, (store name).isSome = (pass.schemas name).isSome)
    → (∀ name ∈ desugared.mentioned, ∀ schema buffer, pass.schemas name = some schema
      → store name = some buffer → buffer.schema.arity = schema.arity)
    → ∃ out, context.executePlan pass.plan store = .ok out
      ∧ (∀ name, (out name).map Buffer.schema = (store name).map Buffer.schema)
      ∧ ∀ a, a.1 ∈ desugared.mentioned
        → (a ∈ atomsOf out
          ↔ a ∈ consequences (groundRules reading desugared.rules (atomsOf store))
            (atomsOf store))

/-- The unit marker is a value of `1`, and `1 = 1` holds. -/
structure ReadsUnit {Plan : Type} (context : GpuContext V Plan) : Prop where
  marker : ∀ assignment, reading.term assignment (.integer 1) context.marker
  unit : ∀ assignment, reading.literal assignment unitLiteral

/-- A program as the frontend hands it over: one arity for each predicate, no name that the
passes keep for themselves.
-/
structure WellFormedSource (source : Program) (arity : String → Nat) : Prop where
  arities : HasArity source arity
  unreserved : ∀ name ∈ source.mentioned, startsWith name "__wfs_" = false
    ∧ startsWith name "__xlog_query_" = false ∧ startsWith name "__xlog_constraint_" = false

/-- The base store has the columns that the program uses. -/
def StoreHasArity (source : Program) (arity : String → Nat) (base : RelationStore V) : Prop :=
  ∀ name ∈ source.mentioned, ∀ buffer, base name = some buffer
    → buffer.schema.arity = arity name

end

end Xlog.Gpu
