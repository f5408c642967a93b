import Xlog.Core.Error
import Xlog.Foundation.Loop
import Xlog.Logic.Ast

/-! Queries and constraints as rules, and the predicates whose columns the compiler infers.
-/

namespace Xlog.Logic

open Xlog.Core Xlog.Foundation

mutual
/-- The variables of a term in source order. -/
def Term.variables : Term → List String
  | .var name => [name]
  | .list items => Term.variablesList items
  | .cons head tail => head.variables ++ tail.variables
  | .compound _ args => Term.variablesList args
  | .anonymous | .integer _ | .float _ | .string _ | .symbol _ | .predRef _ | .aggregate _ => []

def Term.variablesList : List Term → List String
  | [] => []
  | term :: terms => term.variables ++ Term.variablesList terms
end

def Constraint.requireAuthoredIndex (constraint : Constraint) : Result Nat :=
  match constraint.authoredIndex with
  | some index => .ok index
  | none => .error (.compilation "prepared constraint compilation requires authored identities")

def constraintRelation (index : Nat) : String := "__xlog_constraint_" ++ index.repr

def queryRelation (index : Nat) : String := "__xlog_query_" ++ index.repr

def constraintRule (constraint : Constraint) : Result Rule := do
  let authoredIndex ← constraint.requireAuthoredIndex
  .ok ⟨⟨constraintRelation authoredIndex, [.integer 1]⟩, constraint.body⟩

/-- A query keeps the distinct variables of its atom; without any it keeps a unit. -/
def queryRule (query : Query) (index : Nat) : Rule :=
  let headTerms := (Term.variablesList query.atom.terms).eraseDups.map Term.var
  ⟨⟨queryRelation index, if headTerms.isEmpty then [.integer 1] else headTerms⟩,
    [.positive query.atom]⟩

def desugarQueriesAndConstraints (program : Program) : Result Program := do
  let constraintRules ← program.constraints.mapM constraintRule
  let queryRules := program.queries.zipIdx.map fun entry => queryRule entry.1 entry.2
  .ok { program with rules := program.rules ++ constraintRules ++ queryRules }

-- Predicates

/-- The atom of an ordinary literal. -/
def BodyLiteral.ordinaryAtom : BodyLiteral → Option Atom
  | .positive atom | .negated atom => some atom
  | .epistemic _ | .comparison _ | .isExpr _ | .univ _ => none

/-- The atoms of the statements other than rules and constraints. -/
def Program.statedAtoms (program : Program) : List Atom :=
  program.queries.map Query.atom
    ++ program.probFacts.map ProbFact.atom
    ++ (program.annotatedDisjunctions.flatMap AnnotatedDisjunction.choices).map ProbFact.atom
    ++ program.learnableRules.map LearnableRule.head

/-- The atoms that give or use tuples; epistemic literals have none. -/
def Program.atoms (program : Program) : List Atom :=
  program.rules.map Rule.head
    ++ (program.rules.flatMap Rule.body).filterMap BodyLiteral.ordinaryAtom
    ++ (program.constraints.flatMap Constraint.body).filterMap BodyLiteral.ordinaryAtom
    ++ program.statedAtoms

/-- The predicates that are declared or used. -/
def Program.mentioned (program : Program) : List String :=
  program.predicates.map PredDecl.name ++ program.atoms.map Atom.predicate

theorem mem_bodyAtoms {α : Type} {items : List α} {body : α → List BodyLiteral} {atom : Atom}
    : atom ∈ (items.flatMap body).filterMap BodyLiteral.ordinaryAtom
      ↔ ∃ item ∈ items, ∃ literal ∈ body item, literal.ordinaryAtom = some atom := by
  simp only [List.mem_filterMap, List.mem_flatMap]
  constructor
  · intro h
    obtain ⟨literal, ⟨item, hitem, hliteral⟩, hatom⟩ := h
    exact ⟨item, hitem, literal, hliteral, hatom⟩
  · intro h
    obtain ⟨item, hitem, literal, hliteral, hatom⟩ := h
    exact ⟨literal, ⟨item, hitem, hliteral⟩, hatom⟩

theorem mem_atoms_iff {program : Program} {atom : Atom}
    : atom ∈ program.atoms
      ↔ (∃ rule ∈ program.rules, rule.head = atom)
        ∨ (∃ rule ∈ program.rules, ∃ literal ∈ rule.body, literal.ordinaryAtom = some atom)
        ∨ (∃ constraint ∈ program.constraints, ∃ literal ∈ constraint.body,
          literal.ordinaryAtom = some atom)
        ∨ atom ∈ program.statedAtoms := by
  simp only [Program.atoms, List.mem_append, List.mem_map, mem_bodyAtoms, or_assoc]

theorem mem_mentioned_iff {program : Program} {name : String}
    : name ∈ program.mentioned
      ↔ (∃ decl ∈ program.predicates, decl.name = name)
        ∨ ∃ atom ∈ program.atoms, atom.predicate = name := by
  simp [Program.mentioned]

/-- The rules after the transform: those of the program, of its constraints and queries. -/
theorem mem_desugared_rules {program desugared : Program}
    (h : desugarQueriesAndConstraints program = .ok desugared) {rule : Rule}
    : rule ∈ desugared.rules
      ↔ rule ∈ program.rules
        ∨ (∃ constraint ∈ program.constraints, ∃ index, constraint.authoredIndex = some index
          ∧ rule = ⟨⟨constraintRelation index, [.integer 1]⟩, constraint.body⟩)
        ∨ ∃ entry ∈ program.queries.zipIdx, rule = queryRule entry.1 entry.2 := by
  obtain ⟨constraintRules, hmap, heq⟩ := bind_eq_ok.mp h
  cases heq
  have hconstraint : rule ∈ constraintRules
      ↔ ∃ constraint ∈ program.constraints, ∃ index, constraint.authoredIndex = some index
        ∧ rule = ⟨⟨constraintRelation index, [.integer 1]⟩, constraint.body⟩ := by
    have hrun (constraint : Constraint) : constraintRule constraint = .ok rule
        ↔ ∃ index, constraint.authoredIndex = some index
          ∧ rule = ⟨⟨constraintRelation index, [.integer 1]⟩, constraint.body⟩ := by
      cases hindex : constraint.authoredIndex <;>
        simp [constraintRule, Constraint.requireAuthoredIndex, hindex, eq_comm]
    constructor
    · intro hmem
      obtain ⟨constraint, hc, hok⟩ := exists_of_mem_mapM hmap hmem
      exact ⟨constraint, hc, (hrun constraint).mp hok⟩
    · intro hex
      obtain ⟨constraint, hc, hindex⟩ := hex
      obtain ⟨result, hresult, hok⟩ := exists_result_of_mapM hmap hc
      rw [(hrun constraint).mpr hindex] at hok
      cases hok
      exact hresult
  simp [hconstraint, eq_comm]

/-- The other statements stay. -/
theorem desugared_eq {program desugared : Program}
    (h : desugarQueriesAndConstraints program = .ok desugared)
    : desugared = { program with rules := desugared.rules } := by
  obtain ⟨constraintRules, _, heq⟩ := bind_eq_ok.mp h
  cases heq
  rfl

end Xlog.Logic
