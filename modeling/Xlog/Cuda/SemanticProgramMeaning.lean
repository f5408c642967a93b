import Xlog.Cuda.SemanticProgram
import Xlog.Foundation.DefiniteClauses

/-! The least model of a positive program, and what a valid program derives: tuples over its own
predicates and constants.
-/

namespace Xlog.Cuda

open Xlog.Foundation

-- Meaning

/-- The value of a term under values of the variables. -/
def SemanticProgramTerm.eval (values : UInt32 → UInt32) (term : SemanticProgramTerm) : UInt32 :=
  if term.kind = 1 then term.value else values term.value

def SemanticProgramAtom.ground (values : UInt32 → UInt32) (atom : SemanticProgramAtom)
    : SemanticProgramFact where
  predicate := atom.predicate
  arity := atom.arity
  first := atom.terms.1.eval values
  second := if atom.arity = 2 then atom.terms.2.eval values else 0

def SemanticProgramRule.clause (rule : SemanticProgramRule) (values : UInt32 → UInt32)
    : Clause SemanticProgramFact where
  body := {fact | ∃ atom ∈ rule.activeBody, fact = atom.ground values}
  head := rule.head.ground values

/-- The ground instances of some rules, over some tuples taken for granted. -/
def programClauses (facts : List SemanticProgramFact) (rules : List SemanticProgramRule)
    : Set (Clause SemanticProgramFact) :=
  factClauses {fact | fact ∈ facts} ∪ {clause | ∃ rule ∈ rules, ∃ values, clause = rule.clause values}

def SemanticProgramAdmission.leastModel (program : SemanticProgramAdmission)
    : Set SemanticProgramFact :=
  Foundation.leastModel (programClauses program.initialFacts program.initialRules)

-- Validity

/-- What an admission check makes sure of about an atom. -/
structure SemanticProgramAtom.Valid (atom : SemanticProgramAtom) (arities : List UInt32)
    : Prop where
  arity : atom.arity = 1 ∨ atom.arity = 2
  declared : arities[atom.predicate.toNat]? = some atom.arity
  terms : ∀ term ∈ atom.activeTerms, term.kind = 1 ∨ (term.kind = 0 ∧ term.value < 6)
  inactive : ∀ term ∈ atom.inactiveTerms, term = .default

theorem SemanticProgramAtom.validFor_iff {atom : SemanticProgramAtom} {arities : List UInt32}
    : atom.validFor arities = true ↔ atom.Valid arities := by
  simp only [validFor, decide_eq_true_iff, List.all_eq_true]
  exact ⟨fun ⟨arity, declared, terms, inactive⟩ => ⟨arity, declared, terms, inactive⟩,
    fun valid => ⟨valid.arity, valid.declared, valid.terms, valid.inactive⟩⟩

structure SemanticProgramFact.Valid (fact : SemanticProgramFact) (arities : List UInt32)
    : Prop where
  arity : fact.arity = 1 ∨ fact.arity = 2
  declared : arities[fact.predicate.toNat]? = some fact.arity
  inactive : fact.arity = 2 ∨ fact.second = 0

structure SemanticProgramRule.Valid (rule : SemanticProgramRule) (arities : List UInt32)
    : Prop where
  bodyCount : rule.bodyCount = 1 ∨ rule.bodyCount = 2 ∨ rule.bodyCount = 3
  head : rule.head.Valid arities
  body : ∀ atom ∈ rule.activeBody, atom.Valid arities
  inactive : ∀ atom ∈ rule.inactiveBody, atom = .default
  bound : ∀ term ∈ rule.head.activeTerms, term.kind = 0 → term.value ∈ rule.bound

/-- What admission makes sure of. -/
structure SemanticProgramAdmission.Valid (program : SemanticProgramAdmission) : Prop where
  predicates : program.predicateCount ≠ 0
  arities_length : program.predicateArities.length = program.predicateCount.toNat
  arities : ∀ arity ∈ program.predicateArities, arity = 1 ∨ arity = 2
  queries : program.queries ≠ []
  queries_length : program.queries.length ≤ u32Limit
  records_length : program.queryRecords.length = program.queries.length
  tuples : ∀ fact ∈ program.queries ++ program.initialFacts, fact.Valid program.predicateArities
  observations : ∀ entry ∈ program.observationFacts, entry.2.Valid program.predicateArities
  distinct : program.observationFacts.Pairwise (fun before entry => before.1 ≠ entry.1)
  recorded : ∀ pair ∈ program.queryRecords.zip program.queries, pair ∈ program.observationFacts
  facts_length : program.initialFacts.length ≤ 4096
  rules_length : program.initialRules.length ≤ 254
  rules : ∀ rule ∈ program.initialRules, rule.Valid program.predicateArities

namespace SemanticProgramAdmission

variable {program : SemanticProgramAdmission}

theorem validFact_iff {fact : SemanticProgramFact}
    : program.validFact fact = true ↔ fact.Valid program.predicateArities := by
  rw [validFact, decide_eq_true_iff]
  exact ⟨fun ⟨arity, declared, inactive⟩ => ⟨arity, declared, inactive⟩,
    fun valid => ⟨valid.arity, valid.declared, valid.inactive⟩⟩

theorem checkRule_eq_ok {rule : SemanticProgramRule}
    : program.checkRule rule = .ok () ↔ rule.Valid program.predicateArities := by
  rw [checkRule]
  simp only [List.all_eq_true, List.any_eq_true, decide_eq_true_iff]
  split
  · next wrong =>
      simp only [reduceCtorEq, false_iff]
      intro valid
      exact wrong ⟨valid.bodyCount, SemanticProgramAtom.validFor_iff.mpr valid.head,
        fun atom member => SemanticProgramAtom.validFor_iff.mpr (valid.body atom member),
        valid.inactive⟩
  · next right =>
      obtain ⟨bodyCount, head, body, inactive⟩ := not_not.mp right
      split
      · next unbound =>
          obtain ⟨term, member, kind, free⟩ := unbound
          simp only [reduceCtorEq, false_iff]
          exact fun valid => free (valid.bound term member kind)
      · next bound =>
          simp only [true_iff]
          refine ⟨bodyCount, SemanticProgramAtom.validFor_iff.mp head,
            fun atom member => SemanticProgramAtom.validFor_iff.mp (body atom member),
            inactive, fun term member kind => ?_⟩
          by_contra free
          exact bound ⟨term, member, kind, free⟩

/-- Admission succeeds exactly on valid programs. -/
theorem validate_eq_ok : program.validate = .ok () ↔ program.Valid := by
  rw [validate]
  by_cases records : program.recordsValid = true
  · rw [if_pos records]
    simp only [recordsValid, decide_eq_true_iff, List.all_eq_true] at records
    obtain ⟨predicates, arities_length, arities, queries, queries_length, records_length,
      -, -, tuples, observations, distinct, recorded⟩ := records
    constructor
    · intro passed
      by_cases facts : residentProgramFactCapacity < program.initialFacts.length
      · simp [if_pos facts] at passed
      · rw [if_neg facts] at passed
        by_cases rules : residentProgramRuleCapacity - 2 < program.initialRules.length
        · simp [if_pos rules] at passed
        · rw [if_neg rules, forM_eq_ok] at passed
          exact ⟨predicates, arities_length, arities, queries, queries_length, records_length,
            fun fact member => validFact_iff.mp (tuples fact member),
            fun entry member => validFact_iff.mp (observations entry member), distinct,
            recorded, Nat.le_of_not_lt facts, Nat.le_of_not_lt rules,
            fun rule member => checkRule_eq_ok.mp (passed rule member)⟩
    · intro valid
      have facts : ¬ residentProgramFactCapacity < program.initialFacts.length :=
        Nat.not_lt.mpr valid.facts_length
      have rules : ¬ residentProgramRuleCapacity - 2 < program.initialRules.length :=
        Nat.not_lt.mpr valid.rules_length
      rw [if_neg facts, if_neg rules, forM_eq_ok]
      exact fun rule member => checkRule_eq_ok.mpr (valid.rules rule member)
  · rw [if_neg records]
    simp only [reduceCtorEq, false_iff]
    intro valid
    refine records ?_
    simp only [recordsValid, decide_eq_true_iff, List.all_eq_true]
    have facts := valid.facts_length
    have rules := valid.rules_length
    exact ⟨valid.predicates, valid.arities_length, valid.arities, valid.queries,
      valid.queries_length, valid.records_length, facts.trans (by decide),
      rules.trans (by decide), fun fact member => validFact_iff.mpr (valid.tuples fact member),
      fun entry member => validFact_iff.mpr (valid.observations entry member), valid.distinct,
      valid.recorded⟩

end SemanticProgramAdmission

end Xlog.Cuda
