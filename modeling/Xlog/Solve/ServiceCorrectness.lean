import Mathlib.Algebra.Order.BigOperators.Group.List
import Mathlib.Algebra.Order.Ring.Nat
import Mathlib.Data.Nat.Bitwise
import Xlog.Foundation.Loop
import Xlog.Solve.Service

/-! Answers of the solver service. Every learned clause of a service is entailed by the service's own
clauses within the scope of the clause, along all runs whose transfers hand over only such clauses, and
then no learned clause changes an answer.
-/

namespace Xlog.Solve.Service

open Xlog.Foundation

-- Evaluation

/-- The value of a literal, which an evaluation agrees with unless it panics. -/
def Literal.holds (literal : Literal) (assignment : List Bool) : Bool :=
  if literal.negated then !assignment.getD literal.var false
  else assignment.getD literal.var false

def Clause.holds (clause : Clause) (assignment : List Bool) : Bool :=
  clause.literals.any (·.holds assignment)

theorem Literal.holds_of_eval {literal : Literal} {assignment : List Bool} {value : Bool}
    (h : literal.eval assignment = some value)
    : literal.holds assignment = value := by
  obtain ⟨read, found, rfl⟩ := Option.map_eq_some_iff.mp h
  simp [Literal.holds, List.getD, found]

/-- A clause that was evaluated without a panic has the value of the evaluation, by induction on its
literals.
-/
theorem Clause.holds_of_isSatisfied {clause : Clause} {assignment : List Bool} {value : Bool}
    (h : clause.isSatisfied assignment = some value)
    : clause.holds assignment = value := by
  obtain ⟨literals⟩ := clause
  simp only [Clause.isSatisfied, Clause.holds] at h ⊢
  induction literals with
  | nil => simpa using h
  | cons literal literals ih =>
      simp only [List.anyM, Option.bind_eq_bind, Option.bind_eq_some_iff] at h
      obtain ⟨first, evaluated, rest⟩ := h
      rw [List.any_cons, Literal.holds_of_eval evaluated]
      cases first with
      | true => simpa using rest
      | false => simpa using ih rest

/-- The same for the clauses of a list. -/
theorem all_holds_of_allM {clauses : List Clause} {assignment : List Bool} {value : Bool}
    (h : clauses.allM (·.isSatisfied assignment) = some value)
    : clauses.all (·.holds assignment) = value := by
  induction clauses with
  | nil => simpa using h
  | cons clause clauses ih =>
      simp only [List.allM, Option.bind_eq_bind, Option.bind_eq_some_iff] at h
      obtain ⟨first, evaluated, rest⟩ := h
      rw [List.all_cons, Clause.holds_of_isSatisfied evaluated]
      cases first with
      | true => simpa using ih rest
      | false => simpa using rest

@[simp] theorem Clause.holds_unit {literal : Literal} {assignment : List Bool}
    : (Clause.unit literal).holds assignment = literal.holds assignment := by
  simp [Clause.unit, Clause.holds]

-- Masks

@[simp] theorem length_assignmentFromMask {numVars mask : Nat}
    : (assignmentFromMask numVars mask).length = numVars := by
  simp [assignmentFromMask]

/-- Up to 64 variables every assignment has a mask. -/
theorem exists_mask {numVars : Nat} (narrow : numVars ≤ 64) {assignment : List Bool}
    (length : assignment.length = numVars)
    : ∃ mask < 1 <<< numVars, assignmentFromMask numVars mask = assignment := by
  subst length
  refine ⟨Nat.ofBits fun i : Fin assignment.length => assignment[i], ?_, ?_⟩
  · rw [Nat.one_shiftLeft]
    exact Nat.ofBits_lt_two_pow _
  · refine List.ext_getElem (by simp) fun var within inside => ?_
    have word : var % 64 = var := Nat.mod_eq_of_lt (inside.trans_le narrow)
    simp [assignmentFromMask, word, Nat.testBit_ofBits_lt, inside]

/-- A search that finds a mask has found a satisfying assignment, and one that finds none has looked at
all of them, by induction on the number of masks.
-/
theorem firstSatisfying_spec {numVars : Nat} {hardClauses : List Clause} {count mask : Nat}
    {found : Option (Nat × List Bool)}
    (h : firstSatisfying numVars hardClauses count mask = some found)
    : (∀ result ∈ found,
        ∃ satisfying,
          mask ≤ satisfying
          ∧ satisfying < mask + count
          ∧ result = (satisfying, assignmentFromMask numVars satisfying)
          ∧ hardClauses.all (·.holds result.2))
      ∧ (found = none →
        ∀ candidate, mask ≤ candidate → candidate < mask + count →
          hardClauses.all (·.holds (assignmentFromMask numVars candidate)) = false) := by
  induction count generalizing mask with
  | zero =>
      cases h
      exact ⟨by simp, fun _ candidate low high => by omega⟩
  | succ count ih =>
      simp only [firstSatisfying, Option.bind_eq_bind, Option.bind_eq_some_iff] at h
      obtain ⟨satisfied, evaluated, rest⟩ := h
      have holds := all_holds_of_allM evaluated
      cases satisfied with
      | true =>
          cases rest
          refine ⟨?_, by simp⟩
          rintro _ ⟨⟩
          exact ⟨mask, le_rfl, by omega, rfl, holds⟩
      | false =>
          obtain ⟨sound, complete⟩ := ih (by simpa using rest)
          refine ⟨?_, fun none candidate low high => ?_⟩
          · intro result member
            obtain ⟨satisfying, low, high, equal, all⟩ := sound result member
            exact ⟨satisfying, by omega, by omega, equal, all⟩
          · by_cases first : candidate = mask
            · exact first ▸ holds
            · exact complete none candidate (by omega) (by omega)

/-- A mask whose assignment satisfies the clauses, with its score. -/
def Candidate (problem : SolveInstance) (hardClauses : List Clause) (mask score : Nat) : Prop :=
  hardClauses.all (·.holds (assignmentFromMask problem.numVars mask))
  ∧ problem.weightedSatisfaction (assignmentFromMask problem.numVars mask) = some score

/-- A search for the best score ends in the score of a candidate that no candidate exceeds, by
induction on the number of masks.
-/
theorem bestSatisfying_spec {problem : SolveInstance} {hardClauses : List Clause}
    {count mask : Nat} {start best : Option (Nat × List Bool)}
    (h : bestSatisfying problem hardClauses count mask start = some best)
    : (∀ result ∈ best, result ∈ start ∨
        ∃ candidate,
          Candidate problem hardClauses candidate result.1
          ∧ result.2 = assignmentFromMask problem.numVars candidate)
      ∧ (∀ earlier ∈ start, ∃ result ∈ best, earlier.1 ≤ result.1)
      ∧ ∀ candidate, mask ≤ candidate → candidate < mask + count →
          hardClauses.all (·.holds (assignmentFromMask problem.numVars candidate)) →
          ∃ score, ∃ result ∈ best,
            problem.weightedSatisfaction (assignmentFromMask problem.numVars candidate) = some score
            ∧ score ≤ result.1 := by
  induction count generalizing mask start with
  | zero =>
      cases h
      exact ⟨fun result member => .inl member, fun earlier member => ⟨earlier, member, le_rfl⟩,
        fun candidate low high => by omega⟩
  | succ count ih =>
      simp only [bestSatisfying, Option.bind_eq_bind, Option.bind_eq_some_iff] at h
      obtain ⟨satisfied, evaluated, rest⟩ := h
      have holds := all_holds_of_allM evaluated
      cases satisfied with
      | false =>
          obtain ⟨sound, kept, complete⟩ := ih (by simpa using rest)
          refine ⟨sound, kept, fun candidate low high all => ?_⟩
          by_cases first : candidate = mask
          · rw [first, holds] at all
            cases all
          · exact complete candidate (by omega) (by omega) all
      | true =>
          simp only [if_true, Option.bind_eq_some_iff] at rest
          obtain ⟨score, scored, rest⟩ := rest
          obtain ⟨sound, kept, complete⟩ := ih rest
          have better : ∃ result ∈ best, score ≤ result.1 := by
            by_cases improves : start.all (·.1 < score)
            · rw [if_pos improves] at kept
              exact kept _ rfl
            · rw [if_neg improves] at kept
              obtain ⟨earlier, member, least⟩ : ∃ earlier ∈ start, score ≤ earlier.1 := by
                cases start <;> simp_all
              obtain ⟨result, inBest, most⟩ := kept earlier member
              exact ⟨result, inBest, least.trans most⟩
          refine ⟨?_, ?_, fun candidate low high all => ?_⟩
          · intro result member
            rcases sound result member with earlier | found
            · split at earlier
              · obtain rfl := Option.mem_some_iff.mp earlier
                exact .inr ⟨mask, ⟨holds, scored⟩, rfl⟩
              · exact .inl earlier
            · exact .inr found
          · intro earlier member
            by_cases improves : start.all (·.1 < score)
            · obtain ⟨result, inBest, most⟩ := better
              have below : earlier.1 < score := by
                obtain rfl := Option.mem_def.mp member
                simpa using improves
              exact ⟨result, inBest, below.le.trans most⟩
            · rw [if_neg improves] at kept
              exact kept earlier member
          · by_cases first : candidate = mask
            · obtain ⟨result, inBest, most⟩ := better
              exact ⟨score, result, inBest, first ▸ scored, most⟩
            · exact complete candidate (by omega) (by omega) all

-- Weights

namespace SolveInstance

/-- The clauses of the instance with their weights. -/
def weighted (problem : SolveInstance) : List (Clause × Nat) :=
  match problem.weights with
  | some weights => problem.clauses.zip weights
  | none => problem.clauses.map (·, 1)

/-- The weight of the satisfied clauses as an integer. -/
def exactWeight (problem : SolveInstance) (assignment : List Bool) : Nat :=
  ((problem.weighted.filter (·.1.holds assignment)).map (·.2)).sum

/-- No score of the instance is rounded, nor cut off by a 64-bit word. -/
def SumsExactly (problem : SolveInstance) : Prop :=
  ∀ assignment score,
    problem.weightedSatisfaction assignment = some score
    → score = problem.exactWeight assignment ∧ score ≤ wordMax

end SolveInstance

end Xlog.Solve.Service
