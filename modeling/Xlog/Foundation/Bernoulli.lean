import Mathlib

/-! Independent Bernoulli variables over a commutative ring: an assignment is the finite set
of its true variables, an event a predicate on such sets.
-/

namespace Xlog.Foundation

open Finset

variable {ι : Type*} [DecidableEq ι] {K : Type*} [CommRing K]

/-- The weight of one assignment of the given variables. -/
def weight (p : ι → K) (vars trues : Finset ι) : K :=
  ∏ i ∈ vars, if i ∈ trues then p i else 1 - p i

/-- The total weight of the assignments in the event. -/
def probability (p : ι → K) (vars : Finset ι) (event : Finset ι → Prop)
    [DecidablePred event] : K :=
  ∑ trues ∈ vars.powerset, if event trues then weight p vars trues else 0

/-- A weight reads only its own variables. -/
theorem weight_congr {p : ι → K} {vars trues other : Finset ι}
    (agree : ∀ i ∈ vars, i ∈ trues ↔ i ∈ other)
    : weight p vars trues = weight p vars other :=
  prod_congr rfl fun i hi => by simp only [agree i hi]

theorem weight_insert_self {p : ι → K} {vars trues : Finset ι} {i : ι} (new : i ∉ vars)
    : weight p (insert i vars) (insert i trues) = p i * weight p vars trues := by
  have hagree : weight p vars (insert i trues) = weight p vars trues :=
    weight_congr fun j hj => by
      have hne : j ≠ i := fun he => new (he ▸ hj)
      simp [hne]
  rw [weight, prod_insert new, if_pos (mem_insert_self i trues)]
  exact congrArg (p i * ·) hagree

theorem weight_insert_of_notMem {p : ι → K} {vars trues : Finset ι} {i : ι}
    (new : i ∉ vars) (off : i ∉ trues)
    : weight p (insert i vars) trues = (1 - p i) * weight p vars trues := by
  rw [weight, prod_insert new, if_neg off, weight]

theorem probability_congr {p : ι → K} {vars : Finset ι} {event other : Finset ι → Prop}
    [DecidablePred event] [DecidablePred other]
    (agree : ∀ trues ⊆ vars, event trues ↔ other trues)
    : probability p vars event = probability p vars other :=
  sum_congr rfl fun trues ht => by simp only [agree trues (mem_powerset.mp ht)]

/-- A probability reads the weights of its own variables only. -/
theorem probability_congr_weights {p q : ι → K} {vars : Finset ι}
    (agree : ∀ i ∈ vars, p i = q i) (event : Finset ι → Prop) [DecidablePred event]
    : probability p vars event = probability q vars event := by
  have hweight : ∀ trues, weight p vars trues = weight q vars trues :=
    fun trues => prod_congr rfl fun i hi => by rw [agree i hi]
  simp only [probability, hweight]

/-- One more variable splits an event by its value. -/
theorem probability_insert {p : ι → K} {vars : Finset ι} {i : ι} (new : i ∉ vars)
    (event : Finset ι → Prop) [DecidablePred event]
    : probability p (insert i vars) event
      = (1 - p i) * probability p vars event
        + p i * probability p vars (fun trues => event (insert i trues)) := by
  rw [probability, sum_powerset_insert new, probability, probability, mul_sum, mul_sum]
  refine congrArg₂ _ (sum_congr rfl fun trues ht => ?_) (sum_congr rfl fun trues ht => ?_)
  · have hoff : i ∉ trues := fun h => new (mem_powerset.mp ht h)
    rw [weight_insert_of_notMem new hoff, mul_ite, mul_zero]
  · rw [weight_insert_self new, mul_ite, mul_zero]

@[simp] theorem probability_empty (p : ι → K) (event : Finset ι → Prop)
    [DecidablePred event]
    : probability p ∅ event = if event ∅ then 1 else 0 := by
  rw [probability, powerset_empty, sum_singleton, weight, prod_empty]

/-- Variables that the event does not read marginalise, by induction on them. -/
theorem probability_union {p : ι → K} {vars extra : Finset ι} (apart : Disjoint vars extra)
    (event : Finset ι → Prop) [DecidablePred event]
    (reads : ∀ trues, event trues ↔ event (trues ∩ vars))
    : probability p (vars ∪ extra) event = probability p vars event := by
  induction extra using Finset.induction with
  | empty => rw [union_empty]
  | insert i extra hi ih =>
      have hvars : i ∉ vars := fun h => disjoint_left.mp apart h (mem_insert_self i extra)
      have hnew : i ∉ vars ∪ extra := by simp [hvars, hi]
      have hrest := ih (apart.mono_right (subset_insert i extra))
      have hignore : probability p (vars ∪ extra) (fun trues => event (insert i trues))
          = probability p (vars ∪ extra) event :=
        probability_congr fun trues _ => by
          rw [reads (insert i trues), reads trues, insert_inter_of_notMem hvars]
      rw [union_insert, probability_insert hnew, hignore, hrest]
      ring

/-- Everything has weight one, by induction on the variables. -/
theorem probability_true (p : ι → K) (vars : Finset ι)
    : probability p vars (fun _ => True) = 1 := by
  induction vars using Finset.induction with
  | empty => simp
  | insert i vars hi ih =>
      rw [probability_insert hi, ih]
      ring

/-- Under a certain assignment an event has weight one or zero. -/
theorem probability_point (vars : Finset ι) {trues : Finset ι} (sub : trues ⊆ vars)
    (event : Finset ι → Prop) [DecidablePred event]
    : probability (fun i => if i ∈ trues then (1 : K) else 0) vars event
      = if event trues then 1 else 0 := by
  have hpoint : ∀ other ∈ vars.powerset, other ≠ trues →
      (if event other then weight (fun i => if i ∈ trues then (1 : K) else 0) vars other
        else 0) = 0 := by
    intro other ho hne
    have hdiff : ∃ i ∈ vars, ¬ (i ∈ other ↔ i ∈ trues) := by
      by_contra hall
      push Not at hall
      refine hne (Finset.ext fun i => ?_)
      by_cases hi : i ∈ vars
      · exact hall i hi
      · exact ⟨fun h => absurd (mem_powerset.mp ho h) hi, fun h => absurd (sub h) hi⟩
    obtain ⟨i, hi, hdiff⟩ := hdiff
    have hzero : weight (fun i => if i ∈ trues then (1 : K) else 0) vars other = 0 := by
      refine prod_eq_zero hi ?_
      by_cases h : i ∈ trues
      · have hother : i ∉ other := fun ho => hdiff (by simp [h, ho])
        simp [h, hother]
      · have hother : i ∈ other := by
          by_contra ho
          exact hdiff (by simp [h, ho])
        simp [h, hother]
    rw [hzero, ite_self]
  have hone : weight (fun i => if i ∈ trues then (1 : K) else 0) vars trues = 1 := by
    refine prod_eq_one fun i _ => ?_
    by_cases h : i ∈ trues <;> simp [h]
  rw [probability, sum_eq_single trues hpoint fun h => absurd (mem_powerset.mpr sub) h, hone]

/-- Two events differ by the weights of the assignments on which they disagree. -/
theorem probability_eq_iff {p : ι → K} {vars : Finset ι} (event other : Finset ι → Prop)
    [DecidablePred event] [DecidablePred other]
    : probability p vars event = probability p vars other
      ↔ probability p vars (fun trues => event trues ∧ ¬ other trues)
        = probability p vars (fun trues => other trues ∧ ¬ event trues) := by
  have hsplit : ∀ (one two : Finset ι → Prop) [DecidablePred one] [DecidablePred two],
      probability p vars one
        = probability p vars (fun trues => one trues ∧ two trues)
          + probability p vars (fun trues => one trues ∧ ¬ two trues) := by
    intro one two _ _
    simp only [probability, ← sum_add_distrib]
    refine sum_congr rfl fun trues _ => ?_
    by_cases h₁ : one trues <;> by_cases h₂ : two trues <;> simp [h₁, h₂]
  have hboth : probability p vars (fun trues => event trues ∧ other trues)
      = probability p vars (fun trues => other trues ∧ event trues) :=
    probability_congr fun _ _ => and_comm
  rw [hsplit event other, hsplit other event, hboth]
  exact add_right_inj _

/-- The recurrence for the number of true variables. -/
theorem probability_card_insert {p : ι → K} {vars : Finset ι} {i : ι} (new : i ∉ vars)
    (k : Nat)
    : probability p (insert i vars) (fun trues => trues.card = k + 1)
      = probability p vars (fun trues => trues.card = k + 1) * (1 - p i)
        + probability p vars (fun trues => trues.card = k) * p i := by
  have hcard : probability p vars (fun trues => (insert i trues).card = k + 1)
      = probability p vars (fun trues => trues.card = k) :=
    probability_congr fun trues ht => by
      rw [card_insert_of_notMem fun h => new (ht h)]
      exact Nat.succ_inj
  rw [probability_insert new, hcard]
  ring

theorem probability_card_zero_insert {p : ι → K} {vars : Finset ι} {i : ι} (new : i ∉ vars)
    : probability p (insert i vars) (fun trues => trues.card = 0)
      = probability p vars (fun trues => trues.card = 0) * (1 - p i) := by
  have hnone : probability p vars (fun trues => (insert i trues).card = 0) = 0 := by
    refine sum_eq_zero fun trues _ => ?_
    simp
  rw [probability_insert new, hnone]
  ring

/-- No assignment has more true variables than there are. -/
theorem probability_card_of_lt {p : ι → K} {vars : Finset ι} {k : Nat} (h : vars.card < k)
    : probability p vars (fun trues => trues.card = k) = 0 := by
  refine sum_eq_zero fun trues ht => ?_
  have hle := card_le_card (mem_powerset.mp ht)
  rw [if_neg (by omega)]

/-- With weights in the unit interval so is the probability of every event. -/
theorem probability_mem_unit {K : Type*} [CommRing K] [LinearOrder K] [IsStrictOrderedRing K]
    {p : ι → K} {vars : Finset ι} (valid : ∀ i ∈ vars, 0 ≤ p i ∧ p i ≤ 1)
    (event : Finset ι → Prop) [DecidablePred event]
    : 0 ≤ probability p vars event ∧ probability p vars event ≤ 1 := by
  have hweight : ∀ trues, 0 ≤ weight p vars trues := by
    intro trues
    refine prod_nonneg fun i hi => ?_
    split
    · exact (valid i hi).1
    · exact sub_nonneg.mpr (valid i hi).2
  refine ⟨sum_nonneg fun trues _ => ?_, ?_⟩
  · split
    · exact hweight trues
    · exact le_rfl
  · rw [← probability_true p vars]
    refine sum_le_sum fun trues _ => ?_
    rw [if_pos trivial]
    split
    · exact le_rfl
    · exact hweight trues

end Xlog.Foundation
