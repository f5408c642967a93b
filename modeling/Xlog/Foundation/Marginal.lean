import Mathlib

/-! Sums over all assignments of finitely many variables with a weight for each value: an
assignment is the finite set of its true variables.
-/

namespace Xlog.Foundation

open Finset

variable {ι : Type*} [DecidableEq ι] {K : Type*} [CommSemiring K]

/-- The weight of one assignment, by the weights of true and of false variables. -/
def pairWeight (wt wf : ι → K) (vars trues : Finset ι) : K :=
  ∏ i ∈ vars, if i ∈ trues then wt i else wf i

/-- The sum of a function of the assignment over the assignments of the variables. -/
def marginal (wt wf : ι → K) (vars : Finset ι) (f : Finset ι → K) : K :=
  ∑ trues ∈ vars.powerset, pairWeight wt wf vars trues * f trues

/-- A function of assignments that only looks at the given variables. -/
def ReadsOnly {α : Type*} (vars : Finset ι) (f : Finset ι → α) : Prop :=
  ∀ trues, f trues = f (trues ∩ vars)

variable {wt wf : ι → K} {vars : Finset ι} {f g : Finset ι → K}

theorem pairWeight_congr {trues other : Finset ι} (agree : ∀ i ∈ vars, i ∈ trues ↔ i ∈ other)
    : pairWeight wt wf vars trues = pairWeight wt wf vars other :=
  prod_congr rfl fun i hi => by simp only [agree i hi]

@[simp] theorem marginal_empty (wt wf : ι → K) (f : Finset ι → K)
    : marginal wt wf ∅ f = f ∅ := by
  simp [marginal, pairWeight]

theorem marginal_congr (agree : ∀ trues ⊆ vars, f trues = g trues)
    : marginal wt wf vars f = marginal wt wf vars g :=
  sum_congr rfl fun trues ht => by rw [agree trues (mem_powerset.mp ht)]

/-- One more variable splits the sum by its value. -/
theorem marginal_insert {i : ι} (new : i ∉ vars)
    : marginal wt wf (insert i vars) f
      = wf i * marginal wt wf vars f
        + wt i * marginal wt wf vars (fun trues => f (insert i trues)) := by
  rw [marginal, sum_powerset_insert new, marginal, marginal, mul_sum, mul_sum]
  have hoff : ∀ trues ∈ vars.powerset, i ∉ trues :=
    fun trues ht h => new (mem_powerset.mp ht h)
  have hsame (trues : Finset ι)
      : pairWeight wt wf vars (insert i trues) = pairWeight wt wf vars trues := by
    apply pairWeight_congr
    intro j hj
    have hne : j ≠ i := fun he => new (he ▸ hj)
    simp [hne]
  congr 1
  · apply sum_congr rfl
    intro trues ht
    rw [pairWeight, prod_insert new, if_neg (hoff trues ht), ← pairWeight, mul_assoc]
  · apply sum_congr rfl
    intro trues _
    rw [pairWeight, prod_insert new, if_pos (mem_insert_self i trues), ← pairWeight, hsame,
      mul_assoc]

theorem marginal_add
    : marginal wt wf vars (fun trues => f trues + g trues)
      = marginal wt wf vars f + marginal wt wf vars g := by
  simp only [marginal, mul_add, sum_add_distrib]

theorem marginal_mul_left (c : K)
    : marginal wt wf vars (fun trues => c * f trues) = c * marginal wt wf vars f := by
  simp only [marginal, mul_sum]
  apply sum_congr rfl
  intro trues _
  rw [mul_left_comm]

theorem marginal_zero
    : marginal wt wf vars (fun _ => 0) = 0 := by
  simp [marginal]

theorem ReadsOnly.insert {α : Type*} {f : Finset ι → α} (h : ReadsOnly vars f) {i : ι} (hi : i ∉ vars)
    (trues : Finset ι)
    : f (insert i trues) = f trues := by
  rw [h (Insert.insert i trues), h trues, insert_inter_of_notMem hi]

theorem ReadsOnly.mono {α : Type*} {f : Finset ι → α} {more : Finset ι} (h : ReadsOnly vars f)
    (sub : vars ⊆ more)
    : ReadsOnly more f := by
  intro trues
  rw [h trues, h (trues ∩ more), inter_assoc, inter_eq_right.mpr sub]

/-- Variables the function does not read contribute the sum of their weights, by induction on
them.
-/
theorem marginal_union_unread {extra : Finset ι} (apart : Disjoint vars extra)
    (reads : ReadsOnly vars f)
    : marginal wt wf (vars ∪ extra) f
      = marginal wt wf vars f * ∏ i ∈ extra, (wt i + wf i) := by
  induction extra using Finset.induction with
  | empty => simp
  | insert i extra hi ih =>
      have hvars : i ∉ vars := fun h => disjoint_left.mp apart h (mem_insert_self i extra)
      have hnew : i ∉ vars ∪ extra := by simp [hvars, hi]
      have hrest := ih (apart.mono_right (subset_insert i extra))
      have hsame : (fun trues => f (insert i trues)) = f := funext (reads.insert hvars)
      rw [union_insert, marginal_insert hnew, hsame, hrest, prod_insert hi]
      ring

/-- A product of functions of disjoint variables is summed factor by factor, by induction on
the variables of the second.
-/
theorem marginal_mul {right : Finset ι} (apart : Disjoint vars right) (hf : ReadsOnly vars f)
    (hg : ReadsOnly right g)
    : marginal wt wf (vars ∪ right) (fun trues => f trues * g trues)
      = marginal wt wf vars f * marginal wt wf right g := by
  induction right using Finset.induction generalizing g with
  | empty =>
      have hconst (trues : Finset ι) : g trues = g ∅ := by
        rw [hg trues, inter_empty]
      simp only [union_empty, marginal_empty, hconst, mul_comm _ (g ∅), marginal_mul_left]
  | insert i right hi ih =>
      have hvars : i ∉ vars := fun h => disjoint_left.mp apart h (mem_insert_self i right)
      have hnew : i ∉ vars ∪ right := by simp [hvars, hi]
      have hapart := apart.mono_right (subset_insert i right)
      -- each half of the split reads the remaining variables only
      have hfalse : marginal wt wf (vars ∪ right) (fun trues => f trues * g trues)
          = marginal wt wf vars f * marginal wt wf right (fun trues => g (trues ∩ right)) := by
        rw [← ih hapart (g := fun trues => g (trues ∩ right)) (by
          intro trues
          simp only [inter_assoc, inter_self])]
        apply marginal_congr
        intro trues ht
        have hoff : i ∉ trues := fun h => hnew (ht h)
        have hcut : trues ∩ insert i right = trues ∩ right := inter_insert_of_notMem hoff
        rw [hg trues, hcut]
      have htrue : marginal wt wf (vars ∪ right)
            (fun trues => f (insert i trues) * g (insert i trues))
          = marginal wt wf vars f
            * marginal wt wf right (fun trues => g (insert i (trues ∩ right))) := by
        rw [← ih hapart (g := fun trues => g (insert i (trues ∩ right))) (by
          intro trues
          simp only [inter_assoc, inter_self])]
        apply marginal_congr
        intro trues _
        have hcut : insert i trues ∩ insert i right = insert i (trues ∩ right) :=
          (insert_inter_distrib trues right i).symm
        rw [hf.insert hvars, hg (insert i trues), hcut]
      have hcutFalse : marginal wt wf right (fun trues => g (trues ∩ right))
          = marginal wt wf right g := by
        apply marginal_congr
        intro trues ht
        rw [inter_eq_left.mpr ht]
      have hcutTrue : marginal wt wf right (fun trues => g (insert i (trues ∩ right)))
          = marginal wt wf right (fun trues => g (insert i trues)) := by
        apply marginal_congr
        intro trues ht
        rw [inter_eq_left.mpr ht]
      rw [union_insert, marginal_insert hnew, marginal_insert hi, hfalse, htrue, hcutFalse,
        hcutTrue]
      ring

/-- Renaming the variables apart renames the assignments, by induction on the variables. -/
theorem marginal_image {κ : Type*} [DecidableEq κ] {name : ι → κ} {wt' wf' : κ → K}
    {f' : Finset κ → K} (apart : Set.InjOn name vars) (sameTrue : ∀ i ∈ vars, wt' (name i) = wt i)
    (sameFalse : ∀ i ∈ vars, wf' (name i) = wf i)
    (same : ∀ trues ⊆ vars, f' (trues.image name) = f trues)
    : marginal wt' wf' (vars.image name) f' = marginal wt wf vars f := by
  induction vars using Finset.induction generalizing f f' with
  | empty =>
      rw [image_empty, marginal_empty, marginal_empty, ← same ∅ (empty_subset _), image_empty]
  | insert i vars hi ih =>
      have hself := mem_insert_self i vars
      have hsub := subset_insert i vars
      have hnew : name i ∉ vars.image name := by
        intro hmem
        obtain ⟨j, hj, heq⟩ := mem_image.mp hmem
        exact hi (apart (hsub hj) hself heq ▸ hj)
      have htrues := fun j hj => sameTrue j (hsub hj)
      have hfalses := fun j hj => sameFalse j (hsub hj)
      have hfalse := ih (apart.mono hsub) htrues hfalses fun trues ht => same trues (ht.trans hsub)
      have htrue := @ih (fun trues => f (insert i trues)) (fun trues => f' (insert (name i) trues))
        (apart.mono hsub) htrues hfalses fun trues ht => by
          rw [← image_insert]
          exact same _ (insert_subset_insert i ht)
      rw [image_insert, marginal_insert hnew, marginal_insert hi, hfalse, htrue,
        sameTrue i hself, sameFalse i hself]

/-- Under indicator weights one assignment counts. -/
theorem marginal_indicator (chosen : ι → Bool)
    : marginal (fun i => if chosen i then 1 else 0) (fun i => if chosen i then 0 else 1) vars f
      = f (vars.filter (chosen · = true)) := by
  rw [marginal, sum_eq_single (vars.filter (chosen · = true))]
  · have hone : pairWeight (fun i => if chosen i then (1 : K) else 0)
        (fun i => if chosen i then 0 else 1) vars (vars.filter (chosen · = true)) = 1 := by
      apply prod_eq_one
      intro i hi
      by_cases hc : chosen i = true
      · simp [hi, hc]
      · simp [hc]
    rw [hone, one_mul]
  · intro trues ht hne
    have hdiffer : ∃ i ∈ vars, ¬ (i ∈ trues ↔ chosen i = true) := by
      by_contra hall
      push Not at hall
      apply hne
      ext i
      rw [mem_filter]
      constructor
      · intro hi
        have hv := mem_powerset.mp ht hi
        exact ⟨hv, (hall i hv).mp hi⟩
      · rintro ⟨hv, hc⟩
        exact (hall i hv).mpr hc
    obtain ⟨i, hv, hi⟩ := hdiffer
    have hzero : pairWeight (fun i => if chosen i then (1 : K) else 0)
        (fun i => if chosen i then 0 else 1) vars trues = 0 := by
      apply prod_eq_zero hv
      by_cases hm : i ∈ trues <;> by_cases hc : chosen i = true <;> simp_all
    rw [hzero, zero_mul]
  · intro hm
    exact absurd (mem_powerset.mpr (filter_subset _ _)) hm

end Xlog.Foundation
