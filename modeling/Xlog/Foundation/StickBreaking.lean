import Xlog.Foundation.Marginal

/-! A categorical choice as a chain of independent Boolean variables: each outcome takes its
share of the mass that the outcomes before it have left, and the first true variable chooses.
-/

namespace Xlog.Foundation

section Shares

variable {K : Type*} [Field K] [LinearOrder K]

/-- The part of the remaining mass that an outcome takes; of no mass it takes nothing. -/
def share (remaining p : K) : K := if remaining ≤ 0 then 0 else p / remaining

/-- The shares of outcomes taken one after the other. -/
def shares : K → List K → List K
  | _, [] => []
  | remaining, p :: ps => share remaining p :: shares (remaining - p) ps

@[simp] theorem length_shares (remaining : K) (ps : List K)
    : (shares remaining ps).length = ps.length := by
  induction ps generalizing remaining with
  | nil => rfl
  | cons p ps ih => rw [shares, List.length_cons, ih, List.length_cons]

/-- A share of the remaining mass is the outcome's own mass. -/
theorem mul_share {remaining p : K} (nonneg : 0 ≤ p) (le : p ≤ remaining)
    : remaining * share remaining p = p := by
  unfold share
  split
  · next hzero => rw [mul_zero, le_antisymm (le.trans hzero) nonneg]
  · next hpos => rw [mul_div_cancel₀ p (not_le.mp hpos).ne']

variable [IsStrictOrderedRing K]

theorem share_mem_unit {remaining p : K} (nonneg : 0 ≤ p) (le : p ≤ remaining)
    : 0 ≤ share remaining p ∧ share remaining p ≤ 1 := by
  unfold share
  split
  · exact ⟨le_rfl, zero_le_one⟩
  · next hpos =>
      rw [not_le] at hpos
      exact ⟨div_nonneg nonneg hpos.le, (div_le_one hpos).mpr le⟩

/-- Masses that fit into a stick: none is negative and together they are no longer. -/
structure FitsInto (remaining : K) (ps : List K) : Prop where
  nonneg : ∀ p ∈ ps, 0 ≤ p
  le : ps.sum ≤ remaining

theorem FitsInto.head {remaining p : K} {ps : List K} (h : FitsInto remaining (p :: ps))
    : 0 ≤ p ∧ p ≤ remaining := by
  have hrest : 0 ≤ ps.sum := List.sum_nonneg fun q hq => h.nonneg q (by simp [hq])
  have hle := h.le
  rw [List.sum_cons] at hle
  exact ⟨h.nonneg p (by simp), by linarith⟩

theorem FitsInto.tail {remaining p : K} {ps : List K} (h : FitsInto remaining (p :: ps))
    : FitsInto (remaining - p) ps := by
  have hle := h.le
  rw [List.sum_cons] at hle
  exact ⟨fun q hq => h.nonneg q (by simp [hq]), by linarith⟩

/-- Shares of masses that fit are probabilities, by induction on the masses. -/
theorem FitsInto.shares_mem_unit {remaining : K} {ps : List K} (h : FitsInto remaining ps)
    : ∀ c ∈ shares remaining ps, 0 ≤ c ∧ c ≤ 1 := by
  induction ps generalizing remaining with
  | nil => simp [shares]
  | cons p ps ih =>
      rw [shares, List.forall_mem_cons]
      exact ⟨share_mem_unit h.head.1 h.head.2, ih h.tail⟩

end Shares

-- The first true variable

section FirstTrue

variable {ι : Type*} [DecidableEq ι]

/-- The position of the first variable that is true. -/
def firstTrue (vars : List ι) (trues : Finset ι) : Option Nat :=
  vars.findIdx? fun v => decide (v ∈ trues)

@[simp] theorem firstTrue_nil (trues : Finset ι)
    : firstTrue [] trues = none :=
  rfl

theorem firstTrue_cons (v : ι) (vars : List ι) (trues : Finset ι)
    : firstTrue (v :: vars) trues
      = if v ∈ trues then some 0 else (firstTrue vars trues).map (· + 1) := by
  rw [firstTrue, List.findIdx?_cons]
  by_cases hv : v ∈ trues
  · simp [hv]
  · simp [hv, firstTrue]

variable {K : Type*} [Field K] {wt wf : ι → K}

/-- The weight of the assignments whose first true variable is at a position, or of those
without one.
-/
def chainWeight (wt wf : ι → K) (vars : List ι) (position : Option Nat) : K :=
  marginal wt wf vars.toFinset fun trues => if firstTrue vars trues = position then 1 else 0

/-- Each variable is true with its probability and false with the rest. -/
def Drives (wt wf : ι → K) (vars : List ι) (probs : List K) : Prop :=
  List.Forall₂ (fun v c => wt v = c ∧ wf v = 1 - c) vars probs

/-- The weights of a chain whose head may be true or false. -/
theorem chainWeight_cons {v : ι} {vars : List ι} (distinct : (v :: vars).Nodup)
    (position : Option Nat)
    : chainWeight wt wf (v :: vars) position
      = wf v * marginal wt wf vars.toFinset
          (fun trues => if (firstTrue vars trues).map (· + 1) = position then 1 else 0)
        + wt v * if some 0 = position then ∏ u ∈ vars.toFinset, (wt u + wf u) else 0 := by
  have hnew := (List.nodup_cons.mp distinct).1
  have hnew' : v ∉ vars.toFinset := fun h => hnew (List.mem_toFinset.mp h)
  rw [chainWeight, List.toFinset_cons, marginal_insert hnew']
  congr 2
  · apply marginal_congr
    intro trues ht
    have hoff : v ∉ trues := fun h => hnew' (ht h)
    rw [firstTrue_cons, if_neg hoff]
  · have hconst : (fun trues => if firstTrue (v :: vars) (insert v trues) = position then (1 : K)
        else 0) = fun _ => (if some 0 = position then 1 else 0) * 1 := by
      funext trues
      rw [firstTrue_cons, if_pos (Finset.mem_insert_self v trues), mul_one]
    rw [hconst, marginal_mul_left]
    have hone : marginal wt wf vars.toFinset (fun _ => (1 : K))
        = ∏ u ∈ vars.toFinset, (wt u + wf u) := by
      have hunread := @marginal_union_unread ι _ K _ wt wf ∅ (fun _ => 1) vars.toFinset
        (Finset.disjoint_empty_left _) (fun _ => rfl)
      simpa using hunread
    rw [hone]
    split <;> simp

theorem Drives.prod_eq_one {vars : List ι} {probs : List K} (h : Drives wt wf vars probs)
    : ∏ u ∈ vars.toFinset, (wt u + wf u) = 1 := by
  apply Finset.prod_eq_one
  intro u hu
  obtain ⟨i, hi, rfl⟩ := List.mem_iff_getElem.mp (List.mem_toFinset.mp hu)
  obtain ⟨ht, hf⟩ := h.get hi (h.length_eq ▸ hi)
  simp only [List.get_eq_getElem] at ht hf
  rw [ht, hf, add_sub_cancel]

variable [LinearOrder K] [IsStrictOrderedRing K]

/-- A chain driven by the shares of masses gives each outcome its mass and leaves the rest of
the stick to no outcome, by induction on the masses.
-/
theorem mul_chainWeight {remaining : K} {ps : List K} {vars : List ι} (distinct : vars.Nodup)
    (fits : FitsInto remaining ps) (drives : Drives wt wf vars (shares remaining ps))
    : (∀ i (hi : i < ps.length), remaining * chainWeight wt wf vars (some i) = ps[i])
      ∧ remaining * chainWeight wt wf vars none = remaining - ps.sum := by
  induction ps generalizing remaining vars with
  | nil =>
      cases drives
      simp [chainWeight]
  | cons p ps ih =>
      obtain _ | ⟨⟨htrue, hfalse⟩, hrest⟩ := drives
      rename_i v vars
      have hprod := Drives.prod_eq_one hrest
      obtain ⟨hsome, hnone⟩ := ih (List.nodup_cons.mp distinct).2 fits.tail hrest
      have hmass := mul_share fits.head.1 fits.head.2
      have hleft : remaining * wf v = remaining - p := by
        rw [hfalse, mul_sub, hmass, mul_one]
      constructor
      · intro i hi
        rw [chainWeight_cons distinct, hprod]
        cases i with
        | zero =>
            have hzero : (fun trues : Finset ι =>
                if (firstTrue vars trues).map (· + 1) = some 0 then (1 : K) else 0)
                  = fun _ => 0 := by
              funext trues
              cases firstTrue vars trues <;> simp
            rw [hzero, marginal_zero, htrue]
            simpa using hmass
        | succ i =>
            have hsame : (fun trues : Finset ι =>
                if (firstTrue vars trues).map (· + 1) = some (i + 1) then (1 : K) else 0)
                  = fun trues => if firstTrue vars trues = some i then 1 else 0 := by
              funext trues
              cases firstTrue vars trues <;> simp
            have hi' : i < ps.length := by simpa using hi
            rw [hsame, ← chainWeight, if_neg (by simp), mul_zero, add_zero, ← mul_assoc, hleft,
              hsome i hi', List.getElem_cons_succ]
      · have hsame : (fun trues : Finset ι =>
            if (firstTrue vars trues).map (· + 1) = none then (1 : K) else 0)
              = fun trues => if firstTrue vars trues = none then 1 else 0 := by
          funext trues
          cases firstTrue vars trues <;> simp
        rw [chainWeight_cons distinct, hsame, ← chainWeight, if_neg (by simp), mul_zero, add_zero,
          ← mul_assoc, hleft, hnone, List.sum_cons]
        ring

end FirstTrue

end Xlog.Foundation
