import Xlog.Foundation.WellFoundedModel

/-! Least models of rules whose negated atoms are read in a fixed set, and the alternation of
such models: it closes in on the well-founded model from both sides.
-/

namespace Xlog.Foundation

variable {α : Type*}

/-- What follows from the rules when an atom counts as false outside a fixed set. -/
inductive Follows (rules : Set (NormalRule α)) (fixed : Set α) : α → Prop where
  | rule (rule : NormalRule α) (mem : rule ∈ rules) (pos : ∀ a ∈ rule.pos, Follows rules fixed a)
      (neg : Disjoint rule.neg fixed) : Follows rules fixed rule.head

/-- The least model of the rules under a fixed reading of negation. -/
def consequences (rules : Set (NormalRule α)) (fixed : Set α) : Set α :=
  { a | Follows rules fixed a }

theorem head_mem_consequences {rules : Set (NormalRule α)} {fixed : Set α} {rule : NormalRule α}
    (mem : rule ∈ rules) (pos : rule.pos ⊆ consequences rules fixed)
    (neg : Disjoint rule.neg fixed)
    : rule.head ∈ consequences rules fixed :=
  .rule rule mem pos neg

/-- The least model lies in every set that is closed under the rules. -/
theorem consequences_subset {rules : Set (NormalRule α)} {fixed atoms : Set α}
    (closed : ∀ rule ∈ rules, rule.pos ⊆ consequences rules fixed → rule.pos ⊆ atoms
      → Disjoint rule.neg fixed → rule.head ∈ atoms)
    : consequences rules fixed ⊆ atoms := by
  intro a ha
  induction ha with
  | rule rule mem pos neg ih => exact closed rule mem pos ih neg

/-- An atom of the least model is the head of a rule whose body holds there. -/
theorem exists_rule_of_mem_consequences {rules : Set (NormalRule α)} {fixed : Set α} {a : α}
    (h : a ∈ consequences rules fixed)
    : ∃ rule ∈ rules, rule.head = a ∧ rule.pos ⊆ consequences rules fixed
      ∧ Disjoint rule.neg fixed := by
  cases h with
  | rule rule mem pos neg => exact ⟨rule, mem, rfl, pos, neg⟩

/-- Fewer fixed atoms leave more rules in force. -/
theorem consequences_antitone (rules : Set (NormalRule α))
    : Antitone (consequences rules) := by
  intro fixed more h
  refine consequences_subset fun rule mem _ pos neg => ?_
  exact head_mem_consequences mem pos (neg.mono_right h)

/-- A least model carried over to other rules, on a set of atoms whose rules look no further
than the set.
-/
theorem consequences_inter_subset {rules others : Set (NormalRule α)}
    {fixed otherFixed scope : Set α}
    (step : ∀ rule ∈ rules, rule.head ∈ scope → Disjoint rule.neg fixed
      → ∃ other ∈ others, other.head = rule.head ∧ other.pos ⊆ rule.pos ∩ scope
        ∧ Disjoint other.neg otherFixed)
    : consequences rules fixed ∩ scope ⊆ consequences others otherFixed := by
  suffices h : consequences rules fixed ⊆ { a | a ∈ scope → a ∈ consequences others otherFixed }
    from fun a ha => h ha.1 ha.2
  refine consequences_subset fun rule mem _ pos neg hscope => ?_
  obtain ⟨other, hother, heq, hpos, hneg⟩ := step rule mem hscope neg
  rw [← heq]
  exact head_mem_consequences hother (fun a ha => pos (hpos ha).1 (hpos ha).2) hneg

-- The well-founded model from both sides

/-- What does not follow from true atoms is unfounded. -/
theorem compl_consequences_subset_false {rules : Set (NormalRule α)} {lower : Set α}
    (h : lower ⊆ (wellFoundedModel rules).1)
    : (consequences rules lower)ᶜ ⊆ (wellFoundedModel rules).2 := by
  have hunfounded
      : IsUnfounded rules (wellFoundedModel rules) (consequences rules lower)ᶜ := by
    intro rule mem hhead
    by_cases hpos : rule.pos ⊆ consequences rules lower
    · by_cases hneg : Disjoint rule.neg lower
      · exact absurd (head_mem_consequences mem hpos hneg) hhead
      · obtain ⟨a, ha, hlower⟩ := Set.not_disjoint_iff.mp hneg
        exact ⟨a, .inr (.inl ⟨ha, h hlower⟩)⟩
    · obtain ⟨a, ha, hout⟩ := Set.not_subset.mp hpos
      exact ⟨a, .inr (.inr ⟨ha, hout⟩)⟩
  have heq := wellFoundedModel_eq rules
  exact hunfounded.subset.trans (congrArg Prod.snd heq).subset

/-- What follows against atoms that are not false is true. -/
theorem consequences_subset_true {rules : Set (NormalRule α)} {upper : Set α}
    (h : upperᶜ ⊆ (wellFoundedModel rules).2)
    : consequences rules upper ⊆ (wellFoundedModel rules).1 := by
  refine consequences_subset fun rule mem _ pos neg => ?_
  have hderived : rule.head ∈ derived rules (wellFoundedModel rules) :=
    ⟨rule, mem, rfl, pos, fun a ha => h (Set.disjoint_left.mp neg ha)⟩
  exact (congrArg Prod.fst (wellFoundedModel_eq rules)).subset hderived

/-- Two least models that are each read against the other bound the well-founded model. -/
theorem wellFoundedModel_le_of_alternating {rules : Set (NormalRule α)} {lower upper : Set α}
    (hlower : consequences rules upper = lower) (hupper : consequences rules lower = upper)
    : wellFoundedModel rules ≤ (lower, upperᶜ) := by
  refine wellFoundedModel_le ?_ ?_
  · intro a ha
    obtain ⟨rule, mem, rfl, pos, neg⟩ := ha
    have hfollows : rule.head ∈ consequences rules upper :=
      head_mem_consequences mem (by rw [hlower]; exact pos)
        (Set.disjoint_left.mpr fun a ha hu => neg ha hu)
    rwa [hlower] at hfollows
  · intro a ha hu
    obtain ⟨atoms, hunfounded, hatoms⟩ := ha
    -- no atom of the upper model is unfounded, by induction on its derivation
    have hnone : consequences rules lower ⊆ { a | a ∈ upper ∧ a ∉ atoms } := by
      refine consequences_subset fun rule mem hbody pos neg => ?_
      have hhead : rule.head ∈ upper := hupper ▸ head_mem_consequences mem hbody neg
      refine ⟨hhead, fun hin => ?_⟩
      obtain ⟨b, hb | hb | hb⟩ := hunfounded rule mem hin
      · exact hb.2 (pos hb.1).1
      · exact Set.disjoint_left.mp neg hb.1 hb.2
      · exact (pos hb.1).2 hb.2
    rw [← hupper] at hu
    exact (hnone hu).2 hatoms

-- The alternation

/-- The upper bounds, from the least model in which every negated atom holds. -/
def upperStage (rules : Set (NormalRule α)) : Nat → Set α
  | 0 => consequences rules ∅
  | n + 1 => consequences rules (consequences rules (upperStage rules n))

/-- The lower bounds, each read against the upper bound of the same round. -/
def lowerStage (rules : Set (NormalRule α)) (n : Nat) : Set α :=
  consequences rules (upperStage rules n)

/-- The upper bounds shrink, by induction on the round. -/
theorem upperStage_antitone (rules : Set (NormalRule α)) : Antitone (upperStage rules) := by
  refine antitone_nat_of_succ_le fun n => ?_
  induction n with
  | zero => exact consequences_antitone rules (Set.empty_subset _)
  | succ n ih => exact consequences_antitone rules (consequences_antitone rules ih)

/-- Every stage bounds the model, by induction on the round. -/
theorem compl_upperStage_subset (rules : Set (NormalRule α)) (n : Nat)
    : (upperStage rules n)ᶜ ⊆ (wellFoundedModel rules).2 := by
  induction n with
  | zero => exact compl_consequences_subset_false (Set.empty_subset _)
  | succ n ih => exact compl_consequences_subset_false (consequences_subset_true ih)

/-- The alternation has reached the model when an upper bound repeats. -/
theorem wellFoundedModel_eq_of_upperStage {rules : Set (NormalRule α)} {n : Nat}
    (fixed : upperStage rules (n + 1) = upperStage rules n)
    : wellFoundedModel rules = (lowerStage rules n, (upperStage rules n)ᶜ) :=
  le_antisymm (wellFoundedModel_le_of_alternating rfl fixed)
    ⟨consequences_subset_true (compl_upperStage_subset rules n), compl_upperStage_subset rules n⟩

/-- Finite upper bounds repeat from some round on: the size cannot fall for ever. -/
theorem exists_upperStage_eq {rules : Set (NormalRule α)} (finite : (upperStage rules 0).Finite)
    : ∃ n, ∀ m ≥ n, upperStage rules m = upperStage rules n := by
  have hfinite (n : Nat) : (upperStage rules n).Finite :=
    finite.subset (upperStage_antitone rules n.zero_le)
  obtain ⟨least, ⟨n, rfl⟩, hleast⟩ :=
    WellFounded.has_min (wellFounded_lt (α := Nat))
      (Set.range fun n => (upperStage rules n).ncard) ⟨_, 0, rfl⟩
  refine ⟨n, fun m hm => ?_⟩
  exact Set.eq_of_subset_of_ncard_le (upperStage_antitone rules hm)
    (not_lt.mp (hleast _ ⟨m, rfl⟩)) (hfinite n)

end Xlog.Foundation
