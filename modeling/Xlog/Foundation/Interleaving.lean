import Mathlib.Algebra.BigOperators.Group.Multiset.Basic

/-! Concurrent activities over one shared state. An activity moves by one atomic section at a
time, in any order with the others, and what a section leaves to be done are activities again.
Invariants that count over the activities are stated through one additive total.
-/

namespace Xlog.Foundation

/-- Which activities may start at any time, and what one atomic section of an activity does. -/
structure ActivitySystem (σ α : Type*) where
  entry : α → Prop
  move : σ → α → σ → List α → Prop

/-- A shared state together with the activities that are under way. -/
structure World (σ α : Type*) where
  shared : σ
  activities : Multiset α

variable {σ α : Type*}

namespace ActivitySystem

variable (system : ActivitySystem σ α)

/-- One activity starts, or one of those under way moves by one atomic section. -/
inductive Step : World σ α → World σ α → Prop
  | start {shared activity others} (h : system.entry activity)
    : Step ⟨shared, others⟩ ⟨shared, activity ::ₘ others⟩
  | move {shared activity others shared' next} (h : system.move shared activity shared' next)
    : Step ⟨shared, activity ::ₘ others⟩ ⟨shared', next + others⟩

/-- The worlds that some interleaving reaches from a state without activities. -/
def Reachable (initial : σ) : World σ α → Prop :=
  Relation.ReflTransGen system.Step ⟨initial, 0⟩

/-- What holds at first, and survives each start and each atomic section, holds always. -/
theorem Reachable.invariant {system : ActivitySystem σ α} {initial : σ}
    {Inv : World σ α → Prop} {world : World σ α} (h : system.Reachable initial world)
    (hinit : Inv ⟨initial, 0⟩)
    (hstart
      : ∀ shared others activity,
          Inv ⟨shared, others⟩ → system.entry activity → Inv ⟨shared, activity ::ₘ others⟩)
    (hmove
      : ∀ shared others activity shared' next,
          system.Reachable initial ⟨shared, activity ::ₘ others⟩
          → Inv ⟨shared, activity ::ₘ others⟩
          → system.move shared activity shared' next
          → Inv ⟨shared', next + others⟩)
    : Inv world := by
  induction h with
  | refl => exact hinit
  | tail hreachable hstep ih =>
      cases hstep with
      | start h => exact hstart _ _ _ ih h
      | move h => exact hmove _ _ _ _ _ hreachable ih h

/-- An activity may start in any reachable world. -/
theorem Reachable.start {system : ActivitySystem σ α} {initial shared : σ} {activity : α}
    {others : Multiset α} (h : system.Reachable initial ⟨shared, others⟩)
    (hentry : system.entry activity)
    : system.Reachable initial ⟨shared, activity ::ₘ others⟩ :=
  Relation.ReflTransGen.tail h (.start hentry)

/-- An activity may go on to another one. -/
theorem Reachable.goOn {system : ActivitySystem σ α} {initial shared shared' : σ}
    {activity next : α} {others : Multiset α}
    (h : system.Reachable initial ⟨shared, activity ::ₘ others⟩)
    (hmove : system.move shared activity shared' [next])
    : system.Reachable initial ⟨shared', next ::ₘ others⟩ := by
  have hstep := Relation.ReflTransGen.tail h (.move hmove)
  rwa [Multiset.coe_singleton, Multiset.singleton_add] at hstep

/-- An activity may go on to two others. -/
theorem Reachable.fork {system : ActivitySystem σ α} {initial shared shared' : σ}
    {activity first second : α} {others : Multiset α}
    (h : system.Reachable initial ⟨shared, activity ::ₘ others⟩)
    (hmove : system.move shared activity shared' [first, second])
    : system.Reachable initial ⟨shared', first ::ₘ second ::ₘ others⟩ := by
  have hstep := Relation.ReflTransGen.tail h (.move hmove)
  rwa [← Multiset.cons_coe, Multiset.coe_singleton, Multiset.cons_add,
    Multiset.singleton_add] at hstep

end ActivitySystem

-- Totals over the activities under way

variable {M : Type*} [AddCommMonoid M]

/-- The sum over all activities of what each of them holds. -/
def total (held : α → M) (activities : Multiset α) : M :=
  (activities.map held).sum

variable {held : α → M} {activity : α} {activities others : Multiset α} {next : List α}

@[simp]
theorem total_zero : total held (0 : Multiset α) = 0 := by simp [total]

@[simp]
theorem total_cons : total held (activity ::ₘ others) = held activity + total held others := by
  simp [total]

@[simp]
theorem total_singleton : total held {activity} = held activity := by simp [total]

/-- What a section leaves to be done counts apart from the other activities. -/
@[simp]
theorem total_add
    : total held (activities + others) = total held activities + total held others := by
  simp [total]

/-- The same activity by activity. -/
theorem total_coe_add
    : total held (↑next + others) = (next.map held).sum + total held others := by
  simp [total]

/-- An activity that starts without holding anything changes no total. -/
theorem total_start (h : held activity = 0)
    : total held (activity ::ₘ others) = total held others := by
  simp [h]

/-- What one activity holds is part of the total. -/
theorem mem_total {β : Type*} {held : α → Multiset β} {b : β} (hb : b ∈ held activity)
    (h : activity ∈ activities)
    : b ∈ total held activities := by
  obtain ⟨rest, rfl⟩ := Multiset.exists_cons_of_mem h
  rw [total_cons]
  exact Multiset.mem_add.mpr (.inl hb)

/-- Each activity counts for at most the total. -/
theorem le_total {held : α → ℕ} (h : activity ∈ activities)
    : held activity ≤ total held activities := by
  obtain ⟨rest, rfl⟩ := Multiset.exists_cons_of_mem h
  simp

/-- Activities that have all ended add up to nothing. -/
theorem total_of_ended {ended : α} (h : ∀ activity ∈ activities, activity = ended)
    (hzero : held ended = 0)
    : total held activities = 0 := by
  refine Multiset.sum_eq_zero fun amount hamount => ?_
  obtain ⟨activity, hactivity, rfl⟩ := Multiset.mem_map.mp hamount
  exact h activity hactivity ▸ hzero

/-- A total of zero leaves nothing to any activity. -/
theorem eq_zero_of_total {held : α → ℕ} (hzero : total held activities = 0)
    (h : activity ∈ activities)
    : held activity = 0 :=
  Nat.le_zero.mp (hzero ▸ le_total h)

end Xlog.Foundation
