import Mathlib.Algebra.Order.BigOperators.Group.Finset

/-! Kernels under every interleaving: threads with local states take atomic steps over a shared
memory, one thread at a time in any order, until each of them has finished.
-/

namespace Xlog.Foundation

/-- The threads of one launch. A thread has finished when it has no next step. -/
structure Threads (σ τ : Type*) where
  count : Nat
  start : Nat → τ
  step : Nat → τ → σ → Option (τ × σ)

namespace Threads

variable {σ τ : Type*}

structure World (σ τ : Type*) where
  shared : σ
  locals : Nat → τ

variable (threads : Threads σ τ)

/-- Some launched thread takes its next step. -/
inductive Step : World σ τ → World σ τ → Prop
  | mk {shared shared' : σ} {locals : Nat → τ} {thread : Nat} {next : τ}
    (launched : thread < threads.count)
    (step : threads.step thread (locals thread) shared = some (next, shared'))
    : Step ⟨shared, locals⟩ ⟨shared', Function.update locals thread next⟩

/-- The worlds of all interleavings from a memory. -/
def Reaches (shared : σ) : World σ τ → Prop :=
  Relation.ReflTransGen threads.Step ⟨shared, threads.start⟩

def Finished (world : World σ τ) : Prop :=
  ∀ thread, thread < threads.count
    → threads.step thread (world.locals thread) world.shared = none

/-- A memory that the launch can leave when all threads have finished. -/
def Leaves (shared shared' : σ) : Prop :=
  ∃ locals, threads.Reaches shared ⟨shared', locals⟩ ∧ threads.Finished ⟨shared', locals⟩

/-- No interleaving goes on forever. -/
def Terminates (shared : σ) : Prop :=
  Acc (fun after before => threads.Step before after) ⟨shared, threads.start⟩

variable {threads}

/-- What holds at first and survives every step holds in every reached world. -/
theorem Reaches.invariant {shared : σ} {world : World σ τ} (h : threads.Reaches shared world)
    (inv : World σ τ → Prop) (start : inv ⟨shared, threads.start⟩)
    (step : ∀ before after, inv before → threads.Step before after → inv after)
    : inv world := by
  induction h with
  | refl => exact start
  | tail _ hstep ih => exact step _ _ ih hstep

/-- An assertion about the memory and one about each thread. -/
structure Annotation (σ τ : Type*) where
  memory : σ → Prop
  own : Nat → τ → σ → Prop

def Annotation.Holds (assertion : Annotation σ τ) (world : World σ τ) : Prop :=
  assertion.memory world.shared ∧ ∀ thread, assertion.own thread (world.locals thread) world.shared

/-- A step keeps the assertion of its thread and takes no other thread's away. -/
def Annotation.Stable (assertion : Annotation σ τ) (threads : Threads σ τ) : Prop :=
  ∀ (shared shared' : σ) (thread : Nat) (state next : τ), thread < threads.count
    → assertion.memory shared → assertion.own thread state shared
    → threads.step thread state shared = some (next, shared')
    → assertion.memory shared' ∧ assertion.own thread next shared'
      ∧ ∀ other state, assertion.own other state shared → assertion.own other state shared'

theorem Annotation.Stable.step {assertion : Annotation σ τ} (h : assertion.Stable threads)
    {before after : World σ τ} (hbefore : assertion.Holds before)
    (hstep : threads.Step before after) : assertion.Holds after := by
  obtain ⟨hmemory, hown⟩ := hbefore
  cases hstep with
  | @mk shared shared' locals thread next hlaunched hnext =>
      obtain ⟨hmemory', hnext', hothers⟩ := h _ _ _ _ _ hlaunched hmemory (hown thread) hnext
      refine ⟨hmemory', fun other => ?_⟩
      by_cases heq : other = thread
      · subst heq
        change assertion.own other (Function.update locals other next other) shared'
        rw [Function.update_self]
        exact hnext'
      · change assertion.own other (Function.update locals thread next other) shared'
        rw [Function.update_of_ne heq]
        exact hothers other _ (hown other)

/-- A stable assertion that holds at first holds in every reached world. -/
theorem Annotation.Stable.reaches {assertion : Annotation σ τ} (h : assertion.Stable threads)
    {shared : σ} {world : World σ τ} (start : assertion.Holds ⟨shared, threads.start⟩)
    (hreaches : threads.Reaches shared world) : assertion.Holds world :=
  hreaches.invariant assertion.Holds start fun _ _ hbefore hstep => h.step hbefore hstep

/-- A world that has not finished can go on. -/
theorem exists_step_of_not_finished {world : World σ τ} (h : ¬threads.Finished world)
    : ∃ after, threads.Step world after := by
  rw [Finished] at h
  push Not at h
  obtain ⟨thread, hlaunched, hstep⟩ := h
  obtain ⟨⟨next, shared'⟩, hnext⟩ := Option.ne_none_iff_exists'.mp hstep
  exact ⟨_, .mk hlaunched hnext⟩

/-- A launch that terminates leaves some memory. -/
theorem Terminates.leaves {shared : σ} (h : threads.Terminates shared)
    : ∃ shared', threads.Leaves shared shared' := by
  suffices hfrom : ∀ world, Acc (fun after before => threads.Step before after) world →
      threads.Reaches shared world → ∃ shared', threads.Leaves shared shared' from
    hfrom _ h .refl
  intro world hacc
  induction hacc with
  | intro world _ ih =>
      intro hreaches
      by_cases hfinished : threads.Finished world
      · exact ⟨world.shared, world.locals, hreaches, hfinished⟩
      · obtain ⟨after, hstep⟩ := exists_step_of_not_finished hfinished
        exact ih after hstep (hreaches.tail hstep)

/-- The total of a weight of the local states. -/
def totalWeight (threads : Threads σ τ) (weight : Nat → τ → Nat) (locals : Nat → τ) : Nat :=
  ∑ thread ∈ Finset.range threads.count, weight thread (locals thread)

/-- A step changes the total by what its own thread changes. -/
theorem totalWeight_update {weight : Nat → τ → Nat} {locals : Nat → τ} {thread : Nat} {next : τ}
    (launched : thread < threads.count)
    : threads.totalWeight weight (Function.update locals thread next)
        + weight thread (locals thread)
      = threads.totalWeight weight locals + weight thread next := by
  have hmem : thread ∈ Finset.range threads.count := Finset.mem_range.mpr launched
  rw [totalWeight, totalWeight, ← Finset.add_sum_erase _ _ hmem, ← Finset.add_sum_erase _ _ hmem,
    Function.update_self]
  have hothers : ∑ other ∈ (Finset.range threads.count).erase thread,
        weight other (Function.update locals thread next other)
      = ∑ other ∈ (Finset.range threads.count).erase thread, weight other (locals other) := by
    refine Finset.sum_congr rfl fun other hother => ?_
    rw [Function.update_of_ne (Finset.ne_of_mem_erase hother)]
  rw [hothers]
  omega

theorem totalWeight_update_lt {weight weight' : Nat → τ → Nat} {locals : Nat → τ} {thread : Nat}
    {next : τ} (launched : thread < threads.count)
    (own : weight' thread next < weight thread (locals thread))
    (others : ∀ other state, weight' other state ≤ weight other state)
    : threads.totalWeight weight' (Function.update locals thread next)
      < threads.totalWeight weight locals := by
  apply Finset.sum_lt_sum
  · intro other _
    by_cases heq : other = thread
    · subst heq
      rw [Function.update_self]
      exact Nat.le_of_lt own
    · rw [Function.update_of_ne heq]
      exact others other _
  · refine ⟨thread, Finset.mem_range.mpr launched, ?_⟩
    rw [Function.update_self]
    exact own

/-- A launch terminates when each step lowers the rank of its thread, or keeps it, lowers the weight
of its thread and raises no other one. A step that lowers a rank may raise weights.
-/
theorem terminates_of_weights {shared : σ} (inv : World σ τ → Prop)
    (start : inv ⟨shared, threads.start⟩)
    (step : ∀ before after, inv before → threads.Step before after → inv after)
    (rank : Nat → τ → Nat) (weight : σ → Nat → τ → Nat)
    (lowers
      : ∀ (shared shared' : σ) (locals : Nat → τ) (thread : Nat) (next : τ),
          inv ⟨shared, locals⟩ → threads.step thread (locals thread) shared = some (next, shared')
          → rank thread next < rank thread (locals thread)
            ∨ (rank thread next = rank thread (locals thread)
              ∧ weight shared' thread next < weight shared thread (locals thread)
              ∧ ∀ other state, weight shared' other state ≤ weight shared other state))
    : threads.Terminates shared := by
  let measure (world : World σ τ) : Nat × Nat :=
    (threads.totalWeight rank world.locals, threads.totalWeight (weight world.shared) world.locals)
  have hwf : WellFounded (Prod.Lex (· < ·) (· < ·) : Nat × Nat → Nat × Nat → Prop) :=
    WellFounded.prod_lex Nat.lt_wfRel.wf Nat.lt_wfRel.wf
  suffices hfrom : ∀ bound world, measure world = bound → inv world →
      Acc (fun after before => threads.Step before after) world from hfrom _ _ rfl start
  intro bound
  induction bound using hwf.induction with
  | _ bound ih =>
      intro world hbound hinv
      refine ⟨world, fun after hstep => ih (measure after) ?_ after rfl (step _ _ hinv hstep)⟩
      rw [← hbound]
      cases hstep with
      | @mk shared shared' locals thread next hlaunched hnext =>
          rcases lowers shared shared' locals thread next hinv hnext with
            hrank | ⟨hrank, hweight, hothers⟩
          · exact .left _ _ (totalWeight_update_lt hlaunched hrank fun _ _ => Nat.le_refl _)
          · have hsame : threads.totalWeight rank (Function.update locals thread next)
                = threads.totalWeight rank locals := by
              have := @totalWeight_update _ _ threads rank locals thread next hlaunched
              omega
            change Prod.Lex _ _ (threads.totalWeight rank (Function.update locals thread next), _) _
            rw [hsame]
            exact .right _ (totalWeight_update_lt hlaunched hweight hothers)

/-- A launch terminates when each step lowers the rank of its thread. -/
theorem terminates_of_rank {shared : σ} (rank : Nat → τ → Nat)
    (lowers
      : ∀ (shared shared' : σ) (thread : Nat) (state next : τ),
          threads.step thread state shared = some (next, shared')
          → rank thread next < rank thread state)
    : threads.Terminates shared := by
  refine terminates_of_weights (fun _ => True) trivial (fun _ _ _ _ => trivial) rank
    (fun _ _ _ => 0) ?_
  intro shared shared' locals thread next _ hstep
  exact .inl (lowers _ _ _ _ _ hstep)

end Threads

end Xlog.Foundation
