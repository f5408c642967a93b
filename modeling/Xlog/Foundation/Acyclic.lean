import Mathlib.Data.Set.Card

/-! Acyclic relations with finitely many sources, and the equation systems they solve.
A system `value x = step value x` that reads only successors has one solution.
-/

namespace Xlog.Foundation

variable {α : Type*} {β : Type*}

/-- No node is reachable from itself by one step or more. -/
def Acyclic (edge : α → α → Prop) : Prop :=
  ∀ node, ¬ Relation.TransGen edge node node

/-- An acyclic relation on a finite type is well-founded against its direction. -/
theorem Acyclic.wellFounded_of_finite [Finite α] {edge : α → α → Prop} (h : Acyclic edge)
    : WellFounded (flip edge) := by
  let above : α → α → Prop := fun low high => Relation.TransGen edge high low
  have trans : IsTrans α above := ⟨fun _ _ _ hl hr => hr.trans hl⟩
  have irrefl : Std.Irrefl above := ⟨h⟩
  have hw : WellFounded above := Finite.wellFounded_of_trans_of_irrefl above
  exact Subrelation.wf (fun he => .single he) hw

/-- Paths inside a subtype are paths of the whole type, by path induction. -/
theorem transGen_val {p : α → Prop} {edge : α → α → Prop} {x y : Subtype p}
    (h : Relation.TransGen (fun a b : Subtype p => edge a.val b.val) x y)
    : Relation.TransGen edge x.val y.val := by
  induction h with
  | single he => exact .single he
  | tail _ he ih => exact .tail ih he

/-- An acyclic relation whose sources form a finite set is well-founded against its
direction: only sources have anything below them.
-/
theorem Acyclic.wellFounded {edge : α → α → Prop} (h : Acyclic edge)
    (sources : Set α) (finite : sources.Finite) (closed : ∀ a b, edge a b → a ∈ sources)
    : WellFounded (flip edge) := by
  have : Finite sources := finite
  have hsub : Acyclic (fun a b : sources => edge a.val b.val) :=
    fun node hn => h node.val (transGen_val hn)
  have hw := hsub.wellFounded_of_finite
  have hin : ∀ node : sources, Acc (flip edge) node.val := by
    intro node
    induction node using hw.induction with
    | h node ih =>
        refine ⟨_, fun next he => ?_⟩
        by_cases hs : next ∈ sources
        · exact ih ⟨next, hs⟩ he
        · exact ⟨_, fun last hl => absurd (closed next last hl) hs⟩
  refine ⟨fun node => ⟨_, fun next he => ?_⟩⟩
  by_cases hs : next ∈ sources
  · exact hin ⟨next, hs⟩
  · exact ⟨_, fun last hl => absurd (closed next last hl) hs⟩

/-- Two valuations that solve the same equations on a successor-closed set agree there, by
well-founded induction; an equation may read only the successors of its node.
-/
theorem solution_unique {edge : α → α → Prop} (wf : WellFounded (flip edge))
    (step : (α → β) → α → β) (region : α → Prop)
    (closed : ∀ x y, region x → edge x y → region y)
    (reads : ∀ f g x, (∀ y, edge x y → f y = g y) → step f x = step g x)
    (f g : α → β) (hf : ∀ x, region x → f x = step f x) (hg : ∀ x, region x → g x = step g x)
    : ∀ x, region x → f x = g x := by
  intro x
  induction x using wf.induction with
  | h x ih =>
      intro hx
      rw [hf x hx, hg x hx]
      exact reads f g x fun y hy => ih y hy (closed x y hx hy)

-- Rank

/-- The sources a node depends on, itself included when it is one. -/
def below (edge : α → α → Prop) (sources : Set α) (node : α) : Set α :=
  {low | low ∈ sources ∧ Relation.ReflTransGen edge node low}

/-- How many sources a node depends on: a bound on its longest path. -/
noncomputable def rank (edge : α → α → Prop) (sources : Set α) (node : α) : Nat :=
  (below edge sources node).ncard

theorem rank_le (edge : α → α → Prop) {sources : Set α} (finite : sources.Finite) (node : α)
    : rank edge sources node ≤ sources.ncard :=
  Set.ncard_le_ncard (fun _ h => h.1) finite

/-- Every step of an acyclic relation lowers the rank: a source is below itself and not
below its successors.
-/
theorem Acyclic.rank_lt {edge : α → α → Prop} (h : Acyclic edge) {sources : Set α}
    (finite : sources.Finite) {high low : α} (hs : high ∈ sources) (he : edge high low)
    : rank edge sources low < rank edge sources high := by
  refine Set.ncard_lt_ncard ⟨?_, ?_⟩ (finite.subset fun _ hx => hx.1)
  · exact fun x hx => ⟨hx.1, .head he hx.2⟩
  · intro hsub
    have hp := (hsub (show high ∈ below edge sources high from ⟨hs, .refl⟩)).2
    exact h high (.head' he hp)

end Xlog.Foundation
