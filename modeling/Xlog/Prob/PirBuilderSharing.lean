import Xlog.Prob.PirBuilderStates

/-! A builder left to its own operations shares all nodes: none has the contents of another.
-/

namespace Xlog.Prob.PirBuilder

/-- Every node is found in the table. -/
def Shared (b : PirBuilder) : Prop :=
  ∀ id node, b.pir.node id = some node → b.intern.lookup node = some id

theorem shared_new : new.Shared := by
  intro id node hn
  match id, hn with
  | 0, rfl => rfl
  | 1, rfl => rfl

/-- A pushed node that was not in the table is entered there. -/
theorem Shared.push {b b' : PirBuilder} {node : PirNode} (h : b.Shared)
    (hnew : b.intern.lookup node = none) (hpir : b'.pir = (b.pir.pushNode node).2)
    (hintern : b'.intern = (node, b.pir.len) :: b.intern)
    : b'.Shared := by
  intro id found hn
  rw [hpir] at hn
  rw [hintern, List.lookup_cons]
  have hlt := PirGraph.node_lt hn
  rw [PirGraph.len_pushNode] at hlt
  rcases Nat.lt_succ_iff_lt_or_eq.mp hlt with hold | rfl
  · have hfound := h id found (PirGraph.node_pushNode_of_lt hold ▸ hn)
    have hne : (found == node) = false := by
      rw [beq_eq_false_iff_ne]
      rintro rfl
      simp [hnew] at hfound
    rw [hne, hfound]
  · obtain rfl : node = found := Option.some.inj (PirGraph.node_pushNode_self.symm.trans hn)
    simp

theorem Shared.getOrPush {b : PirBuilder} (h : b.Shared) (node : PirNode)
    : (b.getOrPush node).2.Shared := by
  rw [PirBuilder.getOrPush]
  split
  · exact h
  · next hnew => exact h.push hnew rfl rfl

theorem Shared.and {b : PirBuilder} (h : b.Shared) (children : List PirNodeId)
    : (b.and children).2.Shared := by
  rw [PirBuilder.and]
  split
  · exact h
  · split
    · exact h
    · next hnew => exact h.push hnew rfl rfl

theorem Shared.or {b : PirBuilder} (h : b.Shared) (children : List PirNodeId)
    : (b.or children).2.Shared := by
  rw [PirBuilder.or]
  split
  · exact h
  · split
    · exact h
    · next hnew => exact h.push hnew rfl rfl

theorem Shared.decision {b : PirBuilder} (h : b.Shared) (var : ChoiceVarId)
    (childFalse childTrue : PirNodeId)
    : (b.decision var childFalse childTrue).2.Shared := by
  rw [PirBuilder.decision]
  split
  · exact h
  · exact h.getOrPush _

theorem Shared.negateAll {negate : PirBuilder → PirNodeId → PirNodeId × PirBuilder}
    (hnegate : ∀ b prov, b.Shared → (negate b prov).2.Shared) {b : PirBuilder} (h : b.Shared)
    (children : List PirNodeId)
    : (negateAll negate b children).2.Shared := by
  induction children generalizing b with
  | nil => exact h
  | cons child children ih => exact ih (hnegate b child h)

/-- A negation only calls the other operations, by induction on the depth. -/
theorem Shared.negateFuel (fuel : Nat) (b : PirBuilder) (prov : PirNodeId) (h : b.Shared)
    : (negateFuel fuel b prov).2.Shared := by
  induction fuel generalizing b prov with
  | zero => exact h
  | succ fuel ih =>
      rw [PirBuilder.negateFuel]
      split
      · exact h
      · exact h.getOrPush _
      · exact h.getOrPush _
      · exact (h.negateAll ih _).or _
      · exact (h.negateAll ih _).and _
      · exact (ih _ _ (ih _ _ h)).decision _ _ _
      · exact h

/-- A step that pushes nodes only through the table. -/
def OwnStep (b b' : PirBuilder) : Prop :=
  Step b b' ∧ (b'.intern = b.intern → b'.pir = b.pir)

theorem OwnStep.shared {b b' : PirBuilder} (hstep : OwnStep b b') (h : b.Shared) : b'.Shared := by
  obtain ⟨hstep, hown⟩ := hstep
  cases hstep with
  | lit leaf => exact h.getOrPush _
  | negLit leaf => exact h.getOrPush _
  | and => exact h.and _
  | or => exact h.or _
  | decision => exact h.decision _ _ _
  | choiceLit var isTrue => cases isTrue <;> exact h.decision _ _ _
  | negateProvenance => exact h.negateFuel _ _ _
  | @raw node =>
      have hlen := congrArg PirGraph.len (hown rfl)
      simp at hlen

/-- No two nodes of a builder that pushes none past its table have the same contents, and asking for
a node again changes nothing.
-/
theorem shared_of_ownSteps {b : PirBuilder} (hsteps : Relation.ReflTransGen OwnStep new b)
    : ∀ id node, b.pir.node id = some node →
        (∀ other, b.pir.node other = some node → other = id) ∧ b.getOrPush node = (id, b) := by
  have hshared : b.Shared := by
    induction hsteps with
    | refl => exact shared_new
    | tail _ hstep ih => exact hstep.shared ih
  intro id node hn
  have hfound := hshared id node hn
  refine ⟨fun other hother => ?_, by rw [getOrPush, hfound]⟩
  exact Option.some.inj ((hshared other node hother).symm.trans hfound)

theorem shared_of_ownSteps_lit
    : (new.lit 7).2.getOrPush (.lit 7) = (2, (new.lit 7).2) :=
  (shared_of_ownSteps (.single ⟨.lit new 7, fun h => absurd (congrArg List.length h) (by decide)⟩)
    2 _ rfl).2

end Xlog.Prob.PirBuilder
