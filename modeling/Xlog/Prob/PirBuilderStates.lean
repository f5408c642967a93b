import Xlog.Prob.PirBuilderMeaning

/-! The states that a builder reaches: by its own operations on nodes that it has issued, and by nodes
that the well-founded evaluation pushes on its graph past the tables. In all of them the operations
mean what they say.
-/

namespace Xlog.Prob.PirBuilder

/-- One operation, or one node pushed on the graph alone. -/
inductive Step : PirBuilder → PirBuilder → Prop where
  | lit (b : PirBuilder) (leaf : LeafId) : Step b (b.lit leaf).2
  | negLit (b : PirBuilder) (leaf : LeafId) : Step b (b.negLit leaf).2
  | and {b : PirBuilder} {children : List PirNodeId} (inside : ∀ c ∈ children, c < b.pir.len)
    : Step b (b.and children).2
  | or {b : PirBuilder} {children : List PirNodeId} (inside : ∀ c ∈ children, c < b.pir.len)
    : Step b (b.or children).2
  | decision {b : PirBuilder} {var : ChoiceVarId} {childFalse childTrue : PirNodeId}
    (hf : childFalse < b.pir.len) (ht : childTrue < b.pir.len)
    : Step b (b.decision var childFalse childTrue).2
  | choiceLit (b : PirBuilder) (var : ChoiceVarId) (isTrue : Bool)
    : Step b (b.choiceLit var isTrue).2
  | negateProvenance {b : PirBuilder} {prov : PirNodeId} (hlt : prov < b.pir.len)
    : Step b (b.negateProvenance prov).2
  | raw {b : PirBuilder} {node : PirNode} (inside : ∀ c ∈ node.children, c < b.pir.len)
    : Step b { b with pir := (b.pir.pushNode node).2 }

def Reachable (b : PirBuilder) : Prop := Relation.ReflTransGen Step new b

/-- A choice literal is true when the variable has its value. -/
theorem choiceLit_spec {b : PirBuilder} (h : b.Ok) (var : ChoiceVarId) (isTrue : Bool)
    : Made b (fun w => w.choice var == isTrue) (b.choiceLit var isTrue) := by
  cases isTrue with
  | false =>
      refine (decision_spec h h.constTrue_lt h.constFalse_lt).congr ?_
      intro w
      rw [h.eval_constTrue, h.eval_constFalse]
      cases w.choice var <;> rfl
  | true =>
      refine (decision_spec h h.constFalse_lt h.constTrue_lt).congr ?_
      intro w
      rw [h.eval_constTrue, h.eval_constFalse]
      cases w.choice var <;> rfl

theorem Step.grows {b b' : PirBuilder} (hstep : Step b b') (h : b.Ok) : Grows b b' := by
  cases hstep with
  | lit leaf => exact (lit_spec h leaf).grows
  | negLit leaf => exact (negLit_spec h leaf).grows
  | and inside => exact (and_spec h inside).grows
  | or inside => exact (or_spec h inside).grows
  | decision hf ht => exact (decision_spec h hf ht).grows
  | choiceLit var isTrue => exact (choiceLit_spec h var isTrue).grows
  | negateProvenance hlt => exact (negateProvenance_spec h hlt).grows
  | raw inside =>
      exact h.grows_push _ inside (fun _ _ => .inl) (fun _ _ => .inl) fun _ _ => .inl

/-- Any number of operations, by induction on them. -/
theorem grows_of_steps {b b' : PirBuilder} (h : b.Ok) (hsteps : Relation.ReflTransGen Step b b')
    : Grows b b' := by
  induction hsteps with
  | refl => exact .refl h
  | tail _ hstep ih => exact ih.trans (hstep.grows ih.ok)

theorem Reachable.ok {b : PirBuilder} (h : Reachable b) : b.Ok := (grows_of_steps ok_new h).ok

-- Meaning

/-- The returned node has the given value in every world. -/
def Denotes (value : World → Bool) (made : PirNodeId × PirBuilder) : Prop :=
  made.1 < made.2.pir.len ∧ ∀ w, made.2.pir.eval w made.1 = value w

/-- A later state has the nodes of an earlier one, with the same value in every world. -/
def Keeps (b later : PirBuilder) : Prop :=
  ∀ id < b.pir.len, id < later.pir.len ∧ ∀ w, later.pir.eval w id = b.pir.eval w id

/-- The operations on issued nodes mean what they say, and whatever is done later no node changes. -/
structure PreservesMeaning (b : PirBuilder) : Prop where
  and
    : ∀ {children}, (∀ c ∈ children, c < b.pir.len)
      → Denotes (fun w => children.all (b.pir.eval w)) (b.and children)
  or
    : ∀ {children}, (∀ c ∈ children, c < b.pir.len)
      → Denotes (fun w => children.any (b.pir.eval w)) (b.or children)
  decision
    : ∀ {var childFalse childTrue}, childFalse < b.pir.len → childTrue < b.pir.len
      → Denotes (fun w => if w.choice var then b.pir.eval w childTrue else b.pir.eval w childFalse)
          (b.decision var childFalse childTrue)
  choiceLit
    : ∀ var isTrue, Denotes (fun w => w.choice var == isTrue) (b.choiceLit var isTrue)
  negate
    : ∀ {prov}, prov < b.pir.len
      → Denotes (fun w => !b.pir.eval w prov) (b.negateProvenance prov)
  keeps : ∀ {later}, Relation.ReflTransGen Step b later → Keeps b later

theorem Made.denotes {b : PirBuilder} {value : World → Bool} {made : PirNodeId × PirBuilder}
    (h : Made b value made) : Denotes value made :=
  ⟨h.lt, h.eval⟩

theorem preservesMeaning_of_reachable {b : PirBuilder} (h : Reachable b) : PreservesMeaning b where
  and inside := (and_spec h.ok inside).denotes
  or inside := (or_spec h.ok inside).denotes
  decision hf ht := (decision_spec h.ok hf ht).denotes
  choiceLit var isTrue := (choiceLit_spec h.ok var isTrue).denotes
  negate hlt := (negateProvenance_spec h.ok hlt).denotes
  keeps := by
    intro later hsteps id hlt
    have hgrows := grows_of_steps h.ok hsteps
    exact ⟨hgrows.lt hlt, fun w => hgrows.eval_eq hlt w⟩

/-- A disjunction of two leaves, and the same one pushed once more past the tables. -/
def sharedTwice : PirBuilder :=
  let twoLeaves := ((new.lit 0).2.lit 1).2
  let shared := (twoLeaves.or [2, 3]).2
  { shared with pir := (shared.pir.pushNode (.or [2, 3])).2 }

theorem preservesMeaning_of_reachable_sharedTwice : PreservesMeaning sharedTwice := by
  have hleaves : Reachable ((new.lit 0).2.lit 1).2 := .tail (.tail .refl (.lit _ 0)) (.lit _ 1)
  have hshared : Reachable (((new.lit 0).2.lit 1).2.or [2, 3]).2 := by
    refine .tail hleaves (.or ?_)
    decide
  refine preservesMeaning_of_reachable (.tail hshared (.raw ?_))
  decide

end Xlog.Prob.PirBuilder
