import Xlog.Prob.Pir

/-! Growing a provenance graph: pushed nodes change no existing node's meaning.
-/

namespace Xlog.Prob

namespace PirGraph

open Xlog.Foundation

/-- References stay inside the arena and close no cycle. -/
structure Sound (g : PirGraph) : Prop where
  wellFormed : g.WellFormed
  acyclic : Acyclic g.Edge

theorem Backward.sound {g : PirGraph} (h : g.Backward) : g.Sound :=
  ⟨h.wellFormed, h.acyclic⟩

/-- A later graph keeps every node of an earlier one, with its meaning. -/
structure Extends (g later : PirGraph) : Prop where
  sound : later.Sound
  len_le : g.len ≤ later.len
  eval_eq : ∀ id < g.len, ∀ w, later.eval w id = g.eval w id

theorem Extends.refl {g : PirGraph} (h : g.Sound) : g.Extends g :=
  ⟨h, le_rfl, fun _ _ _ => rfl⟩

theorem Extends.trans {g₁ g₂ g₃ : PirGraph} (h₁ : g₁.Extends g₂) (h₂ : g₂.Extends g₃)
    : g₁.Extends g₃ where
  sound := h₂.sound
  len_le := h₁.len_le.trans h₂.len_le
  eval_eq id hlt w := (h₂.eval_eq id (hlt.trans_le h₁.len_le) w).trans (h₁.eval_eq id hlt w)

theorem Extends.lt {g later : PirGraph} (h : g.Extends later) {id : PirNodeId}
    (hlt : id < g.len)
    : id < later.len :=
  hlt.trans_le h.len_le

-- One pushed node

variable {g : PirGraph} {node : PirNode}

@[simp] theorem pushNode_fst : (g.pushNode node).1 = g.len := rfl

@[simp] theorem len_pushNode : (g.pushNode node).2.len = g.len + 1 := by
  simp [pushNode, len]

theorem node_pushNode_of_lt {id : PirNodeId} (h : id < g.len)
    : (g.pushNode node).2.node id = g.node id :=
  List.getElem?_append_left h

theorem node_pushNode_self : (g.pushNode node).2.node g.len = some node := by
  simp [pushNode, PirGraph.node, len]

/-- The edges of the grown graph: those of the old one and those of the pushed node. -/
theorem edge_pushNode {parent child : PirNodeId}
    (h : (g.pushNode node).2.Edge parent child)
    : g.Edge parent child ∨ parent = g.len ∧ child ∈ node.children := by
  obtain ⟨found, hf, hc⟩ := h
  have hlt := node_lt hf
  rw [len_pushNode] at hlt
  rcases Nat.lt_succ_iff_lt_or_eq.mp hlt with hold | rfl
  · exact .inl ⟨found, node_pushNode_of_lt hold ▸ hf, hc⟩
  · obtain rfl : node = found := Option.some.inj (node_pushNode_self.symm.trans hf)
    exact .inr ⟨rfl, hc⟩

theorem Sound.child_lt (h : g.Sound) {parent child : PirNodeId} (he : g.Edge parent child)
    : child < g.len :=
  h.wellFormed.child_lt he

/-- A path of the grown graph that starts in the old one stays there, by path induction. -/
theorem Sound.transGen_pushNode (h : g.Sound) {x y : PirNodeId} (hx : x < g.len)
    (hp : Relation.TransGen (g.pushNode node).2.Edge x y)
    : Relation.TransGen g.Edge x y ∧ y < g.len := by
  have hold : ∀ a b, a < g.len → (g.pushNode node).2.Edge a b → g.Edge a b := by
    intro a b ha he
    rcases edge_pushNode he with he | ⟨rfl, _⟩
    · exact he
    · exact absurd ha (lt_irrefl _)
  induction hp with
  | single he =>
      have he := hold _ _ hx he
      exact ⟨.single he, h.child_lt he⟩
  | tail _ he ih =>
      have he := hold _ _ ih.2 he
      exact ⟨ih.1.tail he, h.child_lt he⟩

/-- Pushing a node over existing children keeps the graph sound. -/
theorem Sound.pushNode (h : g.Sound) (inside : ∀ child ∈ node.children, child < g.len)
    : (g.pushNode node).2.Sound where
  wellFormed := by
    intro found hf child hc
    rw [len_pushNode]
    rcases List.mem_append.mp hf with hold | hnew
    · exact (h.wellFormed found hold child hc).trans (Nat.lt_succ_self _)
    · obtain rfl := List.mem_singleton.mp hnew
      exact (inside child hc).trans (Nat.lt_succ_self _)
  acyclic := by
    intro id hp
    by_cases hid : id < g.len
    · exact h.acyclic id (h.transGen_pushNode hid hp).1
    · -- the pushed node has no parent
      have hback : ∀ a b, (g.pushNode node).2.Edge a b → b < g.len := by
        intro a b he
        rcases edge_pushNode he with he | ⟨_, hc⟩
        · exact h.child_lt he
        · exact inside b hc
      cases hp with
      | single he => exact hid (hback _ _ he)
      | tail _ he => exact hid (hback _ _ he)

/-- A pushed node leaves the meaning of the old ones, by descent along edges. -/
theorem Sound.extends_pushNode (h : g.Sound)
    (inside : ∀ child ∈ node.children, child < g.len)
    : g.Extends (g.pushNode node).2 where
  sound := h.pushNode inside
  len_le := by simp
  eval_eq := by
    intro id
    induction id using (wellFounded_edge h.acyclic).induction with
    | h id ih =>
        intro hlt w
        obtain ⟨found, hf⟩ := node_of_lt hlt
        rw [PirGraph.eval_eq (h.pushNode inside).acyclic w
            ((node_pushNode_of_lt hlt).trans hf),
          PirGraph.eval_eq h.acyclic w hf]
        refine PirNode.value_congr fun child hc => ?_
        have he : g.Edge id child := ⟨found, hf, hc⟩
        exact ih child he (h.child_lt he) w

/-- The meaning of the pushed node, read in the old graph. -/
theorem Sound.eval_pushNode (h : g.Sound)
    (inside : ∀ child ∈ node.children, child < g.len) (w : World)
    : (g.pushNode node).2.eval w g.len = node.value w (g.eval w) := by
  rw [PirGraph.eval_eq (h.pushNode inside).acyclic w node_pushNode_self]
  exact PirNode.value_congr fun child hc =>
    (h.extends_pushNode inside).eval_eq child (inside child hc) w

end PirGraph

end Xlog.Prob
