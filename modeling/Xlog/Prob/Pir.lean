import Xlog.Foundation.Acyclic
import Mathlib.Order.Interval.Finset.Nat

/-! The provenance graph: an arena of Boolean nodes that refer to each other by index.
Graphs built by other code may refer forward, so meaning is given on acyclic graphs.
-/

namespace Xlog.Prob

open Xlog.Foundation

abbrev PirNodeId := Nat
abbrev LeafId := Nat
abbrev ChoiceVarId := Nat

/-- One node of the provenance graph. -/
inductive PirNode where
  | const (value : Bool)
  | lit (leaf : LeafId)
  | negLit (leaf : LeafId)
  | and (children : List PirNodeId)
  | or (children : List PirNodeId)
  | decision (var : ChoiceVarId) (childFalse childTrue : PirNodeId)
  deriving DecidableEq, Repr

/-- The nodes a node reads, in source order. -/
def PirNode.children : PirNode → List PirNodeId
  | .const _ | .lit _ | .negLit _ => []
  | .and children | .or children => children
  | .decision _ childFalse childTrue => [childFalse, childTrue]

structure PirGraph where
  nodes : List PirNode
  deriving DecidableEq, Repr

namespace PirGraph

def empty : PirGraph := ⟨[]⟩

def len (g : PirGraph) : Nat := g.nodes.length

def node (g : PirGraph) (id : PirNodeId) : Option PirNode := g.nodes[id]?

def pushNode (g : PirGraph) (node : PirNode) : PirNodeId × PirGraph :=
  (g.len, ⟨g.nodes ++ [node]⟩)

def constTrue (g : PirGraph) : PirNodeId × PirGraph := g.pushNode (.const true)

def constFalse (g : PirGraph) : PirNodeId × PirGraph := g.pushNode (.const false)

def and (g : PirGraph) (children : List PirNodeId) : PirNodeId × PirGraph :=
  g.pushNode (.and children)

def or (g : PirGraph) (children : List PirNodeId) : PirNodeId × PirGraph :=
  g.pushNode (.or children)

-- Meaning

/-- One node reads another. -/
def Edge (g : PirGraph) (parent child : PirNodeId) : Prop :=
  ∃ node, g.node parent = some node ∧ child ∈ node.children

/-- Every reference stays inside the arena. -/
def WellFormed (g : PirGraph) : Prop :=
  ∀ node ∈ g.nodes, ∀ child ∈ node.children, child < g.len

/-- A node the roots depend on. -/
def Reachable (g : PirGraph) (roots : List PirNodeId) (id : PirNodeId) : Prop :=
  ∃ root ∈ roots, Relation.ReflTransGen g.Edge root id

instance (g : PirGraph) : Decidable g.WellFormed := by
  unfold WellFormed; infer_instance

end PirGraph

/-- Truth values of the leaves and of the choice variables. -/
structure World where
  leaf : LeafId → Bool
  choice : ChoiceVarId → Bool

/-- The Boolean value of a node whose children have the given values. -/
def PirNode.value (w : World) (value : PirNodeId → Bool) : PirNode → Bool
  | .const b => b
  | .lit leaf => w.leaf leaf
  | .negLit leaf => !w.leaf leaf
  | .and children => children.all value
  | .or children => children.any value
  | .decision var childFalse childTrue =>
      if w.choice var then value childTrue else value childFalse

/-- A node's value reads only its children. -/
theorem PirNode.value_congr {w : World} {f h : PirNodeId → Bool} {node : PirNode}
    (agree : ∀ child ∈ node.children, f child = h child)
    : node.value w f = node.value w h := by
  cases node with
  | const _ | lit _ | negLit _ => rfl
  | and children =>
      simp only [PirNode.value]
      rw [Bool.eq_iff_iff, List.all_eq_true, List.all_eq_true]
      exact forall₂_congr fun c hc => by rw [agree c hc]
  | or children =>
      simp only [PirNode.value]
      rw [Bool.eq_iff_iff, List.any_eq_true, List.any_eq_true]
      exact exists_congr fun c => and_congr_right fun hc => by rw [agree c hc]
  | decision var childFalse childTrue =>
      simp only [PirNode.value, agree childFalse (by simp [PirNode.children]),
        agree childTrue (by simp [PirNode.children])]

namespace PirGraph

/-- A node's value, one arena level per unit of fuel; a dangling reference is false. -/
def evalFuel (g : PirGraph) (w : World) : Nat → PirNodeId → Bool
  | 0, _ => false
  | fuel + 1, id =>
      match g.node id with
      | none => false
      | some node => node.value w (evalFuel g w fuel)

/-- The Boolean value of a node: no path of an acyclic graph is longer than the arena. -/
def eval (g : PirGraph) (w : World) (id : PirNodeId) : Bool :=
  g.evalFuel w g.len id

theorem node_lt {g : PirGraph} {id : PirNodeId} {node : PirNode} (h : g.node id = some node)
    : id < g.len :=
  (List.getElem?_eq_some_iff.mp h).1

theorem node_of_lt {g : PirGraph} {id : PirNodeId} (h : id < g.len)
    : ∃ node, g.node id = some node :=
  ⟨_, List.getElem?_eq_getElem h⟩

theorem WellFormed.child_lt {g : PirGraph} (wf : g.WellFormed) {parent child : PirNodeId}
    (h : g.Edge parent child)
    : child < g.len := by
  obtain ⟨node, hn, hc⟩ := h
  exact wf node (List.mem_of_getElem? hn) child hc

theorem Edge.parent_lt {g : PirGraph} {parent child : PirNodeId} (h : g.Edge parent child)
    : parent < g.len := by
  obtain ⟨node, hn, _⟩ := h
  exact node_lt hn

/-- Everything the roots depend on is inside the arena, by path induction. -/
theorem WellFormed.reachable_lt {g : PirGraph} (wf : g.WellFormed) {roots : List PirNodeId}
    (inside : ∀ root ∈ roots, root < g.len) {id : PirNodeId} (h : g.Reachable roots id)
    : id < g.len := by
  obtain ⟨root, hr, hp⟩ := h
  cases hp with
  | refl => exact inside _ hr
  | tail _ he => exact wf.child_lt he

theorem Reachable.root {g : PirGraph} {roots : List PirNodeId} {root : PirNodeId}
    (h : root ∈ roots)
    : g.Reachable roots root :=
  ⟨root, h, .refl⟩

theorem Reachable.child {g : PirGraph} {roots : List PirNodeId} {parent child : PirNodeId}
    (h : g.Reachable roots parent) (he : g.Edge parent child)
    : g.Reachable roots child := by
  obtain ⟨root, hr, hp⟩ := h
  exact ⟨root, hr, hp.tail he⟩

/-- An acyclic arena has no infinite descent. -/
theorem wellFounded_edge {g : PirGraph} (acyclic : Acyclic g.Edge)
    : WellFounded (flip g.Edge) :=
  acyclic.wellFounded (Set.Iio g.len) (Set.finite_Iio _) fun _ _ he => he.parent_lt

/-- Fuel from the rank of a node on does not change its value, by descent along edges. -/
theorem evalFuel_stable {g : PirGraph} (acyclic : Acyclic g.Edge) (w : World)
    (id : PirNodeId)
    : ∀ n m, rank g.Edge (Set.Iio g.len) id ≤ n → rank g.Edge (Set.Iio g.len) id ≤ m →
      g.evalFuel w n id = g.evalFuel w m id := by
  induction id using (wellFounded_edge acyclic).induction with
  | h id ih =>
      intro n m hn hm
      cases hnode : g.node id with
      | none => cases n <;> cases m <;> simp [evalFuel, hnode]
      | some node =>
          have hlt := node_lt hnode
          have hpos : 0 < rank g.Edge (Set.Iio g.len) id :=
            (Set.ncard_pos ((Set.finite_Iio _).subset fun _ hx => hx.1)).mpr
              ⟨id, hlt, .refl⟩
          obtain ⟨n, rfl⟩ := Nat.exists_eq_add_one_of_ne_zero (by omega : n ≠ 0)
          obtain ⟨m, rfl⟩ := Nat.exists_eq_add_one_of_ne_zero (by omega : m ≠ 0)
          simp only [evalFuel, hnode]
          refine PirNode.value_congr fun child hc => ?_
          have he : g.Edge id child := ⟨node, hnode, hc⟩
          have hr := acyclic.rank_lt (Set.finite_Iio g.len) hlt he
          exact ih child he n m (by omega) (by omega)

/-- The meaning of a node in terms of its children's meanings. -/
theorem eval_eq {g : PirGraph} (acyclic : Acyclic g.Edge) (w : World) {id : PirNodeId}
    {node : PirNode} (hnode : g.node id = some node)
    : g.eval w id = node.value w (g.eval w) := by
  have hcard : (Set.Iio g.len).ncard = g.len := by
    rw [Set.ncard_eq_toFinset_card']
    simp
  have hle := fun x => rank_le g.Edge (Set.finite_Iio g.len) x
  have hone : g.eval w id = g.evalFuel w (g.len + 1) id :=
    evalFuel_stable acyclic w id _ _ (by have := hle id; omega) (by have := hle id; omega)
  simp only [hone, evalFuel, hnode]
  rfl

/-- Every node refers to earlier nodes only, as in a graph grown by pushing nodes. -/
def Backward (g : PirGraph) : Prop :=
  ∀ id, (h : id < g.nodes.length) → ∀ child ∈ g.nodes[id].children, child < id

instance (g : PirGraph) : Decidable g.Backward := by
  unfold Backward; infer_instance

theorem Backward.child_lt {g : PirGraph} (h : g.Backward) {parent child : PirNodeId}
    (he : g.Edge parent child)
    : child < parent := by
  obtain ⟨node, hn, hc⟩ := he
  obtain ⟨hlt, rfl⟩ := List.getElem?_eq_some_iff.mp hn
  exact h parent hlt child hc

/-- Backward references never close a cycle: paths descend. -/
theorem Backward.acyclic {g : PirGraph} (h : g.Backward) : Acyclic g.Edge := by
  have hdesc : ∀ high low, Relation.TransGen g.Edge high low → low < high := by
    intro high low hp
    induction hp with
    | single he => exact h.child_lt he
    | tail _ he ih => exact (h.child_lt he).trans ih
  exact fun id hp => lt_irrefl id (hdesc id id hp)

/-- Backward references stay inside the arena. -/
theorem Backward.wellFormed {g : PirGraph} (h : g.Backward) : g.WellFormed := by
  intro node hn child hc
  obtain ⟨id, hlt, rfl⟩ := List.getElem_of_mem hn
  exact (h id hlt child hc).trans hlt

end PirGraph

end Xlog.Prob
