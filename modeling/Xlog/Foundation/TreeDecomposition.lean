import Mathlib.Combinatorics.SimpleGraph.Acyclic

/-! Tree decompositions of finite graphs, built by elimination: a vertex whose later neighbours form a
clique is put with them into the bag of a new leaf.
-/

namespace Xlog.Foundation

open SimpleGraph

-- Leaves of a tree

section Leaf

variable {N : Type} {T : SimpleGraph N} {t : N}

/-- A graph with one vertex more, next to a given one. -/
def attachLeaf (T : SimpleGraph N) (t : N) : SimpleGraph (Option N) where
  Adj x y :=
    (∃ a b, x = some a ∧ y = some b ∧ T.Adj a b)
    ∨ (x = none ∧ y = some t)
    ∨ (x = some t ∧ y = none)
  symm := ⟨by
    rintro x y (⟨a, b, rfl, rfl, adjacent⟩ | ⟨rfl, rfl⟩ | ⟨rfl, rfl⟩)
    · exact .inl ⟨b, a, rfl, rfl, adjacent.symm⟩
    · exact .inr (.inr ⟨rfl, rfl⟩)
    · exact .inr (.inl ⟨rfl, rfl⟩)⟩
  loopless := ⟨by
    rintro x (⟨a, b, rfl, same, adjacent⟩ | ⟨rfl, same⟩ | ⟨rfl, same⟩)
    · exact adjacent.ne (Option.some.inj same)
    · cases same
    · cases same⟩

@[simp] theorem attachLeaf_adj_some {a b : N}
    : (attachLeaf T t).Adj (some a) (some b) ↔ T.Adj a b := by
  simp [attachLeaf]

theorem attachLeaf_adj_none : (attachLeaf T t).Adj none (some t) :=
  .inr (.inl ⟨rfl, rfl⟩)

/-- The old graph inside the new one. -/
def attachLeafHom (T : SimpleGraph N) (t : N) : T →g attachLeaf T t where
  toFun := some
  map_rel' := attachLeaf_adj_some.mpr

/-- Without one of its edges, the new graph joins no more of the old vertices than the old graph. -/
theorem reachable_of_attachLeaf {a b : N} {x y : Option N}
    (h : ((attachLeaf T t).deleteEdges {s(some a, some b)}).Reachable x y)
    : (T.deleteEdges {s(a, b)}).Reachable (x.getD t) (y.getD t) := by
  rw [reachable_iff_reflTransGen] at h ⊢
  refine Relation.ReflTransGen.lift' (Option.getD · t) ?_ x y h
  intro x y step
  obtain ⟨adjacent, kept⟩ := deleteEdges_adj.mp step
  rcases adjacent with ⟨c, d, rfl, rfl, adjacent⟩ | ⟨rfl, rfl⟩ | ⟨rfl, rfl⟩
  · refine .single (deleteEdges_adj.mpr ⟨adjacent, fun removed => kept ?_⟩)
    have same : s(c, d) = s(a, b) := by simpa using removed
    have mapped := congrArg (Sym2.map some) same
    simpa using mapped
  · exact .refl
  · exact .refl

theorem attachLeaf_isTree (isTree : T.IsTree) : (attachLeaf T t).IsTree where
  connected := by
    rw [connected_iff_exists_forall_reachable]
    refine ⟨some t, fun x => ?_⟩
    cases x with
    | none => exact attachLeaf_adj_none.symm.reachable
    | some a => exact (isTree.connected t a).map (attachLeafHom T t)
  isAcyclic := by
    rw [isAcyclic_iff_forall_adj_isBridge]
    intro x y adjacent
    -- The new edge is the only one at the leaf; an old edge was a bridge before.
    have leaf_alone : ¬ ((attachLeaf T t).deleteEdges {s(none, some t)}).Reachable none (some t) := by
      intro reachable
      obtain ⟨w, step⟩ := reachable.nonempty_neighborSet_left (by simp)
      obtain ⟨adjacent, kept⟩ := deleteEdges_adj.mp step
      rcases adjacent with ⟨_, _, empty, _⟩ | ⟨_, rfl⟩ | ⟨empty, _⟩
      · cases empty
      · exact kept rfl
      · cases empty
    rcases adjacent with ⟨a, b, rfl, rfl, adjacent⟩ | ⟨rfl, rfl⟩ | ⟨rfl, rfl⟩
    · intro reachable
      have bridge := isAcyclic_iff_forall_adj_isBridge.mp isTree.isAcyclic adjacent
      exact bridge (reachable_of_attachLeaf reachable)
    · exact leaf_alone
    · rw [Sym2.eq_swap]
      exact leaf_alone

end Leaf

-- Tree decompositions

variable {V : Type}

/-- A tree decomposition of the graph on some vertices, with bags of at most one vertex more than its
width.
-/
structure TreeDecomposition (vertices : Finset V) (adjacent : V → V → Prop) (width : Nat) where
  Node : Type
  finite : Finite Node
  tree : SimpleGraph Node
  isTree : tree.IsTree
  bag : Node → Finset V
  bag_subset : ∀ t, bag t ⊆ vertices
  card_bag_le : ∀ t, (bag t).card ≤ width + 1
  vertex_covered : ∀ v ∈ vertices, ∃ t, v ∈ bag t
  edge_covered : ∀ u ∈ vertices, ∀ v ∈ vertices, adjacent u v → ∃ t, u ∈ bag t ∧ v ∈ bag t
  subtree : ∀ v, (tree.induce {t | v ∈ bag t}).Preconnected

namespace TreeDecomposition

variable {vertices : Finset V} {adjacent : V → V → Prop} {width : Nat}

/-- A larger width bounds the same bags. -/
def widen (decomposition : TreeDecomposition vertices adjacent width) {wider : Nat}
    (le : width ≤ wider)
    : TreeDecomposition vertices adjacent wider :=
  { decomposition with
    card_bag_le := fun t => (decomposition.card_bag_le t).trans (by omega) }

/-- The single empty bag. -/
def empty (adjacent : V → V → Prop) : TreeDecomposition ∅ adjacent 0 where
  Node := Unit
  finite := inferInstance
  tree := ⊥
  isTree := ⟨.of_subsingleton, isAcyclic_bot⟩
  bag _ := ∅
  bag_subset _ := le_rfl
  card_bag_le _ := Nat.zero_le _
  vertex_covered := by simp
  edge_covered := by simp
  subtree _ := by
    rintro ⟨_, member⟩
    cases member

/-- A decomposition whose bags contain every clique. -/
structure CoversCliques (decomposition : TreeDecomposition vertices adjacent width) : Prop where
  covered : ∀ clique ⊆ vertices, (∀ u ∈ clique, ∀ v ∈ clique, u ≠ v → adjacent u v) →
    ∃ t, clique ⊆ decomposition.bag t

theorem coversCliques_empty : (empty adjacent).CoversCliques where
  covered _ subset _ := ⟨(), subset⟩

section Extend

variable [DecidableEq V] {v : V} {neighbors : Finset V}

/-- The bags of a decomposition with a leaf for a vertex and its neighbours, which lie in one bag. -/
def extendBag (decomposition : TreeDecomposition vertices adjacent width)
    (v : V) (neighbors : Finset V)
    : Option decomposition.Node → Finset V
  | none => insert v neighbors
  | some t => decomposition.bag t

/-- A decomposition of the graph without a vertex becomes one of the graph, by a leaf for the vertex and
its neighbours.
-/
def extend (decomposition : TreeDecomposition vertices adjacent width)
    {before : V → V → Prop} (fresh : v ∉ vertices) (inside : neighbors ⊆ vertices)
    (at_most : neighbors.card ≤ width)
    (at_vertex : ∀ u ∈ vertices, before v u ∨ before u v → u ∈ neighbors)
    (kept : ∀ u ∈ vertices, ∀ w ∈ vertices, before u w → adjacent u w)
    (t : decomposition.Node) (within : neighbors ⊆ decomposition.bag t)
    : TreeDecomposition (insert v vertices) before width where
  Node := Option decomposition.Node
  finite := have := decomposition.finite; inferInstance
  tree := attachLeaf decomposition.tree t
  isTree := attachLeaf_isTree decomposition.isTree
  bag := decomposition.extendBag v neighbors
  bag_subset
    | none => Finset.insert_subset_insert v inside
    | some t => (decomposition.bag_subset t).trans (Finset.subset_insert v vertices)
  card_bag_le
    | none => (Finset.card_insert_le v neighbors).trans (by omega)
    | some t => decomposition.card_bag_le t
  vertex_covered u member := by
    rcases Finset.mem_insert.mp member with rfl | member
    · exact ⟨none, Finset.mem_insert_self _ _⟩
    · obtain ⟨t, covered⟩ := decomposition.vertex_covered u member
      exact ⟨some t, covered⟩
  edge_covered u hu w hw edge := by
    rcases Finset.mem_insert.mp hu with rfl | hu'
    · rcases Finset.mem_insert.mp hw with rfl | hw'
      · exact ⟨none, Finset.mem_insert_self _ _, Finset.mem_insert_self _ _⟩
      · exact ⟨none, Finset.mem_insert_self _ _,
          Finset.mem_insert_of_mem (at_vertex w hw' (.inl edge))⟩
    · rcases Finset.mem_insert.mp hw with rfl | hw'
      · exact ⟨none, Finset.mem_insert_of_mem (at_vertex u hu' (.inr edge)),
          Finset.mem_insert_self _ _⟩
      · obtain ⟨t, first, second⟩ :=
          decomposition.edge_covered u hu' w hw' (kept u hu' w hw' edge)
        exact ⟨some t, first, second⟩
  subtree u := by
    have old : ∀ a b (ha : u ∈ decomposition.bag a) (hb : u ∈ decomposition.bag b),
        ((attachLeaf decomposition.tree t).induce
          {x | u ∈ decomposition.extendBag v neighbors x}).Reachable ⟨some a, ha⟩ ⟨some b, hb⟩ := by
      intro a b ha hb
      let inclusion : decomposition.tree.induce {a | u ∈ decomposition.bag a}
          →g (attachLeaf decomposition.tree t).induce
            {x | u ∈ decomposition.extendBag v neighbors x} :=
        ⟨fun x => ⟨some x.1, x.2⟩, fun adjacent => attachLeaf_adj_some.mpr adjacent⟩
      exact (decomposition.subtree u ⟨a, ha⟩ ⟨b, hb⟩).map inclusion
    have leaf : ∀ b (hleaf : u ∈ insert v neighbors) (hb : u ∈ decomposition.bag b),
        ((attachLeaf decomposition.tree t).induce
          {x | u ∈ decomposition.extendBag v neighbors x}).Reachable ⟨none, hleaf⟩ ⟨some b, hb⟩ := by
      intro b hleaf hb
      have other : u ≠ v := fun same => fresh (same ▸ decomposition.bag_subset b hb)
      have member : u ∈ decomposition.bag t :=
        within ((Finset.mem_insert.mp hleaf).resolve_left other)
      have step : ((attachLeaf decomposition.tree t).induce
          {x | u ∈ decomposition.extendBag v neighbors x}).Adj ⟨none, hleaf⟩ ⟨some t, member⟩ :=
        attachLeaf_adj_none
      exact step.reachable.trans (old t b member hb)
    rintro ⟨x, hx⟩ ⟨y, hy⟩
    cases x with
    | none =>
        cases y with
        | none => exact .refl _
        | some b => exact leaf b hx hy
    | some a =>
        cases y with
        | none => exact (leaf a hy hx).symm
        | some b => exact old a b hx hy

/-- The leaf's bag covers the cliques through the vertex, and the old bags the others. -/
theorem CoversCliques.extend {decomposition : TreeDecomposition vertices adjacent width}
    (covers : decomposition.CoversCliques) {before : V → V → Prop} (fresh : v ∉ vertices)
    (inside : neighbors ⊆ vertices) (at_most : neighbors.card ≤ width)
    (at_vertex : ∀ u ∈ vertices, before v u ∨ before u v → u ∈ neighbors)
    (kept : ∀ u ∈ vertices, ∀ w ∈ vertices, before u w → adjacent u w)
    (t : decomposition.Node) (within : neighbors ⊆ decomposition.bag t)
    : (decomposition.extend fresh inside at_most at_vertex kept t within).CoversCliques where
  covered clique subset pairwise := by
    by_cases through : v ∈ clique
    · refine ⟨none, fun u member => ?_⟩
      rcases Finset.mem_insert.mp (subset member) with rfl | old
      · exact Finset.mem_insert_self _ _
      · have other : v ≠ u := fun same => fresh (same ▸ old)
        exact Finset.mem_insert_of_mem
          (at_vertex u old (.inl (pairwise v through u member other)))
    · have old : clique ⊆ vertices := fun u member =>
        (Finset.mem_insert.mp (subset member)).resolve_left fun same => through (same ▸ member)
      obtain ⟨t, covered⟩ := covers.covered clique old fun u hu w hw different =>
        kept u (old hu) w (old hw) (pairwise u hu w hw different)
      exact ⟨some t, covered⟩

end Extend

end TreeDecomposition

end Xlog.Foundation
