import Xlog.Cuda.ConstraintGraphWidth
import Xlog.Foundation.Loop

/-! The decomposition of a constraint graph: the connected components of the graph, in a form that does
not depend on how its edges are listed.
-/

namespace Xlog.Cuda.ConstraintGraph

open Xlog.Foundation

-- Sorted edges

theorem mem_sorted {edges : List (Nat × Nat)} {edge : Nat ×ₗ Nat}
    : edge ∈ ((edges.map toLex).insertionSort (· ≤ ·)).dedup ↔ ofLex edge ∈ edges := by
  rw [List.mem_dedup, List.mem_insertionSort, List.mem_map]
  constructor
  · rintro ⟨_, member, rfl⟩
    exact member
  · intro member
    exact ⟨_, member, rfl⟩

theorem mem_sortEdges {edges : List (Nat × Nat)} {edge : Nat × Nat}
    : edge ∈ sortEdges edges ↔ edge ∈ edges := by
  rw [sortEdges, List.mem_map]
  constructor
  · rintro ⟨_, member, rfl⟩
    exact mem_sorted.mp member
  · intro member
    exact ⟨toLex edge, mem_sorted.mpr member, rfl⟩

theorem sorted_dedup (edges : List (Nat × Nat))
    : ((edges.map toLex).insertionSort (· ≤ ·)).dedup.Pairwise (· < ·) := by
  have sorted : ((edges.map toLex).insertionSort (· ≤ ·)).dedup.Pairwise (· ≤ ·) :=
    (List.pairwise_insertionSort _ _).sublist (List.dedup_sublist _)
  exact sorted.imp₂ (fun _ _ le ne => lt_of_le_of_ne le ne) (List.nodup_dedup _)

theorem sortEdges_pairwise (edges : List (Nat × Nat))
    : (sortEdges edges).Pairwise (fun a b => toLex a < toLex b) :=
  List.pairwise_map.mpr (sorted_dedup edges)

/-- The sorted edges are determined by which edges there are. -/
theorem sortEdges_congr {edges others : List (Nat × Nat)}
    (same : ∀ edge, edge ∈ edges ↔ edge ∈ others)
    : sortEdges edges = sortEdges others := by
  refine congrArg (List.map ofLex)
    ((sorted_dedup edges).eq_of_mem_iff (sorted_dedup others) fun edge => ?_)
  rw [mem_sorted, mem_sorted]
  exact same (ofLex edge)

-- Placing items at roots

/-- The loop puts every item with the root of its element, by induction on the items. -/
theorem foldl_place {ι : Type} (element : ι → Nat) {parent : List Nat}
    (forest : UnionFind.Forest parent) (items : List ι) (buckets : List (List ι))
    : UnionFind.Forest (items.foldl (place element) (parent, buckets)).1
      ∧ (∀ z, UnionFind.root (items.foldl (place element) (parent, buckets)).1 z
        = UnionFind.root parent z)
      ∧ ∀ r, (items.foldl (place element) (parent, buckets)).2[r]?
        = buckets[r]?.map
          (· ++ items.filter fun item => UnionFind.root parent (element item) = r) := by
  induction items generalizing parent buckets with
  | nil => exact ⟨forest, fun _ => rfl, fun r => by simp⟩
  | cons item items ih =>
      obtain ⟨compressed, roots⟩ := forest.find (element item)
      obtain ⟨later, laterRoots, placed⟩ :=
        ih compressed (buckets.modify (UnionFind.root parent (element item)) (· ++ [item]))
      refine ⟨later, fun z => (laterRoots z).trans (roots z), fun r => ?_⟩
      refine (placed r).trans ?_
      simp only [roots, List.getElem?_modify]
      by_cases here : UnionFind.root parent (element item) = r
      · subst here
        cases buckets[UnionFind.root parent (element item)]? <;> simp
      · cases buckets[r]? <;> simp [here]

theorem getD_foldl_place {ι : Type} (element : ι → Nat) {parent : List Nat}
    (forest : UnionFind.Forest parent) (items : List ι) {n r : Nat} (within : r < n)
    : (items.foldl (place element) (parent, List.replicate n [])).2.getD r []
      = items.filter fun item => UnionFind.root parent (element item) = r := by
  rw [List.getD_eq_getElem?_getD, (foldl_place element forest items _).2.2 r]
  simp [within]

-- The graph of the edges

/-- The graph that the edges are those of. -/
def constraintGraph (edges : List (Nat × Nat)) : SimpleGraph Nat :=
  SimpleGraph.fromRel fun a b => (a, b) ∈ edges

/-- Edges between distinct variables in range. -/
def Valid (n : Nat) (edges : List (Nat × Nat)) : Prop :=
  ∀ edge ∈ edges, edge.1 < n ∧ edge.2 < n ∧ edge.1 ≠ edge.2

/-- The edges as the graph keeps them. -/
def normalized (edges : List (Nat × Nat)) : List (Nat × Nat) :=
  edges.map fun edge => (min edge.1 edge.2, max edge.1 edge.2)

theorem Valid.new {n : Nat} {edges : List (Nat × Nat)} (valid : Valid n edges)
    : Graph.new n edges = some ⟨n, normalized edges⟩ := by
  have body : ∀ edge ∈ edges,
      normalizeEdge n edge = some (min edge.1 edge.2, max edge.1 edge.2) := by
    intro edge member
    obtain ⟨first, second, distinct⟩ := valid edge member
    rw [normalizeEdge, if_pos ⟨first, second⟩, if_pos distinct]
  rw [Graph.new, mapM_some _ _ body]
  rfl

theorem Valid.mem_normalized {n : Nat} {edges : List (Nat × Nat)} (valid : Valid n edges)
    {a b : Nat}
    : (a, b) ∈ normalized edges ↔ a < b ∧ (constraintGraph edges).Adj a b := by
  simp only [normalized, constraintGraph, List.mem_map, SimpleGraph.fromRel_adj, Prod.mk.injEq]
  constructor
  · rintro ⟨⟨x, y⟩, member, rfl, rfl⟩
    have distinct : x ≠ y := (valid _ member).2.2
    rcases Nat.lt_or_gt_of_ne distinct with less | less
    · rw [min_eq_left less.le, max_eq_right less.le]
      exact ⟨less, distinct, .inl member⟩
    · rw [min_eq_right less.le, max_eq_left less.le]
      exact ⟨less, distinct.symm, .inr member⟩
  · rintro ⟨less, _, member | member⟩
    · exact ⟨_, member, min_eq_left less.le, max_eq_right less.le⟩
    · exact ⟨_, member, min_eq_right less.le, max_eq_left less.le⟩

theorem Valid.lt {n : Nat} {edges : List (Nat × Nat)} (valid : Valid n edges) {a b : Nat}
    (adjacent : (constraintGraph edges).Adj a b)
    : a < n ∧ b < n := by
  rcases (SimpleGraph.fromRel_adj _ _ _).mp adjacent with ⟨_, member | member⟩
  · exact ⟨(valid _ member).1, (valid _ member).2.1⟩
  · exact ⟨(valid _ member).2.1, (valid _ member).1⟩

/-- The classes of the normalized edges are the components of the graph. -/
theorem Valid.eqvGen_iff {n : Nat} {edges : List (Nat × Nat)} (valid : Valid n edges) {x y : Nat}
    : Relation.EqvGen (fun a b => (a, b) ∈ normalized edges) x y
      ↔ (constraintGraph edges).Reachable x y := by
  constructor
  · intro h
    induction h with
    | rel a b member => exact (valid.mem_normalized.mp member).2.reachable
    | refl a => exact .refl a
    | symm a b _ ih => exact ih.symm
    | trans a b c _ _ ih ih' => exact ih.trans ih'
  · intro h
    rw [SimpleGraph.reachable_iff_reflTransGen] at h
    induction h with
    | refl => exact .refl _
    | @tail b c _ step ih =>
        refine ih.trans _ _ _ ?_
        rcases Nat.lt_or_gt_of_ne step.ne with less | less
        · exact .rel _ _ (valid.mem_normalized.mpr ⟨less, step⟩)
        · exact .symm _ _ (.rel _ _ (valid.mem_normalized.mpr ⟨less, step.symm⟩))

-- The components

/-- The root of each variable after all unions. -/
def rootOf (n : Nat) (edges : List (Nat × Nat)) (v : Nat) : Nat :=
  UnionFind.root (UnionFind.unionAllMin (UnionFind.singletons n) (normalized edges)) v

theorem Valid.classes {n : Nat} {edges : List (Nat × Nat)} (valid : Valid n edges)
    : UnionFind.Classes (UnionFind.unionAllMin (UnionFind.singletons n) (normalized edges))
        (fun a b => (a, b) ∈ normalized edges) := by
  have none_united := UnionFind.classes_singletons n
    (r := fun _ _ => False) (fun _ _ => not_false)
  have all := none_united.unionAllMin (normalized edges) fun edge member => by
    have := valid.lt (valid.mem_normalized.mp member).2
    simpa [UnionFind.singletons] using this
  simpa using all

section Roots

variable {n : Nat} {edges : List (Nat × Nat)}

theorem Valid.rootOf_eq_iff (valid : Valid n edges) {u v : Nat}
    : rootOf n edges u = rootOf n edges v ↔ (constraintGraph edges).Reachable u v :=
  (valid.classes.root_eq_iff u v).trans valid.eqvGen_iff

theorem Valid.rootOf_le (valid : Valid n edges) (v : Nat) : rootOf n edges v ≤ v :=
  valid.classes.root_le v

theorem Valid.rootOf_rootOf (valid : Valid n edges) (v : Nat)
    : rootOf n edges (rootOf n edges v) = rootOf n edges v :=
  valid.classes.forest.root_root v

/-- The roots depend on the graph only. -/
theorem Valid.rootOf_congr (valid : Valid n edges) {others : List (Nat × Nat)}
    (valid' : Valid n others)
    (same : ∀ a b, (constraintGraph others).Adj a b ↔ (constraintGraph edges).Adj a b) (v : Nat)
    : rootOf n others v = rootOf n edges v := by
  have relation : (fun a b => (a, b) ∈ normalized others) = fun a b => (a, b) ∈ normalized edges := by
    ext a b
    rw [valid'.mem_normalized, valid.mem_normalized, same]
  exact (relation ▸ valid'.classes).root_unique valid.classes v

/-- The component of a root. -/
def componentVars (n : Nat) (edges : List (Nat × Nat)) (root : Nat) : List Nat :=
  (List.range n).filter (rootOf n edges · = root)

def componentEdges (n : Nat) (edges : List (Nat × Nat)) (root : Nat) : List (Nat × Nat) :=
  sortEdges ((normalized edges).filter (rootOf n edges ·.1 = root))

def component (n : Nat) (edges : List (Nat × Nat)) (root : Nat) : Component :=
  ⟨componentVars n edges root, componentEdges n edges root,
    (eliminationWidthBound (componentVars n edges root) (componentEdges n edges root)).getD 0⟩

theorem mem_componentVars {root v : Nat}
    : v ∈ componentVars n edges root ↔ v < n ∧ rootOf n edges v = root := by
  simp [componentVars]

theorem Valid.mem_componentEdges (valid : Valid n edges) {root a b : Nat}
    : (a, b) ∈ componentEdges n edges root
      ↔ a < b ∧ a ∈ componentVars n edges root ∧ (constraintGraph edges).Adj a b := by
  rw [componentEdges, mem_sortEdges, List.mem_filter, valid.mem_normalized, mem_componentVars]
  simp only [decide_eq_true_eq]
  constructor
  · rintro ⟨⟨less, adjacent⟩, here⟩
    exact ⟨less, ⟨(valid.lt adjacent).1, here⟩, adjacent⟩
  · rintro ⟨less, ⟨_, here⟩, adjacent⟩
    exact ⟨⟨less, adjacent⟩, here⟩

/-- Both ends of an edge lie in its component. -/
theorem Valid.adj_componentVars (valid : Valid n edges) {root a b : Nat}
    (adjacent : (constraintGraph edges).Adj a b) (here : a ∈ componentVars n edges root)
    : b ∈ componentVars n edges root := by
  rw [mem_componentVars] at here ⊢
  refine ⟨(valid.lt adjacent).2, ?_⟩
  rw [← here.2]
  exact (valid.rootOf_eq_iff.mpr adjacent.reachable).symm

/-- The bound of a component is found, and a tree decomposition has its width. -/
theorem Valid.component_width (valid : Valid n edges) (root : Nat)
    : eliminationWidthBound (componentVars n edges root) (componentEdges n edges root)
        = some (component n edges root).widthBound
      ∧ Nonempty (TreeDecomposition (componentVars n edges root).toFinset
          (constraintGraph edges).Adj (component n edges root).widthBound) := by
  have inside : ∀ edge ∈ componentEdges n edges root,
      edge.1 ∈ componentVars n edges root
      ∧ edge.2 ∈ componentVars n edges root
      ∧ edge.1 ≠ edge.2 := by
    rintro ⟨a, b⟩ member
    obtain ⟨less, here, adjacent⟩ := valid.mem_componentEdges.mp member
    exact ⟨here, valid.adj_componentVars adjacent here, less.ne⟩
  obtain ⟨width, found, ⟨decomposition⟩⟩ := eliminationWidthBound_some inside
  have bound : (component n edges root).widthBound = width := by simp [component, found]
  refine ⟨found.trans (congrArg some bound.symm), ?_⟩
  rw [bound]
  -- Within a component, the edges are those of the graph.
  refine ⟨{ decomposition with edge_covered := fun u hu w hw adjacent => ?_ }⟩
  refine decomposition.edge_covered u hu w hw ?_
  rcases Nat.lt_or_gt_of_ne adjacent.ne with less | less
  · exact .inl (valid.mem_componentEdges.mpr ⟨less, List.mem_toFinset.mp hu, adjacent⟩)
  · exact .inr (valid.mem_componentEdges.mpr ⟨less, List.mem_toFinset.mp hw, adjacent.symm⟩)

/-- The decomposition lists the components of the roots. -/
theorem Valid.decompose (valid : Valid n edges)
    : (⟨n, normalized edges⟩ : Graph).decompose
      = some (((List.range n).filter fun root => rootOf n edges root = root).map
          (component n edges)) := by
  have forest := valid.classes.forest
  obtain ⟨memberForest, memberRoots, _⟩ :=
    foldl_place id forest (List.range n) (List.replicate n [])
  have members : ∀ root < n,
      ((List.range n).foldl (place id)
        (UnionFind.unionAllMin (UnionFind.singletons n) (normalized edges),
          List.replicate n [])).2.getD root [] = componentVars n edges root :=
    fun root within => getD_foldl_place id forest _ within
  unfold Graph.decompose
  dsimp only
  have kept : ∀ root ∈ List.range n,
      (!(((List.range n).foldl (place id)
        (UnionFind.unionAllMin (UnionFind.singletons n) (normalized edges),
          List.replicate n [])).2.getD root []).isEmpty) = decide (rootOf n edges root = root) := by
    intro root member
    have within := List.mem_range.mp member
    rw [members root within, Bool.eq_iff_iff, Bool.not_eq_true', List.isEmpty_eq_false_iff,
      decide_eq_true_eq]
    constructor
    · intro nonempty
      obtain ⟨v, here⟩ := List.exists_mem_of_ne_nil _ nonempty
      obtain ⟨_, rfl⟩ := mem_componentVars.mp here
      exact valid.rootOf_rootOf v
    · intro fixed
      exact List.ne_nil_of_mem (mem_componentVars.mpr ⟨within, fixed⟩)
  rw [List.filter_congr kept]
  refine mapM_some _ _ fun root member => ?_
  have within : root < n := List.mem_range.mp (List.mem_of_mem_filter member)
  have placed := (getD_foldl_place Prod.fst memberForest (normalized edges) within).trans
    (List.filter_congr (q := (rootOf n edges ·.1 = root)) fun edge _ => by rw [memberRoots]; rfl)
  rw [members root within, placed]
  have width := (valid.component_width root).1
  rw [componentEdges] at width
  rw [width]
  rfl

end Roots

-- Exact decompositions

/-- The connected components of the graph of the edges, in their canonical form and with safe bounds. -/
structure Decomposition (n : Nat) (edges : List (Nat × Nat)) (components : List Component)
    : Prop where
  covered : ∀ v < n, ∃! component, component ∈ components ∧ v ∈ component.vars
  connected : ∀ component ∈ components, ∀ u ∈ component.vars, ∀ v,
    v ∈ component.vars ↔ (constraintGraph edges).Reachable u v
  vars_lt : ∀ component ∈ components, ∀ v ∈ component.vars, v < n
  vars_ascending : ∀ component ∈ components, component.vars.Pairwise (· < ·)
  ordered : components.Pairwise fun before after =>
    ∃ first ∈ before.vars, ∀ v ∈ after.vars, first < v
  mem_edges : ∀ component ∈ components, ∀ a b,
    (a, b) ∈ component.edges
    ↔ a < b ∧ a ∈ component.vars ∧ (constraintGraph edges).Adj a b
  edges_sorted : ∀ component ∈ components,
    component.edges.Pairwise fun a b => toLex a < toLex b
  width_safe : ∀ component ∈ components,
    Nonempty (TreeDecomposition component.vars.toFinset (constraintGraph edges).Adj
      component.widthBound)

theorem Valid.decomposition {n : Nat} {edges : List (Nat × Nat)} (valid : Valid n edges)
    : Decomposition n edges
        (((List.range n).filter fun root => rootOf n edges root = root).map
          (component n edges)) where
  covered v within := by
    refine ⟨component n edges (rootOf n edges v), ⟨?_, mem_componentVars.mpr ⟨within, rfl⟩⟩, ?_⟩
    · refine List.mem_map_of_mem (List.mem_filter.mpr ⟨List.mem_range.mpr ?_, ?_⟩)
      · exact (valid.rootOf_le v).trans_lt within
      · simpa using valid.rootOf_rootOf v
    · rintro other ⟨member, here⟩
      obtain ⟨root, _, rfl⟩ := List.mem_map.mp member
      rw [(mem_componentVars.mp here).2]
  connected := by
    intro other member u hu v
    obtain ⟨root, _, rfl⟩ := List.mem_map.mp member
    obtain ⟨within, rfl⟩ := mem_componentVars.mp hu
    rw [← valid.rootOf_eq_iff]
    refine mem_componentVars.trans ⟨fun here => here.2.symm, fun same => ⟨?_, same.symm⟩⟩
    -- A variable out of range has no edges, so nothing else reaches it.
    by_contra beyond
    have reachable := valid.rootOf_eq_iff.mp same
    obtain ⟨w, adjacent⟩ := reachable.symm.nonempty_neighborSet_left (by omega)
    exact beyond (valid.lt adjacent).1
  vars_lt := by
    intro other member v here
    obtain ⟨root, _, rfl⟩ := List.mem_map.mp member
    exact (mem_componentVars.mp here).1
  vars_ascending := by
    intro other member
    obtain ⟨root, _, rfl⟩ := List.mem_map.mp member
    exact List.pairwise_lt_range.filter _
  ordered := by
    refine List.pairwise_map.mpr ((List.pairwise_lt_range.filter _).imp_of_mem ?_)
    intro root other member _ less
    obtain ⟨within, fixed⟩ := List.mem_filter.mp member
    refine ⟨root, mem_componentVars.mpr ⟨List.mem_range.mp within, by simpa using fixed⟩, ?_⟩
    intro v here
    have := valid.rootOf_le v
    rw [(mem_componentVars.mp here).2] at this
    omega
  mem_edges := by
    intro other member a b
    obtain ⟨root, _, rfl⟩ := List.mem_map.mp member
    exact valid.mem_componentEdges
  edges_sorted := by
    intro other member
    obtain ⟨root, _, rfl⟩ := List.mem_map.mp member
    exact sortEdges_pairwise _
  width_safe := by
    intro other member
    obtain ⟨root, _, rfl⟩ := List.mem_map.mp member
    exact (valid.component_width root).2

/-- Lists of edges of the same graph have the same components. -/
theorem Valid.component_congr {n : Nat} {edges others : List (Nat × Nat)}
    (valid : Valid n edges) (valid' : Valid n others)
    (same : ∀ a b, (constraintGraph others).Adj a b ↔ (constraintGraph edges).Adj a b)
    : component n others = component n edges := by
  have roots := valid.rootOf_congr valid' same
  funext root
  have vars : componentVars n others root = componentVars n edges root := by
    simp only [componentVars, roots]
  have kept : componentEdges n others root = componentEdges n edges root := by
    refine sortEdges_congr fun edge => ?_
    obtain ⟨a, b⟩ := edge
    rw [List.mem_filter, List.mem_filter, valid.mem_normalized, valid'.mem_normalized, same, roots]
  rw [component, component, vars, kept]

/-- Every list of edges between distinct variables is decomposed exactly, however its edges are ordered
and turned, and the exact strategy is chosen only where a tree decomposition has the pinned width.
-/
theorem decompose_exact {n : Nat} {edges : List (Nat × Nat)} (valid : Valid n edges)
    : ∃ components,
        (Graph.new n edges >>= Graph.decompose) = some components
        ∧ Decomposition n edges components
        ∧ (∀ others, Valid n others
          → (∀ a b, (constraintGraph others).Adj a b ↔ (constraintGraph edges).Adj a b)
          → (Graph.new n others >>= Graph.decompose) = some components)
        ∧ ∀ component ∈ components, ∀ pinnedWidth,
          component.strategy pinnedWidth = .exactDp
          → Nonempty (TreeDecomposition component.vars.toFinset (constraintGraph edges).Adj
              pinnedWidth) := by
  have decomposed {edges : List (Nat × Nat)} (valid : Valid n edges) :=
    (congrArg (· >>= Graph.decompose) valid.new).trans valid.decompose
  refine ⟨_, decomposed valid, valid.decomposition, ?_, ?_⟩
  · intro others valid' same
    rw [decomposed valid', valid.component_congr valid' same]
    have roots := valid.rootOf_congr valid' same
    simp only [roots]
  · intro component member pinnedWidth chosen
    have narrow : component.widthBound ≤ pinnedWidth := by
      by_contra wide
      simp [Component.strategy, wide] at chosen
    obtain ⟨decomposition⟩ := valid.decomposition.width_safe component member
    exact ⟨decomposition.widen narrow⟩

/-- A path of three variables beside an isolated one. -/
theorem decompose_exact_path
    : ∃ components,
        (Graph.new 4 [(2, 1), (0, 1)] >>= Graph.decompose) = some components
        ∧ Decomposition 4 [(2, 1), (0, 1)] components := by
  have valid : Valid 4 [(2, 1), (0, 1)] := by
    unfold Valid
    decide
  obtain ⟨components, found, exact_, _⟩ := decompose_exact valid
  exact ⟨components, found, exact_⟩

end Xlog.Cuda.ConstraintGraph
