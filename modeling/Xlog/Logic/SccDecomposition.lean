import Xlog.Logic.StratifyCorrectness

/-! The components of a dependency graph: a partition of its predicates by mutual reachability, listed
dependencies first, that depends on the graph alone.
-/

namespace Xlog.Logic

open Xlog.Foundation

namespace DependencyGraph

/-- The graphs that the constructors build. -/
inductive Built : DependencyGraph → Prop where
  | new : Built new
  | addPredicate {g : DependencyGraph} (built : Built g) (name : String)
      : Built (g.addPredicate name)
  | addEdge {g : DependencyGraph} (built : Built g) (edge : DepEdge) : Built (g.addEdge edge)

theorem Built.ok {g : DependencyGraph} (built : g.Built) : g.Ok := by
  induction built with
  | new => exact .new
  | addPredicate _ name ih => exact ih.addPredicate name
  | addEdge _ edge ih => exact ih.addEdge edge

/-- Some edge leads from one predicate to another. -/
def Edge (g : DependencyGraph) (p q : String) : Prop :=
  ∃ edge ∈ g.edges, edge.source = p ∧ edge.target = q

def Reaches (g : DependencyGraph) : String → String → Prop :=
  Relation.ReflTransGen g.Edge

theorem Ok.reaches_iff {g : DependencyGraph} (h : g.Ok) {p q : String}
    : Tarjan.Reach (successors g) p q ↔ g.Reaches p q := by
  have same : (fun x y => y ∈ successors g x) = g.Edge := by
    ext x y
    exact h.mem_successors
  rw [Tarjan.Reach, same, Reaches]

end DependencyGraph

/-- A partition of the predicates into strongly connected components, dependencies first. -/
structure SccDecomposition (g : DependencyGraph) (sccs : List (List String)) : Prop where
  partition : sccs.flatten.Perm g.predicates
  distinct : sccs.flatten.Nodup
  nonempty : ∀ scc ∈ sccs, scc ≠ []
  share_iff : ∀ p ∈ g.predicates, ∀ q,
    (∃ scc ∈ sccs, p ∈ scc ∧ q ∈ scc) ↔ g.Reaches p q ∧ g.Reaches q p
  ordered : ∀ p q, g.Edge p q → ∀ (i j : Nat) (source target : List String),
    sccs[i]? = some source → p ∈ source → sccs[j]? = some target → q ∈ target → i ≠ j → j < i

theorem DependencyGraph.Ok.sccDecomposition {g : DependencyGraph} (h : g.Ok)
    : SccDecomposition g (findSccs g) := by
  obtain ⟨components, cover⟩ := findSccs_spec h
  refine {
    partition := (List.perm_ext_iff_of_nodup components.nodup h.distinct).mpr cover
    distinct := components.nodup
    nonempty := ?_
    share_iff := ?_
    ordered := ?_ }
  · intro scc member
    obtain ⟨root, inside, _⟩ := components.isComponent member
    exact List.ne_nil_of_mem inside
  · intro p member q
    rw [components.share_iff ((cover p).mpr member), h.reaches_iff, h.reaches_iff]
  · intro p q edge i j source target hi hp hj hq ne
    exact components.edge_earlier hi hj hp hq (h.mem_successors.mpr edge) ne

/-- The search starts in sorted order, so it sees no difference between two listings of one predicate
set.
-/
theorem findSccs_congr {g other : DependencyGraph}
    (same : other.predicates.Perm g.predicates)
    (outgoing : ∀ p, other.outgoing p = g.outgoing p)
    : findSccs other = findSccs g := by
  have sorted : other.predicates.insertionSort (· ≤ ·) = g.predicates.insertionSort (· ≤ ·) := by
    refine List.Perm.eq_of_pairwise' (List.pairwise_insertionSort (· ≤ ·) _)
      (List.pairwise_insertionSort (· ≤ ·) _) ?_
    exact (List.perm_insertionSort _ _).trans (same.trans (List.perm_insertionSort _ _).symm)
  simp only [findSccs, sorted, outgoing]

/-- The components of every graph that can be built partition its predicates by mutual reachability,
dependencies first, and any listing of the same predicates with the same edges gives the same list.
-/
theorem findSccs_correct (g : DependencyGraph) (built : g.Built)
    : SccDecomposition g (findSccs g)
      ∧ ∀ other : DependencyGraph, other.predicates.Nodup →
          (∀ p, p ∈ other.predicates ↔ p ∈ g.predicates) →
          (∀ p, other.outgoing p = g.outgoing p) → findSccs other = findSccs g := by
  refine ⟨built.ok.sccDecomposition, fun other distinct same outgoing => ?_⟩
  exact findSccs_congr ((List.perm_ext_iff_of_nodup distinct built.ok.distinct).mpr same) outgoing

/-- `p` and `q` depend on each other, `q` also on `r`. -/
def cyclicGraph : DependencyGraph :=
  (((DependencyGraph.new.addEdge ⟨"p", "q", .positive⟩).addEdge ⟨"q", "p", .positive⟩).addEdge
    ⟨"q", "r", .negative⟩)

theorem findSccs_correct_cyclicGraph
    : SccDecomposition cyclicGraph (findSccs cyclicGraph)
      ∧ ∀ other : DependencyGraph, other.predicates.Nodup →
          (∀ p, p ∈ other.predicates ↔ p ∈ cyclicGraph.predicates) →
          (∀ p, other.outgoing p = cyclicGraph.outgoing p) →
          findSccs other = findSccs cyclicGraph :=
  findSccs_correct cyclicGraph (((DependencyGraph.Built.new.addEdge _).addEdge _).addEdge _)

example : findSccs cyclicGraph = [["r"], ["q", "p"]] := by decide

end Xlog.Logic
