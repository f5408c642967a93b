import Mathlib.Data.Finset.Union
import Xlog.Core.Error

/-! The circuit format: an arena of gates with bottom-up levels, and its evaluation over a
commutative semiring through the level table.
-/

namespace Xlog.Prob

/-- A gate. The per-node arrays of the format are one list of gates here, so their lengths
agree; the slice of the child table that belongs to a gate is the gate's own list.
-/
inductive XgcfNode where
  | const0
  | const1
  | lit (literal : Int)
  | and (children : List Nat)
  | or (children : List Nat)
  | decision (var childFalse childTrue : Nat)
  deriving DecidableEq, Repr

structure Xgcf where
  nodes : List XgcfNode
  roots : List Nat
  levels : List (List Nat)
  deriving DecidableEq, Repr

namespace XgcfNode

/-- The gates a gate reads. -/
def children : XgcfNode → List Nat
  | .const0 | .const1 | .lit _ => []
  | .and children | .or children => children
  | .decision _ childFalse childTrue => [childFalse, childTrue]

/-- The value of a gate over a semiring, from its children's values and the weights. -/
def value {K : Type*} [CommSemiring K] (wt wf : Nat → K) (values : Nat → K) : XgcfNode → K
  | .const0 => 0
  | .const1 => 1
  | .lit literal => if 0 < literal then wt literal.natAbs else wf literal.natAbs
  | .and children => (children.map values).prod
  | .or children => (children.map values).sum
  | .decision var childFalse childTrue =>
      wf var * values childFalse + wt var * values childTrue

/-- The truth of a gate in a world, from its children's. -/
def truth (world : Nat → Bool) (truths : Nat → Bool) : XgcfNode → Bool
  | .const0 => false
  | .const1 => true
  | .lit literal => if 0 < literal then world literal.natAbs else !world literal.natAbs
  | .and children => children.all truths
  | .or children => children.any truths
  | .decision var childFalse childTrue =>
      if world var then truths childTrue else truths childFalse

/-- The variables of a gate and of its children. -/
def vars (below : Nat → Finset Nat) : XgcfNode → Finset Nat
  | .const0 | .const1 => ∅
  | .lit literal => {literal.natAbs}
  | .and children | .or children => children.toFinset.biUnion below
  | .decision var childFalse childTrue => insert var (below childFalse ∪ below childTrue)

end XgcfNode

namespace Xgcf

variable {α : Type*} (g : Xgcf)

/-- The gates in the order of their levels. -/
def order : List Nat := g.levels.flatten

def node (idx : Nat) : XgcfNode := g.nodes.getD idx .const0

/-- A table filled gate by gate in the order of the levels. -/
def table (step : (Nat → α) → XgcfNode → α) (start : α) : Nat → α :=
  g.order.foldl (fun filled idx => Function.update filled idx (step filled (g.node idx)))
    fun _ => start

/-- The values of all gates, over a commutative semiring in place of log space. -/
def values {K : Type*} [CommSemiring K] (wt wf : Nat → K) : Nat → K :=
  g.table (XgcfNode.value wt wf) 1

def truths (world : Nat → Bool) : Nat → Bool := g.table (XgcfNode.truth world) false

/-- The variables at and below every gate. -/
def varsBelow : Nat → Finset Nat := g.table XgcfNode.vars ∅

/-- The level table lists every gate once and after its children, the roots are in it, and
literals and decisions have a variable.
-/
structure WellFormed : Prop where
  distinct : g.order.Nodup
  inside : ∀ idx ∈ g.order, idx < g.nodes.length
  ordered : ∀ before idx after, g.order = before ++ idx :: after →
    ∀ child ∈ (g.node idx).children, child ∈ before
  roots : ∀ root ∈ g.roots, root ∈ g.order
  lit_ne_zero : ∀ literal, .lit literal ∈ g.nodes → literal ≠ 0
  var_ne_zero : ∀ var childFalse childTrue, .decision var childFalse childTrue ∈ g.nodes →
    var ≠ 0

end Xgcf

-- Tables

section

variable {α : Type*}

/-- Every gate of the order comes after its children. -/
def Ordered (node : Nat → XgcfNode) (order : List Nat) : Prop :=
  ∀ before idx after, order = before ++ idx :: after →
    ∀ child ∈ (node idx).children, child ∈ before

/-- The table satisfies the equation of every gate of the order. -/
def Solves (step : (Nat → α) → XgcfNode → α) (node : Nat → XgcfNode) (order : List Nat)
    (table : Nat → α) : Prop :=
  ∀ idx ∈ order, table idx = step table (node idx)

/-- A step reads the children of its gate only. -/
def Local (step : (Nat → α) → XgcfNode → α) : Prop :=
  ∀ node (f h : Nat → α), (∀ child ∈ node.children, f child = h child) → step f node = step h node

theorem Ordered.children_mem {node : Nat → XgcfNode} {order : List Nat}
    (h : Ordered node order) {idx : Nat} (hi : idx ∈ order) {child : Nat}
    (hc : child ∈ (node idx).children)
    : child ∈ order := by
  obtain ⟨before, after, rfl⟩ := List.append_of_mem hi
  exact List.mem_append_left _ (h before idx after rfl child hc)

/-- Induction over an order: a gate may use what its children have, by induction on the
listed prefix.
-/
theorem Ordered.induction {node : Nat → XgcfNode} {order : List Nat} (h : Ordered node order)
    {motive : Nat → Prop}
    (step : ∀ idx ∈ order, (∀ child ∈ (node idx).children, motive child) → motive idx)
    : ∀ idx ∈ order, motive idx := by
  suffices hleading : ∀ before after, order = before ++ after → ∀ idx ∈ before, motive idx from
    hleading order [] (by simp)
  intro before
  induction before using List.reverseRecOn with
  | nil => simp
  | append_singleton before last ih =>
      intro after heq idx hi
      have hrest : order = before ++ last :: after := by simpa using heq
      have hbefore := ih (last :: after) hrest
      rcases List.mem_append.mp hi with hi | hi
      · exact hbefore idx hi
      · obtain rfl := List.mem_singleton.mp hi
        refine step idx (by simp [hrest]) ?_
        intro child hc
        exact hbefore child (h before idx after hrest child hc)

/-- Filling a table in order solves the equations of the order, by induction on the prefix
filled so far.
-/
theorem solves_foldl {step : (Nat → α) → XgcfNode → α} (hlocal : Local step)
    {node : Nat → XgcfNode} {order : List Nat} (h : Ordered node order) (start : Nat → α)
    : Solves step node order (order.foldl
        (fun filled idx => Function.update filled idx (step filled (node idx))) start) := by
  suffices hleading : ∀ before after, order = before ++ after →
      Solves step node before (before.foldl
        (fun filled idx => Function.update filled idx (step filled (node idx))) start) from
    hleading order [] (by simp)
  intro before
  induction before using List.reverseRecOn with
  | nil => simp [Solves]
  | append_singleton before last ih =>
      intro after heq
      have hrest : order = before ++ last :: after := by simpa using heq
      have hbefore := ih (last :: after) hrest
      rw [List.foldl_append, List.foldl_cons, List.foldl_nil]
      set filled := before.foldl
        (fun filled idx => Function.update filled idx (step filled (node idx))) start
      by_cases hold : last ∈ before
      · -- a gate listed twice keeps its value
        rw [← hbefore last hold, Function.update_eq_self]
        intro idx hi
        rcases List.mem_append.mp hi with hi | hi
        · exact hbefore idx hi
        · obtain rfl := List.mem_singleton.mp hi
          exact hbefore idx hold
      · have hsame (idx : Nat) (hi : idx ∈ before)
            : Function.update filled last (step filled (node last)) idx = filled idx :=
          Function.update_of_ne (ne_of_mem_of_not_mem hi hold) _ _
        intro idx hi
        rcases List.mem_append.mp hi with hi | hi
        · rw [hsame idx hi, hbefore idx hi]
          apply hlocal
          intro child hc
          obtain ⟨pre, post, rfl⟩ := List.append_of_mem hi
          have hm := h pre idx (post ++ last :: after) (by simp [hrest]) child hc
          exact (hsame child (List.mem_append_left _ hm)).symm
        · obtain rfl := List.mem_singleton.mp hi
          rw [Function.update_self]
          apply hlocal
          intro child hc
          exact (hsame child (h before idx after hrest child hc)).symm

/-- Two solutions of the equations of an order agree on it. -/
theorem Solves.unique {step : (Nat → α) → XgcfNode → α} (hlocal : Local step)
    {node : Nat → XgcfNode} {order : List Nat} (h : Ordered node order) {f g : Nat → α}
    (hf : Solves step node order f) (hg : Solves step node order g)
    : ∀ idx ∈ order, f idx = g idx := by
  refine h.induction (motive := fun idx => f idx = g idx) ?_
  intro idx hi hchildren
  rw [hf idx hi, hg idx hi]
  exact hlocal (node idx) f g hchildren

end

theorem local_value {K : Type*} [CommSemiring K] (wt wf : Nat → K)
    : Local (XgcfNode.value wt wf) := by
  intro node f h agree
  cases node with
  | const0 | const1 | lit _ => rfl
  | and children | or children =>
      have hmap : children.map f = children.map h := List.map_congr_left agree
      simp only [XgcfNode.value, hmap]
  | decision var childFalse childTrue =>
      simp only [XgcfNode.value, agree childFalse (by simp [XgcfNode.children]),
        agree childTrue (by simp [XgcfNode.children])]

theorem local_truth (world : Nat → Bool) : Local (XgcfNode.truth world) := by
  intro node f h agree
  cases node with
  | const0 | const1 | lit _ => rfl
  | and children =>
      simp only [XgcfNode.truth]
      rw [Bool.eq_iff_iff, List.all_eq_true, List.all_eq_true]
      exact forall₂_congr fun child hc => by rw [agree child hc]
  | or children =>
      simp only [XgcfNode.truth]
      rw [Bool.eq_iff_iff, List.any_eq_true, List.any_eq_true]
      apply exists_congr
      intro child
      exact and_congr_right fun hc => by rw [agree child hc]
  | decision var childFalse childTrue =>
      simp only [XgcfNode.truth, agree childFalse (by simp [XgcfNode.children]),
        agree childTrue (by simp [XgcfNode.children])]

theorem local_vars : Local XgcfNode.vars := by
  intro node f h agree
  cases node with
  | const0 | const1 | lit _ => rfl
  | and children | or children =>
      simp only [XgcfNode.vars]
      apply Finset.biUnion_congr rfl
      intro child hc
      exact agree child (List.mem_toFinset.mp hc)
  | decision var childFalse childTrue =>
      simp only [XgcfNode.vars, agree childFalse (by simp [XgcfNode.children]),
        agree childTrue (by simp [XgcfNode.children])]

end Xlog.Prob
