import Xlog.Foundation.Assoc
import Xlog.Prob.PirGrowth

/-! The provenance graph under construction: equal nodes are shared, nested conjunctions and
disjunctions are flattened and absorbed children are dropped. No operation changes the meaning
of an existing node.
-/

namespace Xlog.Prob

open Xlog.Foundation

/-- The graph, the nodes found by their contents, and the children of shared connectives. -/
structure PirBuilder where
  pir : PirGraph
  intern : List (PirNode × PirNodeId)
  constTrue : PirNodeId
  constFalse : PirNodeId
  orChildren : List (PirNodeId × List PirNodeId)
  andChildren : List (PirNodeId × List PirNodeId)

namespace PirBuilder

def new : PirBuilder :=
  let (constTrue, pir) := PirGraph.empty.constTrue
  let (constFalse, pir) := pir.constFalse
  { pir := pir
    intern := [(.const true, constTrue), (.const false, constFalse)]
    constTrue := constTrue
    constFalse := constFalse
    orChildren := []
    andChildren := [] }

/-- The node with these contents, pushed when there is none. -/
def getOrPush (b : PirBuilder) (node : PirNode) : PirNodeId × PirBuilder :=
  match b.intern.lookup node with
  | some id => (id, b)
  | none =>
      let (id, pir) := b.pir.pushNode node
      (id, { b with pir := pir, intern := (node, id) :: b.intern })

def lit (b : PirBuilder) (leaf : LeafId) : PirNodeId × PirBuilder := b.getOrPush (.lit leaf)

def negLit (b : PirBuilder) (leaf : LeafId) : PirNodeId × PirBuilder :=
  b.getOrPush (.negLit leaf)

def decision (b : PirBuilder) (var : ChoiceVarId) (childFalse childTrue : PirNodeId)
    : PirNodeId × PirBuilder :=
  if childFalse = childTrue then (childTrue, b)
  else b.getOrPush (.decision var childFalse childTrue)

def choiceLit (b : PirBuilder) (var : ChoiceVarId) (isTrue : Bool) : PirNodeId × PirBuilder :=
  if isTrue then b.decision var b.constFalse b.constTrue
  else b.decision var b.constTrue b.constFalse

-- Connectives

/-- Children that are connectives of the same kind are replaced by theirs. -/
def flatten (same : List (PirNodeId × List PirNodeId)) (children : List PirNodeId)
    : List PirNodeId :=
  children.flatMap fun c => (same.lookup c).getD [c]

/-- Children of the dual kind that contain another child are dropped. -/
def absorb (dual : List (PirNodeId × List PirNodeId)) (children : List PirNodeId)
    : List PirNodeId :=
  children.filter fun c =>
    match dual.lookup c with
    | some sub => !sub.any fun s => s ≠ c ∧ s ∈ children
    | none => true

/-- The node that a connective of the children amounts to, or the children that are left. -/
def normalize (same dual : List (PirNodeId × List PirNodeId)) (neutral absorbing : PirNodeId)
    (children : List PirNodeId) : PirNodeId ⊕ List PirNodeId :=
  let flat := (flatten same children).filter (· ≠ neutral)
  if absorbing ∈ flat then .inl absorbing
  else
    match flat with
    | [] => .inl neutral
    | [only] => .inl only
    | flat =>
        let sorted := (flat.insertionSort (· ≤ ·)).dedup
        match if 1 < sorted.length then absorb dual sorted else sorted with
        | [only] => .inl only
        | kept => .inr kept

def and (b : PirBuilder) (children : List PirNodeId) : PirNodeId × PirBuilder :=
  match normalize b.andChildren b.orChildren b.constTrue b.constFalse children with
  | .inl id => (id, b)
  | .inr kept =>
      match b.intern.lookup (.and kept) with
      | some id => (id, b)
      | none =>
          let (id, pir) := b.pir.and kept
          (id, { b with
            pir := pir
            intern := (.and kept, id) :: b.intern
            andChildren := (id, kept) :: b.andChildren })

def or (b : PirBuilder) (children : List PirNodeId) : PirNodeId × PirBuilder :=
  match normalize b.orChildren b.andChildren b.constFalse b.constTrue children with
  | .inl id => (id, b)
  | .inr kept =>
      match b.intern.lookup (.or kept) with
      | some id => (id, b)
      | none =>
          let (id, pir) := b.pir.or kept
          (id, { b with
            pir := pir
            intern := (.or kept, id) :: b.intern
            orChildren := (id, kept) :: b.orChildren })

-- Negation

/-- Negate a list of nodes from the left. -/
def negateAll (negate : PirBuilder → PirNodeId → PirNodeId × PirBuilder)
    : PirBuilder → List PirNodeId → List PirNodeId × PirBuilder
  | b, [] => ([], b)
  | b, child :: children =>
      let (neg, b) := negate b child
      let (negs, b) := negateAll negate b children
      (neg :: negs, b)

/-- Push a negation to the leaves; the fuel bounds the depth of the recursion. -/
def negateFuel : Nat → PirBuilder → PirNodeId → PirNodeId × PirBuilder
  | 0, b, prov => (prov, b)
  | fuel + 1, b, prov =>
      match b.pir.node prov with
      | some (.const value) => (if value then b.constFalse else b.constTrue, b)
      | some (.lit leaf) => b.negLit leaf
      | some (.negLit leaf) => b.lit leaf
      | some (.and children) =>
          let (negs, b) := negateAll (negateFuel fuel) b children
          b.or negs
      | some (.or children) =>
          let (negs, b) := negateAll (negateFuel fuel) b children
          b.and negs
      | some (.decision var childFalse childTrue) =>
          let (negFalse, b) := negateFuel fuel b childFalse
          let (negTrue, b) := negateFuel fuel b childTrue
          b.decision var negFalse negTrue
      | none => (prov, b)

/-- Nodes read earlier ones, so the recursion is never deeper than the node's number. -/
def negateProvenance (b : PirBuilder) (prov : PirNodeId) : PirNodeId × PirBuilder :=
  negateFuel (prov + 1) b prov

def pirConstValue (b : PirBuilder) (node : PirNodeId) : Option Bool :=
  match b.pir.node node with
  | some (.const value) => some value
  | _ => none

-- Invariant

/-- Nodes read earlier ones and the tables describe the nodes they name. -/
structure Ok (b : PirBuilder) : Prop where
  backward : b.pir.Backward
  constTrue : b.pir.node b.constTrue = some (.const true)
  constFalse : b.pir.node b.constFalse = some (.const false)
  intern : ∀ node id, (node, id) ∈ b.intern → b.pir.node id = some node
  orChildren : ∀ id sub, (id, sub) ∈ b.orChildren → b.pir.node id = some (.or sub)
  andChildren : ∀ id sub, (id, sub) ∈ b.andChildren → b.pir.node id = some (.and sub)

/-- Nodes are only appended and keep their meaning. -/
structure Grows (b b' : PirBuilder) : Prop where
  ok : b'.Ok
  nodes : b.pir.nodes <+: b'.pir.nodes
  meaning : b.pir.Extends b'.pir
  constTrue : b'.constTrue = b.constTrue
  constFalse : b'.constFalse = b.constFalse

/-- What an operation that makes a node with a meaning leaves behind. -/
structure Made (b : PirBuilder) (value : World → Bool) (made : PirNodeId × PirBuilder) : Prop where
  grows : Grows b made.2
  lt : made.1 < made.2.pir.len
  eval : ∀ w, made.2.pir.eval w made.1 = value w

theorem Ok.sound {b : PirBuilder} (h : b.Ok) : b.pir.Sound := h.backward.sound

theorem Grows.refl {b : PirBuilder} (h : b.Ok) : Grows b b :=
  ⟨h, List.prefix_rfl, .refl h.sound, rfl, rfl⟩

theorem Grows.trans {b b' b'' : PirBuilder} (h : Grows b b') (h' : Grows b' b'') : Grows b b'' :=
  ⟨h'.ok, h.nodes.trans h'.nodes, h.meaning.trans h'.meaning, h'.constTrue.trans h.constTrue,
    h'.constFalse.trans h.constFalse⟩

theorem Grows.lt {b b' : PirBuilder} (h : Grows b b') {id : PirNodeId} (hlt : id < b.pir.len)
    : id < b'.pir.len :=
  h.meaning.lt hlt

theorem Grows.eval_eq {b b' : PirBuilder} (h : Grows b b') {id : PirNodeId}
    (hlt : id < b.pir.len) (w : World)
    : b'.pir.eval w id = b.pir.eval w id :=
  h.meaning.eval_eq id hlt w

theorem Made.of_grows {b b' : PirBuilder} {value : World → Bool} {made : PirNodeId × PirBuilder}
    (hgrows : Grows b b') (h : Made b' value made)
    : Made b value made :=
  ⟨hgrows.trans h.grows, h.lt, h.eval⟩

theorem Made.congr {b : PirBuilder} {value value' : World → Bool}
    {made : PirNodeId × PirBuilder} (h : Made b value made) (same : ∀ w, value w = value' w)
    : Made b value' made :=
  ⟨h.grows, h.lt, fun w => (h.eval w).trans (same w)⟩

/-- An existing node. -/
theorem Ok.made {b : PirBuilder} (h : b.Ok) {id : PirNodeId} (hlt : id < b.pir.len)
    : Made b (fun w => b.pir.eval w id) (id, b) :=
  ⟨.refl h, hlt, fun _ => rfl⟩

theorem Ok.constTrue_lt {b : PirBuilder} (h : b.Ok) : b.constTrue < b.pir.len :=
  PirGraph.node_lt h.constTrue

theorem Ok.constFalse_lt {b : PirBuilder} (h : b.Ok) : b.constFalse < b.pir.len :=
  PirGraph.node_lt h.constFalse

theorem Ok.eval_node {b : PirBuilder} (h : b.Ok) {id : PirNodeId} {node : PirNode}
    (hn : b.pir.node id = some node) (w : World)
    : b.pir.eval w id = node.value w (b.pir.eval w) :=
  PirGraph.eval_eq h.sound.acyclic w hn

@[simp] theorem Ok.eval_constTrue {b : PirBuilder} (h : b.Ok) (w : World)
    : b.pir.eval w b.constTrue = true :=
  h.eval_node h.constTrue w

@[simp] theorem Ok.eval_constFalse {b : PirBuilder} (h : b.Ok) (w : World)
    : b.pir.eval w b.constFalse = false :=
  h.eval_node h.constFalse w

theorem Ok.child_lt {b : PirBuilder} (h : b.Ok) {id child : PirNodeId} {node : PirNode}
    (hn : b.pir.node id = some node) (hc : child ∈ node.children)
    : child < id :=
  h.backward.child_lt ⟨node, hn, hc⟩

theorem ok_new : new.Ok where
  backward := by
    intro id hid child hc
    simp only [new, PirGraph.constTrue, PirGraph.constFalse, PirGraph.pushNode, PirGraph.empty,
      List.nil_append, List.cons_append, List.length_cons, List.length_nil] at hid hc
    obtain rfl | rfl : id = 0 ∨ id = 1 := by omega
    · simp [PirNode.children] at hc
    · simp [PirNode.children] at hc
  constTrue := rfl
  constFalse := rfl
  intern := by
    intro node id h
    simp only [new, List.mem_cons, Prod.mk.injEq, List.not_mem_nil, or_false] at h
    rcases h with ⟨rfl, rfl⟩ | ⟨rfl, rfl⟩ <;> rfl
  orChildren := by simp [new]
  andChildren := by simp [new]

end PirBuilder

end Xlog.Prob
