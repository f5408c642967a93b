import Xlog.Foundation.Cnf
import Xlog.Prob.Levelize

/-! Tseitin encoding of the provenance nodes reachable from a root set. Variables are allotted to leaves, then
choices, then nodes, each group in identifier order; a positive literal shares the variable of its leaf.
The traversal finds exactly the nodes, leaves and choices that the roots depend on.
-/

namespace Xlog.Prob

open Xlog.Core
open Xlog.Foundation
open Xlog.Foundation.Cnf (Clause)

structure CnfFormula where
  numVars : Nat
  clauses : List Clause

structure CnfEncoding where
  cnf : CnfFormula
  nodeVar : List (PirNodeId × Nat)
  leafVar : List (LeafId × Nat)
  choiceVar : List (ChoiceVarId × Nat)

/-- The sets that the traversal fills. -/
structure Reached where
  visited : List PirNodeId
  leafIds : List LeafId
  choiceIds : List ChoiceVarId

/-- A node visited for the first time, with the variable it mentions. -/
def Reached.enter (r : Reached) (id : PirNodeId) : PirNode → Reached
  | .const _ | .and _ | .or _ => { r with visited := id :: r.visited }
  | .lit leaf | .negLit leaf =>
      { r with visited := id :: r.visited, leafIds := r.leafIds.insert leaf }
  | .decision var _ _ =>
      { r with visited := id :: r.visited, choiceIds := r.choiceIds.insert var }

/-- The traversal; the head of the list is the top of the stack. -/
def collectReached (g : PirGraph) : Nat → List PirNodeId → Reached → Result Reached
  | 0, _, _ => .error (.panic "worklist not empty")
  | _ + 1, [], r => .ok r
  | fuel + 1, id :: stack, r =>
      if id ∈ r.visited then
        collectReached g fuel stack r
      else
        match g.node id with
        | none =>
            .error (.compilation s!"Invalid PIR node id while encoding CNF: PirNodeId({id})")
        | some node => collectReached g fuel (node.children.reverse ++ stack) (r.enter id node)

/-- Every node pushes its children once. -/
def collectFuel (g : PirGraph) (roots : List PirNodeId) : Nat :=
  roots.length + ∑ id ∈ Finset.range g.len, ((g.node id).elim 0 (·.children.length)) + 1

/-- One entry in front of the entries of the rest. -/
def consVar (id v : Nat) (rest : Result (List (Nat × Nat) × Nat))
    : Result (List (Nat × Nat) × Nat) := do
  let (vars, last) ← rest
  return ((id, v) :: vars, last)

/-- Consecutive variables for the identifiers of one group. -/
def allotVars (next : Nat) : List Nat → Result (List (Nat × Nat) × Nat)
  | [] => .ok ([], next)
  | id :: ids => do
      let after ← incrU32 next
      consVar id next (allotVars after ids)

/-- Variables for the nodes: a positive literal has the one of its leaf. -/
def allotNodeVars (g : PirGraph) (leafVar : List (LeafId × Nat)) (next : Nat)
    : List PirNodeId → Result (List (PirNodeId × Nat) × Nat)
  | [] => .ok ([], next)
  | id :: ids =>
      match g.node id with
      | none => .error (.compilation s!"Invalid PIR node id while encoding CNF: PirNodeId({id})")
      | some (.lit leaf) =>
          match leafVar.lookup leaf with
          | none => .error (.compilation
              s!"Missing CNF var for PIR leaf LeafId({leaf}) referenced by node PirNodeId({id})")
          | some v => consVar id v (allotNodeVars g leafVar next ids)
      | some _ => do
          let after ← incrU32 next
          consVar id next (allotNodeVars g leafVar after ids)

/-- The variable of an identifier as a DIMACS literal. -/
def literalOf (vars : List (Nat × Nat)) (id : Nat) (missing : String) : Result Int :=
  match vars.lookup id with
  | some v => .ok (asI32 v)
  | none => .error (.compilation missing)

/-- The clauses that define the variable of one node. -/
def nodeClauses (g : PirGraph) (nodeVar leafVar choiceVar : List (Nat × Nat)) (id : PirNodeId)
    : Result (List Clause) :=
  match g.node id with
  | none =>
      .error (.compilation s!"Invalid PIR node id while emitting CNF clauses: PirNodeId({id})")
  | some node => do
      let v ← literalOf nodeVar id
        s!"Missing CNF var for PIR node PirNodeId({id}) while emitting clauses"
      match node with
      | .const true => return [[v]]
      | .const false => return [[← negI32 v]]
      | .lit _ => return []
      | .negLit leaf =>
          let leafV ← literalOf leafVar leaf
            s!"Missing CNF var for NegLit leaf LeafId({leaf}) at node PirNodeId({id})"
          return [[v, leafV], [← negI32 v, ← negI32 leafV]]
      | .and children =>
          if children.isEmpty then
            return [[v]]
          let childVar := fun child => literalOf nodeVar child
            s!"Missing CNF var for AND child PirNodeId({child}) of PirNodeId({id})"
          let short ← children.mapM fun child => do
            let c ← childVar child
            return [← negI32 v, c]
          let long ← children.mapM fun child => do negI32 (← childVar child)
          return short ++ [long ++ [v]]
      | .or children =>
          if children.isEmpty then
            return [[← negI32 v]]
          let childVar := fun child => literalOf nodeVar child
            s!"Missing CNF var for OR child PirNodeId({child}) of PirNodeId({id})"
          let short ← children.mapM fun child => do
            let c ← childVar child
            return [← negI32 c, v]
          let negV ← negI32 v
          let long ← children.mapM childVar
          return short ++ [negV :: long]
      | .decision var childFalse childTrue =>
          let x ← literalOf choiceVar var
            s!"Missing CNF var for decision variable ChoiceVarId({var}) at node PirNodeId({id})"
          let f ← literalOf nodeVar childFalse
            (s!"Missing CNF var for decision false child PirNodeId({childFalse})"
              ++ s!" at node PirNodeId({id})")
          let t ← literalOf nodeVar childTrue
            (s!"Missing CNF var for decision true child PirNodeId({childTrue})"
              ++ s!" at node PirNodeId({id})")
          let negX ← negI32 x
          let negV ← negI32 v
          return [[negX, ← negI32 t, v], [x, ← negI32 f, v], [negX, t, negV], [x, f, negV]]

/-- Encodes the part of the graph that the roots depend on. -/
def encodeCnf (g : PirGraph) (roots : List PirNodeId) : Result CnfEncoding :=
  if roots.isEmpty then
    .error (.compilation "Cannot encode CNF for empty PIR root set")
  else do
    let r ← collectReached g (collectFuel g roots) roots.reverse ⟨[], [], []⟩
    let (leafVar, next) ← allotVars 1 (r.leafIds.insertionSort (· ≤ ·))
    let (choiceVar, next) ← allotVars next (r.choiceIds.insertionSort (· ≤ ·))
    let (nodeVar, next) ← allotNodeVars g leafVar next (r.visited.insertionSort (· ≤ ·))
    let levels ← g.levelize roots
    let clauses ← levels.flatten.mapM (nodeClauses g nodeVar leafVar choiceVar)
    return ⟨⟨next - 1, clauses.flatten⟩, nodeVar, leafVar, choiceVar⟩

-- Variables

-- The traversal

/-- The node mentions the leaf, in either polarity. -/
def PirNode.MentionsLeaf (node : PirNode) (leaf : LeafId) : Prop :=
  node = .lit leaf ∨ node = .negLit leaf

/-- The node branches on the choice variable. -/
def PirNode.BranchesOn (node : PirNode) (var : ChoiceVarId) : Prop :=
  ∃ childFalse childTrue, node = .decision var childFalse childTrue

/-- The variables mentioned by a set of visited nodes. -/
structure ReachedOk (g : PirGraph) (r : Reached) : Prop where
  visited : r.visited.Nodup
  leafIds : r.leafIds.Nodup
  choiceIds : r.choiceIds.Nodup
  leaves : ∀ leaf, leaf ∈ r.leafIds ↔
    ∃ id ∈ r.visited, ∃ node, g.node id = some node ∧ node.MentionsLeaf leaf
  choices : ∀ var, var ∈ r.choiceIds ↔
    ∃ id ∈ r.visited, ∃ node, g.node id = some node ∧ node.BranchesOn var

theorem enter_visited (r : Reached) (id : PirNodeId) (node : PirNode)
    : (r.enter id node).visited = id :: r.visited := by
  cases node <;> rfl

theorem enter_mem_leafIds (r : Reached) (id : PirNodeId) (node : PirNode) (leaf : LeafId)
    : leaf ∈ (r.enter id node).leafIds ↔ node.MentionsLeaf leaf ∨ leaf ∈ r.leafIds := by
  cases node <;> simp [Reached.enter, PirNode.MentionsLeaf, eq_comm]

theorem enter_mem_choiceIds (r : Reached) (id : PirNodeId) (node : PirNode)
    (var : ChoiceVarId)
    : var ∈ (r.enter id node).choiceIds ↔ node.BranchesOn var ∨ var ∈ r.choiceIds := by
  cases node <;> simp [Reached.enter, PirNode.BranchesOn, eq_comm]

/-- Entering one more node keeps the mentioned variables exact. -/
theorem ReachedOk.enter {g : PirGraph} {r : Reached} (h : ReachedOk g r) {id : PirNodeId}
    {node : PirNode} (hnode : g.node id = some node) (hnew : id ∉ r.visited)
    : ReachedOk g (r.enter id node) where
  visited := by
    rw [enter_visited]
    exact List.nodup_cons.mpr ⟨hnew, h.visited⟩
  leafIds := by
    cases node <;> simp only [Reached.enter] <;> first
      | exact h.leafIds
      | exact h.leafIds.insert
  choiceIds := by
    cases node <;> simp only [Reached.enter] <;> first
      | exact h.choiceIds
      | exact h.choiceIds.insert
  leaves := by
    intro leaf
    rw [enter_mem_leafIds, h.leaves, enter_visited]
    simp [hnode]
  choices := by
    intro var
    rw [enter_mem_choiceIds, h.choices, enter_visited]
    simp [hnode]

/-- The traversal's invariant: everything seen is reachable, and what a visited node reads
is visited or still on the stack.
-/
structure Traversing (g : PirGraph) (roots stack : List PirNodeId) (r : Reached)
    : Prop where
  ok : ReachedOk g r
  reachable : ∀ id, id ∈ r.visited ∨ id ∈ stack → g.Reachable roots id
  roots : ∀ root ∈ roots, root ∈ r.visited ∨ root ∈ stack
  closed : ∀ id ∈ r.visited, ∀ child, g.Edge id child → child ∈ r.visited ∨ child ∈ stack

/-- Popping a visited node loses nothing. -/
theorem Traversing.skip {g : PirGraph} {roots : List PirNodeId} {id : PirNodeId}
    {stack : List PirNodeId} {r : Reached} (h : Traversing g roots (id :: stack) r)
    (hold : id ∈ r.visited)
    : Traversing g roots stack r := by
  have hdrop : ∀ x, x ∈ r.visited ∨ x ∈ id :: stack → x ∈ r.visited ∨ x ∈ stack := by
    rintro x (hx | hx)
    · exact .inl hx
    · rcases List.mem_cons.mp hx with rfl | hx
      · exact .inl hold
      · exact .inr hx
  exact {
    ok := h.ok
    reachable := fun x hx => h.reachable x (hx.imp_right (List.mem_cons_of_mem _))
    roots := fun x hx => hdrop x (h.roots x hx)
    closed := fun x hx c hc => hdrop c (h.closed x hx c hc) }

/-- Visiting a node moves it from the stack and pushes what it reads. -/
theorem Traversing.visit {g : PirGraph} {roots : List PirNodeId} {id : PirNodeId}
    {stack : List PirNodeId} {r : Reached} {node : PirNode}
    (h : Traversing g roots (id :: stack) r) (hnode : g.node id = some node)
    (hnew : id ∉ r.visited)
    : Traversing g roots (node.children.reverse ++ stack) (r.enter id node) := by
  have hid : g.Reachable roots id := h.reachable id (.inr (by simp))
  have hmove : ∀ x, x ∈ r.visited ∨ x ∈ id :: stack →
      x ∈ (r.enter id node).visited ∨ x ∈ node.children.reverse ++ stack := by
    intro x hx
    rw [enter_visited]
    simp only [List.mem_cons, List.mem_append] at hx ⊢
    tauto
  refine ⟨h.ok.enter hnode hnew, ?_, fun x hx => hmove x (h.roots x hx), ?_⟩
  · rw [enter_visited]
    rintro x (hx | hx)
    · rcases List.mem_cons.mp hx with rfl | hx
      · exact hid
      · exact h.reachable x (.inl hx)
    · rcases List.mem_append.mp hx with hx | hx
      · exact hid.child ⟨node, hnode, List.mem_reverse.mp hx⟩
      · exact h.reachable x (.inr (List.mem_cons_of_mem _ hx))
  · rw [enter_visited]
    intro x hx c hc
    rcases List.mem_cons.mp hx with rfl | hx
    · obtain ⟨node', hnode', hmem⟩ := hc
      obtain rfl : node = node' := Option.some.inj (hnode.symm.trans hnode')
      exact .inr (List.mem_append_left _ (List.mem_reverse.mpr hmem))
    · simpa only [enter_visited] using hmove c (h.closed x hx c hc)

/-- Pushes still to come: the children of the nodes not yet visited. -/
def pendingPushes (g : PirGraph) (visited : List PirNodeId) : Nat :=
  ∑ id ∈ (Finset.range g.len).filter (· ∉ visited), (g.node id).elim 0 (·.children.length)

theorem pendingPushes_visit {g : PirGraph} {visited : List PirNodeId} {id : PirNodeId}
    {node : PirNode} (hnode : g.node id = some node) (hnew : id ∉ visited)
    : pendingPushes g (id :: visited) + node.children.length = pendingPushes g visited := by
  have hmem : id ∈ (Finset.range g.len).filter (· ∉ visited) := by
    simp [PirGraph.node_lt hnode, hnew]
  have hset : (Finset.range g.len).filter (· ∉ id :: visited)
      = ((Finset.range g.len).filter (· ∉ visited)).erase id := by
    ext x
    simp only [Finset.mem_filter, Finset.mem_erase, List.mem_cons]
    tauto
  rw [pendingPushes, hset, pendingPushes, ← Finset.sum_erase_add _ _ hmem, hnode]
  rfl

/-- The fuel covers every pop, so the traversal of a well-formed graph ends with an empty
stack, by induction on the fuel.
-/
theorem collectReached_spec {g : PirGraph} (wf : g.WellFormed) {roots : List PirNodeId}
    (inside : ∀ root ∈ roots, root < g.len) (fuel : Nat) (stack : List PirNodeId)
    (r : Reached) (h : Traversing g roots stack r)
    (hfuel : stack.length + pendingPushes g r.visited + 1 ≤ fuel)
    : ∃ r', collectReached g fuel stack r = .ok r' ∧ Traversing g roots [] r' := by
  induction fuel generalizing stack r with
  | zero => omega
  | succ fuel ih =>
      cases stack with
      | nil => exact ⟨r, rfl, h⟩
      | cons id stack =>
          simp only [List.length_cons] at hfuel
          by_cases hold : id ∈ r.visited
          · simp only [collectReached, hold, if_true]
            exact ih stack r (h.skip hold) (by omega)
          · have hlt := wf.reachable_lt inside (h.reachable id (.inr (by simp)))
            obtain ⟨node, hnode⟩ := PirGraph.node_of_lt hlt
            simp only [collectReached, hold, if_false, hnode]
            refine ih _ _ (h.visit hnode hold) ?_
            have hp := pendingPushes_visit hnode hold
            rw [enter_visited, List.length_append, List.length_reverse]
            omega

/-- What the traversal reports about a root set. -/
structure ReachedExactly (g : PirGraph) (roots : List PirNodeId) (r : Reached) : Prop where
  ok : ReachedOk g r
  visited_iff : ∀ id, id ∈ r.visited ↔ g.Reachable roots id

/-- The traversal from the roots visits exactly what they depend on. -/
theorem collectReached_roots {g : PirGraph} (wf : g.WellFormed) {roots : List PirNodeId}
    (inside : ∀ root ∈ roots, root < g.len)
    : ∃ r, collectReached g (collectFuel g roots) roots.reverse ⟨[], [], []⟩ = .ok r
      ∧ ReachedExactly g roots r := by
  have hstart : Traversing g roots roots.reverse ⟨[], [], []⟩ := {
    ok := ⟨by simp, by simp, by simp, by simp, by simp⟩
    reachable := by
      intro id hid
      simp only [List.not_mem_nil, List.mem_reverse, false_or] at hid
      exact .root hid
    roots := fun root hr => .inr (List.mem_reverse.mpr hr)
    closed := by simp }
  obtain ⟨r, hrun, h⟩ := collectReached_spec wf inside (collectFuel g roots) _ _ hstart
    (by simp [collectFuel, pendingPushes])
  refine ⟨r, hrun, h.ok, fun id => ⟨fun hid => h.reachable id (.inl hid), ?_⟩⟩
  rintro ⟨root, hr, hp⟩
  induction hp with
  | refl => simpa using h.roots root hr
  | tail _ he ih => simpa using h.closed _ ih _ he

-- The allotment

/-- A node that gets a variable of its own: anything but a positive literal. -/
def PirGraph.ownsVar (g : PirGraph) (id : PirNodeId) : Bool :=
  match g.node id with
  | some (.lit _) => false
  | _ => true

@[simp] theorem consVar_ok {id v last : Nat} {vars : List (Nat × Nat)}
    : consVar id v (.ok (vars, last)) = .ok ((id, v) :: vars, last) :=
  rfl

@[simp] theorem consVar_error {id v : Nat} {e : XlogError}
    : consVar id v (.error e) = .error e :=
  rfl

/-- One group is numbered consecutively, or the counter overflows, by list induction. -/
theorem allotVars_eq (ids : List Nat) (next : Nat) (h : next < u32Bound)
    : allotVars next ids =
        if next + ids.length < u32Bound then .ok (ids.zipIdx next, next + ids.length)
        else .error (.panic "attempt to add with overflow") := by
  induction ids generalizing next with
  | nil => simp [allotVars, h]
  | cons id ids ih =>
      simp only [allotVars, incrU32, List.length_cons]
      by_cases hn : next + 1 < u32Bound
      · rw [if_pos hn, ok_bind, ih (next + 1) hn]
        by_cases hl : next + 1 + ids.length < u32Bound
        · rw [if_pos hl, if_pos (by omega), consVar_ok, List.zipIdx_cons]
          congr 2
          omega
        · rw [if_neg hl, if_neg (by omega), consVar_error]
      · rw [if_neg hn, if_neg (by omega), error_bind]

/-- The nodes' entries: literals share their leaf's variable, the rest are consecutive. -/
structure NodeVarsOk (g : PirGraph) (leafVar : List (LeafId × Nat)) (next : Nat)
    (ids : List PirNodeId) (nodeVar : List (PirNodeId × Nat)) : Prop where
  keys : nodeVar.map Prod.fst = ids
  shared : ∀ id v leaf, (id, v) ∈ nodeVar → g.node id = some (.lit leaf) →
    leafVar.lookup leaf = some v
  owned : nodeVar.filter (fun p => g.ownsVar p.1) = (ids.filter g.ownsVar).zipIdx next

/-- Nodes are numbered consecutively past the shared ones, or the counter overflows, by
list induction.
-/
theorem allotNodeVars_spec {g : PirGraph} {leafVar : List (LeafId × Nat)}
    (ids : List PirNodeId) (next : Nat) (h : next < u32Bound)
    (inside : ∀ id ∈ ids, id < g.len)
    (leaves : ∀ id ∈ ids, ∀ leaf, g.node id = some (.lit leaf) →
      ∃ v, leafVar.lookup leaf = some v)
    : if next + (ids.filter g.ownsVar).length < u32Bound then
        ∃ nodeVar,
          allotNodeVars g leafVar next ids
            = .ok (nodeVar, next + (ids.filter g.ownsVar).length)
          ∧ NodeVarsOk g leafVar next ids nodeVar
      else ∃ e, allotNodeVars g leafVar next ids = .error e := by
  induction ids generalizing next with
  | nil =>
      rw [if_pos (by simpa using h)]
      exact ⟨[], by simp [allotNodeVars], ⟨rfl, by simp, rfl⟩⟩
  | cons id ids ih =>
      have hinside := fun x hx => inside x (List.mem_cons_of_mem id hx)
      have hleaves := fun x hx => leaves x (List.mem_cons_of_mem id hx)
      obtain ⟨node, hnode⟩ := PirGraph.node_of_lt (inside id (by simp))
      by_cases hlit : ∃ leaf, node = .lit leaf
      · obtain ⟨leaf, rfl⟩ := hlit
        obtain ⟨v, hv⟩ := leaves id (by simp) leaf hnode
        have hown : g.ownsVar id = false := by simp [PirGraph.ownsVar, hnode]
        have hrest := ih next h hinside hleaves
        simp only [allotNodeVars, hnode, hv, List.filter_cons, hown, Bool.false_eq_true,
          if_false]
        split at hrest
        · next hlt =>
            rw [if_pos hlt]
            obtain ⟨nodeVar, hrun, hok⟩ := hrest
            refine ⟨(id, v) :: nodeVar, by rw [hrun]; rfl, by simp [hok.keys], ?_, ?_⟩
            · intro id' v' leaf' hm hn
              rcases List.mem_cons.mp hm with heq | hm
              · obtain ⟨rfl, rfl⟩ := Prod.mk.inj heq
                obtain rfl : leaf = leaf' := by simpa [hnode] using hn
                exact hv
              · exact hok.shared id' v' leaf' hm hn
            · simp [hown, hok.owned]
        · next hge =>
            rw [if_neg hge]
            obtain ⟨e, hrun⟩ := hrest
            exact ⟨e, by rw [hrun]; rfl⟩
      · have hown : g.ownsVar id = true := by
          cases node with
          | lit leaf => exact absurd ⟨leaf, rfl⟩ hlit
          | const _ | negLit _ | and _ | or _ | decision _ _ _ => simp only [PirGraph.ownsVar, hnode]
        have hstep : allotNodeVars g leafVar next (id :: ids) = (do
            let after ← incrU32 next
            consVar id next (allotNodeVars g leafVar after ids)) := by
          cases node with
          | lit leaf => exact absurd ⟨leaf, rfl⟩ hlit
          | const _ | negLit _ | and _ | or _ | decision _ _ _ => simp only [allotNodeVars, hnode]
        simp only [hstep, incrU32, List.filter_cons, hown, if_true, List.length_cons]
        by_cases hn : next + 1 < u32Bound
        · rw [if_pos hn]
          have hrest := ih (next + 1) hn hinside hleaves
          simp only [ok_bind]
          split at hrest
          · next hlt =>
              rw [if_pos (by omega)]
              obtain ⟨nodeVar, hrun, hok⟩ := hrest
              refine ⟨(id, next) :: nodeVar, ?_, by simp [hok.keys], ?_, ?_⟩
              · rw [hrun]
                simp only [consVar_ok]
                congr 2
                omega
              · intro id' v' leaf' hm hn'
                rcases List.mem_cons.mp hm with heq | hm
                · obtain ⟨rfl, rfl⟩ := Prod.mk.inj heq
                  exact absurd ⟨leaf', Option.some.inj (hnode.symm.trans hn')⟩ hlit
                · exact hok.shared id' v' leaf' hm hn'
              · simp [hown, hok.owned]
          · next hge =>
              rw [if_neg (by omega)]
              obtain ⟨e, hrun⟩ := hrest
              exact ⟨e, by rw [hrun]; rfl⟩
        · rw [if_neg hn, if_neg (by omega)]
          exact ⟨_, rfl⟩

-- The numbering

/-- The leaves, choices and owning nodes that the roots depend on. -/
def PirGraph.leavesBelow (g : PirGraph) (roots : List PirNodeId) : Set LeafId :=
  {leaf | ∃ id, g.Reachable roots id ∧ ∃ node, g.node id = some node ∧ node.MentionsLeaf leaf}

def PirGraph.choicesBelow (g : PirGraph) (roots : List PirNodeId) : Set ChoiceVarId :=
  {var | ∃ id, g.Reachable roots id ∧ ∃ node, g.node id = some node ∧ node.BranchesOn var}

def PirGraph.ownersBelow (g : PirGraph) (roots : List PirNodeId) : Set PirNodeId :=
  {id | g.Reachable roots id ∧ g.ownsVar id = true}

/-- How many variables the encoding of a root set needs. -/
noncomputable def PirGraph.varDemand (g : PirGraph) (roots : List PirNodeId) : Nat :=
  (g.leavesBelow roots).ncard + (g.choicesBelow roots).ncard + (g.ownersBelow roots).ncard

/-- Everything that owns a variable. -/
inductive CnfOwner where
  | leaf (id : LeafId)
  | choice (id : ChoiceVarId)
  | node (id : PirNodeId)
  deriving DecidableEq

/-- The variable tables of an encoding: shared and owned variables, in range and complete. -/
structure Numbering (g : PirGraph) (roots : List PirNodeId) (numVars : Nat)
    (nodeVar leafVar choiceVar : List (Nat × Nat)) : Prop where
  leafKeys : ∀ leaf, leaf ∈ leafVar.map Prod.fst ↔ leaf ∈ g.leavesBelow roots
  choiceKeys : ∀ var, var ∈ choiceVar.map Prod.fst ↔ var ∈ g.choicesBelow roots
  nodeKeys : ∀ id, id ∈ nodeVar.map Prod.fst ↔ g.Reachable roots id
  leafDistinct : (leafVar.map Prod.fst).Nodup
  choiceDistinct : (choiceVar.map Prod.fst).Nodup
  nodeDistinct : (nodeVar.map Prod.fst).Nodup
  shared : ∀ id v leaf, (id, v) ∈ nodeVar → g.node id = some (.lit leaf) → (leaf, v) ∈ leafVar
  consecutive :
    leafVar.map Prod.snd ++ choiceVar.map Prod.snd
      ++ (nodeVar.filter fun p => g.ownsVar p.1).map Prod.snd
    = List.range' 1 numVars

/-- The owners in variable order. -/
def ownerTable (g : PirGraph) (nodeVar leafVar choiceVar : List (Nat × Nat))
    : List (Nat × CnfOwner) :=
  leafVar.map (fun p => (p.2, .leaf p.1)) ++ choiceVar.map (fun p => (p.2, .choice p.1))
    ++ (nodeVar.filter fun p => g.ownsVar p.1).map (fun p => (p.2, .node p.1))

section Numbering

variable {g : PirGraph} {roots : List PirNodeId} {numVars : Nat}
variable {nodeVar leafVar choiceVar : List (Nat × Nat)}

theorem Numbering.ownerTable_keys (h : Numbering g roots numVars nodeVar leafVar choiceVar)
    : (ownerTable g nodeVar leafVar choiceVar).map Prod.fst = List.range' 1 numVars := by
  rw [← h.consecutive]
  simp [ownerTable, Function.comp_def]

theorem Numbering.ownerTable_distinct
    (h : Numbering g roots numVars nodeVar leafVar choiceVar)
    : ((ownerTable g nodeVar leafVar choiceVar).map Prod.fst).Nodup := by
  rw [h.ownerTable_keys]
  exact List.nodup_range'

/-- Two owners never share a variable. -/
theorem Numbering.owner_unique (h : Numbering g roots numVars nodeVar leafVar choiceVar)
    {v : Nat} {first second : CnfOwner}
    (hf : (v, first) ∈ ownerTable g nodeVar leafVar choiceVar)
    (hs : (v, second) ∈ ownerTable g nodeVar leafVar choiceVar)
    : first = second :=
  Option.some.inj
    ((lookup_of_mem h.ownerTable_distinct hf).symm.trans (lookup_of_mem h.ownerTable_distinct hs))

/-- Every variable of the range has an owner. -/
theorem Numbering.exists_owner (h : Numbering g roots numVars nodeVar leafVar choiceVar)
    {v : Nat} (low : 1 ≤ v) (high : v ≤ numVars)
    : ∃ owner, (v, owner) ∈ ownerTable g nodeVar leafVar choiceVar := by
  have hv : v ∈ (ownerTable g nodeVar leafVar choiceVar).map Prod.fst := by
    rw [h.ownerTable_keys, List.mem_range'_1]
    omega
  obtain ⟨⟨v, owner⟩, hm, rfl⟩ := List.mem_map.mp hv
  exact ⟨owner, hm⟩

/-- Every owner's variable is in the range. -/
theorem Numbering.owner_range (h : Numbering g roots numVars nodeVar leafVar choiceVar)
    {v : Nat} {owner : CnfOwner} (hm : (v, owner) ∈ ownerTable g nodeVar leafVar choiceVar)
    : 1 ≤ v ∧ v ≤ numVars := by
  have hv := List.mem_map_of_mem (f := Prod.fst) hm
  rw [h.ownerTable_keys, List.mem_range'_1] at hv
  omega

theorem mem_ownerTable_leaf {leaf : LeafId} {v : Nat}
    : (v, CnfOwner.leaf leaf) ∈ ownerTable g nodeVar leafVar choiceVar
      ↔ (leaf, v) ∈ leafVar := by
  simp [ownerTable]

theorem mem_ownerTable_choice {var : ChoiceVarId} {v : Nat}
    : (v, CnfOwner.choice var) ∈ ownerTable g nodeVar leafVar choiceVar
      ↔ (var, v) ∈ choiceVar := by
  simp [ownerTable]

theorem mem_ownerTable_node {id : PirNodeId} {v : Nat}
    : (v, CnfOwner.node id) ∈ ownerTable g nodeVar leafVar choiceVar
      ↔ (id, v) ∈ nodeVar ∧ g.ownsVar id = true := by
  simp [ownerTable]

theorem Numbering.leaf_range (h : Numbering g roots numVars nodeVar leafVar choiceVar)
    {leaf : LeafId} {v : Nat} (hm : (leaf, v) ∈ leafVar)
    : 1 ≤ v ∧ v ≤ numVars :=
  h.owner_range (mem_ownerTable_leaf.mpr hm)

theorem Numbering.choice_range (h : Numbering g roots numVars nodeVar leafVar choiceVar)
    {var : ChoiceVarId} {v : Nat} (hm : (var, v) ∈ choiceVar)
    : 1 ≤ v ∧ v ≤ numVars :=
  h.owner_range (mem_ownerTable_choice.mpr hm)

/-- A node either owns its variable or shares that of its leaf. -/
theorem Numbering.node_cases (h : Numbering g roots numVars nodeVar leafVar choiceVar)
    {id : PirNodeId} {v : Nat} (hm : (id, v) ∈ nodeVar)
    : (v, CnfOwner.node id) ∈ ownerTable g nodeVar leafVar choiceVar
      ∨ ∃ leaf, g.node id = some (.lit leaf) ∧ (leaf, v) ∈ leafVar := by
  cases hown : g.ownsVar id with
  | true => exact .inl (mem_ownerTable_node.mpr ⟨hm, hown⟩)
  | false =>
      obtain ⟨leaf, hl⟩ : ∃ leaf, g.node id = some (.lit leaf) := by
        unfold PirGraph.ownsVar at hown
        split at hown
        · next leaf heq => exact ⟨leaf, heq⟩
        · simp at hown
      exact .inr ⟨leaf, hl, h.shared id v leaf hm hl⟩

theorem Numbering.node_range (h : Numbering g roots numVars nodeVar leafVar choiceVar)
    {id : PirNodeId} {v : Nat} (hm : (id, v) ∈ nodeVar)
    : 1 ≤ v ∧ v ≤ numVars := by
  rcases h.node_cases hm with ho | ⟨_, _, hl⟩
  · exact h.owner_range ho
  · exact h.leaf_range hl

end Numbering

end Xlog.Prob
