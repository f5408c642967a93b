import Xlog.Prob.Cnf

/-! What the encoder emits: a run numbers everything the roots depend on and, while the
variables fit a signed literal, each node's clauses are the gate of its kind.
-/

namespace Xlog.Prob

open Xlog.Core
open Xlog.Foundation
open Xlog.Foundation.Cnf

-- The run

theorem ncard_eq_length {s : Set Nat} {items : List Nat} (distinct : items.Nodup)
    (h : ∀ x, x ∈ items ↔ x ∈ s)
    : s.ncard = items.length := by
  have hs : s = (items.toFinset : Set Nat) := by
    ext x
    simp [h]
  rw [hs, Set.ncard_coe_finset, List.toFinset_card_of_nodup distinct]

/-- The encoder either numbers everything the roots depend on and emits the clauses of each
node, or overflows its variable counter.
-/
theorem encodeCnf_run {g : PirGraph} (acyclic : Acyclic g.Edge) (wf : g.WellFormed)
    {roots : List PirNodeId} (nonempty : roots ≠ []) (inside : ∀ root ∈ roots, root < g.len)
    : if g.varDemand roots + 1 < u32Bound then
        ∃ (nodeVar leafVar choiceVar : List (Nat × Nat)) (levels : List PirNodeId),
          Numbering g roots (g.varDemand roots) nodeVar leafVar choiceVar
          ∧ (∀ id, id ∈ levels ↔ g.Reachable roots id)
          ∧ encodeCnf g roots = (do
              let clauses ← levels.mapM (nodeClauses g nodeVar leafVar choiceVar)
              return ⟨⟨g.varDemand roots, clauses.flatten⟩, nodeVar, leafVar, choiceVar⟩)
      else ∃ e, encodeCnf g roots = .error e := by
  obtain ⟨r, hcollect, hr⟩ := collectReached_roots wf inside
  obtain ⟨levels, hlevels, hlv⟩ := PirGraph.levelize_spec acyclic wf inside
  have hne : roots.isEmpty = false := by simpa using nonempty
  set leaves := r.leafIds.insertionSort (· ≤ ·) with hleaves
  set choices := r.choiceIds.insertionSort (· ≤ ·) with hchoices
  set ids := r.visited.insertionSort (· ≤ ·) with hids
  have pl : leaves.Perm r.leafIds := List.perm_insertionSort _ _
  have pc : choices.Perm r.choiceIds := List.perm_insertionSort _ _
  have pn : ids.Perm r.visited := List.perm_insertionSort _ _
  have hleafMem : ∀ leaf, leaf ∈ leaves ↔ leaf ∈ g.leavesBelow roots := by
    intro leaf
    rw [pl.mem_iff, hr.ok.leaves]
    simp only [hr.visited_iff]
    rfl
  have hchoiceMem : ∀ var, var ∈ choices ↔ var ∈ g.choicesBelow roots := by
    intro var
    rw [pc.mem_iff, hr.ok.choices]
    simp only [hr.visited_iff]
    rfl
  have hidMem : ∀ id, id ∈ ids ↔ g.Reachable roots id :=
    fun id => pn.mem_iff.trans (hr.visited_iff id)
  have hleafNodup := pl.nodup_iff.mpr hr.ok.leafIds
  have hchoiceNodup := pc.nodup_iff.mpr hr.ok.choiceIds
  have hidNodup := pn.nodup_iff.mpr hr.ok.visited
  have hdemand : g.varDemand roots
      = leaves.length + choices.length + (ids.filter g.ownsVar).length := by
    rw [PirGraph.varDemand, ncard_eq_length hleafNodup hleafMem,
      ncard_eq_length hchoiceNodup hchoiceMem,
      ncard_eq_length (hidNodup.filter g.ownsVar) fun id => by
        rw [List.mem_filter, hidMem]
        rfl]
  have hlookup : ∀ id ∈ ids, ∀ leaf, g.node id = some (.lit leaf) →
      ∃ v, (leaves.zipIdx 1).lookup leaf = some v := by
    intro id hid leaf hnode
    refine exists_lookup_of_mem_keys ?_
    rw [List.zipIdx_map_fst, hleafMem]
    exact ⟨id, (hidMem id).mp hid, _, hnode, .inl rfl⟩
  have hinside : ∀ id ∈ ids, id < g.len :=
    fun id hid => wf.reachable_lt inside ((hidMem id).mp hid)
  simp only [encodeCnf, hne, Bool.false_eq_true, if_false, hcollect, ok_bind, hlevels,
    ← hleaves, ← hchoices, ← hids]
  rw [allotVars_eq leaves 1 (by decide)]
  by_cases hL : 1 + leaves.length < u32Bound
  · rw [if_pos hL]
    simp only [ok_bind]
    rw [allotVars_eq choices _ hL]
    by_cases hC : 1 + leaves.length + choices.length < u32Bound
    · rw [if_pos hC]
      simp only [ok_bind]
      have hspec := allotNodeVars_spec ids _ hC hinside hlookup
      by_cases hN : 1 + leaves.length + choices.length + (ids.filter g.ownsVar).length < u32Bound
      · rw [if_pos (by omega)]
        rw [if_pos hN] at hspec
        obtain ⟨nodeVar, hnodes, hok⟩ := hspec
        refine ⟨nodeVar, leaves.zipIdx 1, choices.zipIdx (1 + leaves.length), levels.flatten,
          ?_, hlv.complete, ?_⟩
        · exact {
            leafKeys := by simpa only [List.zipIdx_map_fst] using hleafMem
            choiceKeys := by simpa only [List.zipIdx_map_fst] using hchoiceMem
            nodeKeys := by simpa only [hok.keys] using hidMem
            leafDistinct := by simpa only [List.zipIdx_map_fst] using hleafNodup
            choiceDistinct := by simpa only [List.zipIdx_map_fst] using hchoiceNodup
            nodeDistinct := by simpa only [hok.keys] using hidNodup
            shared := fun id v leaf hm hn => mem_of_lookup (hok.shared id v leaf hm hn)
            consecutive := by
              rw [hok.owned, List.zipIdx_map_snd, List.zipIdx_map_snd, List.zipIdx_map_snd,
                hdemand, List.range'_append_1, Nat.add_assoc 1, List.range'_append_1] }
        · simp only [hnodes, ok_bind]
          rw [show 1 + leaves.length + choices.length + (ids.filter g.ownsVar).length - 1
            = g.varDemand roots by omega]
      · rw [if_neg (by omega)]
        rw [if_neg hN] at hspec
        obtain ⟨e, hnodes⟩ := hspec
        exact ⟨e, by simp only [hnodes, error_bind]⟩
    · rw [if_neg hC, if_neg (by omega)]
      exact ⟨_, rfl⟩
  · rw [if_neg hL, if_neg (by omega)]
    exact ⟨_, rfl⟩

-- The clauses as gates

/-- The variable an identifier has in a table. -/
def varOf (vars : List (Nat × Nat)) (id : Nat) : Nat :=
  (vars.lookup id).getD 0

/-- The gate that defines a node's variable. -/
def nodeGate (nodeVar leafVar choiceVar : List (Nat × Nat)) (v : Nat) : PirNode → List Clause
  | .const b => constGate v b
  | .lit _ => []
  | .negLit leaf => notGate v (varOf leafVar leaf)
  | .and children => andGate v (children.map (varOf nodeVar))
  | .or children => orGate v (children.map (varOf nodeVar))
  | .decision var childFalse childTrue =>
      iteGate v (varOf choiceVar var) (varOf nodeVar childFalse) (varOf nodeVar childTrue)

/-- A table that knows the identifier and whose variables fit a literal. -/
def Fits (vars : List (Nat × Nat)) (id : Nat) : Prop :=
  ∃ v, vars.lookup id = some v ∧ v < i32Bound

theorem Fits.literalOf {vars : List (Nat × Nat)} {id : Nat} (h : Fits vars id)
    (missing : String)
    : literalOf vars id missing = .ok (varOf vars id : Int) := by
  obtain ⟨v, hl, hv⟩ := h
  simp [Xlog.Prob.literalOf, varOf, hl, asI32_of_lt hv]

theorem Fits.negI32 {vars : List (Nat × Nat)} {id : Nat} (h : Fits vars id)
    : negI32 (varOf vars id : Int) = .ok (-(varOf vars id : Int)) := by
  obtain ⟨v, hl, hv⟩ := h
  have := negI32_asI32_of_lt hv
  rw [asI32_of_lt hv] at this
  simpa [varOf, hl] using this

/-- What the literals of one node's clauses refer to. -/
structure NodeFits (g : PirGraph) (nodeVar leafVar choiceVar : List (Nat × Nat))
    (id : PirNodeId) (node : PirNode) : Prop where
  self : Fits nodeVar id
  children : ∀ child ∈ node.children, Fits nodeVar child
  leaf : ∀ leaf, node.MentionsLeaf leaf → Fits leafVar leaf
  choice : ∀ var, node.BranchesOn var → Fits choiceVar var

/-- While all variables fit, the emitted clauses are the gate, by the node's kind. -/
theorem nodeClauses_eq {g : PirGraph} {nodeVar leafVar choiceVar : List (Nat × Nat)}
    {id : PirNodeId} {node : PirNode} (hnode : g.node id = some node)
    (fits : NodeFits g nodeVar leafVar choiceVar id node)
    : nodeClauses g nodeVar leafVar choiceVar id
      = .ok (nodeGate nodeVar leafVar choiceVar (varOf nodeVar id) node) := by
  simp only [nodeClauses, hnode, fits.self.literalOf, ok_bind]
  cases node with
  | const b => cases b <;> simp [nodeGate, constGate, fits.self.negI32]
  | lit leaf => rfl
  | negLit leaf =>
      have hleaf := fits.leaf leaf (.inr rfl)
      simp [nodeGate, notGate, hleaf.literalOf, hleaf.negI32, fits.self.negI32]
  | and children =>
      have hchild : ∀ child ∈ children, Fits nodeVar child := fits.children
      by_cases hempty : children.isEmpty
      · rw [List.isEmpty_iff] at hempty
        simp [hempty, nodeGate, andGate]
      · have hshort := mapM_ok (fun child => do
            let c ← literalOf nodeVar child
              s!"Missing CNF var for AND child PirNodeId({child}) of PirNodeId({id})"
            return [← negI32 (varOf nodeVar id : Int), c])
          (fun child => [-(varOf nodeVar id : Int), (varOf nodeVar child : Int)]) children
          fun child hc => by simp [(hchild child hc).literalOf, fits.self.negI32]
        have hlong := mapM_ok (fun child => do
            negI32 (← literalOf nodeVar child
              s!"Missing CNF var for AND child PirNodeId({child}) of PirNodeId({id})"))
          (fun child => -(varOf nodeVar child : Int)) children
          fun child hc => by simp [(hchild child hc).literalOf, (hchild child hc).negI32]
        simp only [hempty, Bool.false_eq_true, if_false, hshort, hlong, ok_bind]
        simp only [pure_eq_ok, nodeGate, andGate, List.map_map, Function.comp_def]
  | or children =>
      have hchild : ∀ child ∈ children, Fits nodeVar child := fits.children
      by_cases hempty : children.isEmpty
      · rw [List.isEmpty_iff] at hempty
        simp [hempty, nodeGate, orGate, fits.self.negI32]
      · have hshort := mapM_ok (fun child => do
            let c ← literalOf nodeVar child
              s!"Missing CNF var for OR child PirNodeId({child}) of PirNodeId({id})"
            return [← negI32 c, (varOf nodeVar id : Int)])
          (fun child => [-(varOf nodeVar child : Int), (varOf nodeVar id : Int)]) children
          fun child hc => by simp [(hchild child hc).literalOf, (hchild child hc).negI32]
        have hlong := mapM_ok (fun child => literalOf nodeVar child
              s!"Missing CNF var for OR child PirNodeId({child}) of PirNodeId({id})")
          (fun child => (varOf nodeVar child : Int)) children
          fun child hc => (hchild child hc).literalOf _
        simp only [hempty, Bool.false_eq_true, if_false, hshort, hlong, fits.self.negI32,
          ok_bind]
        simp only [pure_eq_ok, nodeGate, orGate, List.map_map, Function.comp_def]
  | decision var childFalse childTrue =>
      have hx := fits.choice var ⟨_, _, rfl⟩
      have hf := fits.children childFalse (by simp [PirNode.children])
      have ht := fits.children childTrue (by simp [PirNode.children])
      simp [nodeGate, iteGate, hx.literalOf, hx.negI32, hf.literalOf, hf.negI32,
        ht.literalOf, ht.negI32, fits.self.negI32]

/-- A model of a node's gate gives its variable the node's value over the variables of
what it reads, by the node's kind.
-/
theorem satisfies_nodeGate {nodeVar leafVar choiceVar : List (Nat × Nat)} {a : Assignment}
    {w : World} {v : Nat} {node : PirNode} (hv : 0 < v)
    (children : ∀ child ∈ node.children, 0 < varOf nodeVar child)
    (leaf : ∀ leaf, node.MentionsLeaf leaf →
      0 < varOf leafVar leaf ∧ a (varOf leafVar leaf) = w.leaf leaf)
    (choice : ∀ var, node.BranchesOn var →
      0 < varOf choiceVar var ∧ a (varOf choiceVar var) = w.choice var)
    (shared : ∀ leaf, node = .lit leaf → v = varOf leafVar leaf)
    : Satisfies a (nodeGate nodeVar leafVar choiceVar v node)
      ↔ a v = node.value w (fun child => a (varOf nodeVar child)) := by
  have hpos : ∀ children', children' = node.children →
      ∀ x ∈ children'.map (varOf nodeVar), 0 < x := by
    rintro _ rfl x hx
    obtain ⟨child, hc, rfl⟩ := List.mem_map.mp hx
    exact children child hc
  cases node with
  | const b => exact satisfies_constGate hv
  | lit l =>
      obtain ⟨_, hl⟩ := leaf l (.inl rfl)
      simp [nodeGate, PirNode.value, shared l rfl, hl]
  | negLit l =>
      obtain ⟨hp, hl⟩ := leaf l (.inr rfl)
      simp only [nodeGate, satisfies_notGate hv hp, PirNode.value, hl]
  | and cs =>
      simp only [nodeGate, satisfies_andGate hv (hpos cs rfl), PirNode.value, List.all_map]
      rfl
  | or cs =>
      simp only [nodeGate, satisfies_orGate hv (hpos cs rfl), PirNode.value, List.any_map]
      rfl
  | decision var childFalse childTrue =>
      obtain ⟨hp, hx⟩ := choice var ⟨_, _, rfl⟩
      simp only [nodeGate, satisfies_iteGate hv hp
        (children childFalse (by simp [PirNode.children]))
        (children childTrue (by simp [PirNode.children])), PirNode.value, hx]

end Xlog.Prob
