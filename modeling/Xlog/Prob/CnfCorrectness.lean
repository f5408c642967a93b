import Xlog.Prob.CnfClauses

/-! The encoding's models: below the literal bound every assignment of the leaves and choices extends to
exactly one model, which gives every node its Boolean value. Past the range of `i32` the conversion to
signed literals wraps, so no clause mentions a variable above `2^31`.
-/

namespace Xlog.Prob

open Xlog.Core
open Xlog.Foundation
open Xlog.Foundation.Cnf

theorem literalOf_natAbs {vars : List (Nat × Nat)} {id : Nat} {missing : String} {x : Int}
    (small : ∀ id v, (id, v) ∈ vars → v < u32Bound) (h : literalOf vars id missing = .ok x)
    : x.natAbs ≤ i32Bound := by
  unfold literalOf at h
  split at h
  · next v hl =>
      obtain rfl := Except.ok.inj h
      exact natAbs_asI32_le (small id v (mem_of_lookup hl))
  · simp at h

theorem negI32_natAbs {x y : Int} (h : negI32 x = .ok y)
    : y.natAbs = x.natAbs := by
  obtain ⟨_, rfl⟩ := negI32_eq_ok.mp h
  simp

/-- No literal reaches a variable above `2^31`, by the node's kind. -/
theorem nodeClauses_natAbs {g : PirGraph} {nodeVar leafVar choiceVar : List (Nat × Nat)}
    (nodeSmall : ∀ id v, (id, v) ∈ nodeVar → v < u32Bound)
    (leafSmall : ∀ id v, (id, v) ∈ leafVar → v < u32Bound)
    (choiceSmall : ∀ id v, (id, v) ∈ choiceVar → v < u32Bound) {id : PirNodeId}
    {cs : List Clause} (h : nodeClauses g nodeVar leafVar choiceVar id = .ok cs)
    : ∀ clause ∈ cs, ∀ lit ∈ clause, lit.natAbs ≤ i32Bound := by
  cases hnode : g.node id with
  | none => simp [nodeClauses, hnode] at h
  | some node =>
      simp only [nodeClauses, hnode] at h
      obtain ⟨v, hv, h⟩ := bind_eq_ok.mp h
      have hv := literalOf_natAbs nodeSmall hv
      cases node with
      | const b =>
          cases b with
          | true =>
              obtain rfl := Except.ok.inj h
              simpa using hv
          | false =>
              obtain ⟨n, hn, h⟩ := bind_eq_ok.mp h
              obtain rfl := Except.ok.inj h
              simpa [negI32_natAbs hn] using hv
      | lit leaf =>
          obtain rfl := Except.ok.inj h
          simp
      | negLit leaf =>
          obtain ⟨l, hl, h⟩ := bind_eq_ok.mp h
          obtain ⟨n, hn, h⟩ := bind_eq_ok.mp h
          obtain ⟨m, hm, h⟩ := bind_eq_ok.mp h
          obtain rfl := Except.ok.inj h
          have hl := literalOf_natAbs leafSmall hl
          simp [negI32_natAbs hn, negI32_natAbs hm, hv, hl]
      | and children =>
          simp only at h
          split at h
          · obtain rfl := Except.ok.inj h
            simpa using hv
          · obtain ⟨short, hs, h⟩ := bind_eq_ok.mp h
            obtain ⟨long, hlong, h⟩ := bind_eq_ok.mp h
            obtain rfl := Except.ok.inj h
            intro clause hc lit hlit
            rcases List.mem_append.mp hc with hc | hc
            · obtain ⟨child, _, hb⟩ := exists_of_mem_mapM hs hc
              obtain ⟨c, hcv, hb⟩ := bind_eq_ok.mp hb
              obtain ⟨n, hn, hb⟩ := bind_eq_ok.mp hb
              obtain rfl := Except.ok.inj hb
              rcases List.mem_pair.mp hlit with rfl | rfl
              · rw [negI32_natAbs hn]
                exact hv
              · exact literalOf_natAbs nodeSmall hcv
            · obtain rfl := List.mem_singleton.mp hc
              rcases List.mem_append.mp hlit with hlit | hlit
              · obtain ⟨child, _, hb⟩ := exists_of_mem_mapM hlong hlit
                obtain ⟨c, hcv, hb⟩ := bind_eq_ok.mp hb
                rw [negI32_natAbs hb]
                exact literalOf_natAbs nodeSmall hcv
              · obtain rfl := List.mem_singleton.mp hlit
                exact hv
      | or children =>
          simp only at h
          split at h
          · obtain ⟨n, hn, h⟩ := bind_eq_ok.mp h
            obtain rfl := Except.ok.inj h
            simpa [negI32_natAbs hn] using hv
          · obtain ⟨short, hs, h⟩ := bind_eq_ok.mp h
            obtain ⟨n, hn, h⟩ := bind_eq_ok.mp h
            obtain ⟨long, hlong, h⟩ := bind_eq_ok.mp h
            obtain rfl := Except.ok.inj h
            intro clause hc lit hlit
            rcases List.mem_append.mp hc with hc | hc
            · obtain ⟨child, _, hb⟩ := exists_of_mem_mapM hs hc
              obtain ⟨c, hcv, hb⟩ := bind_eq_ok.mp hb
              obtain ⟨m, hm, hb⟩ := bind_eq_ok.mp hb
              obtain rfl := Except.ok.inj hb
              rcases List.mem_pair.mp hlit with rfl | rfl
              · rw [negI32_natAbs hm]
                exact literalOf_natAbs nodeSmall hcv
              · exact hv
            · obtain rfl := List.mem_singleton.mp hc
              rcases List.mem_cons.mp hlit with rfl | hlit
              · rw [negI32_natAbs hn]
                exact hv
              · obtain ⟨child, _, hb⟩ := exists_of_mem_mapM hlong hlit
                exact literalOf_natAbs nodeSmall hb
      | decision var childFalse childTrue =>
          obtain ⟨x, hx, h⟩ := bind_eq_ok.mp h
          obtain ⟨f, hf, h⟩ := bind_eq_ok.mp h
          obtain ⟨t, ht, h⟩ := bind_eq_ok.mp h
          obtain ⟨negX, hnx, h⟩ := bind_eq_ok.mp h
          obtain ⟨negV, hnv, h⟩ := bind_eq_ok.mp h
          obtain ⟨negT, hnt, h⟩ := bind_eq_ok.mp h
          obtain ⟨negF, hnf, h⟩ := bind_eq_ok.mp h
          obtain rfl := Except.ok.inj h
          have hx := literalOf_natAbs choiceSmall hx
          have hf := literalOf_natAbs nodeSmall hf
          have ht := literalOf_natAbs nodeSmall ht
          simp [negI32_natAbs hnx, negI32_natAbs hnv, negI32_natAbs hnt, negI32_natAbs hnf,
            hv, hx, hf, ht]

/-- A node whose literal is the least `i32` can only be a true constant or an empty
conjunction: every other kind negates its literal, which overflows.
-/
theorem nodeClauses_least {g : PirGraph} {nodeVar leafVar choiceVar : List (Nat × Nat)}
    {id : PirNodeId} {cs : List Clause} (hv : nodeVar.lookup id = some i32Bound)
    (owned : g.ownsVar id = true)
    (h : nodeClauses g nodeVar leafVar choiceVar id = .ok cs)
    : cs = [[-(i32Bound : Int)]] ∧ ∃ node, g.node id = some node ∧
        ∀ w f, node.value w f = true := by
  cases hnode : g.node id with
  | none => simp [nodeClauses, hnode] at h
  | some node =>
      have hlit : asI32 i32Bound = -(i32Bound : Int) := by decide
      have hneg : negI32 (-(i32Bound : Int)) = .error (.panic "attempt to negate with overflow") :=
        if_pos rfl
      simp only [nodeClauses, hnode, literalOf, hv, ok_bind, hlit, hneg] at h
      cases node with
      | const b =>
          cases b with
          | true =>
              obtain rfl := Except.ok.inj h
              exact ⟨rfl, _, rfl, fun _ _ => rfl⟩
          | false => simp at h
      | lit leaf => simp [PirGraph.ownsVar, hnode] at owned
      | negLit leaf =>
          obtain ⟨l, _, h⟩ := bind_eq_ok.mp h
          simp at h
      | and children =>
          simp only at h
          split at h
          · next he =>
              obtain rfl := Except.ok.inj h
              obtain rfl := List.isEmpty_iff.mp he
              exact ⟨rfl, _, rfl, fun _ _ => rfl⟩
          · next he =>
              obtain ⟨short, hs, h⟩ := bind_eq_ok.mp h
              obtain ⟨child, hc⟩ := List.exists_mem_of_ne_nil children (by simpa using he)
              obtain ⟨c, _, hb⟩ := exists_result_of_mapM hs hc
              obtain ⟨x, _, hb⟩ := bind_eq_ok.mp hb
              simp at hb
      | or children =>
          simp only at h
          split at h
          · simp at h
          · obtain ⟨short, hs, h⟩ := bind_eq_ok.mp h
            simp at h
      | decision var childFalse childTrue =>
          obtain ⟨x, _, h⟩ := bind_eq_ok.mp h
          obtain ⟨f, _, h⟩ := bind_eq_ok.mp h
          obtain ⟨t, _, h⟩ := bind_eq_ok.mp h
          obtain ⟨negX, _, h⟩ := bind_eq_ok.mp h
          simp at h

-- Models

/-- An assignment of the CNF variables that agrees with a world on leaves and choices. -/
structure Extends (e : CnfEncoding) (w : World) (a : Assignment) : Prop where
  leaf : ∀ id v, (id, v) ∈ e.leafVar → a v = w.leaf id
  choice : ∀ id v, (id, v) ∈ e.choiceVar → a v = w.choice id

/-- Every assignment of the leaves and choices extends to exactly one model, and the model
gives each encoded node its Boolean value; all literals and variables are in range, and
leaves and choices are numbered apart.
-/
structure EncodingOk (g : PirGraph) (roots : List PirNodeId) (e : CnfEncoding) : Prop where
  literals : InRange e.cnf.numVars e.cnf.clauses
  leaves : ∀ leaf, leaf ∈ e.leafVar.map Prod.fst ↔ leaf ∈ g.leavesBelow roots
  choices : ∀ var, var ∈ e.choiceVar.map Prod.fst ↔ var ∈ g.choicesBelow roots
  nodes : ∀ id, id ∈ e.nodeVar.map Prod.fst ↔ g.Reachable roots id
  distinct : ((e.leafVar ++ e.choiceVar).map Prod.snd).Nodup
  range : ∀ id v, (id, v) ∈ e.leafVar ++ e.choiceVar ++ e.nodeVar →
    1 ≤ v ∧ v ≤ e.cnf.numVars
  model : ∀ w, ∃ a,
    Extends e w a
    ∧ Satisfies a e.cnf.clauses
    ∧ (∀ id v, (id, v) ∈ e.nodeVar → a v = g.eval w id)
    ∧ ∀ a', Extends e w a' → Satisfies a' e.cnf.clauses →
        ∀ v, 1 ≤ v → v ≤ e.cnf.numVars → a' v = a v

-- Below the literal bound

section Models

variable {g : PirGraph} {roots : List PirNodeId} {numVars : Nat}
variable {nodeVar leafVar choiceVar : List (Nat × Nat)}

theorem varOf_eq {vars : List (Nat × Nat)} (distinct : (vars.map Prod.fst).Nodup)
    {id v : Nat} (h : (id, v) ∈ vars)
    : varOf vars id = v := by
  simp [varOf, lookup_of_mem distinct h]

/-- A known identifier's variable is listed for it. -/
theorem varOf_mem {vars : List (Nat × Nat)} {id : Nat} (h : id ∈ vars.map Prod.fst)
    : (id, varOf vars id) ∈ vars := by
  obtain ⟨v, hl⟩ := exists_lookup_of_mem_keys h
  simpa [varOf, hl] using mem_of_lookup hl

/-- The value that a world gives the owner of a variable. -/
def CnfOwner.value (g : PirGraph) (w : World) : CnfOwner → Bool
  | .leaf id => w.leaf id
  | .choice id => w.choice id
  | .node id => g.eval w id

/-- The intended model of a world: every variable has its owner's value. -/
def intendedModel (g : PirGraph) (nodeVar leafVar choiceVar : List (Nat × Nat)) (w : World)
    : Assignment := fun v =>
  match (ownerTable g nodeVar leafVar choiceVar).lookup v with
  | some owner => owner.value g w
  | none => false

theorem Numbering.intendedModel_owner
    (h : Numbering g roots numVars nodeVar leafVar choiceVar) (w : World) {v : Nat}
    {owner : CnfOwner} (hm : (v, owner) ∈ ownerTable g nodeVar leafVar choiceVar)
    : intendedModel g nodeVar leafVar choiceVar w v = owner.value g w := by
  simp [intendedModel, lookup_of_mem h.ownerTable_distinct hm]

/-- In the intended model every node's variable has the node's value. -/
theorem Numbering.intendedModel_node (acyclic : Acyclic g.Edge)
    (h : Numbering g roots numVars nodeVar leafVar choiceVar) (w : World) {id v : Nat}
    (hm : (id, v) ∈ nodeVar)
    : intendedModel g nodeVar leafVar choiceVar w v = g.eval w id := by
  rcases h.node_cases hm with ho | ⟨leaf, hnode, hl⟩
  · exact h.intendedModel_owner w ho
  · rw [h.intendedModel_owner w (mem_ownerTable_leaf.mpr hl), PirGraph.eval_eq acyclic w hnode]
    rfl

/-- Any assignment that extends a world satisfies the gates of the reachable nodes exactly
when it solves their value equations.
-/
theorem Numbering.gates_iff
    (h : Numbering g roots numVars nodeVar leafVar choiceVar) {w : World} {a : Assignment}
    (leaf : ∀ id v, (id, v) ∈ leafVar → a v = w.leaf id)
    (choice : ∀ id v, (id, v) ∈ choiceVar → a v = w.choice id)
    {id : PirNodeId} (hid : g.Reachable roots id) {node : PirNode}
    (hnode : g.node id = some node)
    : Satisfies a (nodeGate nodeVar leafVar choiceVar (varOf nodeVar id) node)
      ↔ a (varOf nodeVar id) = node.value w (fun child => a (varOf nodeVar child)) := by
  have hself := varOf_mem ((h.nodeKeys id).mpr hid)
  refine satisfies_nodeGate (h.node_range hself).1 ?_ ?_ ?_ ?_
  · intro child hc
    exact (h.node_range (varOf_mem ((h.nodeKeys child).mpr
      (hid.child ⟨node, hnode, hc⟩)))).1
  · intro l hl
    have hm := varOf_mem ((h.leafKeys l).mpr ⟨id, hid, node, hnode, hl⟩)
    exact ⟨(h.leaf_range hm).1, leaf l _ hm⟩
  · intro var hv
    have hm := varOf_mem ((h.choiceKeys var).mpr ⟨id, hid, node, hnode, hv⟩)
    exact ⟨(h.choice_range hm).1, choice var _ hm⟩
  · rintro l rfl
    exact (varOf_eq h.leafDistinct (h.shared id _ l hself hnode)).symm

/-- A model of the gates that extends a world gives every node its value: the value
equations of an acyclic graph have one solution.
-/
theorem model_eval (acyclic : Acyclic g.Edge) (wf : g.WellFormed)
    (inside : ∀ root ∈ roots, root < g.len) {w : World} {a : Assignment}
    (equations : ∀ id, g.Reachable roots id → ∀ node, g.node id = some node →
      a (varOf nodeVar id) = node.value w (fun child => a (varOf nodeVar child)))
    : ∀ id, g.Reachable roots id → a (varOf nodeVar id) = g.eval w id := by
  refine solution_unique (PirGraph.wellFounded_edge acyclic)
    (fun f id => ((g.node id).map (·.value w f)).getD false) (g.Reachable roots)
    (fun _ _ hx he => hx.child he) ?_ (fun id => a (varOf nodeVar id)) (g.eval w) ?_ ?_
  · intro f f' id agree
    cases hnode : g.node id with
    | none => rfl
    | some node =>
        simp only [Option.map_some, Option.getD_some]
        exact PirNode.value_congr fun child hc => agree child ⟨node, hnode, hc⟩
  · intro id hid
    obtain ⟨node, hnode⟩ := PirGraph.node_of_lt (wf.reachable_lt inside hid)
    simp only [hnode, Option.map_some, Option.getD_some]
    exact equations id hid node hnode
  · intro id hid
    obtain ⟨node, hnode⟩ := PirGraph.node_of_lt (wf.reachable_lt inside hid)
    simp only [hnode, Option.map_some, Option.getD_some]
    exact PirGraph.eval_eq acyclic w hnode

/-- Literals of a gate name variables in range. -/
theorem Numbering.gate_inRange (h : Numbering g roots numVars nodeVar leafVar choiceVar)
    {id : PirNodeId} (hid : g.Reachable roots id) {node : PirNode}
    (hnode : g.node id = some node)
    : InRange numVars (nodeGate nodeVar leafVar choiceVar (varOf nodeVar id) node) := by
  have hself := h.node_range (varOf_mem ((h.nodeKeys id).mpr hid))
  have hchild : ∀ child ∈ node.children,
      1 ≤ varOf nodeVar child ∧ varOf nodeVar child ≤ numVars := fun child hc =>
    h.node_range (varOf_mem ((h.nodeKeys child).mpr (hid.child ⟨node, hnode, hc⟩)))
  have hmany : ∀ children', children' = node.children → ∀ x ∈ children'.map (varOf nodeVar),
      1 ≤ x ∧ x ≤ numVars := by
    rintro _ rfl x hx
    obtain ⟨child, hc, rfl⟩ := List.mem_map.mp hx
    exact hchild child hc
  intro clause hc lit hl
  cases node with
  | const b =>
      rw [constGate_mentions hc hl]
      exact hself
  | lit l => simp [nodeGate] at hc
  | negLit l =>
      have hleaf := h.leaf_range (varOf_mem ((h.leafKeys l).mpr ⟨id, hid, _, hnode, .inr rfl⟩))
      rcases notGate_mentions hc hl with he | he <;> rw [he]
      · exact hself
      · exact hleaf
  | and children =>
      rcases andGate_mentions hc hl with he | he
      · rw [he]
        exact hself
      · exact hmany children rfl _ he
  | or children =>
      rcases orGate_mentions hc hl with he | he
      · rw [he]
        exact hself
      · exact hmany children rfl _ he
  | decision var childFalse childTrue =>
      have hx := h.choice_range
        (varOf_mem ((h.choiceKeys var).mpr ⟨id, hid, _, hnode, ⟨_, _, rfl⟩⟩))
      rcases iteGate_mentions hc hl with he | he | he | he <;> rw [he]
      · exact hself
      · exact hx
      · exact hchild childFalse (by simp [PirNode.children])
      · exact hchild childTrue (by simp [PirNode.children])

/-- An encoding whose clauses are the gates of the reachable nodes is correct. -/
theorem Numbering.encodingOk (acyclic : Acyclic g.Edge) (wf : g.WellFormed)
    (inside : ∀ root ∈ roots, root < g.len)
    (h : Numbering g roots numVars nodeVar leafVar choiceVar) {levels : List PirNodeId}
    (complete : ∀ id, id ∈ levels ↔ g.Reachable roots id) {clauses : List (List Clause)}
    (gates : List.Forall₂ (fun id cs => ∀ node, g.node id = some node →
      cs = nodeGate nodeVar leafVar choiceVar (varOf nodeVar id) node) levels clauses)
    : EncodingOk g roots ⟨⟨numVars, clauses.flatten⟩, nodeVar, leafVar, choiceVar⟩ := by
  have hcs : ∀ cs ∈ clauses, ∃ id node, g.Reachable roots id ∧ g.node id = some node ∧
      cs = nodeGate nodeVar leafVar choiceVar (varOf nodeVar id) node := by
    intro cs hm
    obtain ⟨i, hi, rfl⟩ := List.getElem_of_mem hm
    have hlt : i < levels.length := gates.length_eq ▸ hi
    have hr := (complete _).mp (List.getElem_mem hlt)
    obtain ⟨node, hnode⟩ := PirGraph.node_of_lt (wf.reachable_lt inside hr)
    exact ⟨levels[i], node, hr, hnode, gates.get hlt hi node hnode⟩
  have hsat : ∀ a, Satisfies a clauses.flatten ↔ ∀ id, g.Reachable roots id → ∀ node,
      g.node id = some node →
      Satisfies a (nodeGate nodeVar leafVar choiceVar (varOf nodeVar id) node) := by
    intro a
    constructor
    · intro hs id hid node hnode clause hc
      obtain ⟨i, hi, rfl⟩ := List.getElem_of_mem ((complete id).mpr hid)
      have hlt : i < clauses.length := gates.length_eq ▸ hi
      refine hs clause (List.mem_flatten.mpr ⟨clauses[i], List.getElem_mem hlt, ?_⟩)
      have heq : clauses[i] = nodeGate nodeVar leafVar choiceVar (varOf nodeVar levels[i]) node :=
        gates.get hi hlt node hnode
      rwa [heq]
    · intro hs clause hc
      obtain ⟨cs, hm, hc⟩ := List.mem_flatten.mp hc
      obtain ⟨id, node, hid, hnode, rfl⟩ := hcs cs hm
      exact hs id hid node hnode clause hc
  have hnodup : (leafVar.map Prod.snd ++ choiceVar.map Prod.snd).Nodup := by
    have := List.nodup_range' (s := 1) (n := numVars)
    rw [← h.consecutive] at this
    exact (List.nodup_append.mp this).1
  refine ⟨?_, h.leafKeys, h.choiceKeys, h.nodeKeys, by simpa using hnodup, ?_, ?_⟩
  · intro clause hc
    obtain ⟨cs, hm, hc⟩ := List.mem_flatten.mp hc
    obtain ⟨id, node, hid, hnode, rfl⟩ := hcs cs hm
    exact h.gate_inRange hid hnode clause hc
  · intro id v hm
    simp only [List.mem_append] at hm
    rcases hm with (hm | hm) | hm
    · exact h.leaf_range hm
    · exact h.choice_range hm
    · exact h.node_range hm
  · intro w
    have hleaf : ∀ id v, (id, v) ∈ leafVar →
        intendedModel g nodeVar leafVar choiceVar w v = w.leaf id :=
      fun id v hm => h.intendedModel_owner w (mem_ownerTable_leaf.mpr hm)
    have hchoice : ∀ id v, (id, v) ∈ choiceVar →
        intendedModel g nodeVar leafVar choiceVar w v = w.choice id :=
      fun id v hm => h.intendedModel_owner w (mem_ownerTable_choice.mpr hm)
    have hnodes := fun id (hid : g.Reachable roots id) =>
      h.intendedModel_node acyclic w (varOf_mem ((h.nodeKeys id).mpr hid))
    refine ⟨intendedModel g nodeVar leafVar choiceVar w, ⟨hleaf, hchoice⟩, ?_,
      fun id v hm => h.intendedModel_node acyclic w hm, ?_⟩
    · refine (hsat _).mpr fun id hid node hnode => ?_
      rw [h.gates_iff hleaf hchoice hid hnode, hnodes id hid,
        PirGraph.eval_eq acyclic w hnode]
      exact PirNode.value_congr fun child hc =>
        (hnodes child (hid.child ⟨node, hnode, hc⟩)).symm
    · intro a' hext hs v low high
      have heval := model_eval acyclic wf inside (w := w) (a := a') fun id hid node hnode =>
        (h.gates_iff hext.leaf hext.choice hid hnode).mp ((hsat a').mp hs id hid node hnode)
      obtain ⟨owner, ho⟩ := h.exists_owner low high
      rw [h.intendedModel_owner w ho]
      cases owner with
      | leaf id => exact hext.leaf id v (mem_ownerTable_leaf.mp ho)
      | choice id => exact hext.choice id v (mem_ownerTable_choice.mp ho)
      | node id =>
          obtain ⟨hm, _⟩ := mem_ownerTable_node.mp ho
          have hid := (h.nodeKeys id).mp (List.mem_map_of_mem (f := Prod.fst) hm)
          rw [← varOf_eq h.nodeDistinct hm]
          exact heval id hid

end Models

-- At and above the literal bound

section Overflow

variable {g : PirGraph} {roots : List PirNodeId} {numVars : Nat}
variable {nodeVar leafVar choiceVar : List (Nat × Nat)}

/-- When some reachable node owns a variable, the last variable is owned by a node. -/
theorem Numbering.last_owner (h : Numbering g roots numVars nodeVar leafVar choiceVar)
    (owners : ∃ id, id ∈ g.ownersBelow roots)
    : ∃ id, (id, numVars) ∈ nodeVar ∧ g.ownsVar id = true := by
  obtain ⟨id, hid, hown⟩ := owners
  have hmem : (id, varOf nodeVar id) ∈ nodeVar.filter fun p => g.ownsVar p.1 :=
    List.mem_filter.mpr ⟨varOf_mem ((h.nodeKeys id).mpr hid), hown⟩
  have hpos := (h.node_range (List.mem_of_mem_filter hmem))
  obtain ⟨n, rfl⟩ := Nat.exists_eq_add_one_of_ne_zero (by omega : numVars ≠ 0)
  rcases List.eq_nil_or_concat (nodeVar.filter fun p => g.ownsVar p.1) with hnil | ⟨init, p, hc⟩
  · simp [hnil] at hmem
  · have hseq := h.consecutive
    rw [hc, List.map_concat, List.concat_eq_append, ← List.append_assoc,
      List.range'_1_concat] at hseq
    have hlast := List.append_inj_right' hseq rfl
    have hp : p ∈ nodeVar.filter fun p => g.ownsVar p.1 := by simp [hc]
    obtain ⟨hp, howned⟩ := List.mem_filter.mp hp
    obtain ⟨last, v⟩ := p
    obtain rfl : v = 1 + n := by simpa using hlast
    exact ⟨last, by simpa only [Nat.add_comm n 1] using hp, howned⟩

/-- From `2^31` variables on, with a node owning the last one, the encoding is wrong: that
variable is free, or its literal is read with the opposite sign.
-/
theorem Numbering.not_encodingOk (acyclic : Acyclic g.Edge)
    (h : Numbering g roots numVars nodeVar leafVar choiceVar) {levels : List PirNodeId}
    (complete : ∀ id, id ∈ levels ↔ g.Reachable roots id) {clauses : List (List Clause)}
    (run : levels.mapM (nodeClauses g nodeVar leafVar choiceVar) = .ok clauses)
    (fits : numVars + 1 < u32Bound) (large : i32Bound ≤ numVars)
    (owners : ∃ id, id ∈ g.ownersBelow roots)
    : ¬ EncodingOk g roots ⟨⟨numVars, clauses.flatten⟩, nodeVar, leafVar, choiceVar⟩ := by
  intro hok
  obtain ⟨last, hlast, hown⟩ := h.last_owner owners
  have hpos := (h.node_range hlast).1
  obtain ⟨a, hext, hsat, heval, hunique⟩ := hok.model ⟨fun _ => false, fun _ => false⟩
  rcases Nat.lt_or_eq_of_le large with hgt | heq
  · -- the last variable occurs in no clause, so flipping it gives a second model
    have hsmall : ∀ clause ∈ clauses.flatten, ∀ lit ∈ clause, lit.natAbs ≤ i32Bound := by
      intro clause hc
      obtain ⟨cs, hm, hc⟩ := List.mem_flatten.mp hc
      obtain ⟨id, _, hrun⟩ := exists_of_mem_mapM run hm
      refine nodeClauses_natAbs ?_ ?_ ?_ hrun clause hc <;> intro id v hv
      · have := (h.node_range hv).2
        omega
      · have := (h.leaf_range hv).2
        omega
      · have := (h.choice_range hv).2
        omega
    have howner : (numVars, CnfOwner.node last) ∈ ownerTable g nodeVar leafVar choiceVar :=
      mem_ownerTable_node.mpr ⟨hlast, hown⟩
    let flipped := Function.update a numVars (!a numVars)
    have hother : ∀ v, v ≠ numVars → flipped v = a v := fun v hv => Function.update_of_ne hv _ _
    have hagree : Satisfies flipped clauses.flatten := by
      refine (satisfies_congr fun clause hc lit hl => ?_).mpr hsat
      have := hsmall clause hc lit hl
      exact hother _ (by omega)
    have hext' : Extends ⟨⟨numVars, clauses.flatten⟩, nodeVar, leafVar, choiceVar⟩
        ⟨fun _ => false, fun _ => false⟩ flipped := by
      constructor
      · intro id v hv
        rw [hother v, hext.leaf id v hv]
        rintro rfl
        simpa using h.owner_unique (mem_ownerTable_leaf.mpr hv) howner
      · intro id v hv
        rw [hother v, hext.choice id v hv]
        rintro rfl
        simpa using h.owner_unique (mem_ownerTable_choice.mpr hv) howner
    have := hunique flipped hext' hagree numVars hpos le_rfl
    simp [flipped] at this
  · -- the last literal is the least `i32`: it reads as the complement of its variable
    subst heq
    have hin : last ∈ levels :=
      (complete last).mpr ((h.nodeKeys last).mp (List.mem_map_of_mem (f := Prod.fst) hlast))
    obtain ⟨cs, hm, hrun⟩ := exists_result_of_mapM run hin
    obtain ⟨rfl, node, hnode, htrue⟩ :=
      nodeClauses_least (lookup_of_mem h.nodeDistinct hlast) hown hrun
    have hvalue : a i32Bound = true := by
      rw [heval last _ hlast, PirGraph.eval_eq acyclic _ hnode, htrue]
    have hclause := hsat [-(i32Bound : Int)] (List.mem_flatten.mpr ⟨_, hm, by simp⟩)
    simp [hvalue] at hclause

end Overflow

-- The bound

/-- The encoder yields a correct encoding of a root set. -/
def EncodesExactly (g : PirGraph) (roots : List PirNodeId) : Prop :=
  ∃ e, encodeCnf g roots = .ok e ∧ EncodingOk g roots e

/-- Every variable fits a signed literal, or no clause is needed and the counter fits. -/
def LiteralsFit (g : PirGraph) (roots : List PirNodeId) : Prop :=
  g.varDemand roots < i32Bound
  ∨ g.ownersBelow roots = ∅ ∧ g.varDemand roots + 1 < u32Bound

/-- While the literals fit, every emitted clause set is a gate. -/
theorem encodesExactly_of_fit {g : PirGraph} (acyclic : Acyclic g.Edge) (wf : g.WellFormed)
    {roots : List PirNodeId} (nonempty : roots ≠ []) (inside : ∀ root ∈ roots, root < g.len)
    (fit : LiteralsFit g roots)
    : EncodesExactly g roots := by
  have hcount : g.varDemand roots + 1 < u32Bound := by
    rcases fit with hlt | ⟨_, hlt⟩
    · simp only [i32Bound, u32Bound] at *
      omega
    · exact hlt
  have hrun := encodeCnf_run acyclic wf nonempty inside
  rw [if_pos hcount] at hrun
  obtain ⟨nodeVar, leafVar, choiceVar, levels, h, complete, hrun⟩ := hrun
  have hgate : ∀ id ∈ levels, ∃ node, g.node id = some node ∧
      nodeClauses g nodeVar leafVar choiceVar id
        = .ok (nodeGate nodeVar leafVar choiceVar (varOf nodeVar id) node) := by
    intro id hid
    have hr := (complete id).mp hid
    obtain ⟨node, hnode⟩ := PirGraph.node_of_lt (wf.reachable_lt inside hr)
    refine ⟨node, hnode, ?_⟩
    rcases fit with hlt | ⟨hnone, _⟩
    · have hnode' : ∀ x, g.Reachable roots x → Fits nodeVar x := fun x hx =>
        have hm := varOf_mem ((h.nodeKeys x).mpr hx)
        ⟨_, lookup_of_mem h.nodeDistinct hm, (h.node_range hm).2.trans_lt hlt⟩
      exact nodeClauses_eq hnode {
        self := hnode' id hr
        children := fun child hc => hnode' child (hr.child ⟨node, hnode, hc⟩)
        leaf := fun l hl =>
          have hm := varOf_mem ((h.leafKeys l).mpr ⟨id, hr, node, hnode, hl⟩)
          ⟨_, lookup_of_mem h.leafDistinct hm, (h.leaf_range hm).2.trans_lt hlt⟩
        choice := fun var hv =>
          have hm := varOf_mem ((h.choiceKeys var).mpr ⟨id, hr, node, hnode, hv⟩)
          ⟨_, lookup_of_mem h.choiceDistinct hm, (h.choice_range hm).2.trans_lt hlt⟩ }
    · have hlit : g.ownsVar id ≠ true := fun hown =>
        (Set.eq_empty_iff_forall_notMem.mp hnone id) ⟨hr, hown⟩
      have hl := lookup_of_mem h.nodeDistinct (varOf_mem ((h.nodeKeys id).mpr hr))
      cases node with
      | lit leaf => simp [nodeClauses, hnode, literalOf, hl, nodeGate]
      | const _ | negLit _ | and _ | or _ | decision _ _ _ =>
          simp [PirGraph.ownsVar, hnode] at hlit
  obtain ⟨clauses, hclauses, hforall⟩ : ∃ clauses,
      levels.mapM (nodeClauses g nodeVar leafVar choiceVar) = .ok clauses
      ∧ List.Forall₂ (fun id cs => ∀ node, g.node id = some node →
          cs = nodeGate nodeVar leafVar choiceVar (varOf nodeVar id) node) levels clauses := by
    have hmap := mapM_ok (nodeClauses g nodeVar leafVar choiceVar)
      (fun id => ((g.node id).map
        (nodeGate nodeVar leafVar choiceVar (varOf nodeVar id))).getD [])
      levels fun id hid => by
        obtain ⟨node, hnode, hc⟩ := hgate id hid
        simpa [hnode] using hc
    refine ⟨_, hmap, List.forall₂_map_right_iff.mpr (List.forall₂_same.mpr ?_)⟩
    intro id _ node hnode
    simp [hnode]
  refine ⟨_, by rw [hrun, hclauses]; rfl, h.encodingOk acyclic wf inside complete hforall⟩

/-- When the literals do not fit, the encoder overflows or its encoding is wrong. -/
theorem not_encodesExactly_of_not_fit {g : PirGraph} (acyclic : Acyclic g.Edge)
    (wf : g.WellFormed) {roots : List PirNodeId} (nonempty : roots ≠ [])
    (inside : ∀ root ∈ roots, root < g.len) (unfit : ¬ LiteralsFit g roots)
    : ¬ EncodesExactly g roots := by
  rintro ⟨e, he, hok⟩
  have hrun := encodeCnf_run acyclic wf nonempty inside
  split at hrun
  · next hcount =>
      obtain ⟨nodeVar, leafVar, choiceVar, levels, h, complete, hrun⟩ := hrun
      obtain ⟨clauses, hclauses, hret⟩ := bind_eq_ok.mp (hrun.symm.trans he)
      obtain rfl := Except.ok.inj hret
      simp only [LiteralsFit, not_or, not_lt, not_and] at unfit
      have howners : ∃ id, id ∈ g.ownersBelow roots := by
        by_contra hnone
        have hempty := Set.eq_empty_iff_forall_notMem.mpr fun id hid => hnone ⟨id, hid⟩
        exact absurd hcount (not_lt.mpr (unfit.2 hempty))
      exact h.not_encodingOk acyclic complete hclauses hcount unfit.1 howners hok
  · obtain ⟨err, hrun⟩ := hrun
    rw [hrun] at he
    simp at he

/-- The encoding of a well-formed acyclic graph is correct exactly when its literals fit. -/
theorem encodesExactly_iff_literalsFit {g : PirGraph} (acyclic : Acyclic g.Edge)
    (wf : g.WellFormed) {roots : List PirNodeId} (nonempty : roots ≠ [])
    (inside : ∀ root ∈ roots, root < g.len)
    : EncodesExactly g roots ↔ LiteralsFit g roots :=
  ⟨fun h => by_contra fun unfit =>
      not_encodesExactly_of_not_fit acyclic wf nonempty inside unfit h,
    encodesExactly_of_fit acyclic wf nonempty inside⟩

/-- A conjunction of a literal and its complement fits. -/
theorem encodesExactly_iff_literalsFit_contradiction
    : EncodesExactly ⟨[.lit 3, .negLit 3, .and [0, 1]]⟩ [2]
      ↔ LiteralsFit ⟨[.lit 3, .negLit 3, .and [0, 1]]⟩ [2] :=
  have backward : PirGraph.Backward ⟨[.lit 3, .negLit 3, .and [0, 1]]⟩ := by decide
  encodesExactly_iff_literalsFit backward.acyclic backward.wellFormed (by decide) (by decide)

/-- A graph of true constants, each of them a root. -/
def trueConstants (count : Nat) : PirGraph :=
  ⟨List.replicate count (.const true)⟩

theorem trueConstants_backward (count : Nat) : (trueConstants count).Backward := by
  intro id h child hc
  simp [trueConstants, PirNode.children] at hc

theorem trueConstants_node {count id : Nat} (h : id < count)
    : (trueConstants count).node id = some (.const true) := by
  simp [trueConstants, PirGraph.node, h]

theorem trueConstants_varDemand (count : Nat)
    : count ≤ (trueConstants count).varDemand (List.range count) := by
  have howners : (trueConstants count).ownersBelow (List.range count) = Set.Iio count := by
    ext id
    constructor
    · rintro ⟨hr, _⟩
      simpa [trueConstants, PirGraph.len] using
        (trueConstants_backward count).wellFormed.reachable_lt
          (by simp [trueConstants, PirGraph.len]) hr
    · intro hlt
      exact ⟨.root (List.mem_range.mpr hlt),
        by simp [PirGraph.ownsVar, trueConstants_node hlt]⟩
  have hcard : (Set.Iio count).ncard = count := by
    rw [Set.ncard_eq_toFinset_card']
    simp
  simp only [PirGraph.varDemand, howners, hcard]
  omega

theorem trueConstants_not_fit {count : Nat} (large : i32Bound ≤ count)
    : ¬ LiteralsFit (trueConstants count) (List.range count) := by
  have hdemand := trueConstants_varDemand count
  have hpos : 0 < i32Bound := by decide
  rintro (hlt | ⟨hnone, _⟩)
  · omega
  · have hzero : 0 < count := hpos.trans_le large
    exact Set.eq_empty_iff_forall_notMem.mp hnone 0
      ⟨.root (List.mem_range.mpr hzero), by simp [PirGraph.ownsVar, trueConstants_node hzero]⟩

/-- `2^31` true constants as roots: acyclic and well-formed, but encoded wrongly. -/
theorem trueConstants_not_encodesExactly
    : (trueConstants i32Bound).Backward
      ∧ List.range i32Bound ≠ []
      ∧ (∀ root ∈ List.range i32Bound, root < (trueConstants i32Bound).len)
      ∧ ¬ EncodesExactly (trueConstants i32Bound) (List.range i32Bound) := by
  have backward := trueConstants_backward i32Bound
  have nonempty : List.range i32Bound ≠ [] := by
    rw [Ne, List.range_eq_nil]
    decide
  have inside : ∀ root ∈ List.range i32Bound, root < (trueConstants i32Bound).len := by
    intro root hr
    simpa only [trueConstants, PirGraph.len, List.length_replicate] using List.mem_range.mp hr
  exact ⟨backward, nonempty, inside, not_encodesExactly_of_not_fit backward.acyclic
    backward.wellFormed nonempty inside (trueConstants_not_fit le_rfl)⟩

end Xlog.Prob
