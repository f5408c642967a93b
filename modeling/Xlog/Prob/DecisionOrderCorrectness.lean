import Xlog.Prob.DecisionOrder

/-! The decision-order hint renumbers the variables bijectively and changes no weighted count.
It fails exactly on tables that describe a variable the rest of the provenance does not have.
-/

namespace Xlog.Prob.DecisionOrder

open Xlog.Core Xlog.Logic Xlog.Foundation

variable {P : Type}

-- Fanout

theorem length_countRef {refs next : List Nat} {child : PirNodeId}
    (h : countRef refs child = some next)
    : next.length = refs.length := by
  obtain ⟨_, _, rfl⟩ := Option.map_eq_some_iff.mp h
  exact List.length_set

theorem isSome_countRef {refs : List Nat} {child : PirNodeId}
    : (countRef refs child).isSome ↔ child < refs.length := by
  simp [countRef]

theorem length_of_countRefs {children : List PirNodeId} {refs next : List Nat}
    (h : children.foldlM countRef refs = some next)
    : next.length = refs.length :=
  foldlM_some_inv (fun _ state => state.length = refs.length) rfl
    (fun _ _ _ _ _ hlen hone => (length_countRef hone).trans hlen) h

theorem isSome_countRefs {children : List PirNodeId} {refs : List Nat}
    : (children.foldlM countRef refs).isSome ↔ ∀ child ∈ children, child < refs.length :=
  isSome_foldlM_iff (fun state => state.length = refs.length)
    (fun _ _ _ hlen hone => (length_countRef hone).trans hlen)
    (fun state child hlen => by rw [isSome_countRef, hlen]) children rfl

theorem length_nodeRefs {nodes : List PirNode} {refs : List Nat} (h : nodeRefs nodes = some refs)
    : refs.length = nodes.length :=
  foldlM_some_inv (fun _ state => state.length = nodes.length) List.length_replicate
    (fun _ _ _ _ _ hlen hone => (length_of_countRefs hone).trans hlen) h

/-- Fanouts are counted exactly when every reference stays inside the arena. -/
theorem isSome_nodeRefs {nodes : List PirNode}
    : (nodeRefs nodes).isSome ↔ PirGraph.WellFormed ⟨nodes⟩ :=
  isSome_foldlM_iff (fun state => state.length = nodes.length)
    (fun _ _ _ hlen hone => (length_of_countRefs hone).trans hlen)
    (fun state node hlen => by rw [isSome_countRefs, hlen]; rfl) nodes List.length_replicate

/-- Scoring adds the variables of the nodes, by list induction. -/
theorem foldlM_scoreNode {varOf : PirNode → Option Nat} {refs : List Nat}
    {entries : List (PirNode × Nat)} (inside : ∀ entry ∈ entries, entry.2 < refs.length)
    (start : Std.TreeMap Nat Nat)
    : ∃ scored, entries.foldlM (scoreNode varOf refs) start = some scored
        ∧ ∀ var, var ∈ scored ↔ var ∈ start ∨ ∃ entry ∈ entries, varOf entry.1 = some var := by
  induction entries generalizing start with
  | nil => exact ⟨start, rfl, by simp⟩
  | cons entry rest ih =>
      have hrest := fun e he => inside e (List.mem_cons_of_mem _ he)
      rw [List.foldlM_cons, scoreNode]
      cases hvar : varOf entry.1 with
      | none =>
          obtain ⟨scored, heq, hmem⟩ := ih hrest start
          exact ⟨scored, heq, fun var => by simp [hmem, hvar]⟩
      | some var =>
          have hlt := inside entry (by simp)
          rw [List.getElem?_eq_getElem hlt]
          obtain ⟨scored, heq, hmem⟩ := ih hrest
            (start.alter var fun score => some (score.getD 0 + refs[entry.2]))
          refine ⟨scored, heq, fun other => ?_⟩
          rw [hmem, Std.TreeMap.mem_alter]
          by_cases ho : var = other
          · simp [ho, hvar]
          · simp [ho, hvar]

/-- Every known variable and every variable of a node gets a score, and nothing else does. -/
theorem scores_spec {varOf : PirNode → Option Nat} {known : List Nat} {nodes : List PirNode}
    {refs : List Nat} (sized : refs.length = nodes.length)
    : ∃ scored, scores varOf known nodes refs = some scored
        ∧ ∀ var, var ∈ scored ↔ var ∈ known ++ nodes.filterMap varOf := by
  have hinside : ∀ entry ∈ nodes.zipIdx, entry.2 < refs.length := by
    intro entry he
    have := List.mem_zipIdx he
    omega
  obtain ⟨scored, heq, hmem⟩ := @foldlM_scoreNode varOf _ _ hinside
    (Std.TreeMap.ofList (known.map fun var => (var, 0)))
  refine ⟨scored, heq, fun var => ?_⟩
  rw [hmem, Std.TreeMap.mem_ofList, List.mem_append, List.mem_filterMap]
  have hknown : ((known.map fun var => (var, 0)).map Prod.fst).contains var ↔ var ∈ known := by
    simp [Function.comp_def]
  have hnodes : (∃ entry ∈ nodes.zipIdx, varOf entry.1 = some var)
      ↔ ∃ node ∈ nodes, varOf node = some var := by
    constructor
    · rintro ⟨entry, he, hvar⟩
      have hmem := List.mem_map_of_mem (f := Prod.fst) he
      rw [List.zipIdx_map_fst] at hmem
      exact ⟨entry.1, hmem, hvar⟩
    · rintro ⟨node, hnode, hvar⟩
      obtain ⟨i, hi, rfl⟩ := List.mem_iff_getElem.mp hnode
      exact ⟨(nodes[i], i), List.mk_mem_zipIdx_iff_getElem?.mpr (List.getElem?_eq_getElem hi), hvar⟩
  rw [hknown, hnodes]

-- Ranks

theorem ranked_perm (scores : Std.TreeMap Nat Nat)
    : (ranked scores).Perm scores.keys := by
  rw [ranked, ← Std.TreeMap.map_fst_toList_eq_keys]
  exact (List.perm_insertionSort Before scores.toList).map Prod.fst

theorem mem_rankMap {scores : Std.TreeMap Nat Nat} {var : Nat}
    : var ∈ rankMap scores ↔ var ∈ scores := by
  rw [rankMap, mem_positionNames, (ranked_perm scores).mem_iff, Std.TreeMap.mem_keys]

/-- The scored variables are renumbered densely from zero. -/
theorem bijOn_rankMap {scores : Std.TreeMap Nat Nat} (fits : ∀ var ∈ scores, var < 2 ^ 32)
    : Set.BijOn (nameOf (rankMap scores)) {var | var ∈ scores}
        (Set.Iio (ranked scores).length) := by
  have hmem (var : Nat) : var ∈ ranked scores ↔ var ∈ scores := by
    rw [(ranked_perm scores).mem_iff, Std.TreeMap.mem_keys]
  have hbij := @bijOn_positionNames 32 (ranked scores)
    ((ranked_perm scores).nodup_iff.mpr Std.TreeMap.nodup_keys)
    fun var hvar => fits var ((hmem var).mp hvar)
  simpa only [hmem, rankMap] using hbij

-- Formulas over renamed variables

section Renaming

variable {leafName : LeafId → LeafId} {choiceName : ChoiceVarId → ChoiceVarId}

@[simp] theorem children_renameNode (node : PirNode)
    : (renameNode leafName choiceName node).children = node.children := by
  cases node <;> rfl

@[simp] theorem leafOf_renameNode (node : PirNode)
    : leafOf (renameNode leafName choiceName node) = (leafOf node).map leafName := by
  cases node <;> rfl

@[simp] theorem choiceOf_renameNode (node : PirNode)
    : choiceOf (renameNode leafName choiceName node) = (choiceOf node).map choiceName := by
  cases node <;> rfl

variable {w w' : World}

/-- A renamed node reads in the renamed world what the node reads. -/
theorem value_renameNode {node : PirNode} (f : PirNodeId → Bool)
    (leaves : ∀ leaf, leafOf node = some leaf → w'.leaf (leafName leaf) = w.leaf leaf)
    (choices : ∀ var, choiceOf node = some var → w'.choice (choiceName var) = w.choice var)
    : (renameNode leafName choiceName node).value w' f = node.value w f := by
  cases node with
  | const _ | and _ | or _ => rfl
  | lit leaf | negLit leaf => simp only [renameNode, PirNode.value, leaves leaf rfl]
  | decision var childFalse childTrue =>
      simp only [renameNode, PirNode.value, choices var rfl]

/-- Every formula means in the renamed world what it meant, by induction on the fuel. -/
theorem evalFuel_rename {nodes : List PirNode}
    (leaves : ∀ leaf ∈ nodes.filterMap leafOf, w'.leaf (leafName leaf) = w.leaf leaf)
    (choices : ∀ var ∈ nodes.filterMap choiceOf, w'.choice (choiceName var) = w.choice var)
    (fuel : Nat) (id : PirNodeId)
    : PirGraph.evalFuel ⟨nodes.map (renameNode leafName choiceName)⟩ w' fuel id
      = PirGraph.evalFuel ⟨nodes⟩ w fuel id := by
  induction fuel generalizing id with
  | zero => rfl
  | succ fuel ih =>
      simp only [PirGraph.evalFuel, PirGraph.node, List.getElem?_map]
      cases hnode : nodes[id]? with
      | none => rfl
      | some node =>
          have hmem := List.mem_of_getElem? hnode
          rw [Option.map_some]
          simp only [funext ih]
          exact value_renameNode _
            (fun leaf hleaf => leaves leaf (List.mem_filterMap.mpr ⟨node, hmem, hleaf⟩))
            (fun var hvar => choices var (List.mem_filterMap.mpr ⟨node, hmem, hvar⟩))

end Renaming

-- Renumbered provenances

section Renumber

variable {provenance hinted : Provenance P} {leafMap choiceMap : Std.TreeMap Nat Nat}

theorem mem_leaves {leaf : LeafId}
    : leaf ∈ provenance.leaves
      ↔ leaf ∈ provenance.leafProbs ∨ leaf ∈ provenance.pir.nodes.filterMap leafOf := by
  rw [Provenance.leaves, List.mem_toFinset, List.mem_append, Std.TreeMap.mem_keys]

theorem mem_choices {var : ChoiceVarId}
    : var ∈ provenance.choices
      ↔ var ∈ provenance.choiceProbs ∨ var ∈ provenance.pir.nodes.filterMap choiceOf := by
  rw [Provenance.choices, List.mem_toFinset, List.mem_append, Std.TreeMap.mem_keys]

/-- What the maps must be for a rewrite: names for the variables, and distinct ones. -/
structure Covers (leafMap choiceMap : Std.TreeMap Nat Nat) (provenance : Provenance P) : Prop where
  leaves : ∀ leaf, leaf ∈ leafMap ↔ leaf ∈ provenance.leaves
  choices : ∀ var, var ∈ choiceMap ↔ var ∈ provenance.choices

theorem renumber_eq_some
    : renumber leafMap choiceMap provenance = some hinted
      ↔ renameKeys leafMap provenance.leafProbs = some hinted.leafProbs
        ∧ renameKeys leafMap provenance.leafAtoms = some hinted.leafAtoms
        ∧ renameKeys choiceMap provenance.choiceProbs = some hinted.choiceProbs
        ∧ renameKeys choiceMap provenance.choiceSources = some hinted.choiceSources
        ∧ hinted.pir.nodes
          = provenance.pir.nodes.map (renameNode (nameOf leafMap) (nameOf choiceMap))
        ∧ hinted.tupleFormulas = provenance.tupleFormulas
        ∧ hinted.queries = provenance.queries ∧ hinted.evidence = provenance.evidence
        ∧ hinted.aggregateLifting = provenance.aggregateLifting
        ∧ hinted.schemas = provenance.schemas := by
  simp only [renumber, Option.bind_eq_bind, Option.bind_eq_some_iff, Option.some.injEq]
  constructor
  · rintro ⟨_, hleaf, _, hatoms, _, hchoice, _, hsources, rfl⟩
    exact ⟨hleaf, hatoms, hchoice, hsources, rfl, rfl, rfl, rfl, rfl, rfl⟩
  · rintro ⟨hleaf, hatoms, hchoice, hsources, hnodes, htuples, hqueries, hevidence, hlifting,
      hschemas⟩
    refine ⟨_, hleaf, _, hatoms, _, hchoice, _, hsources, ?_⟩
    obtain ⟨⟨nodes⟩, _, _, _, _, _, _, _, _, _⟩ := hinted
    simp only at hnodes htuples hqueries hevidence hlifting hschemas
    simp only [hnodes, htuples, hqueries, hevidence, hlifting, hschemas]

/-- The rewrite succeeds exactly when the maps know every key of the tables. -/
theorem isSome_renumber (covers : Covers leafMap choiceMap provenance)
    : (renumber leafMap choiceMap provenance).isSome
      ↔ (∀ leaf ∈ provenance.leafAtoms, leaf ∈ provenance.leaves)
        ∧ ∀ var ∈ provenance.choiceSources, var ∈ provenance.choices := by
  have hprobs : (renameKeys leafMap provenance.leafProbs).isSome :=
    isSome_renameKeys.mpr fun leaf h => (covers.leaves leaf).mpr (mem_leaves.mpr (.inl h))
  have hchoices : (renameKeys choiceMap provenance.choiceProbs).isSome :=
    isSome_renameKeys.mpr fun var h => (covers.choices var).mpr (mem_choices.mpr (.inl h))
  simp only [← covers.leaves, ← covers.choices]
  rw [← isSome_renameKeys, ← isSome_renameKeys]
  obtain ⟨leafProbs, hprobs⟩ := Option.isSome_iff_exists.mp hprobs
  obtain ⟨choiceProbs, hchoices⟩ := Option.isSome_iff_exists.mp hchoices
  simp only [renumber, hprobs, hchoices, Option.bind_eq_bind, Option.bind_some]
  cases renameKeys leafMap provenance.leafAtoms with
  | none => simp
  | some _ => cases renameKeys choiceMap provenance.choiceSources <;> simp

/-- The variables of renamed nodes and tables are the names of the old ones. -/
theorem toFinset_renamed {varOf : PirNode → Option Nat} {rename : PirNode → PirNode}
    {name : Nat → Nat} {known renamed : List Nat} {nodes : List PirNode}
    (keys : ∀ var, var ∈ renamed ↔ ∃ key ∈ known, name key = var)
    (node : ∀ node, varOf (rename node) = (varOf node).map name)
    : (renamed ++ (nodes.map rename).filterMap varOf).toFinset
      = (known ++ nodes.filterMap varOf).toFinset.image name := by
  have hnodes : (nodes.map rename).filterMap varOf = (nodes.filterMap varOf).map name := by
    rw [List.filterMap_map, List.map_filterMap]
    exact List.filterMap_congr fun n _ => node n
  ext var
  rw [List.mem_toFinset, List.mem_append, hnodes, keys, List.mem_map]
  simp only [Finset.mem_image, List.mem_toFinset, List.mem_append, or_and_right, exists_or]

/-- The leaves of the rewritten provenance are the names of the old ones. -/
theorem leaves_renumber (h : renumber leafMap choiceMap provenance = some hinted)
    : hinted.leaves = provenance.leaves.image (nameOf leafMap) := by
  obtain ⟨hprobs, _, _, _, hnodes, _⟩ := renumber_eq_some.mp h
  rw [Provenance.leaves, hnodes]
  refine toFinset_renamed (fun var => ?_) leafOf_renameNode
  simp only [Std.TreeMap.mem_keys, mem_renameKeys hprobs]

theorem choices_renumber (h : renumber leafMap choiceMap provenance = some hinted)
    : hinted.choices = provenance.choices.image (nameOf choiceMap) := by
  obtain ⟨_, _, hprobs, _, hnodes, _⟩ := renumber_eq_some.mp h
  rw [Provenance.choices, hnodes]
  refine toFinset_renamed (fun var => ?_) choiceOf_renameNode
  simp only [Std.TreeMap.mem_keys, mem_renameKeys hprobs]

/-- A rewrite along maps that cover the variables and keep them apart renumbers them. -/
theorem renumbered_of_renumber (h : renumber leafMap choiceMap provenance = some hinted)
    (covers : Covers leafMap choiceMap provenance) (wf : provenance.pir.WellFormed)
    (leafApart : Set.InjOn (nameOf leafMap) {leaf | leaf ∈ leafMap})
    (choiceApart : Set.InjOn (nameOf choiceMap) {var | var ∈ choiceMap})
    : Renumbered provenance hinted (nameOf leafMap) (nameOf choiceMap) := by
  have hclosed := (isSome_renumber covers).mp (by rw [h]; rfl)
  obtain ⟨hleaf, hatoms, hchoice, hsources, hnodes, htuples, hqueries, hevidence, hlifting,
    hschemas⟩ := renumber_eq_some.mp h
  have hleafDomain : {leaf | leaf ∈ leafMap} = (provenance.leaves : Set LeafId) := by
    ext leaf
    exact covers.leaves leaf
  have hchoiceDomain : {var | var ∈ choiceMap} = (provenance.choices : Set ChoiceVarId) := by
    ext var
    exact covers.choices var
  exact
    { leaves := by
        rw [leaves_renumber h, Finset.coe_image]
        exact (hleafDomain ▸ leafApart).bijOn_image
      choices := by
        rw [choices_renumber h, Finset.coe_image]
        exact (hchoiceDomain ▸ choiceApart).bijOn_image
      nodes := hnodes
      leafProbs := fun leaf hl =>
        getElem?_renameKeys hleaf leafApart ((covers.leaves leaf).mpr hl)
      leafAtoms := fun leaf hl =>
        getElem?_renameKeys hatoms leafApart ((covers.leaves leaf).mpr hl)
      choiceProbs := fun var hv =>
        getElem?_renameKeys hchoice choiceApart ((covers.choices var).mpr hv)
      choiceSources := fun var hv =>
        getElem?_renameKeys hsources choiceApart ((covers.choices var).mpr hv)
      closed :=
        { children := by
            intro node hnode child hchild
            rw [hnodes] at hnode
            obtain ⟨old, hold, rfl⟩ := List.mem_map.mp hnode
            rw [children_renameNode] at hchild
            rw [PirGraph.len, hnodes, List.length_map]
            exact wf old hold child hchild
          leafAtoms := by
            intro name hname
            obtain ⟨leaf, hl, rfl⟩ := (mem_renameKeys hatoms).mp hname
            rw [leaves_renumber h]
            exact Finset.mem_image_of_mem _ (hclosed.1 leaf hl)
          choiceSources := by
            intro name hname
            obtain ⟨var, hv, rfl⟩ := (mem_renameKeys hsources).mp hname
            rw [choices_renumber h]
            exact Finset.mem_image_of_mem _ (hclosed.2 var hv) }
      tupleFormulas := htuples
      queries := hqueries
      evidence := hevidence
      aggregateLifting := hlifting
      schemas := hschemas }

end Renumber

-- Weighted counts

/-- Renumbering changes no weighted count. -/
theorem Renumbered.weightedCount_eq {K : Type*} [CommSemiring K] {provenance hinted : Provenance P}
    {leafName : LeafId → LeafId} {choiceName : ChoiceVarId → ChoiceVarId}
    (h : Renumbered provenance hinted leafName choiceName) (leafWeight : Option P → Bool → K)
    (choiceWeight : Option (P × P) → Bool → K) (id : PirNodeId)
    : hinted.weightedCount leafWeight choiceWeight id
      = provenance.weightedCount leafWeight choiceWeight id := by
  have hleaves : hinted.leaves = provenance.leaves.image leafName := by
    rw [← Finset.coe_inj, Finset.coe_image, h.leaves.image_eq]
  have hchoices : hinted.choices = provenance.choices.image choiceName := by
    rw [← Finset.coe_inj, Finset.coe_image, h.choices.image_eq]
  rw [Provenance.weightedCount, Provenance.weightedCount, hleaves, hchoices]
  apply marginal_image h.leaves.injOn
  · exact fun leaf hl => by rw [h.leafProbs leaf hl]
  · exact fun leaf hl => by rw [h.leafProbs leaf hl]
  intro trueLeaves hsubLeaves
  apply marginal_image h.choices.injOn
  · exact fun var hv => by rw [h.choiceProbs var hv]
  · exact fun var hv => by rw [h.choiceProbs var hv]
  intro trueChoices hsubChoices
  have hlen : hinted.pir.len = provenance.pir.len := by
    rw [PirGraph.len, h.nodes, List.length_map, PirGraph.len]
  have hgraph : hinted.pir = ⟨provenance.pir.nodes.map (renameNode leafName choiceName)⟩ := by
    rw [← h.nodes]
  rw [PirGraph.eval, PirGraph.eval, hlen, hgraph]
  congr 2
  apply evalFuel_rename
  · intro leaf hleaf
    have hmem := mem_leaves.mpr (.inr hleaf)
    simp only [decide_eq_decide]
    rw [← Finset.mem_coe, Finset.coe_image]
    exact h.leaves.injOn.mem_image_iff (Finset.coe_subset.mpr hsubLeaves) hmem
  · intro var hvar
    have hmem := mem_choices.mpr (.inr hvar)
    simp only [decide_eq_decide]
    rw [← Finset.mem_coe, Finset.coe_image]
    exact h.choices.injOn.mem_image_iff (Finset.coe_subset.mpr hsubChoices) hmem

/-- The maps of the hint, on a graph that refers inside itself. -/
theorem applyDecisionOrderHint_eq {provenance : Provenance P} (wf : provenance.pir.WellFormed)
    : ∃ leafScores choiceScores,
        Covers (rankMap leafScores) (rankMap choiceScores) provenance
        ∧ applyDecisionOrderHint provenance
          = renumber (rankMap leafScores) (rankMap choiceScores) provenance := by
  obtain ⟨refs, hrefs⟩ := Option.isSome_iff_exists.mp (isSome_nodeRefs.mpr wf)
  have hlen := length_nodeRefs hrefs
  obtain ⟨leafScores, hleaf, hleafMem⟩ := @scores_spec leafOf
    provenance.leafProbs.keys _ _ hlen
  obtain ⟨choiceScores, hchoice, hchoiceMem⟩ := @scores_spec choiceOf
    provenance.choiceProbs.keys _ _ hlen
  refine ⟨leafScores, choiceScores, ?_, ?_⟩
  · exact
      { leaves := fun leaf => by
          rw [mem_rankMap, hleafMem, Provenance.leaves, List.mem_toFinset]
        choices := fun var => by
          rw [mem_rankMap, hchoiceMem, Provenance.choices, List.mem_toFinset] }
  · simp only [applyDecisionOrderHint, leafScore, choiceScore, hrefs, hleaf, hchoice,
      Option.bind_eq_bind, Option.bind_some]

/-- The hint runs through exactly on closed provenances, and then it is a bijective
renumbering that changes no weighted count.
-/
theorem applyDecisionOrderHint_renumbers {K : Type*} [CommSemiring K]
    (leafWeight : Option P → Bool → K) (choiceWeight : Option (P × P) → Bool → K)
    {provenance : Provenance P} (ids : provenance.Ids32)
    : ((applyDecisionOrderHint provenance).isSome ↔ provenance.Closed)
      ∧ ∀ hinted, applyDecisionOrderHint provenance = some hinted →
          (∃ leafName choiceName, Renumbered provenance hinted leafName choiceName)
          ∧ ∀ id, hinted.weightedCount leafWeight choiceWeight id
              = provenance.weightedCount leafWeight choiceWeight id := by
  by_cases wf : provenance.pir.WellFormed
  · obtain ⟨leafScores, choiceScores, hcovers, heq⟩ := applyDecisionOrderHint_eq wf
    rw [heq]
    constructor
    · rw [isSome_renumber hcovers]
      constructor
      · rintro ⟨hatoms, hsources⟩
        exact ⟨wf, hatoms, hsources⟩
      · intro closed
        exact ⟨closed.leafAtoms, closed.choiceSources⟩
    · intro hinted h
      have hleaves := @bijOn_rankMap leafScores fun leaf hl =>
        ids.leaves leaf ((hcovers.leaves leaf).mp (mem_rankMap.mpr hl))
      have hchoices := @bijOn_rankMap choiceScores fun var hv =>
        ids.choices var ((hcovers.choices var).mp (mem_rankMap.mpr hv))
      have hrenumbered := renumbered_of_renumber h hcovers wf
        (by simpa only [mem_rankMap] using hleaves.injOn)
        (by simpa only [mem_rankMap] using hchoices.injOn)
      exact ⟨⟨_, _, hrenumbered⟩, hrenumbered.weightedCount_eq leafWeight choiceWeight⟩
  · have hnone : applyDecisionOrderHint provenance = none := by
      have hrefs : nodeRefs provenance.pir.nodes = none :=
        Option.not_isSome_iff_eq_none.mp fun h => wf (isSome_nodeRefs.mp h)
      simp only [applyDecisionOrderHint, hrefs, Option.bind_eq_bind, Option.bind_none]
    rw [hnone]
    constructor
    · exact ⟨fun h => absurd h (by simp), fun closed => absurd closed.children wf⟩
    · intro hinted h
      cases h

/-- A provenance of one uncertain fact, with the given leaf described by an atom. -/
def oneFact (described : LeafId) : Provenance ℚ where
  pir := ⟨[.lit 3]⟩
  leafProbs := .ofList [(3, 1 / 2)] compare
  choiceProbs := .ofList [] compare
  tupleFormulas := [(⟨"p", []⟩, 0)]
  queries := [⟨"p", []⟩]
  evidence := []
  leafAtoms := .ofList [(described, ⟨"p", []⟩)] compare
  choiceSources := .ofList [] compare
  aggregateLifting := []
  schemas := []

theorem applyDecisionOrderHint_renumbers_oneFact
    : (∀ leaf ∈ (oneFact 3).leaves, leaf < 2 ^ 32)
      ∧ ((applyDecisionOrderHint (oneFact 3)).isSome ↔ (oneFact 3).Closed) := by
  have ids : (oneFact 3).Ids32 := ⟨by decide +kernel, by decide +kernel⟩
  exact ⟨ids.leaves, (applyDecisionOrderHint_renumbers (fun _ _ => (1 : ℚ))
    (fun _ _ => 1) ids).1⟩

/-- An atom of a leaf that nothing else mentions has no new name. -/
theorem applyDecisionOrderHint_oneFact_stray
    : (oneFact 9).Ids32 ∧ (applyDecisionOrderHint (oneFact 9)).isSome = false := by
  exact ⟨⟨by decide +kernel, by decide +kernel⟩, by decide +kernel⟩

end Xlog.Prob.DecisionOrder
