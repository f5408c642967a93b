import Xlog.Foundation.Assoc
import Xlog.Prob.Ddnnf
import Xlog.Prob.XgcfCount

/-! What the nodes of a decision-DNNF circuit mean: their values, their truth in a world and their variables are
one recursion over the circuit in three algebras. The search finishes the targets of a node before the
node, so that the order in which the nodes are finished ranks them.
-/

namespace Xlog.Prob

open Xlog.Core Xlog.Foundation Xgcf

-- Meanings

structure DdnnfAlgebra (α : Type) where
  top : α
  bottom : α
  conj : List α → α
  disj : List α → α
  edge : List Int → α → α

namespace DecisionDnnf

def branches (ddnnf : DecisionDnnf) (id : Nat) : List DdnnfEdge :=
  edgesBelow ddnnf.nodes ddnnf.edges id

variable {α : Type} (A : DdnnfAlgebra α) (ddnnf : DecisionDnnf)

def edgeMeaning (below : Nat → α) (edge : DdnnfEdge) : α := A.edge edge.lits (below edge.target)

def step (below : Nat → α) (id : Nat) : α :=
  match ddnnf.nodeKind id with
  | none | some .false => A.bottom
  | some .true => A.top
  | some .and => A.conj ((ddnnf.branches id).map (edgeMeaning A below))
  | some .or => A.disj ((ddnnf.branches id).map (edgeMeaning A below))

def meaningAt : Nat → Nat → α
  | 0, _ => A.bottom
  | fuel + 1, id => ddnnf.step A (meaningAt fuel) id

/-- No path is longer than the number of nodes. -/
def meaning (id : Nat) : α := ddnnf.meaningAt A ddnnf.nodes.length id

def Reachable (id : Nat) : Prop :=
  Relation.ReflTransGen (fun id child => ∃ edge ∈ ddnnf.branches id, edge.target = child) ddnnf.root id

/-- Along the edges of reachable nodes the ranks fall, from less than the number of nodes. -/
structure Ranked (rank : Nat → Nat) : Prop where
  bound : ∀ id, ddnnf.Reachable id → rank id < ddnnf.nodes.length
  falls : ∀ id, ddnnf.Reachable id → ∀ edge ∈ ddnnf.branches id, rank edge.target < rank id

variable {A ddnnf}

/-- Only conjunctions and disjunctions combine edges. -/
theorem nodeKind_of_mem_branches {id : Nat} {edge : DdnnfEdge} (h : edge ∈ ddnnf.branches id)
    : ddnnf.nodeKind id = some .and ∨ ddnnf.nodeKind id = some .or := by
  unfold branches edgesBelow at h
  split at h
  · next hkind => exact .inr hkind
  · next hkind => exact .inl hkind
  · simp at h

theorem Reachable.target {id : Nat} (h : ddnnf.Reachable id) {edge : DdnnfEdge}
    (hedge : edge ∈ ddnnf.branches id)
    : ddnnf.Reachable edge.target :=
  h.tail ⟨edge, hedge, rfl⟩

variable {rank : Nat → Nat}

/-- Induction over the reachable nodes, the targets first. -/
theorem Ranked.induction (h : ddnnf.Ranked rank) {motive : Nat → Prop}
    (hstep : ∀ id, ddnnf.Reachable id → (∀ edge ∈ ddnnf.branches id, motive edge.target) → motive id)
    : ∀ id, ddnnf.Reachable id → motive id := by
  intro id
  induction hrank : rank id using Nat.strong_induction_on generalizing id with
  | _ bound ih =>
    intro hid
    refine hstep id hid fun edge hedge => ?_
    exact ih (rank edge.target) (hrank ▸ h.falls id hid edge hedge) edge.target rfl
      (hid.target hedge)

theorem step_congr {below below' : Nat → α} {id : Nat}
    (h : ∀ edge ∈ ddnnf.branches id, below edge.target = below' edge.target)
    : ddnnf.step A below id = ddnnf.step A below' id := by
  have hmap : (ddnnf.branches id).map (edgeMeaning A below)
      = (ddnnf.branches id).map (edgeMeaning A below') :=
    List.map_congr_left fun edge hedge => congrArg (A.edge edge.lits) (h edge hedge)
  simp only [step, hmap]

theorem Ranked.meaningAt_eq (h : ddnnf.Ranked rank) {id : Nat} (hid : ddnnf.Reachable id)
    {fuel fuel' : Nat} (hfuel : rank id < fuel) (hfuel' : rank id < fuel')
    : ddnnf.meaningAt A fuel id = ddnnf.meaningAt A fuel' id := by
  induction fuel generalizing id fuel' with
  | zero => exact absurd hfuel (Nat.not_lt_zero _)
  | succ fuel ih =>
    cases fuel' with
    | zero => exact absurd hfuel' (Nat.not_lt_zero _)
    | succ fuel' =>
      refine step_congr fun edge hedge => ?_
      have hfalls := h.falls id hid edge hedge
      exact ih (hid.target hedge) (by omega) (by omega)

/-- A node means what its kind makes of the meanings of its edges. -/
theorem Ranked.meaning_eq (h : ddnnf.Ranked rank) {id : Nat} (hid : ddnnf.Reachable id)
    : ddnnf.meaning A id = ddnnf.step A (ddnnf.meaning A) id := by
  have hmore : ddnnf.meaning A id = ddnnf.meaningAt A (ddnnf.nodes.length + 1) id :=
    h.meaningAt_eq hid (h.bound id hid) (Nat.lt_succ_of_lt (h.bound id hid))
  exact hmore

-- Values, truth and variables

section

variable {K : Type} [CommSemiring K]

def valueAlgebra (wt wf : Nat → K) : DdnnfAlgebra K where
  top := 1
  bottom := 0
  conj := List.prod
  disj := List.sum
  edge := fun lits child => litsWeight wt wf lits * child

def litTrue (world : Nat → Bool) (lit : Int) : Bool :=
  if 0 < lit then world lit.natAbs else !world lit.natAbs

def truthAlgebra (world : Nat → Bool) : DdnnfAlgebra Bool where
  top := true
  bottom := false
  conj := fun truths => truths.all fun truth => truth
  disj := fun truths => truths.any fun truth => truth
  edge := fun lits child => lits.all (litTrue world) && child

def litVars (lits : List Int) : Finset Nat := (lits.map Int.natAbs).toFinset

def varsAlgebra : DdnnfAlgebra (Finset Nat) where
  top := ∅
  bottom := ∅
  conj := fun sets => sets.foldr (· ∪ ·) ∅
  disj := fun sets => sets.foldr (· ∪ ·) ∅
  edge := fun lits child => litVars lits ∪ child

variable (ddnnf)

def value (wt wf : Nat → K) (id : Nat) : K := ddnnf.meaning (valueAlgebra wt wf) id

def edgeValue (wt wf : Nat → K) (edge : DdnnfEdge) : K :=
  litsWeight wt wf edge.lits * ddnnf.value wt wf edge.target

def truth (world : Nat → Bool) (id : Nat) : Bool := ddnnf.meaning (truthAlgebra world) id

def edgeTruth (world : Nat → Bool) (edge : DdnnfEdge) : Bool :=
  edge.lits.all (litTrue world) && ddnnf.truth world edge.target

def vars (id : Nat) : Finset Nat := ddnnf.meaning varsAlgebra id

def edgeVars (edge : DdnnfEdge) : Finset Nat := litVars edge.lits ∪ ddnnf.vars edge.target

/-- The edges of a conjunction mention different variables. -/
def Decomposable : Prop :=
  ∀ id, ddnnf.Reachable id → ddnnf.nodeKind id = some .and
    → (ddnnf.branches id).Pairwise fun edge edge' =>
      Disjoint (ddnnf.edgeVars edge) (ddnnf.edgeVars edge')

/-- The literals of an edge have different variables, none of which its target mentions. -/
def EdgesDecomposable : Prop :=
  ∀ id, ddnnf.Reachable id → ∀ edge ∈ ddnnf.branches id,
    (edge.lits.map Int.natAbs).Nodup ∧ Disjoint (litVars edge.lits) (ddnnf.vars edge.target)

/-- No world makes two edges of a disjunction true. -/
def Deterministic : Prop :=
  ∀ id, ddnnf.Reachable id → ddnnf.nodeKind id = some .or
    → (ddnnf.branches id).Pairwise fun edge edge' =>
      ∀ world, ¬ (ddnnf.edgeTruth world edge = true ∧ ddnnf.edgeTruth world edge' = true)

variable {ddnnf}

theorem mem_foldr_union {sets : List (Finset Nat)} {v : Nat}
    : v ∈ sets.foldr (· ∪ ·) ∅ ↔ ∃ set ∈ sets, v ∈ set := by
  induction sets with
  | nil => simp
  | cons set sets ih => simp [ih]

/-- The variables of an edge are variables of its node. -/
theorem Ranked.edgeVars_subset (h : ddnnf.Ranked rank) {id : Nat} (hid : ddnnf.Reachable id)
    {edge : DdnnfEdge} (hedge : edge ∈ ddnnf.branches id)
    : ddnnf.edgeVars edge ⊆ ddnnf.vars id := by
  have hunion : ddnnf.edgeVars edge
      ⊆ ((ddnnf.branches id).map (edgeMeaning varsAlgebra ddnnf.vars)).foldr (· ∪ ·) ∅ := by
    intro v hv
    exact mem_foldr_union.mpr ⟨_, List.mem_map_of_mem hedge, hv⟩
  rw [vars, h.meaning_eq hid]
  unfold step
  rcases nodeKind_of_mem_branches hedge with hkind | hkind
  · rw [hkind]
    exact hunion
  · rw [hkind]
    exact hunion

-- Worlds

theorem litWeight_world (world : Nat → Bool) (lit : Int)
    : litWeight (worldTrue world) (worldFalse world) lit = if litTrue world lit then 1 else 0 := by
  unfold litWeight litTrue worldTrue worldFalse
  split
  · rfl
  · cases world lit.natAbs <;> rfl

theorem litsWeight_world (world : Nat → Bool) (lits : List Int)
    : litsWeight (worldTrue world) (worldFalse world) lits ≠ 0
      ↔ lits.all (litTrue world) = true := by
  simp [litsWeight, List.prod_eq_zero_iff, litWeight_world]

/-- A node is true in a world that gives it a count. -/
theorem Ranked.value_world (h : ddnnf.Ranked rank) (world : Nat → Bool)
    : ∀ id, ddnnf.Reachable id
      → (ddnnf.value (worldTrue world) (worldFalse world) id ≠ 0 ↔ ddnnf.truth world id = true) := by
  refine h.induction fun id hid ih => ?_
  have hedge (edge : DdnnfEdge) (hmem : edge ∈ ddnnf.branches id)
      : ddnnf.edgeValue (worldTrue world) (worldFalse world) edge ≠ 0
        ↔ ddnnf.edgeTruth world edge = true := by
    rw [edgeValue, edgeTruth, mul_ne_zero_iff, litsWeight_world, ih edge hmem, Bool.and_eq_true]
  rw [value, truth, h.meaning_eq hid, h.meaning_eq hid]
  unfold step
  cases ddnnf.nodeKind id with
  | none => simp [valueAlgebra, truthAlgebra]
  | some kind =>
    cases kind with
    | true => simp [valueAlgebra, truthAlgebra]
    | false => simp [valueAlgebra, truthAlgebra]
    | and =>
      have hprod : ((ddnnf.branches id).map
          (ddnnf.edgeValue (worldTrue world) (worldFalse world))).prod ≠ 0
          ↔ ∀ edge ∈ ddnnf.branches id, ddnnf.edgeTruth world edge = true := by
        simp only [ne_eq, List.prod_eq_zero_iff, List.mem_map, not_exists, not_and]
        exact forall₂_congr hedge
      refine hprod.trans ?_
      simp only [truthAlgebra, List.all_map, List.all_eq_true]
      rfl
    | or =>
      have hsum : ((ddnnf.branches id).map
          (ddnnf.edgeValue (worldTrue world) (worldFalse world))).sum ≠ 0
          ↔ ∃ edge ∈ ddnnf.branches id, ddnnf.edgeTruth world edge = true := by
        simp only [ne_eq, List.sum_eq_zero_iff, List.forall_mem_map, not_forall]
        refine exists_congr fun edge => ?_
        constructor
        · rintro ⟨hmem, hne⟩
          exact ⟨hmem, (hedge edge hmem).mp hne⟩
        · rintro ⟨hmem, htrue⟩
          exact ⟨hmem, (hedge edge hmem).mpr htrue⟩
      refine hsum.trans ?_
      simp only [truthAlgebra, List.any_map, List.any_eq_true]
      rfl

theorem litTrue_congr {world world' : Nat → Bool} {lit : Int}
    (h : world lit.natAbs = world' lit.natAbs)
    : litTrue world lit = litTrue world' lit := by
  simp only [litTrue, h]

theorem all_litTrue_congr {world world' : Nat → Bool} {lits : List Int}
    (h : ∀ v ∈ litVars lits, world v = world' v)
    : lits.all (litTrue world) = lits.all (litTrue world') := by
  rw [Bool.eq_iff_iff, List.all_eq_true, List.all_eq_true]
  refine forall₂_congr fun lit hlit => ?_
  rw [litTrue_congr (h lit.natAbs (List.mem_toFinset.mpr (List.mem_map_of_mem hlit)))]

/-- Worlds that agree on the variables of a node agree on the node. -/
theorem Ranked.truth_congr (h : ddnnf.Ranked rank) {world world' : Nat → Bool}
    : ∀ id, ddnnf.Reachable id → (∀ v ∈ ddnnf.vars id, world v = world' v)
      → ddnnf.truth world id = ddnnf.truth world' id := by
  refine h.induction fun id hid ih hagree => ?_
  have hedges : (ddnnf.branches id).map (ddnnf.edgeTruth world)
      = (ddnnf.branches id).map (ddnnf.edgeTruth world') := by
    refine List.map_congr_left fun edge hedge => ?_
    have hsame : ∀ v ∈ ddnnf.edgeVars edge, world v = world' v :=
      fun v hv => hagree v (h.edgeVars_subset hid hedge hv)
    rw [edgeTruth, edgeTruth,
      all_litTrue_congr fun v hv => hsame v (Finset.mem_union_left _ hv),
      ih edge hedge fun v hv => hsame v (Finset.mem_union_right _ hv)]
  rw [truth, truth, h.meaning_eq hid, h.meaning_eq hid]
  unfold step
  cases ddnnf.nodeKind id with
  | none => rfl
  | some kind =>
    cases kind with
    | true => rfl
    | false => rfl
    | and => exact congrArg (fun truths : List Bool => truths.all fun truth => truth) hedges
    | or => exact congrArg (fun truths : List Bool => truths.any fun truth => truth) hedges

theorem Ranked.edgeTruth_congr (h : ddnnf.Ranked rank) {id : Nat} (hid : ddnnf.Reachable id)
    {edge : DdnnfEdge} (hedge : edge ∈ ddnnf.branches id) {world world' : Nat → Bool}
    (hagree : ∀ v ∈ ddnnf.edgeVars edge, world v = world' v)
    : ddnnf.edgeTruth world edge = ddnnf.edgeTruth world' edge := by
  rw [edgeTruth, edgeTruth, all_litTrue_congr fun v hv => hagree v (Finset.mem_union_left _ hv),
    h.truth_congr edge.target (hid.target hedge)
    fun v hv => hagree v (Finset.mem_union_right _ hv)]

/-- Edges without common variables that can each be true can be true together. -/
theorem Ranked.exists_world_of_apart (h : ddnnf.Ranked rank) {id : Nat} (hid : ddnnf.Reachable id)
    {edges : List DdnnfEdge} (hedges : ∀ edge ∈ edges, edge ∈ ddnnf.branches id)
    (apart : edges.Pairwise fun edge edge' => Disjoint (ddnnf.edgeVars edge) (ddnnf.edgeVars edge'))
    (sat : ∀ edge ∈ edges, ∃ world, ddnnf.edgeTruth world edge = true)
    : ∃ world, ∀ edge ∈ edges, ddnnf.edgeTruth world edge = true := by
  induction edges with
  | nil => exact ⟨fun _ => false, by simp⟩
  | cons edge edges ih =>
    obtain ⟨hedge, hedges⟩ := List.forall_mem_cons.mp hedges
    obtain ⟨hfirst, apart⟩ := List.pairwise_cons.mp apart
    obtain ⟨⟨one, hone⟩, sat⟩ := List.forall_mem_cons.mp sat
    obtain ⟨rest, hrest⟩ := ih hedges apart sat
    refine ⟨fun v => if v ∈ ddnnf.edgeVars edge then one v else rest v,
      List.forall_mem_cons.mpr ⟨?_, fun other hother => ?_⟩⟩
    · rw [← hone]
      exact h.edgeTruth_congr hid hedge fun v hv => by simp [hv]
    · rw [← hrest other hother]
      refine h.edgeTruth_congr hid (hedges other hother) fun v hv => ?_
      simp [Finset.disjoint_right.mp (hfirst other hother) hv]

/-- Literals of different variables can all be true. -/
theorem exists_world_lits {lits : List Int} (hnodup : (lits.map Int.natAbs).Nodup)
    : ∃ world, ∀ lit ∈ lits, litTrue world lit = true := by
  induction lits with
  | nil => exact ⟨fun _ => false, by simp⟩
  | cons lit lits ih =>
    obtain ⟨hfresh, hnodup⟩ := List.nodup_cons.mp hnodup
    obtain ⟨world, hworld⟩ := ih hnodup
    refine ⟨Function.update world lit.natAbs (decide (0 < lit)), List.forall_mem_cons.mpr ⟨?_, ?_⟩⟩
    · unfold litTrue
      by_cases hpos : 0 < lit <;> simp [hpos]
    · intro other hother
      have hne : other.natAbs ≠ lit.natAbs := fun heq => hfresh (heq ▸ List.mem_map_of_mem hother)
      rw [← hworld other hother]
      exact litTrue_congr (Function.update_of_ne hne _ _)

/-- An edge whose target can be true can be true. -/
theorem Ranked.exists_world_edge (h : ddnnf.Ranked rank) (hedges : ddnnf.EdgesDecomposable)
    {id : Nat} (hid : ddnnf.Reachable id) {edge : DdnnfEdge} (hedge : edge ∈ ddnnf.branches id)
    (sat : ∃ world, ddnnf.truth world edge.target = true)
    : ∃ world, ddnnf.edgeTruth world edge = true := by
  obtain ⟨hnodup, hdisjoint⟩ := hedges id hid edge hedge
  obtain ⟨world, hworld⟩ := sat
  obtain ⟨lits, hlits⟩ := exists_world_lits hnodup
  refine ⟨fun v => if v ∈ litVars edge.lits then lits v else world v, ?_⟩
  rw [edgeTruth, Bool.and_eq_true, List.all_eq_true]
  constructor
  · intro lit hlit
    rw [← hlits lit hlit]
    have hmem : lit.natAbs ∈ litVars edge.lits := List.mem_toFinset.mpr (List.mem_map_of_mem hlit)
    exact litTrue_congr (by simp [hmem])
  · rw [← hworld]
    refine h.truth_congr edge.target (hid.target hedge) fun v hv => ?_
    simp [Finset.disjoint_right.mp hdisjoint hv]

/-- A node that no world makes true has value zero. -/
theorem Ranked.value_eq_zero (h : ddnnf.Ranked rank) (hdec : ddnnf.Decomposable)
    (hedges : ddnnf.EdgesDecomposable) (wt wf : Nat → K)
    : ∀ id, ddnnf.Reachable id → (∀ world, ddnnf.truth world id = false)
      → ddnnf.value wt wf id = 0 := by
  refine h.induction fun id hid ih hunsat => ?_
  have hzero (edge : DdnnfEdge) (hedge : edge ∈ ddnnf.branches id)
      (hfalse : ∀ world, ddnnf.edgeTruth world edge = false)
      : ddnnf.edgeValue wt wf edge = 0 := by
    rw [edgeValue, ih edge hedge fun world => ?_, mul_zero]
    by_contra htrue
    obtain ⟨other, hother⟩ := h.exists_world_edge hedges hid hedge ⟨world, by simpa using htrue⟩
    simp [hfalse other] at hother
  have hstep (world : Nat → Bool)
      : ddnnf.step (truthAlgebra world) (ddnnf.truth world) id = false :=
    (h.meaning_eq hid).symm.trans (hunsat world)
  rw [value, h.meaning_eq hid]
  unfold step at hstep ⊢
  cases hkind : ddnnf.nodeKind id with
  | none => rfl
  | some kind =>
    simp only [hkind] at hstep
    cases kind with
    | true => exact absurd (hstep fun _ => false) (by simp [truthAlgebra])
    | false => rfl
    | and =>
      have hnot : ¬ ∀ edge ∈ ddnnf.branches id, ∃ world, ddnnf.edgeTruth world edge = true := by
        intro sat
        obtain ⟨world, hall⟩ := h.exists_world_of_apart hid (fun _ h => h) (hdec id hid hkind) sat
        have hfalse : ((ddnnf.branches id).map (ddnnf.edgeTruth world)).all (fun truth => truth)
            = false := hstep world
        rw [List.all_map, List.all_eq_false] at hfalse
        obtain ⟨edge, hedge, hno⟩ := hfalse
        exact hno (hall edge hedge)
      push Not at hnot
      obtain ⟨edge, hedge, hno⟩ := hnot
      refine List.prod_eq_zero (List.mem_map.mpr ⟨edge, hedge, ?_⟩)
      exact hzero edge hedge fun world => by simpa using hno world
    | or =>
      refine List.sum_eq_zero fun value hvalue => ?_
      obtain ⟨edge, hedge, rfl⟩ := List.mem_map.mp hvalue
      refine hzero edge hedge fun world => ?_
      have hfalse : ((ddnnf.branches id).map (ddnnf.edgeTruth world)).any (fun truth => truth)
          = false := hstep world
      rw [List.any_map, List.any_eq_false] at hfalse
      simpa using hfalse edge hedge

end

end DecisionDnnf

-- Acyclic circuits

variable {nodes : List (Nat × DdnnfNodeKind)} {edges : List DdnnfEdge}

/-- Every finished node is declared, and its targets were finished before it. -/
def Finished (nodes : List (Nat × DdnnfNodeKind)) (edges : List DdnnfEdge) : List Nat → Prop
  | [] => True
  | id :: rest =>
      id ∈ nodes.map Prod.fst ∧ id ∉ rest ∧ (∀ edge ∈ edgesBelow nodes edges id, edge.target ∈ rest)
        ∧ Finished nodes edges rest

/-- What a search of one node leaves behind. -/
structure DfsDone (nodes : List (Nat × DdnnfNodeKind)) (edges : List DdnnfEdge)
    (before after : DfsTables) : Prop where
  visiting : after.visiting = before.visiting
  finished : Finished nodes edges after.visited
  kept : ∀ id ∈ before.visited, id ∈ after.visited
  fresh : ∀ id ∈ after.visited, id ∈ before.visited ∨ id ∉ before.visiting

theorem DfsDone.refl {tables : DfsTables} (h : Finished nodes edges tables.visited)
    : DfsDone nodes edges tables tables :=
  ⟨rfl, h, fun _ h => h, fun _ h => .inl h⟩

theorem DfsDone.trans {first second third : DfsTables} (h : DfsDone nodes edges first second)
    (h' : DfsDone nodes edges second third)
    : DfsDone nodes edges first third where
  visiting := h'.visiting.trans h.visiting
  finished := h'.finished
  kept := fun id hid => h'.kept id (h.kept id hid)
  fresh := by
    intro id hid
    rcases h'.fresh id hid with hid | hid
    · exact h.fresh id hid
    · exact .inr (h.visiting ▸ hid)

/-- Distinct declared nodes are no more than the declared ones. -/
theorem length_le_of_declared {ids : List Nat} (hnodup : ids.Nodup)
    (hdeclared : ∀ id ∈ ids, id ∈ nodes.map Prod.fst)
    : ids.length ≤ nodes.length := by
  have hle := (hnodup.subperm hdeclared).length_le
  rwa [List.length_map] at hle

/-- With fuel for the declared nodes off the path the search ends without running out of it. -/
theorem dfs_spec {fuel : Nat} {tables : DfsTables} {id : Nat} (hnodup : tables.visiting.Nodup)
    (hdeclared : ∀ other ∈ tables.visiting, other ∈ nodes.map Prod.fst)
    (hfuel : nodes.length < fuel + tables.visiting.length)
    (hfinished : Finished nodes edges tables.visited)
    : Ends (fun error => error ≠ .panic "stack overflow")
        (fun after => DfsDone nodes edges tables after ∧ id ∈ after.visited)
        (dfs nodes edges fuel tables id) := by
  induction fuel generalizing tables id with
  | zero =>
    have hle := length_le_of_declared hnodup hdeclared
    omega
  | succ fuel ih =>
    unfold dfs
    split
    · next hvisited => exact ⟨.refl hfinished, hvisited⟩
    next hvisited =>
    split
    · exact fun h => by simp at h
    next hvisiting =>
    split
    · exact fun h => by simp at h
    next kind hkind =>
    have hid : id ∈ nodes.map Prod.fst := by
      by_contra hno
      simp [lookup_eq_none_iff_not_mem.mpr hno] at hkind
    have hnodup' : (id :: tables.visiting).Nodup := List.nodup_cons.mpr ⟨hvisiting, hnodup⟩
    have hdeclared' : ∀ other ∈ id :: tables.visiting, other ∈ nodes.map Prod.fst :=
      List.forall_mem_cons.mpr ⟨hid, hdeclared⟩
    have hentered : Ends (fun error => error ≠ .panic "stack overflow")
        (fun left : DfsTables =>
          DfsDone nodes edges ⟨id :: tables.visiting, tables.visited⟩ left
            ∧ ∀ edge ∈ edgesBelow nodes edges id, edge.target ∈ left.visited)
        ((edgesBelow nodes edges id).foldlM
          (fun tables edge => dfs nodes edges fuel tables edge.target)
          ⟨id :: tables.visiting, tables.visited⟩) := by
      refine (Ends.foldlM (fun (before : List DdnnfEdge) (left : DfsTables) =>
        DfsDone nodes edges ⟨id :: tables.visiting, tables.visited⟩ left
          ∧ ∀ edge ∈ before, edge.target ∈ left.visited) ⟨.refl hfinished, by simp⟩ ?_)
      intro before edge after left _ hleft
      obtain ⟨hdone, hbefore⟩ := hleft
      have hvisiting' : left.visiting = id :: tables.visiting := hdone.visiting
      refine (ih (hvisiting' ▸ hnodup') (hvisiting' ▸ hdeclared') ?_ hdone.finished).mono ?_
      · rw [hvisiting', List.length_cons]
        omega
      · rintro next ⟨hnext, htarget⟩
        refine ⟨hdone.trans hnext, fun other hother => ?_⟩
        rcases List.mem_append.mp hother with hother | hother
        · exact hnext.kept _ (hbefore other hother)
        · obtain rfl := List.mem_singleton.mp hother
          exact htarget
    refine hentered.bind fun left hleft => ?_
    obtain ⟨hdone, htargets⟩ := hleft
    have hfresh : id ∉ left.visited := by
      intro hmem
      rcases hdone.fresh id hmem with hold | hold
      · exact hvisited hold
      · exact hold List.mem_cons_self
    refine ⟨⟨?_, ⟨hid, hfresh, htargets, hdone.finished⟩, ?_, ?_⟩, List.mem_cons_self⟩
    · rw [hdone.visiting, List.erase_cons_head]
    · exact fun other hother => List.mem_cons_of_mem _ (hdone.kept other hother)
    · intro other hother
      rcases List.mem_cons.mp hother with rfl | hother
      · exact .inr hvisiting
      · rcases hdone.fresh other hother with hold | hold
        · exact .inl hold
        · exact .inr fun hmem => hold (List.mem_cons_of_mem _ hmem)

-- Ranks

/-- How many nodes were finished before a node. -/
def finishRank : List Nat → Nat → Nat
  | [], _ => 0
  | other :: rest, id => if other = id then rest.length else finishRank rest id

theorem finishRank_lt {visited : List Nat} {id : Nat} (h : id ∈ visited)
    : finishRank visited id < visited.length := by
  induction visited with
  | nil => simp at h
  | cons other rest ih =>
    unfold finishRank
    split
    · simp
    · next hne =>
      have hrest : id ∈ rest := (List.mem_cons.mp h).resolve_left (Ne.symm hne)
      exact (ih hrest).trans (by simp)

theorem Finished.nodup {visited : List Nat} (h : Finished nodes edges visited) : visited.Nodup := by
  induction visited with
  | nil => exact List.nodup_nil
  | cons id rest ih => exact List.nodup_cons.mpr ⟨h.2.1, ih h.2.2.2⟩

theorem Finished.declared {visited : List Nat} (h : Finished nodes edges visited)
    : ∀ id ∈ visited, id ∈ nodes.map Prod.fst := by
  induction visited with
  | nil => simp
  | cons id rest ih => exact List.forall_mem_cons.mpr ⟨h.1, ih h.2.2.2⟩

/-- The targets of a finished node are finished and have smaller ranks. -/
theorem Finished.target {visited : List Nat} (h : Finished nodes edges visited) {id : Nat}
    (hid : id ∈ visited) {edge : DdnnfEdge} (hedge : edge ∈ edgesBelow nodes edges id)
    : edge.target ∈ visited ∧ finishRank visited edge.target < finishRank visited id := by
  induction visited with
  | nil => simp at hid
  | cons other rest ih =>
    obtain ⟨-, hfresh, htargets, hrest⟩ := h
    by_cases hsame : other = id
    · subst hsame
      have htarget := htargets edge hedge
      have hne : other ≠ edge.target := fun heq => hfresh (heq ▸ htarget)
      refine ⟨List.mem_cons_of_mem _ htarget, ?_⟩
      simpa [finishRank, hne] using finishRank_lt htarget
    · have hmem : id ∈ rest := (List.mem_cons.mp hid).resolve_left (Ne.symm hsame)
      obtain ⟨htarget, hless⟩ := ih hrest hmem
      have hne : other ≠ edge.target := fun heq => hfresh (heq ▸ htarget)
      exact ⟨List.mem_cons_of_mem _ htarget, by simpa [finishRank, hne, hsame] using hless⟩

/-- A circuit whose root the search has finished is ranked. -/
theorem ranked_of_checkAcyclic {ddnnf : DecisionDnnf}
    (h : checkAcyclic ddnnf.root ddnnf.nodes ddnnf.edges = .ok ())
    : ∃ rank, ddnnf.Ranked rank := by
  obtain ⟨tables, htables, -⟩ := bind_eq_ok.mp h
  have hspec := @dfs_spec ddnnf.nodes ddnnf.edges (ddnnf.nodes.length + 1) ⟨[], []⟩ ddnnf.root
    List.nodup_nil (by simp) (by simp) trivial
  rw [htables] at hspec
  obtain ⟨hdone, hroot⟩ := hspec
  have hfinished := hdone.finished
  have hreachable (id : Nat) (hid : ddnnf.Reachable id) : id ∈ tables.visited := by
    induction hid with
    | refl => exact hroot
    | tail _ hedge ih =>
      obtain ⟨edge, hmem, rfl⟩ := hedge
      exact (hfinished.target ih hmem).1
  refine ⟨finishRank tables.visited, fun id hid => ?_, fun id hid edge hedge => ?_⟩
  · exact (finishRank_lt (hreachable id hid)).trans_le
      (length_le_of_declared hfinished.nodup hfinished.declared)
  · exact (hfinished.target (hreachable id hid) hedge).2

/-- A parsed circuit is ranked. -/
theorem DecisionDnnf.ranked_of_parseStr {text : List Char} {ddnnf : DecisionDnnf}
    (h : DecisionDnnf.parseStr text = .ok ddnnf)
    : ∃ rank, ddnnf.Ranked rank := by
  obtain ⟨records, -, h⟩ := bind_eq_ok.mp h
  split at h
  · simp at h
  obtain ⟨_, -, h⟩ := bind_eq_ok.mp h
  obtain ⟨root, -, h⟩ := bind_eq_ok.mp h
  obtain ⟨_, hacyclic, h⟩ := bind_eq_ok.mp h
  cases Except.ok.inj h
  exact ranked_of_checkAcyclic hacyclic

end Xlog.Prob
