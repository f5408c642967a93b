import Mathlib.Data.List.Perm.Subperm
import Xlog.Cuda.FreeJoin
import Xlog.Foundation.Loop
import Xlog.Ir.Rir

/-! The order in which a Free Join takes its atoms, and the plans that the executor builds of marked multiway
joins, for their rows and for the counts of a group. What the statistics know, and the floating-point
fan-out of an estimate, are parameters; the declines after the plan, for want of a device, are left out.
-/

namespace Xlog.Runtime

open Xlog.Foundation Xlog.Ir

inductive FjOrderDecision where
  | keepDefault
  | reorder (order : List Nat)
  | decline
  deriving DecidableEq, Repr

inductive CostModelKind where
  | skewClassifier | cardinality
  deriving DecidableEq, Repr

def minCardinalityBinaryIntermediate : Nat := 4096
def fjPeakToleranceNum : Nat := 6
def fjPeakToleranceDen : Nat := 5
def defaultJoinSelectivityDen : Nat := 10
def maxRunning : Nat := 18446744073709551615

/-- What the statistics know of the relations, and the rows of a prefix by the pairwise estimate and the
rows of the partner, in floats.
-/
structure JoinStatistics where
  cardinality : RelId → Option Nat
  estimateJoinCardinality : RelId → RelId → List Nat → List Nat → Nat
  fanOut : (running pairwise card : Nat) → Nat

structure WcojDispatchCtx where
  stats : JoinStatistics
  slotRels : List RelId

def withinPeakTolerance (peak baseline : Nat) : Bool :=
  peak * fjPeakToleranceDen ≤ baseline * fjPeakToleranceNum

-- Estimates

/-- Atoms that can extend a prefix share a variable with it; for a probe these are the leading columns. -/
def isAddable (aVars : List Nat) (bound : List Nat) (constrained : Bool) : Bool :=
  if !aVars.any (· ∈ bound) then false
  else if constrained then
    let split := (aVars.takeWhile (· ∈ bound)).length
    !(split == 0 || (aVars.drop split).any (· ∈ bound))
  else true

def sharedKeys (pVars aVars : List Nat) : List Nat × List Nat :=
  (pVars.zipIdx.filterMap fun entry => (aVars.idxOf? entry.1).map (entry.2, ·)).unzip

section

variable (ctx : WcojDispatchCtx) (atomVars : List (List Nat)) (cards : List Nat)

def slotRel (i : Nat) : RelId := ctx.slotRels.getD i 0

def pairwiseEstimate (p a : Nat) (pKeys aKeys : List Nat) : Nat :=
  let present := fun i => ((ctx.stats.cardinality (slotRel ctx i)).any fun card => 0 < card)
  if present p && present a then
    ctx.stats.estimateJoinCardinality (slotRel ctx p) (slotRel ctx a) pKeys aKeys
  else
    max (min (cards.getD p 0 * cards.getD a 0 / defaultJoinSelectivityDen) maxRunning) 1

/-- By the most selective of the placed partners. -/
def estimateJoinOntoPrefix (placed : List Nat) (running a : Nat) : Nat :=
  max (placed.foldl (fun bestNew p =>
    let keys := sharedKeys (atomVars.getD p []) (atomVars.getD a [])
    if keys.1.isEmpty then bestNew
    else
      let pairwise := pairwiseEstimate ctx cards p a keys.1 keys.2
      min bestNew (ctx.stats.fanOut running pairwise (max (cards.getD p 0) 1))) maxRunning) 1

-- Orders

structure GreedyState where
  order : List Nat
  bound : List Nat
  running : Nat
  peak : Nat
  deriving DecidableEq, Repr

def cheapestAddable (constrained : Bool) (state : GreedyState) : Option (Nat × Nat) :=
  (List.range atomVars.length).foldl (fun choice a =>
    if a ∈ state.order || !isAddable (atomVars.getD a []) state.bound constrained then choice
    else
      let newRunning := estimateJoinOntoPrefix ctx atomVars cards state.order state.running a
      if choice.all fun entry => newRunning < entry.2 then some (a, newRunning) else choice) none

def greedyStep (constrained : Bool) (state : GreedyState) : Option GreedyState := do
  let choice ← cheapestAddable ctx atomVars cards constrained state
  some ⟨state.order ++ [choice.1], state.bound ++ atomVars.getD choice.1 [], choice.2,
    max state.peak choice.2⟩

def greedyFromLeader (constrained : Bool) (leader : Nat) : Option (List Nat × Nat) := do
  let running := max (cards.getD leader 0) 1
  let last ← (List.range (atomVars.length - 1)).foldlM
    (fun state _ => greedyStep ctx atomVars cards constrained state)
    ⟨[leader], atomVars.getD leader [], running, running⟩
  some (last.order, last.peak)

def bestGreedyPeak (constrained : Bool) : Option (List Nat × Nat) :=
  (List.range atomVars.length).foldl (fun best leader =>
    match greedyFromLeader ctx atomVars cards constrained leader with
    | some found => if best.all fun entry => found.2 < entry.2 then some found else best
    | none => best) none

def evalOrderPeak (order : List Nat) (constrained : Bool) : Option Nat := do
  let last ← order.foldlM (fun state a =>
    let extended := fun running =>
      some (⟨state.order ++ [a], state.bound ++ atomVars.getD a [], running,
        max state.peak running⟩ : GreedyState)
    if state.order.isEmpty then extended (max (cards.getD a 0) 1)
    else if !isAddable (atomVars.getD a []) state.bound constrained then none
    else extended (estimateJoinOntoPrefix ctx atomVars cards state.order state.running a))
    ⟨[], [], 0, 0⟩
  some last.peak

/-- The best order whose probes have leading columns, if its peak is near that of the binary plan. -/
def rescueOrder (binaryPeak : Nat) : FjOrderDecision :=
  match bestGreedyPeak ctx atomVars cards true with
  | some (order, fjPeak) =>
      if withinPeakTolerance fjPeak binaryPeak then .reorder order else .decline
  | none => .decline

def planFreeJoinOrder (kind : CostModelKind) : FjOrderDecision :=
  let n := atomVars.length
  match kind with
  | .skewClassifier => .keepDefault
  | .cardinality =>
      if n < 3 ∨ cards.length ≠ n ∨ ctx.slotRels.length ≠ n then .keepDefault
      else
        match bestGreedyPeak ctx atomVars cards false with
        | none => .keepDefault
        | some (_, binaryPeak) =>
            match evalOrderPeak ctx atomVars cards (List.range n) true with
            | some defaultPeak =>
                if defaultPeak < minCardinalityBinaryIntermediate
                    || withinPeakTolerance defaultPeak binaryPeak then .keepDefault
                else rescueOrder ctx atomVars cards binaryPeak
            | none =>
                if binaryPeak < minCardinalityBinaryIntermediate then .keepDefault
                else rescueOrder ctx atomVars cards binaryPeak

/-- The order in which the plan takes the atoms, if the join is not declined. -/
def freeJoinOrder (kind : CostModelKind) : Option (List Nat) :=
  match planFreeJoinOrder ctx atomVars cards kind with
  | .keepDefault => some (List.range atomVars.length)
  | .reorder order => some order
  | .decline => none

end

/-- Small joins whose relations all have statistics are left to the binary plan. -/
def factorizedLossVeto (ctx : WcojDispatchCtx) (kind : CostModelKind) : Bool :=
  match kind with
  | .skewClassifier => false
  | .cardinality =>
      match ctx.slotRels.mapM fun rel => (ctx.stats.cardinality rel).filter fun card => 0 < card with
      | none => false
      | some cards => cards.foldl max 0 < minCardinalityBinaryIntermediate

-- Orders are permutations

section

variable {ctx : WcojDispatchCtx} {atomVars : List (List Nat)} {cards : List Nat}
  {constrained : Bool}

theorem cheapestAddable_new {state : GreedyState} {choice : Nat × Nat}
    (h : cheapestAddable ctx atomVars cards constrained state = some choice)
    : choice.1 < atomVars.length ∧ choice.1 ∉ state.order := by
  let New (found : Option (Nat × Nat)) : Prop :=
    ∀ entry, found = some entry → entry.1 < atomVars.length ∧ entry.1 ∉ state.order
  suffices hall : New (cheapestAddable ctx atomVars cards constrained state) from hall choice h
  refine List.foldlRecOn _ _ (motive := New) (fun _ h => nomatch h) fun found hfound a ha => ?_
  split
  · exact hfound
  · next hskip =>
    have hnew : a ∉ state.order := fun hmem => hskip (by simp [hmem])
    intro entry hentry
    dsimp only at hentry
    split at hentry
    · obtain rfl := Option.some.inj hentry
      exact ⟨List.mem_range.mp ha, hnew⟩
    · exact hfound entry hentry

/-- The atoms placed so far. -/
structure GreedyState.Placed (n count : Nat) (state : GreedyState) : Prop where
  distinct : state.order.Nodup
  inside : ∀ a ∈ state.order, a < n
  length : state.order.length = count

theorem GreedyState.Placed.step {state next : GreedyState} {count : Nat}
    (h : state.Placed atomVars.length count)
    (hstep : greedyStep ctx atomVars cards constrained state = some next)
    : next.Placed atomVars.length (count + 1) := by
  obtain ⟨choice, hchoice, heq⟩ := Option.bind_eq_some_iff.mp hstep
  obtain rfl := Option.some.inj heq
  obtain ⟨hlt, hnew⟩ := cheapestAddable_new hchoice
  refine ⟨?_, ?_, by simp [h.length]⟩
  · rw [List.nodup_append]
    refine ⟨h.distinct, by simp, fun a ha b hb hab => hnew ?_⟩
    rwa [← List.mem_singleton.mp hb, ← hab]
  · intro a ha
    rcases List.mem_append.mp ha with ha | ha
    · exact h.inside a ha
    · exact List.mem_singleton.mp ha ▸ hlt

theorem GreedyState.Placed.steps (rounds : List Nat) {state last : GreedyState} {count : Nat}
    (h : state.Placed atomVars.length count)
    (hsteps : rounds.foldlM (fun state _ => greedyStep ctx atomVars cards constrained state) state
      = some last)
    : last.Placed atomVars.length (count + rounds.length) :=
  foldlM_some_inv (fun done state => state.Placed atomVars.length (count + done.length)) h
    (fun done round state next _ hstate hstep => by simpa [Nat.add_assoc] using hstate.step hstep)
    hsteps

/-- As many distinct atoms as there are. -/
theorem GreedyState.Placed.perm {state : GreedyState} {n : Nat} (h : state.Placed n n)
    : state.order.Perm (List.range n) := by
  have hsub : state.order.Subperm (List.range n) :=
    h.distinct.subperm fun a ha => List.mem_range.mpr (h.inside a ha)
  exact hsub.perm_of_length_le (by simp [h.length])

theorem greedyFromLeader_perm {leader peak : Nat} {order : List Nat}
    (hleader : leader < atomVars.length)
    (h : greedyFromLeader ctx atomVars cards constrained leader = some (order, peak))
    : order.Perm (List.range atomVars.length) := by
  obtain ⟨last, hlast, heq⟩ := Option.bind_eq_some_iff.mp h
  obtain ⟨rfl, -⟩ := Prod.mk.inj (Option.some.inj heq)
  have hstart : GreedyState.Placed atomVars.length 1 ⟨[leader], atomVars.getD leader [],
      max (cards.getD leader 0) 1, max (cards.getD leader 0) 1⟩ :=
    ⟨by simp, by simpa using hleader, rfl⟩
  have hplaced := hstart.steps _ hlast
  rw [List.length_range, Nat.add_sub_cancel' (by omega)] at hplaced
  exact hplaced.perm

theorem bestGreedyPeak_perm {found : List Nat × Nat}
    (h : bestGreedyPeak ctx atomVars cards constrained = some found)
    : found.1.Perm (List.range atomVars.length) := by
  let Orders (best : Option (List Nat × Nat)) : Prop :=
    ∀ entry, best = some entry → entry.1.Perm (List.range atomVars.length)
  suffices hall : Orders (bestGreedyPeak ctx atomVars cards constrained) from hall found h
  refine List.foldlRecOn _ _ (motive := Orders) (fun _ h => nomatch h) fun best hbest leader hl => ?_
  split
  · next hfound =>
    intro entry hentry
    split at hentry
    · obtain rfl := Option.some.inj hentry
      exact greedyFromLeader_perm (List.mem_range.mp hl) hfound
    · exact hbest entry hentry
  · exact hbest

theorem rescueOrder_perm {binaryPeak : Nat} {order : List Nat}
    (h : rescueOrder ctx atomVars cards binaryPeak = .reorder order)
    : order.Perm (List.range atomVars.length) := by
  unfold rescueOrder at h
  split at h
  · next hbest =>
    split at h
    · obtain rfl := FjOrderDecision.reorder.inj h
      exact bestGreedyPeak_perm hbest
    · simp at h
  · simp at h

/-- The planner takes every atom once. -/
theorem freeJoinOrder_perm {kind : CostModelKind} {order : List Nat}
    (h : freeJoinOrder ctx atomVars cards kind = some order)
    : order.Perm (List.range atomVars.length) := by
  have hreorder (order : List Nat) (hplan : planFreeJoinOrder ctx atomVars cards kind
      = .reorder order) : order.Perm (List.range atomVars.length) := by
    unfold planFreeJoinOrder at hplan
    grind [rescueOrder_perm]
  unfold freeJoinOrder at h
  split at h
  · obtain rfl := Option.some.inj h
    exact .rfl
  · next hplan =>
    obtain rfl := Option.some.inj h
    exact hreorder _ hplan
  · simp at h

end

-- Plans of marked joins

open Xlog.Cuda Xlog.Logic

/-- The columns and the number of rows of a stored relation. -/
structure RelationShape where
  columnTypes : List ScalarType
  numRows : Nat
  deriving DecidableEq, Repr

/-- What the executor has for the plans; relations are looked up by name. -/
structure FreeJoinEnv where
  disabled : Bool
  relation : RelId → Option RelationShape
  costModel : CostModelKind
  stats : JoinStatistics

-- Inputs

def scanRel : RirNode → Option RelId
  | .scan rel => some rel
  | _ => none

def freeJoinRels (env : FreeJoinEnv) (inputs : List RirNode) (plan : Option MultiwayPlan)
    : Option (List RelId) :=
  if env.disabled then none
  else if plan ≠ some .freeJoin then none
  else if inputs.length < 3 then none
  else inputs.mapM scanRel

/-- Whether all columns can be of four bytes, and of eight. -/
def keyWidths (columnTypes : List ScalarType) : Option (Bool × Bool) :=
  columnTypes.foldlM (fun widths columnType =>
    match columnType with
    | .u32 | .symbol => some (widths.1, false)
    | .u64 => some (false, widths.2)
    | _ => none) (true, true)

def isFourByte (columnType : ScalarType) : Bool := columnType == .u32 || columnType == .symbol

-- Variables

/-- The number of a variable class, in the order of the first occurrences. -/
def dense (classToVar : List Nat) (cls : Nat) : Nat × List Nat :=
  match classToVar.idxOf? cls with
  | some v => (v, classToVar)
  | none => (classToVar.length, classToVar ++ [cls])

def denseColumns : List Nat → List (Option Nat) → Option (List Nat × List Nat)
  | classToVar, [] => some ([], classToVar)
  | _, none :: _ => none
  | classToVar, some cls :: cols => do
      let first := dense classToVar cls
      let rest ← denseColumns first.2 cols
      some (first.1 :: rest.1, rest.2)

/-- The variables of every slot, which has a column for each of its relation. -/
def denseAtoms : List Nat → List (List (Option Nat) × Nat) → Option (List (List Nat) × List Nat)
  | classToVar, [] => some ([], classToVar)
  | classToVar, slot :: slots =>
      if slot.1.length ≠ slot.2 then none
      else do
        let atom ← denseColumns classToVar slot.1
        let rest ← denseAtoms atom.2 slots
        some (atom.1 :: rest.1, rest.2)

/-- The entry for an output column, among the entries of the concatenated columns of the inputs. -/
def columnEntry (colToVar : List Nat) : ProjectExpr → Option Nat
  | .column c => colToVar[c]?
  | .computed _ _ => none

-- Nodes

/-- The node that binds each variable, and the nodes so far. -/
structure FjBuild where
  boundAt : Nat → Option Nat
  nodes : List FjNode

def FjBuild.start : FjBuild := ⟨fun _ => none, []⟩

def FjBuild.isBound (b : FjBuild) (v : Nat) : Bool := (b.boundAt v).isSome

def FjBuild.split (b : FjBuild) (vars : List Nat) : Nat := (vars.takeWhile b.isBound).length

def addProbe (probe : FjSubAtom) (node : FjNode) : FjNode :=
  { node with probes := node.probes ++ [probe] }

/-- The keys probe the earliest node after which all of them are bound. -/
def FjBuild.pushProbe (b : FjBuild) (i : Nat) (keys : List Nat) : Option FjBuild :=
  if keys.isEmpty then some b
  else if b.nodes.isEmpty then none
  else
    let target := (keys.filterMap b.boundAt).max?.getD 0
    some { b with nodes := b.nodes.modify target (addProbe ⟨i, keys⟩) }

/-- A new node binds the cover, which has each of its variables once. -/
def FjBuild.pushCover (b : FjBuild) (i : Nat) (cover : List Nat) : Option FjBuild :=
  if cover.isEmpty then if b.nodes.isEmpty then none else some b
  else if cover.Nodup then
    some ⟨fun v => if v ∈ cover then some b.nodes.length else b.boundAt v,
      b.nodes ++ [⟨⟨i, cover⟩, []⟩]⟩
  else none

def FjBuild.addAtom (b : FjBuild) (i : Nat) (vars : List Nat) (keepEnd : Nat) : Option FjBuild := do
  let split := b.split vars
  let probed ← b.pushProbe i (vars.take split)
  probed.pushCover i ((vars.take keepEnd).drop split)

/-- A bound variable after an unbound one. -/
def FjBuild.isNonPrefix (b : FjBuild) (vars : List Nat) : Bool :=
  (vars.drop (b.split vars)).any b.isBound

def materializeAtom (atomVars : List (List Nat)) (b : FjBuild) (i : Nat) : Option FjBuild :=
  let vars := atomVars.getD i []
  if b.isNonPrefix vars then none else b.addAtom i vars vars.length

/-- The columns before the trailing ones that are private to their atom. -/
def trimPrivate (occurrences : Nat → Nat) (groupVar : Nat) (vars : List Nat) (split : Nat)
    : Nat → Nat
  | 0 => 0
  | keepEnd + 1 =>
      let v := vars.getD keepEnd 0
      if split < keepEnd + 1 ∧ occurrences v = 1 ∧ v ≠ groupVar then
        trimPrivate occurrences groupVar vars split keepEnd
      else keepEnd + 1

def countAtom (atomVars : List (List Nat)) (groupVar : Nat) (b : FjBuild) (i : Nat)
    : Option FjBuild :=
  let vars := atomVars.getD i []
  let split := b.split vars
  let keepEnd := trimPrivate (fun v => atomVars.flatten.count v) groupVar vars split vars.length
  if b.isNonPrefix vars then none
  else if split = 0 ∧ keepEnd = 0 then none
  else b.addAtom i vars keepEnd

-- Plans

/-- The plan for the rows of a join, where there is one. -/
def freeJoinPlan (env : FreeJoinEnv) : RirNode → Option FjPlan
  | .multiWayJoin inputs slotVars outputColumns _ plan _ => do
      let rels ← freeJoinRels env inputs plan
      let shapes ← rels.mapM env.relation
      let widths ← keyWidths (shapes.flatMap RelationShape.columnTypes)
      let ctx : WcojDispatchCtx := ⟨env.stats, rels⟩
      if !widths.1 && !widths.2 then none
      else if factorizedLossVeto ctx env.costModel then none
      else
        let dense ← denseAtoms [] (slotVars.zip (shapes.map fun shape => shape.columnTypes.length))
        let order ← freeJoinOrder ctx dense.1 (shapes.map RelationShape.numRows) env.costModel
        let build ← order.foldlM (materializeAtom dense.1) .start
        let outputVars ← outputColumns.mapM (columnEntry dense.1.flatten)
        some ⟨dense.2.length, build.nodes, outputVars⟩
  | _ => none

/-- The plan for the counts of a group, where there is one. -/
def freeJoinCountPlan (env : FreeJoinEnv) (groupCols : List ProjectExpr) : RirNode → Option FjPlan
  | .multiWayJoin inputs slotVars _ _ plan _ => do
      let rels ← freeJoinRels env inputs plan
      let shapes ← rels.mapM env.relation
      if !(shapes.flatMap RelationShape.columnTypes).all isFourByte then none
      else
        let dense ← denseAtoms [] (slotVars.zip (shapes.map fun shape => shape.columnTypes.length))
        let groupVar ← groupCols.head?.bind (columnEntry dense.1.flatten)
        let build ← (List.range dense.1.length).foldlM (countAtom dense.1 groupVar) .start
        if !build.isBound groupVar then none
        else some ⟨dense.2.length, build.nodes, [groupVar]⟩
  | _ => none

end Xlog.Runtime
