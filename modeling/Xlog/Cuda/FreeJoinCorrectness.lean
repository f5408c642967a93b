import Mathlib.Algebra.Order.BigOperators.Group.List
import Mathlib.Data.Set.Card
import Xlog.Cuda.FreeJoinFrontier
import Xlog.Foundation.Loop

/-! Plans that follow the columns of their atoms are valid; their rows are those of the natural join, and
their counts the numbers of its bindings.
-/

namespace Xlog.Cuda

open Xlog.Core Xlog.Foundation

variable {atomVars : List (List Nat)} {consumed : Nat → Nat} {bound : List Nat}

-- Validation

section

variable {ctx : String} {numVars : Nat}

theorem colVars_eq {i : Nat} (hi : i < atomVars.length) : colVars atomVars i = atomVars[i] := by
  simp [colVars, hi]

theorem colVars_mem {i : Nat} (hi : i < atomVars.length) : colVars atomVars i ∈ atomVars :=
  colVars_eq hi ▸ List.getElem_mem hi

theorem checkSub_ok (hvars : ∀ cols ∈ atomVars, ∀ v ∈ cols, v < numVars) {sub : FjSubAtom}
    (hnext : sub.Next atomVars consumed) (what : String)
    : checkSub ctx numVars (atomVars.map List.length) sub consumed what = .ok () := by
  have harity : (atomVars.map List.length)[sub.inputIdx]?
      = some (colVars atomVars sub.inputIdx).length := by
    rw [List.getElem?_map, List.getElem?_eq_getElem hnext.inside]
    simp [colVars, hnext.inside]
  have hcolumns : sub.varPositions.length ≠ 0 := fun hzero =>
    hnext.nonempty (List.length_eq_zero_iff.mp hzero)
  have hle := hnext.length_le
  have hfind : sub.varPositions.find? (fun v => numVars ≤ v) = none := by
    rw [List.find?_eq_none]
    intro v hv
    have hmem := List.mem_of_mem_drop (hnext.columns.subset hv)
    have hlt := hvars _ (colVars_mem hnext.inside) v hmem
    simpa using hlt
  unfold checkSub
  simp only [harity, hcolumns, if_false, hfind]
  rw [if_neg (by omega)]

theorem bindCover_ok (k : Nat) {vars : List Nat} (hdistinct : vars.Nodup)
    (hfresh : ∀ v ∈ vars, v ∉ bound)
    : bindCover ctx k bound vars = .ok (bound ++ vars) := by
  induction vars generalizing bound with
  | nil => simp [bindCover]
  | cons v vars ih =>
    obtain ⟨hv, hdistinct⟩ := List.nodup_cons.mp hdistinct
    obtain ⟨hfirst, hfresh⟩ := List.forall_mem_cons.mp hfresh
    have hrest : ∀ w ∈ vars, w ∉ bound ++ [v] := by
      intro w hw hmem
      rcases List.mem_append.mp hmem with hmem | hmem
      · exact hfresh w hw hmem
      · exact hv (List.mem_singleton.mp hmem ▸ hw)
    have hnext := ih hdistinct hrest
    unfold bindCover at hnext ⊢
    rw [List.foldlM_cons, if_neg hfirst, ok_bind, hnext, List.append_assoc]
    rfl

theorem checkProbes_ok (hvars : ∀ cols ∈ atomVars, ∀ v ∈ cols, v < numVars) (k : Nat)
    {seen : List Nat} {probes : List FjSubAtom}
    (hapart : ∀ probe ∈ probes, probe.inputIdx ∉ seen)
    (hfollow : ProbesFollow atomVars bound consumed probes)
    : checkProbes ctx numVars (atomVars.map List.length) k bound seen consumed probes
      = .ok (consumeAll consumed probes) := by
  induction probes generalizing seen consumed with
  | nil => rfl
  | cons probe probes ih =>
    obtain ⟨hnext, hbound, hdistinct, hrest⟩ := hfollow
    obtain ⟨hfirst, hapart⟩ := List.forall_mem_cons.mp hapart
    have hfind : probe.varPositions.find? (fun v => v ∉ bound) = none := by
      rw [List.find?_eq_none]
      intro v hv
      simpa using hbound v hv
    have hseen : ∀ other ∈ probes, other.inputIdx ∉ probe.inputIdx :: seen := by
      intro other hother hmem
      rcases List.mem_cons.mp hmem with heq | hmem
      · exact hdistinct other hother heq
      · exact hapart other hother hmem
    unfold checkProbes
    simp only [checkSub_ok hvars hnext, ok_bind, hfirst, if_false, hfind, ih hseen hrest]
    rfl

theorem checkNodes_ok (hvars : ∀ cols ∈ atomVars, ∀ v ∈ cols, v < numVars) (k : Nat)
    {nodes : List FjNode} (hfollow : NodesFollow atomVars consumed bound nodes)
    : checkNodes ctx numVars (atomVars.map List.length) k ⟨consumed, bound⟩ nodes
      = .ok ⟨consumedAfter consumed nodes, bound ++ boundBy nodes⟩ := by
  induction nodes generalizing k consumed bound with
  | nil => simp [checkNodes, consumedAfter, boundBy]
  | cons node nodes ih =>
    obtain ⟨hnode, hrest⟩ := hfollow
    have hapart : ∀ probe ∈ node.probes, probe.inputIdx ∉ [node.cover.inputIdx] :=
      fun probe hprobe hmem => hnode.apart probe hprobe (List.mem_singleton.mp hmem)
    unfold checkNodes
    simp only [checkSub_ok hvars hnode.cover, bindCover_ok k hnode.distinct hnode.fresh,
      checkProbes_ok hvars k hapart hnode.probes, ok_bind]
    refine (ih (k + 1) hrest).trans ?_
    simp [consumedAfter, boundBy, FjNode.consume]

/-- A plan that follows the columns of its atoms and uses enough of them. -/
structure FollowsAtoms (atomVars : List (List Nat)) (mode : FjMode) (plan : FjPlan) : Prop where
  nonempty : plan.nodes ≠ []
  nodes : NodesFollow atomVars (fun _ => 0) [] plan.nodes
  vars : ∀ cols ∈ atomVars, ∀ v ∈ cols, v < plan.numVars
  outputs : ∀ v ∈ plan.outputVars, v ∈ boundBy plan.nodes
  full : mode = .materialize → ∀ i < atomVars.length,
    consumedAfter (fun _ => 0) plan.nodes i = (colVars atomVars i).length
  touched : mode = .countByRoot → ∀ i < atomVars.length,
    consumedAfter (fun _ => 0) plan.nodes i ≠ 0

theorem FollowsAtoms.outputs_lt {mode : FjMode} {plan : FjPlan}
    (h : FollowsAtoms atomVars mode plan)
    (hcovered : Covered atomVars (consumedAfter (fun _ => 0) plan.nodes) (boundBy plan.nodes))
    : ∀ v ∈ plan.outputVars, v < plan.numVars := by
  intro v hv
  obtain ⟨i, hi, hmem⟩ := (hcovered v).mp (h.outputs v hv)
  exact h.vars _ (colVars_mem hi) v (List.mem_of_mem_take hmem)

/-- A following plan is valid exactly when it has outputs, one for a count. -/
theorem FollowsAtoms.validatePlan_ok {mode : FjMode} {plan : FjPlan}
    (h : FollowsAtoms atomVars mode plan)
    (hcovered : Covered atomVars (consumedAfter (fun _ => 0) plan.nodes) (boundBy plan.nodes))
    (houtputs : plan.outputVars ≠ []) (hone : mode = .countByRoot → plan.outputVars.length = 1)
    : validatePlan plan (atomVars.map List.length) mode ctx = .ok (boundBy plan.nodes) := by
  have hconsumption : ((List.range (atomVars.map List.length).length).zip
      (atomVars.map List.length)).forM (checkConsumption ctx mode
        (consumedAfter (fun _ => 0) plan.nodes)) = .ok ⟨⟩ := by
    refine forM_eq_ok.mpr fun entry hentry => ?_
    obtain ⟨k, hk, rfl⟩ := List.getElem_of_mem hentry
    have hlt : k < atomVars.length := by simpa using hk
    simp only [List.getElem_zip, List.getElem_range, List.getElem_map, checkConsumption]
    cases mode with
    | materialize =>
      have hfull := h.full rfl k hlt
      rw [colVars_eq hlt] at hfull
      simp [hfull]
    | countByRoot => simp [h.touched rfl k hlt]
  have hlength : plan.outputVars.length ≠ 0 := fun hzero =>
    houtputs (List.length_eq_zero_iff.mp hzero)
  have hvars : plan.outputVars.forM (checkOutputVar ctx plan.numVars (boundBy plan.nodes))
      = .ok ⟨⟩ := by
    refine forM_eq_ok.mpr fun v hv => ?_
    have hlt := h.outputs_lt hcovered v hv
    have hno : ¬ (plan.numVars ≤ v ∨ v ∉ boundBy plan.nodes) :=
      fun hor => hor.elim (fun hle => by omega) fun hno => hno (h.outputs v hv)
    simp only [checkOutputVar, hno, if_false]
  have hcheck : checkNodes ctx plan.numVars (atomVars.map List.length) 0 ⟨fun _ => 0, []⟩ plan.nodes
      = .ok ⟨consumedAfter (fun _ => 0) plan.nodes, boundBy plan.nodes⟩ :=
    checkNodes_ok h.vars 0 h.nodes
  have hcount : ¬ (mode = .countByRoot ∧ plan.outputVars.length ≠ 1) :=
    fun hboth => hboth.2 (hone hboth.1)
  unfold validatePlan
  rw [if_neg (by simpa using h.nonempty)]
  simp only [hcheck, ok_bind, hconsumption, hlength, if_false, hcount, hvars]

theorem validatePlan_outputs {plan : FjPlan} {arities : List Nat} {mode : FjMode}
    {bindOrder : List Nat} (h : validatePlan plan arities mode ctx = .ok bindOrder)
    : plan.outputVars ≠ [] := by
  intro hnone
  unfold validatePlan at h
  split at h
  · simp at h
  · obtain ⟨check, -, h⟩ := bind_eq_ok.mp h
    obtain ⟨_, -, h⟩ := bind_eq_ok.mp h
    simp [hnone] at h

end

-- Rows

/-- The values of the variables give every atom a row of its input. -/
def Joins {V : Type} (atomVars : List (List Nat)) (inputs : List (JoinInput V)) (values : Nat → V)
    : Prop :=
  List.Forall₂ (fun cols input => cols.map values ∈ input.rows) atomVars inputs

section

variable {V : Type} {inputs : List (JoinInput V)}

theorem length_of_arity (harity : inputs.map JoinInput.arity = atomVars.map List.length)
    : inputs.length = atomVars.length := by
  simpa using congrArg List.length harity

variable [DecidableEq V]

/-- The rows of an input by its number. -/
def tableOf (inputs : List (JoinInput V)) (i : Nat) : List (List V) :=
  (inputs.map JoinInput.normalized).getD i []

theorem tableOf_eq {i : Nat} (hi : i < inputs.length) : tableOf inputs i = inputs[i].normalized := by
  simp [tableOf, hi]

theorem nodup_tableOf (inputs : List (JoinInput V)) (i : Nat) : (tableOf inputs i).Nodup := by
  by_cases hi : i < inputs.length
  · rw [tableOf_eq hi]
    exact List.nodup_dedup _
  · simp [tableOf, List.getElem?_eq_none (Nat.le_of_not_lt hi)]

/-- The rows of an atom that agree with the binding on the columns used up. -/
def agreeing (atomVars : List (List Nat)) (inputs : List (JoinInput V)) (consumed : Nat → Nat)
    (binding : Nat → Option V) (i : Nat) : List (List V) :=
  (tableOf inputs i).filter fun row =>
    (row.take (consumed i)).map some = ((colVars atomVars i).take (consumed i)).map binding

/-- The ways to choose a row of every atom that agrees with the binding. -/
def choices (atomVars : List (List Nat)) (inputs : List (JoinInput V)) (consumed : Nat → Nat)
    (binding : Nat → Option V) : List (List (List V)) :=
  List.sections ((List.range atomVars.length).map (agreeing atomVars inputs consumed binding))

theorem nodup_choices (consumed : Nat → Nat) (binding : Nat → Option V)
    : (choices atomVars inputs consumed binding).Nodup := by
  refine nodup_sections fun table htable => ?_
  obtain ⟨i, -, rfl⟩ := List.mem_map.mp htable
  exact (nodup_tableOf inputs i).filter _

variable (harity : inputs.map JoinInput.arity = atomVars.map List.length)

include harity

theorem tableOf_width
    : ∀ i < atomVars.length, ∀ row ∈ tableOf inputs i,
        row.length = (colVars atomVars i).length := by
  intro i hi row hrow
  have hlt : i < inputs.length := length_of_arity harity ▸ hi
  rw [tableOf_eq hlt] at hrow
  have hwidth := inputs[i].width row (List.mem_dedup.mp hrow)
  have hat : (inputs.map JoinInput.arity)[i]? = (atomVars.map List.length)[i]? := by rw [harity]
  rw [List.getElem?_map, List.getElem?_map, List.getElem?_eq_getElem hlt,
    List.getElem?_eq_getElem hi] at hat
  rw [hwidth, colVars_eq hi]
  exact Option.some.inj hat

theorem joins_iff {values : Nat → V}
    : Joins atomVars inputs values
      ↔ ∀ i < atomVars.length, (colVars atomVars i).map values ∈ tableOf inputs i := by
  have hlength := length_of_arity harity
  unfold Joins
  rw [List.forall₂_iff_get]
  constructor
  · rintro ⟨-, hrows⟩ i hi
    rw [colVars_eq hi, tableOf_eq (hlength ▸ hi)]
    exact List.mem_dedup.mpr (hrows i hi (hlength ▸ hi))
  · intro hrows
    refine ⟨hlength.symm, fun i hi hi' => ?_⟩
    have hrow := hrows i hi
    rw [colVars_eq hi, tableOf_eq hi'] at hrow
    exact List.mem_dedup.mp hrow

/-- The frontier of a following plan. -/
theorem frontierOf_ok {plan : FjPlan}
    (hfollow : NodesFollow atomVars (fun _ => 0) [] plan.nodes)
    : FrontierOk atomVars (tableOf inputs) (consumedAfter (fun _ => 0) plan.nodes)
        (boundBy plan.nodes) (frontierOf inputs plan) := by
  have hlength := length_of_arity harity
  have hrange (binding : Nat → Option V) (i : Nat)
      : Ranges atomVars (tableOf inputs) binding (fun _ => 0) i (tableOf inputs i) :=
    ⟨[], by simp, (refine_nil _).symm⟩
  unfold frontierOf
  dsimp only
  split
  · next hempty =>
    obtain ⟨norm, hnorm, hnone⟩ := List.any_eq_true.mp hempty
    obtain ⟨i, hi, rfl⟩ := List.getElem_of_mem hnorm
    have hlt : i < inputs.length := by simpa using hi
    refine ⟨by simp, by simp, fun binding hadmits => ?_, by simp⟩
    obtain ⟨range, ⟨key, -, rfl⟩, hne⟩ := hadmits.live i (hlength ▸ hlt)
    refine absurd ?_ (refine_ne_nil hne)
    rw [tableOf_eq hlt]
    simpa using hnone
  · next hnonempty =>
    refine FrontierOk.nodes (tableOf_width harity) covered_start ?_ hfollow
    have hrows : ∀ i < atomVars.length, tableOf inputs i ≠ [] := by
      intro i hi hnone
      have hlt : i < inputs.length := hlength ▸ hi
      rw [tableOf_eq hlt] at hnone
      exact hnonempty (List.any_eq_true.mpr
        ⟨_, List.mem_map_of_mem (List.getElem_mem hlt), by rw [hnone]; rfl⟩)
    refine ⟨?_, ?_, fun binding hadmits => ⟨_, List.mem_singleton_self _, ?_⟩, by simp⟩
    · intro row hrow
      obtain rfl := List.mem_singleton.mp hrow
      exact ⟨by simp, fun i hi => ⟨_, hrange _ i, hrows i hi⟩⟩
    · intro row hrow i _
      obtain rfl := List.mem_singleton.mp hrow
      exact hrange _ i
    · funext v
      have hno := mt (hadmits.bound v).mp List.not_mem_nil
      simpa using (Option.not_isSome_iff_eq_none.mp hno).symm

/-- A binding of all variables of the columns used up, from values for all variables. -/
theorem admits_of_joins {bound : List Nat} {consumed : Nat → Nat} (hcovered : Covered atomVars consumed bound)
    {values : Nat → V} (hjoins : Joins atomVars inputs values)
    : Admits atomVars (tableOf inputs) consumed bound
        fun v => if v ∈ bound then some (values v) else none where
  bound := by
    intro v
    by_cases hv : v ∈ bound <;> simp [hv]
  live := by
    intro i hi
    have hrow := (joins_iff harity).mp hjoins i hi
    refine ⟨_, ⟨((colVars atomVars i).take (consumed i)).map values, ?_, rfl⟩, ?_⟩
    · rw [List.map_map]
      refine List.map_congr_left fun v hv => ?_
      have hmem : v ∈ bound := (hcovered v).mpr ⟨i, hi, hv⟩
      simp [hmem]
    · rw [← List.take_append_drop (consumed i) (colVars atomVars i), List.map_append] at hrow
      exact List.ne_nil_of_mem (mem_refine.mpr hrow)

/-- The rows of a following plan that uses all columns are those of the natural join. -/
theorem FollowsAtoms.execute [Nonempty V] {plan : FjPlan} (ctx : String)
    (h : FollowsAtoms atomVars .materialize plan) (houtputs : plan.outputVars ≠ [])
    : ∃ rows, freeJoinExecute inputs plan ctx = .ok rows ∧ rows.Nodup
        ∧ ∀ row, row ∈ rows
          ↔ ∃ values, Joins atomVars inputs values ∧ row = plan.outputVars.map values := by
  have hcovered := covered_start.nodes h.nodes
  have hok := frontierOf_ok harity h.nodes
  have hvalid : validatePlan plan (inputs.map JoinInput.arity) .materialize ctx
      = .ok (boundBy plan.nodes) := by
    rw [harity]
    exact h.validatePlan_ok hcovered houtputs (by simp)
  refine ⟨((frontierOf inputs plan).filterMap fun row => plan.outputVars.mapM row.binding).dedup,
    by simp only [freeJoinExecute, hvalid, ok_bind], List.nodup_dedup _, fun row => ?_⟩
  rw [List.mem_dedup, List.mem_filterMap]
  simp only [mapM_binding_eq_some]
  constructor
  · rintro ⟨entry, hentry, hrow⟩
    obtain ⟨default⟩ := ‹Nonempty V›
    refine ⟨fun v => (entry.binding v).getD default, (joins_iff harity).mpr fun i hi => ?_, ?_⟩
    · obtain ⟨range, ⟨key, hkey, rfl⟩, hne⟩ := (hok.admits entry hentry).live i hi
      obtain ⟨rest, hrest⟩ := List.exists_mem_of_ne_nil _ hne
      have hmem := mem_refine.mp hrest
      have hwidth := tableOf_width harity i hi _ hmem
      rw [h.full rfl i hi, List.take_length] at hkey
      have hlength := congrArg List.length hkey
      simp only [List.length_map, List.length_append] at hlength hwidth
      obtain rfl : rest = [] := List.length_eq_zero_iff.mp (by omega)
      have hvalues : (colVars atomVars i).map (fun v => (entry.binding v).getD default) = key := by
        have hget := congrArg (List.map fun value : Option V => value.getD default) hkey
        simpa [Function.comp_def] using hget
      rw [hvalues]
      simpa using hmem
    · have hget := congrArg (List.map fun value : Option V => value.getD default) hrow
      simpa [Function.comp_def] using hget.symm
  · rintro ⟨values, hjoins, rfl⟩
    obtain ⟨entry, hentry, hbinding⟩ := hok.complete _ (admits_of_joins harity hcovered hjoins)
    refine ⟨entry, hentry, ?_⟩
    rw [hbinding, List.map_map]
    refine List.map_congr_left fun v hv => ?_
    have hmem : v ∈ boundBy plan.nodes := h.outputs v hv
    simp [hmem]

-- Counts

/-- The columns that are left are of variables that occur nowhere else. -/
structure LeavesPrivate (atomVars : List (List Nat)) (consumed : Nat → Nat) (bound : List Nat)
    : Prop where
  distinct : ((List.range atomVars.length).flatMap fun i =>
    (colVars atomVars i).drop (consumed i)).Nodup
  unbound : ∀ i < atomVars.length, ∀ v ∈ (colVars atomVars i).drop (consumed i), v ∉ bound

theorem length_choices {consumed : Nat → Nat} {row : FrontierRow V}
    (hranges : ∀ i < atomVars.length,
      Ranges atomVars (tableOf inputs) row.binding consumed i (row.range i))
    : (choices atomVars inputs consumed row.binding).length = row.multiplicity inputs := by
  unfold choices FrontierRow.multiplicity
  rw [length_sections, List.map_map, length_of_arity harity]
  refine congrArg List.prod (List.map_congr_left fun i hi => ?_)
  obtain ⟨key, hkey, hrange⟩ := hranges i (List.mem_range.mp hi)
  rw [hrange, length_refine]
  refine congrArg List.length (List.filter_congr fun entry hentry => ?_)
  have hwidth := tableOf_width harity i (List.mem_range.mp hi) entry hentry
  have hlength := congrArg List.length hkey
  simp only [List.length_map, List.length_take] at hlength
  have htake : entry.take key.length = entry.take (consumed i) :=
    List.take_eq_take_iff.mpr (by omega)
  rw [hkey, htake]
  simp only [decide_eq_decide]
  exact ⟨map_some_injective, fun heq => heq ▸ rfl⟩

/-- The choices of an admitted binding are the rows of its extensions. -/
theorem mem_choices [Nonempty V] {consumed : Nat → Nat} {bound : List Nat}
    (hcovered : Covered atomVars consumed bound) (hleft : LeavesPrivate atomVars consumed bound)
    {binding : Nat → Option V} (hbound : ∀ v, (binding v).isSome = true ↔ v ∈ bound)
    {rows : List (List V)}
    : rows ∈ choices atomVars inputs consumed binding
      ↔ ∃ values, Joins atomVars inputs values ∧ rows = atomVars.map (List.map values)
        ∧ ∀ v ∈ bound, binding v = some (values v) := by
  simp only [choices, List.mem_sections, List.forall₂_iff_get, List.length_map,
    List.length_range, List.get_eq_getElem, List.getElem_map, List.getElem_range, agreeing,
    List.mem_filter, decide_eq_true_eq]
  constructor
  · rintro ⟨hlength, hrows⟩
    have hwidth (i : Nat) (hi : i < atomVars.length)
        : rows[i].length = (colVars atomVars i).length :=
      tableOf_width harity i hi _ (hrows i (hlength ▸ hi) hi).1
    have hvalue (v : Nat) (hv : v ∈ bound) (other : V) : some ((binding v).getD other) = binding v := by
      obtain ⟨x, hx⟩ := Option.isSome_iff_exists.mp ((hbound v).mpr hv)
      simp [hx]
    obtain ⟨values, hprivate⟩ := @exists_values V _
      ((List.range atomVars.length).map fun i =>
        ((colVars atomVars i).drop (consumed i), (rows.getD i []).drop (consumed i)))
      (by
        rw [List.flatMap_map]
        exact hleft.distinct)
      (by
        intro table htable
        obtain ⟨i, hi, rfl⟩ := List.mem_map.mp htable
        have hrow := hwidth i (List.mem_range.mp hi)
        simp [hlength ▸ List.mem_range.mp hi, hrow])
    have hrow (i : Nat) (hi : i < atomVars.length)
        : (colVars atomVars i).map (fun v => (binding v).getD (values v)) = rows[i] := by
      rw [← List.take_append_drop (consumed i) (colVars atomVars i), List.map_append,
        ← List.take_append_drop (consumed i) rows[i]]
      congr 1
      · refine map_some_injective ?_
        rw [(hrows i (hlength ▸ hi) hi).2, List.map_map]
        exact List.map_congr_left fun v hv => hvalue v ((hcovered v).mpr ⟨i, hi, hv⟩) _
      · have hdrop : ((colVars atomVars i).drop (consumed i)).map values
            = (rows.getD i []).drop (consumed i) :=
          hprivate _ (List.mem_map_of_mem (List.mem_range.mpr hi))
        rw [show rows[i] = rows.getD i [] by simp [hlength ▸ hi], ← hdrop]
        refine List.map_congr_left fun v hv => ?_
        have hno := mt (hbound v).mp (hleft.unbound i hi v hv)
        simp [Option.not_isSome_iff_eq_none.mp hno]
    refine ⟨fun v => (binding v).getD (values v), (joins_iff harity).mpr fun i hi => ?_, ?_,
      fun v hv => (hvalue v hv _).symm⟩
    · rw [hrow i hi]
      exact (hrows i (hlength ▸ hi) hi).1
    · refine List.ext_getElem (by simpa using hlength) fun i hi hi' => ?_
      have hlt : i < atomVars.length := hlength ▸ hi
      rw [List.getElem_map, ← colVars_eq hlt, hrow i hlt]
  · rintro ⟨values, hjoins, rfl, hvalues⟩
    refine ⟨by simp, fun i hi hi' => ⟨?_, ?_⟩⟩
    · have hrow := (joins_iff harity).mp hjoins i hi'
      rw [colVars_eq hi'] at hrow
      simpa using hrow
    · rw [List.getElem_map, ← colVars_eq hi', ← List.map_take, List.map_map]
      refine List.map_congr_left fun v hv => ?_
      exact (hvalues v ((hcovered v).mpr ⟨i, hi', hv⟩)).symm

/-- The bindings of all variables, as rows of the atoms, that give a variable a value. -/
def bodyRows (atomVars : List (List Nat)) (inputs : List (JoinInput V)) (v : Nat) (key : V)
    : Set (List (List V)) :=
  {rows | ∃ values, Joins atomVars inputs values ∧ rows = atomVars.map (List.map values)
    ∧ values v = key}

/-- The multiplicities of a value of the group variable add up to its bindings. -/
theorem FollowsAtoms.sum_multiplicity [Nonempty V] {plan : FjPlan} {mode : FjMode} {group : Nat}
    (h : FollowsAtoms atomVars mode plan)
    (hleft : LeavesPrivate atomVars (consumedAfter (fun _ => 0) plan.nodes) (boundBy plan.nodes))
    (hgroup : group ∈ boundBy plan.nodes) (key : V)
    : (((frontierOf inputs plan).filter fun row => row.binding group = some key).map
        (FrontierRow.multiplicity inputs)).sum = (bodyRows atomVars inputs group key).ncard := by
  have hcovered : Covered atomVars _ (boundBy plan.nodes) := covered_start.nodes h.nodes
  have hok := frontierOf_ok harity h.nodes
  set consumed := consumedAfter (fun _ => 0) plan.nodes
  set chosen := ((frontierOf inputs plan).filter fun row => row.binding group = some key).flatMap
    fun row => choices atomVars inputs consumed row.binding
  have hmem (rows : List (List V)) : rows ∈ chosen ↔ rows ∈ bodyRows atomVars inputs group key := by
    simp only [chosen, List.mem_flatMap, List.mem_filter, decide_eq_true_eq]
    constructor
    · rintro ⟨row, ⟨hrow, hkey⟩, hrows⟩
      obtain ⟨values, hjoins, heq, hvalues⟩ :=
        (mem_choices harity hcovered hleft (hok.admits row hrow).bound).mp hrows
      exact ⟨values, hjoins, heq, Option.some.inj ((hvalues group hgroup).symm.trans hkey)⟩
    · rintro ⟨values, hjoins, heq, rfl⟩
      obtain ⟨row, hrow, hbinding⟩ := hok.complete _ (admits_of_joins harity hcovered hjoins)
      refine ⟨row, ⟨hrow, by simp [hbinding, hgroup]⟩, ?_⟩
      refine (mem_choices harity hcovered hleft (hok.admits row hrow).bound).mpr
        ⟨values, hjoins, heq, fun v hv => by simp [hbinding, hv]⟩
  have hnodup : chosen.Nodup := by
    refine List.nodup_flatMap.mpr ⟨fun row _ => nodup_choices consumed row.binding, ?_⟩
    refine ((List.pairwise_map.mp hok.distinct).filter _).imp_of_mem fun hrow hrow' hne => ?_
    refine List.disjoint_left.mpr ?_
    intro rows hrows hrows'
    have hadmits := hok.admits _ (List.mem_filter.mp hrow).1
    have hadmits' := hok.admits _ (List.mem_filter.mp hrow').1
    obtain ⟨values, hjoins, rfl, hvalues⟩ :=
      (mem_choices harity hcovered hleft hadmits.bound).mp hrows
    obtain ⟨values', -, heq, hvalues'⟩ :=
      (mem_choices harity hcovered hleft hadmits'.bound).mp hrows'
    refine hne (funext fun v => ?_)
    by_cases hv : v ∈ boundBy plan.nodes
    · obtain ⟨i, hi, htake⟩ := (hcovered v).mp hv
      have hcols := List.map_inj_left.mp heq _ (colVars_mem hi)
      rw [hvalues v hv, hvalues' v hv,
        List.map_inj_left.mp hcols v (List.mem_of_mem_take htake)]
    · rw [Option.not_isSome_iff_eq_none.mp (mt (hadmits.bound v).mp hv),
        Option.not_isSome_iff_eq_none.mp (mt (hadmits'.bound v).mp hv)]
  have hset : bodyRows atomVars inputs group key = (chosen.toFinset : Set (List (List V))) := by
    ext rows
    rw [List.coe_toFinset]
    exact (hmem rows).symm
  rw [hset, Set.ncard_coe_finset, List.toFinset_card_of_nodup hnodup, List.length_flatMap]
  refine congrArg List.sum (List.map_congr_left fun row hrow => ?_)
  exact (length_choices harity (hok.ranges row (List.mem_filter.mp hrow).1)).symm

/-- The counts of a following plan are the numbers of bindings of each value of its group variable. -/
theorem FollowsAtoms.count [Nonempty V] {plan : FjPlan} (ctx : String) {group : Nat}
    (h : FollowsAtoms atomVars .countByRoot plan)
    (hleft : LeavesPrivate atomVars (consumedAfter (fun _ => 0) plan.nodes) (boundBy plan.nodes))
    (houtput : plan.outputVars = [group])
    : ∃ table, freeJoinCountByRoot inputs plan ctx = .ok table ∧ (table.map Prod.fst).Nodup
        ∧ ∀ key count, (key, count) ∈ table
          ↔ count = (bodyRows atomVars inputs group key).ncard ∧ count ≠ 0 := by
  have hcovered : Covered atomVars _ (boundBy plan.nodes) := covered_start.nodes h.nodes
  have hok := frontierOf_ok harity h.nodes
  have hgroup : group ∈ boundBy plan.nodes := h.outputs group (by simp [houtput])
  have hvalid : validatePlan plan (inputs.map JoinInput.arity) .countByRoot ctx
      = .ok (boundBy plan.nodes) := by
    rw [harity]
    exact h.validatePlan_ok hcovered (by simp [houtput]) (by simp [houtput])
  refine ⟨((frontierOf inputs plan).filterMap fun row => row.binding group).dedup.map fun key =>
    (key, (((frontierOf inputs plan).filter fun row => row.binding group = some key).map
      (FrontierRow.multiplicity inputs)).sum), ?_, ?_, fun key count => ?_⟩
  · simp only [freeJoinCountByRoot, hvalid, ok_bind, houtput, List.head?_cons, Option.bind_some]
  · rw [List.map_map]
    simpa [Function.comp_def] using List.nodup_dedup _
  · simp only [h.sum_multiplicity harity hleft hgroup, List.mem_map, List.mem_dedup,
      List.mem_filterMap, Prod.mk.injEq]
    constructor
    · rintro ⟨_, ⟨row, hrow, hkey⟩, rfl, rfl⟩
      refine ⟨rfl, fun hzero => ?_⟩
      rw [← h.sum_multiplicity harity hleft hgroup, List.sum_eq_zero_iff] at hzero
      have hnone := hzero _ (List.mem_map_of_mem
        (List.mem_filter.mpr ⟨hrow, decide_eq_true hkey⟩))
      obtain ⟨i, hi, hempty⟩ := List.mem_map.mp (List.prod_eq_zero_iff.mp hnone)
      have hlt : i < atomVars.length := length_of_arity harity ▸ List.mem_range.mp hi
      obtain ⟨range, hrange, hne⟩ := (hok.admits row hrow).live i hlt
      rw [(hok.ranges row hrow i hlt).unique hrange] at hempty
      exact hne (List.length_eq_zero_iff.mp hempty)
    · rintro ⟨rfl, hne⟩
      obtain ⟨rows, values, hjoins, -, rfl⟩ := Set.nonempty_of_ncard_ne_zero hne
      obtain ⟨row, hrow, hbinding⟩ := hok.complete _ (admits_of_joins harity hcovered hjoins)
      exact ⟨_, ⟨row, hrow, by simp [hbinding, hgroup]⟩, rfl, rfl⟩

end

end Xlog.Cuda
