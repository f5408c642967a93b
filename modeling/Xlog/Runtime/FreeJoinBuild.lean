import Mathlib.Data.List.TakeWhile
import Xlog.Cuda.FreeJoinCorrectness
import Xlog.Runtime.FreeJoinPlan

/-! Adding an atom to the nodes of a plan keeps a plan that follows the columns of its atoms: its probe goes
to a node after which its keys are bound, and its cover to a new node at the end.
-/

namespace Xlog.Runtime

open Xlog.Cuda

variable {atomVars : List (List Nat)} {consumed consumed' : Nat → Nat} {bound : List Nat}
  {nodes : List FjNode}

-- Columns used up

def subatoms (nodes : List FjNode) : List FjSubAtom :=
  nodes.flatMap fun node => node.cover :: node.probes

/-- The columns that the subatoms use up of an input. -/
def columnsOf (subs : List FjSubAtom) (i : Nat) : Nat :=
  ((subs.filter fun sub => sub.inputIdx = i).map fun sub => sub.varPositions.length).sum

theorem consumeAll_apply (subs : List FjSubAtom) (consumed : Nat → Nat) (i : Nat)
    : consumeAll consumed subs i = consumed i + columnsOf subs i := by
  induction subs generalizing consumed with
  | nil => simp [consumeAll, columnsOf]
  | cons sub subs ih =>
    have hstep : consumeAll consumed (sub :: subs) = consumeAll (sub.consume consumed) subs := rfl
    rw [hstep, ih]
    by_cases hsame : sub.inputIdx = i
    · subst hsame
      rw [sub.consume_self]
      simp [columnsOf, Nat.add_assoc]
    · rw [FjSubAtom.consume_of_ne (Ne.symm hsame)]
      simp [columnsOf, hsame]

theorem nodeConsume_apply (node : FjNode) (consumed : Nat → Nat) (i : Nat)
    : node.consume consumed i = consumed i + columnsOf (node.cover :: node.probes) i :=
  consumeAll_apply (node.cover :: node.probes) consumed i

theorem columnsOf_append (left right : List FjSubAtom) (i : Nat)
    : columnsOf (left ++ right) i = columnsOf left i + columnsOf right i := by
  simp [columnsOf]

theorem columnsOf_perm {left right : List FjSubAtom} (h : left.Perm right) (i : Nat)
    : columnsOf left i = columnsOf right i :=
  ((h.filter _).map _).sum_eq

theorem columnsOf_untouched {subs : List FjSubAtom} {i : Nat}
    (h : ∀ sub ∈ subs, sub.inputIdx ≠ i)
    : columnsOf subs i = 0 := by
  have hnone : subs.filter (fun sub => sub.inputIdx = i) = [] := by
    simpa using h
  simp [columnsOf, hnone]

theorem columnsOf_singleton (sub : FjSubAtom) (i : Nat)
    : columnsOf [sub] i = if sub.inputIdx = i then sub.varPositions.length else 0 := by
  by_cases hsame : sub.inputIdx = i <;> simp [columnsOf, hsame]

theorem consumedAfter_apply (nodes : List FjNode) (consumed : Nat → Nat) (i : Nat)
    : consumedAfter consumed nodes i = consumed i + columnsOf (subatoms nodes) i := by
  induction nodes generalizing consumed with
  | nil => simp [consumedAfter, subatoms, columnsOf]
  | cons node nodes ih =>
    have hstep : consumedAfter consumed (node :: nodes) = consumedAfter (node.consume consumed) nodes :=
      rfl
    have hsubs : subatoms (node :: nodes) = (node.cover :: node.probes) ++ subatoms nodes := rfl
    rw [hstep, ih, nodeConsume_apply, hsubs, columnsOf_append, Nat.add_assoc]

-- Only the columns of the atoms touched matter

theorem next_congr {sub : FjSubAtom} (h : sub.Next atomVars consumed)
    (hsame : consumed' sub.inputIdx = consumed sub.inputIdx)
    : sub.Next atomVars consumed' :=
  ⟨h.inside, h.nonempty, hsame ▸ h.columns⟩

theorem consume_congr (sub : FjSubAtom) {i : Nat} (hsame : consumed' i = consumed i)
    : sub.consume consumed' i = sub.consume consumed i := by
  have heq (consumed : Nat → Nat) : sub.consume consumed i = consumed i + columnsOf [sub] i :=
    consumeAll_apply [sub] consumed i
  rw [heq, heq, hsame]

theorem probesFollow_congr {probes : List FjSubAtom}
    (h : ProbesFollow atomVars bound consumed probes)
    (hsame : ∀ probe ∈ probes, consumed' probe.inputIdx = consumed probe.inputIdx)
    : ProbesFollow atomVars bound consumed' probes := by
  induction probes generalizing consumed consumed' with
  | nil => trivial
  | cons probe probes ih =>
    obtain ⟨hnext, hbound, hapart, hrest⟩ := h
    obtain ⟨hfirst, hsame⟩ := List.forall_mem_cons.mp hsame
    exact ⟨next_congr hnext hfirst, hbound, hapart,
      ih hrest fun other hother => consume_congr probe (hsame other hother)⟩

theorem follows_congr {node : FjNode} (h : node.Follows atomVars consumed bound)
    (hsame : ∀ sub ∈ node.cover :: node.probes, consumed' sub.inputIdx = consumed sub.inputIdx)
    : node.Follows atomVars consumed' bound := by
  obtain ⟨hcover, hprobes⟩ := List.forall_mem_cons.mp hsame
  exact ⟨next_congr h.cover hcover, h.distinct, h.fresh, h.apart,
    probesFollow_congr h.probes fun probe hprobe => consume_congr _ (hprobes probe hprobe)⟩

theorem nodesFollow_congr (h : NodesFollow atomVars consumed bound nodes)
    (hsame : ∀ sub ∈ subatoms nodes, consumed' sub.inputIdx = consumed sub.inputIdx)
    : NodesFollow atomVars consumed' bound nodes := by
  induction nodes generalizing consumed consumed' bound with
  | nil => trivial
  | cons node nodes ih =>
    have hsame : ∀ sub ∈ (node.cover :: node.probes) ++ subatoms nodes,
        consumed' sub.inputIdx = consumed sub.inputIdx := hsame
    obtain ⟨hnode, hrest⟩ := List.forall_mem_append.mp hsame
    refine ⟨follows_congr h.1 hnode, ih h.2 fun sub hsub => ?_⟩
    rw [nodeConsume_apply, nodeConsume_apply, hrest sub hsub]

-- One more node, one more probe

theorem nodesFollow_concat {node : FjNode} (h : NodesFollow atomVars consumed bound nodes)
    (hnode : node.Follows atomVars (consumedAfter consumed nodes) (bound ++ boundBy nodes))
    : NodesFollow atomVars consumed bound (nodes ++ [node]) := by
  induction nodes generalizing consumed bound with
  | nil =>
    refine ⟨?_, trivial⟩
    simpa [consumedAfter, boundBy] using hnode
  | cons first nodes ih =>
    refine ⟨h.1, ih h.2 ?_⟩
    simpa [consumedAfter, boundBy] using hnode

theorem probesFollow_concat {probes : List FjSubAtom} {probe : FjSubAtom}
    (h : ProbesFollow atomVars bound consumed probes) (hnext : probe.Next atomVars consumed)
    (hbound : ∀ v ∈ probe.varPositions, v ∈ bound)
    (hapart : ∀ other ∈ probes, other.inputIdx ≠ probe.inputIdx)
    : ProbesFollow atomVars bound consumed (probes ++ [probe]) := by
  induction probes generalizing consumed with
  | nil => exact ⟨hnext, hbound, by simp, trivial⟩
  | cons first probes ih =>
    obtain ⟨hfirst, hmatched, hothers, hrest⟩ := h
    obtain ⟨hne, hapart⟩ := List.forall_mem_cons.mp hapart
    refine ⟨hfirst, hmatched, ?_, ih hrest ?_ hapart⟩
    · intro other hother
      rcases List.mem_append.mp hother with hother | hother
      · exact hothers other hother
      · exact List.mem_singleton.mp hother ▸ hne.symm
    · exact next_congr hnext (FjSubAtom.consume_of_ne hne.symm consumed)

theorem subatoms_addProbe {target : Nat} (htarget : target < nodes.length) (probe : FjSubAtom)
    : (subatoms (nodes.modify target (addProbe probe))).Perm (probe :: subatoms nodes) := by
  induction nodes generalizing target with
  | nil => simp at htarget
  | cons node nodes ih =>
    have hsubs : subatoms (node :: nodes) = (node.cover :: node.probes) ++ subatoms nodes := rfl
    rw [hsubs]
    cases target with
    | zero =>
      have hnew : subatoms ((node :: nodes).modify 0 (addProbe probe))
          = (node.cover :: node.probes) ++ ([probe] ++ subatoms nodes) := by
        simp [subatoms, addProbe]
      rw [hnew]
      exact List.perm_middle
    | succ target =>
      have hnew : subatoms ((node :: nodes).modify (target + 1) (addProbe probe))
          = (node.cover :: node.probes) ++ subatoms (nodes.modify target (addProbe probe)) := by
        simp [subatoms]
      rw [hnew]
      exact ((ih (Nat.lt_of_succ_lt_succ htarget)).append_left _).trans List.perm_middle

/-- An atom not touched so far can be probed after its keys are bound. -/
theorem nodesFollow_addProbe {probe : FjSubAtom} {target : Nat}
    (h : NodesFollow atomVars consumed bound nodes) (hnext : probe.Next atomVars consumed)
    (hapart : ∀ sub ∈ subatoms nodes, sub.inputIdx ≠ probe.inputIdx)
    (hbound : ∀ v ∈ probe.varPositions, v ∈ bound ++ boundBy (nodes.take (target + 1)))
    : NodesFollow atomVars consumed bound (nodes.modify target (addProbe probe)) := by
  induction nodes generalizing consumed bound target with
  | nil => simpa using h
  | cons node nodes ih =>
    have hapart : ∀ sub ∈ (node.cover :: node.probes) ++ subatoms nodes,
        sub.inputIdx ≠ probe.inputIdx := hapart
    obtain ⟨hnode, hrest⟩ := List.forall_mem_append.mp hapart
    obtain ⟨hcover, hprobes⟩ := List.forall_mem_cons.mp hnode
    have hconsumed : node.consume consumed probe.inputIdx = consumed probe.inputIdx := by
      rw [nodeConsume_apply, columnsOf_untouched hnode, Nat.add_zero]
    cases target with
    | zero =>
      refine ⟨⟨h.1.cover, h.1.distinct, h.1.fresh, ?_, ?_⟩, nodesFollow_congr h.2 ?_⟩
      · intro other hother
        rcases List.mem_append.mp hother with hother | hother
        · exact h.1.apart other hother
        · exact List.mem_singleton.mp hother ▸ hcover.symm
      · refine probesFollow_concat h.1.probes
          (next_congr hnext (FjSubAtom.consume_of_ne hcover.symm consumed)) ?_ hprobes
        simpa [boundBy, addProbe] using hbound
      · intro sub hsub
        have hsubs : (addProbe probe node).cover :: (addProbe probe node).probes
            = (node.cover :: node.probes) ++ [probe] := by simp [addProbe]
        rw [nodeConsume_apply, nodeConsume_apply, hsubs, columnsOf_append,
          columnsOf_singleton, if_neg (hrest sub hsub).symm, Nat.add_zero]
    | succ target =>
      refine ⟨h.1, ih h.2 (next_congr hnext hconsumed) hrest ?_⟩
      simpa [boundBy, addProbe] using hbound

-- The builder

/-- The nodes built follow the columns of the atoms done, and bind what the builder says. -/
structure BuildOk (atomVars : List (List Nat)) (done : List Nat) (b : FjBuild) : Prop where
  follows : NodesFollow atomVars (fun _ => 0) [] b.nodes
  bound : ∀ v k, b.boundAt v = some k
    ↔ ∃ node, b.nodes[k]? = some node ∧ v ∈ node.cover.varPositions
  touched : ∀ sub ∈ subatoms b.nodes, sub.inputIdx ∈ done

def FjBuild.used (b : FjBuild) : Nat → Nat := consumedAfter (fun _ => 0) b.nodes

variable {b b' : FjBuild} {done : List Nat} {i : Nat}

theorem used_eq (b : FjBuild) (i : Nat) : b.used i = columnsOf (subatoms b.nodes) i := by
  rw [FjBuild.used, consumedAfter_apply, Nat.zero_add]

theorem BuildOk.untouched (h : BuildOk atomVars done b) (hi : i ∉ done)
    : ∀ sub ∈ subatoms b.nodes, sub.inputIdx ≠ i :=
  fun sub hsub heq => hi (heq ▸ h.touched sub hsub)

theorem BuildOk.used_untouched (h : BuildOk atomVars done b) (hi : i ∉ done) : b.used i = 0 := by
  rw [used_eq, columnsOf_untouched (h.untouched hi)]

theorem BuildOk.isBound_iff (h : BuildOk atomVars done b) {v : Nat}
    : b.isBound v = true ↔ v ∈ boundBy b.nodes := by
  rw [FjBuild.isBound, Option.isSome_iff_exists, boundBy, List.mem_flatMap]
  simp only [h.bound]
  constructor
  · rintro ⟨k, node, hnode, hv⟩
    exact ⟨node, List.mem_of_getElem? hnode, hv⟩
  · rintro ⟨node, hnode, hv⟩
    obtain ⟨k, hk⟩ := List.getElem?_of_mem hnode
    exact ⟨k, node, hk, hv⟩

theorem buildOk_start : BuildOk atomVars [] .start :=
  ⟨trivial, fun v k => by simp [FjBuild.start], by simp [FjBuild.start, subatoms]⟩

/-- The keys of a probe are bound by its node at the latest. -/
theorem BuildOk.target (h : BuildOk atomVars done b) {keys : List Nat} (hne : keys ≠ [])
    (hkeys : ∀ v ∈ keys, b.isBound v = true)
    : (keys.filterMap b.boundAt).max?.getD 0 < b.nodes.length
      ∧ ∀ v ∈ keys, v ∈ boundBy (b.nodes.take ((keys.filterMap b.boundAt).max?.getD 0 + 1)) := by
  obtain ⟨first, hfirst⟩ := List.exists_mem_of_ne_nil _ hne
  obtain ⟨k, hk⟩ := Option.isSome_iff_exists.mp (hkeys first hfirst)
  have hmem : k ∈ keys.filterMap b.boundAt := List.mem_filterMap.mpr ⟨first, hfirst, hk⟩
  obtain ⟨target, htarget⟩ := Option.isSome_iff_exists.mp
    (List.isSome_max?_of_mem hmem)
  obtain ⟨hattained, hmax⟩ := List.max?_eq_some_iff.mp htarget
  rw [htarget, Option.getD_some]
  constructor
  · obtain ⟨v, -, hv⟩ := List.mem_filterMap.mp hattained
    obtain ⟨node, hnode, -⟩ := (h.bound v target).mp hv
    exact (List.getElem?_eq_some_iff.mp hnode).1
  · intro v hv
    obtain ⟨place, hat⟩ := Option.isSome_iff_exists.mp (hkeys v hv)
    have hle : place ≤ target := hmax place (List.mem_filterMap.mpr ⟨v, hv, hat⟩)
    obtain ⟨node, hnode, hvar⟩ := (h.bound v place).mp hat
    refine List.mem_flatMap.mpr ⟨node, List.mem_of_getElem? (i := place) ?_, hvar⟩
    rw [List.getElem?_take_of_lt (by omega), hnode]

/-- Probing an atom uses up its keys. -/
theorem BuildOk.pushProbe (h : BuildOk atomVars done b) (hi : i ∉ done) (hlt : i < atomVars.length)
    {keys : List Nat} (hleading : keys <+: colVars atomVars i)
    (hkeys : ∀ v ∈ keys, b.isBound v = true) (hpush : b.pushProbe i keys = some b')
    : BuildOk atomVars (i :: done) b' ∧ b'.boundAt = b.boundAt
      ∧ b'.used = Function.update b.used i keys.length := by
  unfold FjBuild.pushProbe at hpush
  split at hpush
  · next hnil =>
    obtain rfl := Option.some.inj hpush
    obtain rfl := List.isEmpty_iff.mp hnil
    refine ⟨⟨h.follows, h.bound, fun sub hsub => List.mem_cons_of_mem _ (h.touched sub hsub)⟩, rfl, ?_⟩
    rw [List.length_nil, ← h.used_untouched hi, Function.update_eq_self]
  · next hkeys' =>
    split at hpush
    · simp at hpush
    obtain rfl := Option.some.inj hpush
    have hne : keys ≠ [] := fun hnil => hkeys' (List.isEmpty_iff.mpr hnil)
    obtain ⟨htarget, hbound⟩ := h.target hne hkeys
    set target := (keys.filterMap b.boundAt).max?.getD 0
    have hperm := subatoms_addProbe htarget ⟨i, keys⟩
    refine ⟨⟨?_, ?_, ?_⟩, rfl, ?_⟩
    · exact nodesFollow_addProbe h.follows ⟨hlt, hne, hleading⟩ (h.untouched hi) (by simpa using hbound)
    · intro v k
      simp only [h.bound, List.getElem?_modify, Option.map_eq_map, Option.map_eq_some_iff]
      grind [addProbe]
    · intro sub hsub
      rcases List.mem_cons.mp (hperm.mem_iff.mp hsub) with rfl | hsub
      · exact List.mem_cons_self
      · exact List.mem_cons_of_mem _ (h.touched sub hsub)
    · funext j
      rw [used_eq, columnsOf_perm hperm]
      by_cases hsame : j = i
      · subst hsame
        have hzero := columnsOf_untouched (h.untouched hi)
        rw [Function.update_self]
        simpa [columnsOf] using hzero
      · rw [Function.update_of_ne hsame, used_eq]
        simp [columnsOf, Ne.symm hsame]

/-- Covering the next columns of an atom uses them up. -/
theorem BuildOk.pushCover (h : BuildOk atomVars done b) (hi : i ∈ done) (hlt : i < atomVars.length)
    {cover : List Nat} (hleading : cover <+: (colVars atomVars i).drop (b.used i))
    (hfresh : ∀ v ∈ cover, b.isBound v = false) (hpush : b.pushCover i cover = some b')
    : BuildOk atomVars done b' ∧ b'.nodes ≠ []
      ∧ b'.used = Function.update b.used i (b.used i + cover.length) := by
  unfold FjBuild.pushCover at hpush
  split at hpush
  · next hnil =>
    split at hpush
    · simp at hpush
    · next hne =>
      obtain rfl := Option.some.inj hpush
      obtain rfl := List.isEmpty_iff.mp hnil
      refine ⟨h, fun hnone => hne (List.isEmpty_iff.mpr hnone), ?_⟩
      simp
  · next hcover =>
    split at hpush
    · next hnodup =>
      obtain rfl := Option.some.inj hpush
      have hne : cover ≠ [] := fun hnil => hcover (List.isEmpty_iff.mpr hnil)
      have hsubs : subatoms (b.nodes ++ [⟨⟨i, cover⟩, []⟩]) = subatoms b.nodes ++ [⟨i, cover⟩] := by
        simp [subatoms]
      refine ⟨⟨?_, ?_, ?_⟩, by simp, ?_⟩
      · refine nodesFollow_concat h.follows ⟨⟨hlt, hne, hleading⟩, hnodup, ?_, by simp, trivial⟩
        intro v hv hbound
        have hno := mt h.isBound_iff.mpr (by simpa using hfresh v hv)
        exact hno (by simpa using hbound)
      · intro v k
        have hunbound (hv : v ∈ cover) : ∀ node ∈ b.nodes, v ∉ node.cover.varPositions := by
          intro node hnode hmem
          have hbound := h.isBound_iff.mpr (List.mem_flatMap.mpr ⟨node, hnode, hmem⟩)
          simp [hfresh v hv] at hbound
        simp only [List.getElem?_append, List.getElem?_singleton]
        constructor
        · intro hbound
          split at hbound
          · next hv =>
            obtain rfl := Option.some.inj hbound
            exact ⟨⟨⟨i, cover⟩, []⟩, by simp, hv⟩
          · obtain ⟨node, hnode, hv⟩ := (h.bound v k).mp hbound
            have hlt := (List.getElem?_eq_some_iff.mp hnode).1
            exact ⟨node, by rwa [if_pos hlt], hv⟩
        · rintro ⟨node, hnode, hv⟩
          split at hnode
          · have hno := fun hmem => hunbound hmem node (List.mem_of_getElem? hnode) hv
            rw [if_neg hno]
            exact (h.bound v k).mpr ⟨node, hnode, hv⟩
          · obtain ⟨hk, rfl⟩ := Option.ite_none_right_eq_some.mp hnode |>.imp_right Option.some.inj
            rw [if_pos hv]
            exact congrArg some (by omega)
      · intro sub hsub
        rw [hsubs] at hsub
        rcases List.mem_append.mp hsub with hsub | hsub
        · exact h.touched sub hsub
        · exact List.mem_singleton.mp hsub ▸ hi
      · funext j
        rw [used_eq, hsubs, columnsOf_append, columnsOf_singleton]
        by_cases hsame : j = i
        · subst hsame
          simp [used_eq]
        · simp [used_eq, hsame, Ne.symm hsame]
    · simp at hpush

/-- Adding an atom uses up its columns before `keepEnd`. -/
theorem BuildOk.addAtom (h : BuildOk atomVars done b) (hi : i ∉ done) (hlt : i < atomVars.length)
    {keepEnd : Nat} (hnonPrefix : ¬ b.isNonPrefix (colVars atomVars i) = true)
    (hsplit : b.split (colVars atomVars i) ≤ keepEnd)
    (hkeep : keepEnd ≤ (colVars atomVars i).length)
    (hadd : b.addAtom i (colVars atomVars i) keepEnd = some b')
    : BuildOk atomVars (i :: done) b' ∧ b'.nodes ≠ []
      ∧ b'.used = Function.update b.used i keepEnd := by
  set vars := colVars atomVars i with hvars
  obtain ⟨probed, hprobe, hcover⟩ := Option.bind_eq_some_iff.mp hadd
  have htake : vars.take (b.split vars) = vars.takeWhile b.isBound :=
    (List.prefix_iff_eq_take.mp (List.takeWhile_prefix _)).symm
  have hle : b.split vars ≤ vars.length := hsplit.trans hkeep
  have hkeys : ∀ v ∈ vars.take (b.split vars), b.isBound v = true := by
    intro v hv
    rw [htake] at hv
    exact List.mem_takeWhile_imp hv
  obtain ⟨hprobed, hbound, hused⟩ := h.pushProbe hi hlt (hvars ▸ List.take_prefix _ _) hkeys hprobe
  have hsplitUsed : probed.used i = b.split vars := by
    rw [hused, Function.update_self, List.length_take, Nat.min_eq_left hle]
  have hfresh : ∀ v ∈ (vars.take keepEnd).drop (b.split vars), probed.isBound v = false := by
    intro v hv
    have hmem : v ∈ vars.drop (b.split vars) := by
      rw [List.drop_take] at hv
      exact List.mem_of_mem_take hv
    have hno : ¬ b.isBound v = true := fun hv => hnonPrefix (List.any_eq_true.mpr ⟨v, hmem, hv⟩)
    rw [FjBuild.isBound, hbound]
    exact Bool.eq_false_of_not_eq_true hno
  have hleading : (vars.take keepEnd).drop (b.split vars) <+: vars.drop (probed.used i) := by
    rw [hsplitUsed, List.drop_take]
    exact List.take_prefix _ _
  obtain ⟨hdone, hne, hafter⟩ := hprobed.pushCover List.mem_cons_self hlt hleading hfresh hcover
  refine ⟨hdone, hne, ?_⟩
  have hall : probed.used i + ((vars.take keepEnd).drop (b.split vars)).length = keepEnd := by
    rw [hsplitUsed, List.length_drop, List.length_take]
    omega
  rw [hafter, hall, hused, Function.update_idem]

-- All atoms

/-- The columns used up of every atom done are as they should be. -/
structure Built (atomVars : List (List Nat)) (Kept : Nat → Nat → Prop) (done : List Nat)
    (b : FjBuild) : Prop where
  ok : BuildOk atomVars done b
  kept : ∀ i ∈ done, Kept i (b.used i)
  started : done ≠ [] → b.nodes ≠ []

theorem Built.steps {step : FjBuild → Nat → Option FjBuild} {Kept : Nat → Nat → Prop}
    (hstep : ∀ {b b' : FjBuild} {done : List Nat} {i : Nat}, BuildOk atomVars done b → i ∉ done
      → i < atomVars.length → step b i = some b'
      → BuildOk atomVars (i :: done) b' ∧ b'.nodes ≠ []
        ∧ ∃ kept, Kept i kept ∧ b'.used = Function.update b.used i kept)
    {order : List Nat} (hnodup : order.Nodup) (hinside : ∀ i ∈ order, i < atomVars.length)
    (hnew : ∀ i ∈ order, i ∉ done) (h : Built atomVars Kept done b)
    (hfold : order.foldlM step b = some b')
    : Built atomVars Kept (order.reverse ++ done) b' := by
  induction order generalizing b done with
  | nil =>
    obtain rfl := Option.some.inj hfold
    exact h
  | cons i order ih =>
    rw [List.foldlM_cons] at hfold
    obtain ⟨next, hnext, hrest⟩ := Option.bind_eq_some_iff.mp hfold
    obtain ⟨hi, hnodup⟩ := List.nodup_cons.mp hnodup
    obtain ⟨hlt, hinside⟩ := List.forall_mem_cons.mp hinside
    obtain ⟨hfirst, hnew⟩ := List.forall_mem_cons.mp hnew
    obtain ⟨hok, hne, kept, hkept, hused⟩ := hstep h.ok hfirst hlt hnext
    have hbuilt : Built atomVars Kept (i :: done) next := by
      refine ⟨hok, ?_, fun _ => hne⟩
      intro j hj
      by_cases hsame : j = i
      · subst hsame
        rwa [hused, Function.update_self]
      · rw [hused, Function.update_of_ne hsame]
        exact h.kept j (List.mem_of_ne_of_mem hsame hj)
    have hothers : ∀ j ∈ order, j ∉ i :: done := by
      intro j hj hmem
      rcases List.mem_cons.mp hmem with rfl | hmem
      · exact hi hj
      · exact hnew j hj hmem
    have hlast := ih hnodup hinside hothers hbuilt hrest
    rwa [List.reverse_cons, List.append_assoc]

/-- Taking every atom once, in whatever order. -/
theorem built_of_perm (Kept : Nat → Nat → Prop) {step : FjBuild → Nat → Option FjBuild}
    (hstep : ∀ {b b' : FjBuild} {done : List Nat} {i : Nat}, BuildOk atomVars done b → i ∉ done
      → i < atomVars.length → step b i = some b'
      → BuildOk atomVars (i :: done) b' ∧ b'.nodes ≠ []
        ∧ ∃ kept, Kept i kept ∧ b'.used = Function.update b.used i kept)
    {order : List Nat} (hperm : order.Perm (List.range atomVars.length))
    (hne : atomVars ≠ []) (hfold : order.foldlM step .start = some b)
    : BuildOk atomVars (List.range atomVars.length) b
      ∧ (∀ i < atomVars.length, Kept i (b.used i)) ∧ b.nodes ≠ [] := by
  have hinside : ∀ i ∈ order, i < atomVars.length :=
    fun i hi => List.mem_range.mp (hperm.mem_iff.mp hi)
  have hbuilt := Built.steps hstep (hperm.nodup_iff.mpr List.nodup_range) hinside (by simp)
    ⟨buildOk_start, by simp, by simp⟩ hfold
  rw [List.append_nil] at hbuilt
  have hmem (i : Nat) : i ∈ order.reverse ↔ i ∈ List.range atomVars.length := by
    rw [List.mem_reverse, hperm.mem_iff]
  refine ⟨⟨hbuilt.ok.follows, hbuilt.ok.bound, fun sub hsub =>
    (hmem _).mp (hbuilt.ok.touched sub hsub)⟩, fun i hi => ?_, hbuilt.started ?_⟩
  · exact hbuilt.kept i ((hmem i).mpr (List.mem_range.mpr hi))
  · intro hnil
    have hpos := List.length_pos_of_ne_nil hne
    have hzero := (hmem 0).mpr (List.mem_range.mpr hpos)
    simp [hnil] at hzero

theorem materializeAtom_ok (h : BuildOk atomVars done b) (hi : i ∉ done)
    (hlt : i < atomVars.length) (hstep : materializeAtom atomVars b i = some b')
    : BuildOk atomVars (i :: done) b' ∧ b'.nodes ≠ []
      ∧ ∃ kept, kept = (colVars atomVars i).length ∧ b'.used = Function.update b.used i kept := by
  unfold materializeAtom at hstep
  dsimp only at hstep
  split at hstep
  · simp at hstep
  · next hnonPrefix =>
    have hsplit : b.split (colVars atomVars i) ≤ (colVars atomVars i).length :=
      (List.takeWhile_sublist _).length_le
    obtain ⟨hok, hne, hused⟩ := h.addAtom hi hlt hnonPrefix hsplit le_rfl hstep
    exact ⟨hok, hne, _, rfl, hused⟩

theorem trimPrivate_spec (occurrences : Nat → Nat) (groupVar : Nat) {vars : List Nat} {split : Nat}
    {start : Nat} (hsplit : split ≤ start) (hstart : start ≤ vars.length)
    : split ≤ trimPrivate occurrences groupVar vars split start
      ∧ trimPrivate occurrences groupVar vars split start ≤ start
      ∧ ∀ v ∈ (vars.take start).drop (trimPrivate occurrences groupVar vars split start),
          occurrences v = 1 ∧ v ≠ groupVar := by
  induction start with
  | zero => simpa [trimPrivate] using hsplit
  | succ keepEnd ih =>
    unfold trimPrivate
    dsimp only
    split
    · next hprivate =>
      obtain ⟨hlow, hhigh, hdropped⟩ := ih (by omega) (by omega)
      refine ⟨hlow, by omega, ?_⟩
      intro v hv
      have hlt : keepEnd < vars.length := hstart
      rw [List.take_succ_eq_append_getElem hlt, List.drop_append_of_le_length (by simp; omega)] at hv
      rcases List.mem_append.mp hv with hv | hv
      · exact hdropped v hv
      · obtain rfl := List.mem_singleton.mp hv
        simpa [hlt] using hprivate.2
    · exact ⟨hsplit, le_rfl, by simp⟩

/-- The columns that a count leaves are of variables of a single occurrence. -/
structure CountKept (atomVars : List (List Nat)) (groupVar : Nat) (i kept : Nat) : Prop where
  positive : kept ≠ 0
  single : ∀ v ∈ (colVars atomVars i).drop kept, atomVars.flatten.count v = 1 ∧ v ≠ groupVar

theorem countAtom_ok {groupVar : Nat} (h : BuildOk atomVars done b) (hi : i ∉ done)
    (hlt : i < atomVars.length) (hstep : countAtom atomVars groupVar b i = some b')
    : BuildOk atomVars (i :: done) b' ∧ b'.nodes ≠ []
      ∧ ∃ kept, CountKept atomVars groupVar i kept ∧ b'.used = Function.update b.used i kept := by
  have hsplit : b.split (colVars atomVars i) ≤ (colVars atomVars i).length :=
    (List.takeWhile_sublist _).length_le
  obtain ⟨hlow, hhigh, hdropped⟩ :=
    trimPrivate_spec (fun v => atomVars.flatten.count v) groupVar hsplit le_rfl
  rw [List.take_length] at hdropped
  unfold countAtom at hstep
  dsimp only at hstep
  split at hstep
  · simp at hstep
  · next hnonPrefix =>
    split at hstep
    · simp at hstep
    · next hprivate =>
      obtain ⟨hok, hne, hused⟩ := h.addAtom hi hlt hnonPrefix hlow hhigh hstep
      refine ⟨hok, hne, _, ⟨fun hzero => hprivate ⟨?_, hzero⟩, hdropped⟩, hused⟩
      exact Nat.le_zero.mp (hzero ▸ hlow)

end Xlog.Runtime
