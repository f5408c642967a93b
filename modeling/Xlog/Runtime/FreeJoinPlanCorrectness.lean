import Xlog.Runtime.FreeJoinBuild

/-! The plans built of marked joins are valid, give the rows of the natural join, and count the bindings of
the variable that their group column stands for.
-/

namespace Xlog.Runtime

open Xlog.Cuda Xlog.Foundation Xlog.Ir

-- Variables

section

variable {classToVar classToVar' : List Nat}

/-- The numbers of the classes seen before stay. -/
structure Extends (classToVar classToVar' : List Nat) : Prop where
  nodup : classToVar'.Nodup
  seen : classToVar <+: classToVar'

theorem Extends.idxOf (h : Extends classToVar classToVar') {cls : Nat} (hcls : cls ∈ classToVar)
    : classToVar'.idxOf cls = classToVar.idxOf cls := by
  obtain ⟨new, rfl⟩ := h.seen
  exact List.idxOf_append_of_mem hcls

theorem Extends.trans {classToVar'' : List Nat} (h : Extends classToVar classToVar')
    (h' : Extends classToVar' classToVar'')
    : Extends classToVar classToVar'' :=
  ⟨h'.nodup, h.seen.trans h'.seen⟩

theorem dense_spec (hnodup : classToVar.Nodup) (cls : Nat)
    : Extends classToVar (dense classToVar cls).2 ∧ cls ∈ (dense classToVar cls).2
      ∧ (dense classToVar cls).1 = (dense classToVar cls).2.idxOf cls := by
  unfold dense
  split
  · next v hv =>
    have hmem : cls ∈ classToVar := List.isSome_idxOf?.mp (by rw [hv]; rfl)
    refine ⟨⟨hnodup, List.prefix_rfl⟩, hmem, ?_⟩
    rw [List.idxOf_eq_getD_idxOf?, hv, Option.getD_some]
  · next hnone =>
    have hnew : cls ∉ classToVar := List.idxOf?_eq_none_iff.mp hnone
    refine ⟨⟨?_, List.prefix_append _ _⟩, by simp, ?_⟩
    · rw [List.nodup_append]
      refine ⟨hnodup, by simp, fun a ha b hb hab => hnew ?_⟩
      rwa [← List.mem_singleton.mp hb, ← hab]
    · rw [List.idxOf_append_of_notMem hnew]
      simp

theorem denseColumns_spec {cols : List (Option Nat)} {vars : List Nat} (hnodup : classToVar.Nodup)
    (h : denseColumns classToVar cols = some (vars, classToVar'))
    : Extends classToVar classToVar'
      ∧ ∃ classes : List Nat, cols = classes.map some ∧ (∀ cls ∈ classes, cls ∈ classToVar')
        ∧ vars = classes.map classToVar'.idxOf := by
  induction cols generalizing classToVar vars with
  | nil =>
    obtain ⟨rfl, rfl⟩ := Prod.mk.inj (Option.some.inj h)
    exact ⟨⟨hnodup, List.prefix_rfl⟩, [], by simp⟩
  | cons col cols ih =>
    cases col with
    | none => simp [denseColumns] at h
    | some cls =>
      obtain ⟨rest, hrest, heq⟩ := Option.bind_eq_some_iff.mp h
      obtain ⟨rfl, rfl⟩ := Prod.mk.inj (Option.some.inj heq)
      obtain ⟨hfirst, hmem, hnumber⟩ := dense_spec hnodup cls
      obtain ⟨hextends, classes, rfl, hclasses, hvars⟩ := ih hfirst.nodup hrest
      refine ⟨hfirst.trans hextends, cls :: classes, rfl, ?_, ?_⟩
      · exact List.forall_mem_cons.mpr ⟨hextends.seen.subset hmem, hclasses⟩
      · rw [hvars, List.map_cons, hextends.idxOf hmem, ← hnumber]

theorem denseAtoms_spec {slots : List (List (Option Nat) × Nat)} {atomVars : List (List Nat)}
    (hnodup : classToVar.Nodup) (h : denseAtoms classToVar slots = some (atomVars, classToVar'))
    : Extends classToVar classToVar'
      ∧ ∃ classes : List (List Nat), slots.map Prod.fst = classes.map (List.map some)
        ∧ (∀ cols ∈ classes, ∀ cls ∈ cols, cls ∈ classToVar')
        ∧ atomVars = classes.map (List.map classToVar'.idxOf) := by
  induction slots generalizing classToVar atomVars with
  | nil =>
    obtain ⟨rfl, rfl⟩ := Prod.mk.inj (Option.some.inj h)
    exact ⟨⟨hnodup, List.prefix_rfl⟩, [], by simp⟩
  | cons slot slots ih =>
    unfold denseAtoms at h
    split at h
    · simp at h
    obtain ⟨atom, hatom, h⟩ := Option.bind_eq_some_iff.mp h
    obtain ⟨rest, hrest, heq⟩ := Option.bind_eq_some_iff.mp h
    obtain ⟨rfl, rfl⟩ := Prod.mk.inj (Option.some.inj heq)
    obtain ⟨hfirst, cols, hcols, hmem, hvars⟩ := denseColumns_spec hnodup hatom
    obtain ⟨hextends, classes, hslots, hclasses, hatoms⟩ := ih hfirst.nodup hrest
    refine ⟨hfirst.trans hextends, cols :: classes, ?_, ?_, ?_⟩
    · rw [List.map_cons, List.map_cons, hcols, hslots]
    · exact List.forall_mem_cons.mpr ⟨fun cls hcls => hextends.seen.subset (hmem cls hcls), hclasses⟩
    · rw [hatoms, List.map_cons, hvars]
      exact congrArg (· :: _) (List.map_congr_left fun cls hcls => (hextends.idxOf (hmem cls hcls)).symm)

end

/-- The variable classes of the columns of every slot. -/
def classesOf (slotVars : List (List (Option Nat))) : List (List Nat) :=
  slotVars.map (List.filterMap id)

/-- The variables of the slots' columns, by the numbers of their classes. -/
structure Numbered (slotVars : List (List (Option Nat))) (atomVars : List (List Nat))
    (classToVar : List Nat) : Prop where
  nodup : classToVar.Nodup
  named : ∀ cols ∈ classesOf slotVars, ∀ cls ∈ cols, cls ∈ classToVar
  vars : atomVars = (classesOf slotVars).map (List.map classToVar.idxOf)

theorem numbered_of_denseAtoms {slotVars : List (List (Option Nat))} {arities : List Nat}
    {atomVars : List (List Nat)} {classToVar : List Nat} (hlength : slotVars.length = arities.length)
    (h : denseAtoms [] (slotVars.zip arities) = some (atomVars, classToVar))
    : Numbered slotVars atomVars classToVar := by
  obtain ⟨hextends, classes, hslots, hnamed, hvars⟩ := denseAtoms_spec List.nodup_nil h
  rw [List.map_fst_zip hlength.le] at hslots
  have hclasses : classesOf slotVars = classes := by
    rw [classesOf, hslots, List.map_map]
    simp [Function.comp_def]
  exact ⟨hextends.nodup, hclasses ▸ hnamed, hclasses ▸ hvars⟩

section

variable {slotVars : List (List (Option Nat))} {atomVars : List (List Nat)} {classToVar : List Nat}

theorem Numbered.flatten (h : Numbered slotVars atomVars classToVar)
    : atomVars.flatten = (classesOf slotVars).flatten.map classToVar.idxOf := by
  rw [h.vars, List.map_flatten]

theorem Numbered.length (h : Numbered slotVars atomVars classToVar)
    : atomVars.length = slotVars.length := by
  simp [h.vars, classesOf]

theorem Numbered.arities (h : Numbered slotVars atomVars classToVar)
    : atomVars.map List.length = (classesOf slotVars).map List.length := by
  rw [h.vars, List.map_map]
  simp [Function.comp_def]

theorem Numbered.lt (h : Numbered slotVars atomVars classToVar)
    : ∀ cols ∈ atomVars, ∀ v ∈ cols, v < classToVar.length := by
  intro cols hcols v hv
  rw [h.vars] at hcols
  obtain ⟨classes, hclasses, rfl⟩ := List.mem_map.mp hcols
  obtain ⟨cls, hcls, rfl⟩ := List.mem_map.mp hv
  exact List.idxOf_lt_length_of_mem (h.named classes hclasses cls hcls)

theorem Numbered.named_flatten (h : Numbered slotVars atomVars classToVar) {cls : Nat}
    (hcls : cls ∈ (classesOf slotVars).flatten)
    : cls ∈ classToVar := by
  obtain ⟨cols, hcols, hcls⟩ := List.mem_flatten.mp hcls
  exact h.named cols hcols cls hcls

/-- A column stands for the variable of its class. -/
theorem Numbered.entry (h : Numbered slotVars atomVars classToVar) (column : ProjectExpr)
    : columnEntry atomVars.flatten column
      = (columnEntry (classesOf slotVars).flatten column).map classToVar.idxOf := by
  cases column with
  | column c => simp only [columnEntry, h.flatten, List.getElem?_map]
  | computed expr type => rfl

theorem columnEntry_mem {entries : List Nat} {column : ProjectExpr} {entry : Nat}
    (h : columnEntry entries column = some entry)
    : entry ∈ entries := by
  cases column with
  | column c => exact List.mem_of_getElem? h
  | computed expr type => simp [columnEntry] at h

theorem Numbered.outputs (h : Numbered slotVars atomVars classToVar)
    {outputColumns : List ProjectExpr} {outputVars : List Nat}
    (houtputs : outputColumns.mapM (columnEntry atomVars.flatten) = some outputVars)
    : ∃ head, outputColumns.mapM (columnEntry (classesOf slotVars).flatten) = some head
        ∧ outputVars = head.map classToVar.idxOf
        ∧ ∀ cls ∈ head, cls ∈ (classesOf slotVars).flatten := by
  induction outputColumns generalizing outputVars with
  | nil =>
    obtain rfl := Option.some.inj houtputs
    exact ⟨[], rfl, rfl, by simp⟩
  | cons column outputColumns ih =>
    simp only [List.mapM_cons, Option.bind_eq_bind, Option.bind_eq_some_iff, h.entry,
      Option.map_eq_some_iff] at houtputs
    obtain ⟨_, ⟨cls, hcls, rfl⟩, rest, hrest, heq⟩ := houtputs
    obtain ⟨head, hhead, rfl, hmem⟩ := ih hrest
    obtain rfl := Option.some.inj heq
    refine ⟨cls :: head, ?_, rfl, List.forall_mem_cons.mpr ⟨columnEntry_mem hcls, hmem⟩⟩
    simp [List.mapM_cons, hcls, hhead]

end

-- Joins over classes

section

variable {V : Type} {classes : List (List Nat)} {inputs : List (JoinInput V)}

theorem joins_map (number : Nat → Nat) (values : Nat → V)
    : Joins (classes.map (List.map number)) inputs values
      ↔ Joins classes inputs fun cls => values (number cls) := by
  unfold Joins
  rw [List.forall₂_map_left_iff]
  simp only [List.map_map, Function.comp_def]

theorem joins_congr {values values' : Nat → V}
    (h : ∀ cols ∈ classes, ∀ cls ∈ cols, values cls = values' cls)
    (hjoins : Joins classes inputs values)
    : Joins classes inputs values' := by
  unfold Joins at hjoins ⊢
  rw [List.forall₂_iff_get] at hjoins ⊢
  refine ⟨hjoins.1, fun i hi hi' => ?_⟩
  have hrow := hjoins.2 i hi hi'
  rwa [List.map_congr_left (h _ (List.get_mem classes ⟨i, hi⟩))] at hrow

variable {slotVars : List (List (Option Nat))} {atomVars : List (List Nat)} {classToVar : List Nat}

/-- The values of the variables, from values of the classes. -/
def ofClasses (classToVar : List Nat) (values : Nat → V) (v : Nat) : V :=
  values (classToVar.getD v 0)

theorem ofClasses_idxOf {cls : Nat} (hcls : cls ∈ classToVar) (values : Nat → V)
    : ofClasses classToVar values (classToVar.idxOf cls) = values cls := by
  have hlt := List.idxOf_lt_length_of_mem hcls
  simp [ofClasses, hlt]

theorem Numbered.joins_ofClasses (h : Numbered slotVars atomVars classToVar) {values : Nat → V}
    (hjoins : Joins (classesOf slotVars) inputs values)
    : Joins atomVars inputs (ofClasses classToVar values) := by
  rw [h.vars, joins_map]
  refine joins_congr (fun cols hcols cls hcls => ?_) hjoins
  exact (ofClasses_idxOf (h.named cols hcols cls hcls) values).symm

theorem Numbered.joins (h : Numbered slotVars atomVars classToVar) {values : Nat → V}
    (hjoins : Joins atomVars inputs values)
    : Joins (classesOf slotVars) inputs fun cls => values (classToVar.idxOf cls) := by
  rwa [h.vars, joins_map] at hjoins

theorem Numbered.bodyRows_eq (h : Numbered slotVars atomVars classToVar) {cls : Nat}
    (hcls : cls ∈ classToVar) (key : V)
    : bodyRows atomVars inputs (classToVar.idxOf cls) key
      = bodyRows (classesOf slotVars) inputs cls key := by
  ext rows
  constructor
  · rintro ⟨values, hjoins, rfl, hkey⟩
    refine ⟨_, h.joins hjoins, ?_, hkey⟩
    rw [h.vars, List.map_map]
    simp [Function.comp_def]
  · rintro ⟨values, hjoins, rfl, hkey⟩
    refine ⟨_, h.joins_ofClasses hjoins, ?_, by rwa [ofClasses_idxOf hcls]⟩
    rw [h.vars, List.map_map]
    refine List.map_congr_left fun cols hcols => ?_
    rw [Function.comp_apply, List.map_map]
    exact List.map_congr_left fun cls hcls =>
      (ofClasses_idxOf (h.named cols hcols cls hcls) values).symm

end

-- Plans

section

variable {atomVars : List (List Nat)} {b : FjBuild} {numVars : Nat}

theorem mem_flatten_colVars {v : Nat}
    : v ∈ atomVars.flatten ↔ ∃ i < atomVars.length, v ∈ colVars atomVars i := by
  rw [List.mem_flatten]
  constructor
  · rintro ⟨cols, hcols, hv⟩
    obtain ⟨i, hi, rfl⟩ := List.getElem_of_mem hcols
    exact ⟨i, hi, by rwa [colVars_eq hi]⟩
  · rintro ⟨i, hi, hv⟩
    exact ⟨_, colVars_mem hi, hv⟩

/-- A plan for rows uses all columns, so that it binds all variables. -/
theorem followsAtoms_materialize {order outputVars : List Nat} (hne : atomVars ≠ [])
    (hvars : ∀ cols ∈ atomVars, ∀ v ∈ cols, v < numVars)
    (hperm : order.Perm (List.range atomVars.length))
    (hfold : order.foldlM (materializeAtom atomVars) .start = some b)
    (houtputs : ∀ v ∈ outputVars, v ∈ atomVars.flatten)
    : FollowsAtoms atomVars .materialize ⟨numVars, b.nodes, outputVars⟩ := by
  obtain ⟨hok, hkept, hnodes⟩ := built_of_perm (fun i kept => kept = (colVars atomVars i).length)
    materializeAtom_ok hperm hne hfold
  have hcovered : Covered atomVars b.used (boundBy b.nodes) := covered_start.nodes hok.follows
  refine ⟨hnodes, hok.follows, hvars, ?_, fun _ i hi => hkept i hi, by simp⟩
  intro v hv
  obtain ⟨i, hi, hmem⟩ := mem_flatten_colVars.mp (houtputs v hv)
  refine (hcovered v).mpr ⟨i, hi, ?_⟩
  rwa [hkept i hi, List.take_length]

/-- The columns before and after `kept` are all columns. -/
theorem perm_take_drop (atomVars : List (List Nat)) (kept : Nat → Nat)
    : (((List.range atomVars.length).flatMap fun i => (colVars atomVars i).take (kept i))
        ++ (List.range atomVars.length).flatMap fun i => (colVars atomVars i).drop (kept i)).Perm
      atomVars.flatten := by
  have hall : atomVars.flatten = (List.range atomVars.length).flatMap (colVars atomVars) := by
    rw [List.flatMap_def]
    refine congrArg List.flatten (List.ext_getElem (by simp) fun i hi hi' => ?_)
    simp [colVars_eq hi]
  rw [hall]
  refine (List.flatMap_append_perm _ _ _).trans ?_
  simp only [List.take_append_drop]
  exact .rfl

/-- A plan for counts leaves columns of variables that occur nowhere else. -/
theorem followsAtoms_count {groupVar : Nat} (hne : atomVars ≠ [])
    (hvars : ∀ cols ∈ atomVars, ∀ v ∈ cols, v < numVars)
    (hfold : (List.range atomVars.length).foldlM (countAtom atomVars groupVar) .start = some b)
    (hgroup : b.isBound groupVar = true)
    : FollowsAtoms atomVars .countByRoot ⟨numVars, b.nodes, [groupVar]⟩
      ∧ LeavesPrivate atomVars (consumedAfter (fun _ => 0) b.nodes) (boundBy b.nodes) := by
  obtain ⟨hok, hkept, hnodes⟩ := built_of_perm (CountKept atomVars groupVar)
    countAtom_ok .rfl hne hfold
  have hcovered : Covered atomVars b.used (boundBy b.nodes) := covered_start.nodes hok.follows
  have hbound : groupVar ∈ boundBy b.nodes := hok.isBound_iff.mp hgroup
  have hcount (v : Nat) := (perm_take_drop atomVars b.used).count_eq v
  simp only [List.count_append] at hcount
  refine ⟨⟨hnodes, hok.follows, hvars, by simpa using hbound, by simp,
    fun _ i hi => (hkept i hi).positive⟩, ?_, ?_⟩
  · refine List.nodup_iff_count_le_one.mpr fun v => ?_
    by_cases hv : v ∈ (List.range atomVars.length).flatMap fun i =>
        (colVars atomVars i).drop (b.used i)
    · obtain ⟨i, hi, hdrop⟩ := List.mem_flatMap.mp hv
      have hsingle := ((hkept i (List.mem_range.mp hi)).single v hdrop).1
      have hsum := hcount v
      unfold FjBuild.used at hsum
      omega
    · exact (List.count_eq_zero.mpr hv).trans_le (Nat.zero_le _)
  · intro i hi v hdrop hmem
    obtain ⟨j, hj, htake⟩ := (hcovered v).mp hmem
    have hsingle := ((hkept i hi).single v hdrop).1
    have hleft : v ∈ (List.range atomVars.length).flatMap fun i =>
        (colVars atomVars i).take (b.used i) :=
      List.mem_flatMap.mpr ⟨j, List.mem_range.mpr hj, htake⟩
    have hright : v ∈ (List.range atomVars.length).flatMap fun i =>
        (colVars atomVars i).drop (b.used i) :=
      List.mem_flatMap.mpr ⟨i, List.mem_range.mpr hi, hdrop⟩
    have hsum := hcount v
    have hleft := List.count_pos_iff.mpr hleft
    have hright := List.count_pos_iff.mpr hright
    omega

end

section

variable {env : FreeJoinEnv} {inputs : List RirNode} {slotVars : List (List (Option Nat))}
  {outputColumns : List ProjectExpr} {fallback : RirNode} {plan : Option MultiwayPlan}
  {varOrder : Option VariableOrder} {fj : FjPlan}

theorem length_shapes {rels : List RelId} {shapes : List RelationShape}
    (hrels : freeJoinRels env inputs plan = some rels)
    (hshapes : rels.mapM env.relation = some shapes)
    : 3 ≤ inputs.length ∧ inputs.length = shapes.length := by
  unfold freeJoinRels at hrels
  split at hrels
  · simp at hrels
  split at hrels
  · simp at hrels
  split at hrels
  · simp at hrels
  · next hthree =>
    have hscans := (forall₂_of_mapM_some hrels).length_eq
    exact ⟨Nat.le_of_not_lt hthree, hscans.trans (forall₂_of_mapM_some hshapes).length_eq⟩

/-- The variables of a plan number the classes of its node, and there are atoms. -/
theorem numbered_of_shapes {rels : List RelId} {shapes : List RelationShape}
    {dense : List (List Nat) × List Nat} (hslots : slotVars.length = inputs.length)
    (hrels : freeJoinRels env inputs plan = some rels)
    (hshapes : rels.mapM env.relation = some shapes)
    (hdense : denseAtoms [] (slotVars.zip (shapes.map fun shape => shape.columnTypes.length))
      = some dense)
    : Numbered slotVars dense.1 dense.2 ∧ dense.1 ≠ [] := by
  obtain ⟨hthree, hlength⟩ := length_shapes hrels hshapes
  have hnumbered : Numbered slotVars dense.1 dense.2 :=
    numbered_of_denseAtoms (by rw [List.length_map, hslots, hlength]) hdense
  refine ⟨hnumbered, fun hnil => ?_⟩
  have hatoms := hnumbered.length
  rw [hnil, List.length_nil] at hatoms
  omega

theorem freeJoinPlan_spec (hslots : slotVars.length = inputs.length)
    (h : freeJoinPlan env (.multiWayJoin inputs slotVars outputColumns fallback plan varOrder)
      = some fj)
    : ∃ atomVars classToVar head, Numbered slotVars atomVars classToVar
        ∧ FollowsAtoms atomVars .materialize fj
        ∧ outputColumns.mapM (columnEntry (classesOf slotVars).flatten) = some head
        ∧ fj.outputVars = head.map classToVar.idxOf
        ∧ ∀ cls ∈ head, cls ∈ classToVar := by
  obtain ⟨rels, hrels, h⟩ := Option.bind_eq_some_iff.mp h
  obtain ⟨shapes, hshapes, h⟩ := Option.bind_eq_some_iff.mp h
  obtain ⟨widths, -, h⟩ := Option.bind_eq_some_iff.mp h
  dsimp only at h
  split at h
  · simp at h
  split at h
  · simp at h
  obtain ⟨dense, hdense, h⟩ := Option.bind_eq_some_iff.mp h
  obtain ⟨order, horder, h⟩ := Option.bind_eq_some_iff.mp h
  obtain ⟨build, hbuild, h⟩ := Option.bind_eq_some_iff.mp h
  obtain ⟨outputVars, houtputs, heq⟩ := Option.bind_eq_some_iff.mp h
  obtain rfl := Option.some.inj heq
  obtain ⟨hnumbered, hne⟩ := numbered_of_shapes hslots hrels hshapes hdense
  obtain ⟨head, hhead, hvars, hmem⟩ := hnumbered.outputs houtputs
  refine ⟨dense.1, dense.2, head, hnumbered, ?_, hhead, hvars,
    fun cls hcls => hnumbered.named_flatten (hmem cls hcls)⟩
  refine followsAtoms_materialize hne hnumbered.lt (freeJoinOrder_perm horder) hbuild ?_
  rw [hvars, hnumbered.flatten]
  intro v hv
  obtain ⟨cls, hcls, rfl⟩ := List.mem_map.mp hv
  exact List.mem_map_of_mem (hmem cls hcls)

theorem freeJoinCountPlan_spec {groupCols : List ProjectExpr} (hslots : slotVars.length = inputs.length)
    (h : freeJoinCountPlan env groupCols
      (.multiWayJoin inputs slotVars outputColumns fallback plan varOrder) = some fj)
    : ∃ atomVars classToVar cls, Numbered slotVars atomVars classToVar
        ∧ FollowsAtoms atomVars .countByRoot fj
        ∧ LeavesPrivate atomVars (consumedAfter (fun _ => 0) fj.nodes) (boundBy fj.nodes)
        ∧ groupCols.head?.bind (columnEntry (classesOf slotVars).flatten) = some cls
        ∧ fj.outputVars = [classToVar.idxOf cls] := by
  obtain ⟨rels, hrels, h⟩ := Option.bind_eq_some_iff.mp h
  obtain ⟨shapes, hshapes, h⟩ := Option.bind_eq_some_iff.mp h
  split at h
  · simp at h
  obtain ⟨dense, hdense, h⟩ := Option.bind_eq_some_iff.mp h
  obtain ⟨groupVar, hgroup, h⟩ := Option.bind_eq_some_iff.mp h
  obtain ⟨build, hbuild, h⟩ := Option.bind_eq_some_iff.mp h
  split at h
  · simp at h
  next hbound =>
  obtain rfl := Option.some.inj h
  obtain ⟨hnumbered, hne⟩ := numbered_of_shapes hslots hrels hshapes hdense
  obtain ⟨column, hcolumn, hentry⟩ := Option.bind_eq_some_iff.mp hgroup
  rw [hnumbered.entry] at hentry
  obtain ⟨cls, hcls, rfl⟩ := Option.map_eq_some_iff.mp hentry
  obtain ⟨hfollows, hleft⟩ := followsAtoms_count hne hnumbered.lt hbuild (by simpa using hbound)
  exact ⟨dense.1, dense.2, cls, hnumbered, hfollows, hleft,
    Option.bind_eq_some_iff.mpr ⟨column, hcolumn, hcls⟩, rfl⟩

end

-- What the plans compute

/-- The plan is valid, and its rows are those of the natural join, for the columns of the head. -/
structure ComputesJoin (V : Type) [DecidableEq V] (classes : List (List Nat)) (head : List Nat)
    (plan : FjPlan) : Prop where
  valid : ∀ ctx, ∃ bindOrder, validatePlan plan (classes.map List.length) .materialize ctx
    = .ok bindOrder
  rows : ∀ (inputs : List (JoinInput V)) (ctx : String),
    inputs.map JoinInput.arity = classes.map List.length
      → ∃ rows, freeJoinExecute inputs plan ctx = .ok rows ∧ rows.Nodup
        ∧ ∀ row, row ∈ rows ↔ ∃ values, Joins classes inputs values ∧ row = head.map values

/-- The plan is valid, and its count for a value of the group is the number of the bindings of all
variables that have it.
-/
structure CountsBindings (V : Type) [DecidableEq V] (classes : List (List Nat)) (group : Nat)
    (plan : FjPlan) : Prop where
  valid : ∀ ctx, ∃ bindOrder, validatePlan plan (classes.map List.length) .countByRoot ctx
    = .ok bindOrder
  counts : ∀ (inputs : List (JoinInput V)) (ctx : String),
    inputs.map JoinInput.arity = classes.map List.length
      → ∃ table, freeJoinCountByRoot inputs plan ctx = .ok table ∧ (table.map Prod.fst).Nodup
        ∧ ∀ key count, (key, count) ∈ table
          ↔ count = (bodyRows classes inputs group key).ncard ∧ count ≠ 0

/-- The class of a group column: the columns of the group are those of the join's output. -/
def groupClass (slotVars : List (List (Option Nat))) (outputColumns : List ProjectExpr)
    : ProjectExpr → Option Nat
  | .column c => outputColumns[c]?.bind (columnEntry (classesOf slotVars).flatten)
  | .computed _ _ => none

section

variable {V : Type} [DecidableEq V] {classes : List (List Nat)}

/-- Relations of one row each tell the variables of the classes apart. -/
theorem CountsBindings.unique [Nontrivial V] {group group' : Nat} {plan : FjPlan}
    (h : CountsBindings V classes group plan) (h' : CountsBindings V classes group' plan)
    (hgroup : group ∈ classes.flatten)
    : group = group' := by
  by_contra hne
  obtain ⟨a, b, hab⟩ := exists_pair_ne V
  let values (cls : Nat) : V := if cls = group' then a else b
  let inputs : List (JoinInput V) := classes.map fun cols =>
    ⟨cols.length, [cols.map values], by simp⟩
  have harity : inputs.map JoinInput.arity = classes.map List.length := by
    simp [inputs, Function.comp_def]
  have hjoins (other : Nat → V)
      : Joins classes inputs other ↔ ∀ cls ∈ classes.flatten, other cls = values cls := by
    simp only [Joins, inputs, List.forall₂_map_right_iff, List.forall₂_same, List.mem_singleton,
      List.map_inj_left, List.mem_flatten]
    grind
  have hself : Joins classes inputs values := (hjoins values).mpr fun _ _ => rfl
  have hone : bodyRows classes inputs group' a = {classes.map (List.map values)} := by
    ext rows
    constructor
    · rintro ⟨other, hother, rfl, -⟩
      refine Set.mem_singleton_iff.mpr (List.map_congr_left fun cols hcols => ?_)
      exact List.map_congr_left fun cls hcls =>
        (hjoins other).mp hother cls (List.mem_flatten.mpr ⟨cols, hcols, hcls⟩)
    · rintro rfl
      exact ⟨values, hself, rfl, by simp [values]⟩
  have hnone : bodyRows classes inputs group a = ∅ := by
    refine Set.eq_empty_of_forall_notMem ?_
    rintro rows ⟨other, hother, -, hkey⟩
    rw [(hjoins other).mp hother group hgroup] at hkey
    simp only [values, if_neg hne] at hkey
    exact hab hkey.symm
  obtain ⟨table, htable, -, hcounts⟩ := h.counts inputs "" harity
  obtain ⟨table', htable', -, hcounts'⟩ := h'.counts inputs "" harity
  obtain rfl := Except.ok.inj (htable.symm.trans htable')
  have hentry := (hcounts a 1).mp ((hcounts' a 1).mpr (by simp [hone]))
  simp [hnone] at hentry

variable {env : FreeJoinEnv} {inputs : List RirNode} {slotVars : List (List (Option Nat))}
  {outputColumns : List ProjectExpr} {fallback : RirNode} {plan : Option MultiwayPlan}
  {varOrder : Option VariableOrder} {fj : FjPlan}

theorem columnEntry_mapM_ne_nil {entries head : List Nat}
    (h : outputColumns.mapM (columnEntry entries) = some head)
    : head ≠ [] ↔ outputColumns ≠ [] := by
  have hlength := (forall₂_of_mapM_some h).length_eq
  rw [← List.length_pos_iff, ← List.length_pos_iff, hlength]

/-- The plan for the rows computes the join whenever the head has a column. -/
theorem computesJoin_iff [Nonempty V] (hslots : slotVars.length = inputs.length)
    (h : freeJoinPlan env (.multiWayJoin inputs slotVars outputColumns fallback plan varOrder)
      = some fj)
    : (∃ head, outputColumns.mapM (columnEntry (classesOf slotVars).flatten) = some head
        ∧ ComputesJoin V (classesOf slotVars) head fj) ↔ outputColumns ≠ [] := by
  obtain ⟨atomVars, classToVar, head, hnumbered, hfollows, hhead, houtputs, hnamed⟩ :=
    freeJoinPlan_spec hslots h
  have hcovered : Covered atomVars _ (boundBy fj.nodes) := covered_start.nodes hfollows.nodes
  constructor
  · rintro ⟨head', hhead', hcomputes⟩
    obtain rfl := Option.some.inj (hhead.symm.trans hhead')
    obtain ⟨bindOrder, hvalid⟩ := hcomputes.valid ""
    have hne := validatePlan_outputs hvalid
    rw [houtputs, ne_eq, List.map_eq_nil_iff] at hne
    exact (columnEntry_mapM_ne_nil hhead).mp hne
  · intro hne
    have hnonempty : fj.outputVars ≠ [] := by
      rw [houtputs, ne_eq, List.map_eq_nil_iff]
      exact (columnEntry_mapM_ne_nil hhead).mpr hne
    refine ⟨head, hhead, ⟨fun ctx => ⟨boundBy fj.nodes, ?_⟩, fun inputs ctx harity => ?_⟩⟩
    · rw [← hnumbered.arities]
      exact hfollows.validatePlan_ok hcovered hnonempty (by simp)
    · obtain ⟨rows, hrows, hnodup, hmem⟩ :=
        hfollows.execute (harity.trans hnumbered.arities.symm) ctx hnonempty
      refine ⟨rows, hrows, hnodup, fun row => (hmem row).trans ?_⟩
      rw [houtputs]
      simp only [List.map_map]
      constructor
      · rintro ⟨values, hjoins, rfl⟩
        exact ⟨_, hnumbered.joins hjoins, rfl⟩
      · rintro ⟨values, hjoins, rfl⟩
        refine ⟨_, hnumbered.joins_ofClasses hjoins, List.map_congr_left fun cls hcls => ?_⟩
        exact (ofClasses_idxOf (hnamed cls hcls) values).symm

/-- The plan for the counts counts by the class of its group column in the concatenated inputs. -/
theorem countsBindings_of_plan [Nonempty V] {groupCols : List ProjectExpr}
    (hslots : slotVars.length = inputs.length)
    (h : freeJoinCountPlan env groupCols
      (.multiWayJoin inputs slotVars outputColumns fallback plan varOrder) = some fj)
    : ∃ cls, groupCols.head?.bind (columnEntry (classesOf slotVars).flatten) = some cls
        ∧ CountsBindings V (classesOf slotVars) cls fj := by
  obtain ⟨atomVars, classToVar, cls, hnumbered, hfollows, hleft, hcls, houtputs⟩ :=
    freeJoinCountPlan_spec hslots h
  have hcovered : Covered atomVars _ (boundBy fj.nodes) := covered_start.nodes hfollows.nodes
  obtain ⟨column, -, hentry⟩ := Option.bind_eq_some_iff.mp hcls
  have hnamed := hnumbered.named_flatten (columnEntry_mem hentry)
  refine ⟨cls, hcls, ⟨fun ctx => ⟨boundBy fj.nodes, ?_⟩, fun inputs ctx harity => ?_⟩⟩
  · rw [← hnumbered.arities]
    exact hfollows.validatePlan_ok hcovered (by simp [houtputs]) (by simp [houtputs])
  · obtain ⟨table, htable, hnodup, hcounts⟩ :=
      hfollows.count (harity.trans hnumbered.arities.symm) ctx hleft houtputs
    refine ⟨table, htable, hnodup, fun key count => ?_⟩
    rw [hcounts, hnumbered.bodyRows_eq hnamed]

theorem groupClass_mem {column : ProjectExpr} {cls : Nat}
    (h : groupClass slotVars outputColumns column = some cls)
    : cls ∈ (classesOf slotVars).flatten := by
  cases column with
  | column c =>
    obtain ⟨output, -, hentry⟩ := Option.bind_eq_some_iff.mp h
    exact columnEntry_mem hentry
  | computed expr type => simp [groupClass] at h

end

/-- The planner takes every atom once, whatever the cardinalities and the statistics. The plan for the rows
computes the join exactly when the node has an output column, and the plan for the counts counts the
bindings of the group exactly when its group column, which it looks up among the columns of the inputs,
has the class that it has among the columns of the output.
-/
theorem freeJoinPlans_compute_iff (V : Type) [DecidableEq V] [Nontrivial V] (env : FreeJoinEnv)
    (inputs : List RirNode) (slotVars : List (List (Option Nat)))
    (hslots : slotVars.length = inputs.length) (outputColumns : List ProjectExpr)
    (fallback : RirNode) (plan : Option MultiwayPlan) (varOrder : Option VariableOrder)
    : (∀ (ctx : WcojDispatchCtx) (atomVars : List (List Nat)) (cards : List Nat)
          (kind : CostModelKind) (order : List Nat),
        freeJoinOrder ctx atomVars cards kind = some order
          → order.Perm (List.range atomVars.length))
      ∧ (∀ fj,
        freeJoinPlan env (.multiWayJoin inputs slotVars outputColumns fallback plan varOrder)
            = some fj
          → ((∃ head, outputColumns.mapM (columnEntry (classesOf slotVars).flatten) = some head
              ∧ ComputesJoin V (classesOf slotVars) head fj) ↔ outputColumns ≠ []))
      ∧ ∀ groupCols fj,
        freeJoinCountPlan env groupCols
            (.multiWayJoin inputs slotVars outputColumns fallback plan varOrder) = some fj
          → ((∃ group, groupCols.head?.bind (groupClass slotVars outputColumns) = some group
              ∧ CountsBindings V (classesOf slotVars) group fj)
            ↔ groupCols.head?.bind (groupClass slotVars outputColumns)
              = groupCols.head?.bind (columnEntry (classesOf slotVars).flatten)) := by
  refine ⟨fun _ _ _ _ _ horder => freeJoinOrder_perm horder, fun fj h => computesJoin_iff hslots h,
    fun groupCols fj h => ?_⟩
  obtain ⟨cls, hcls, hcounts⟩ := countsBindings_of_plan (V := V) hslots h
  constructor
  · rintro ⟨group, hgroup, hcounts'⟩
    obtain ⟨column, -, hentry⟩ := Option.bind_eq_some_iff.mp hgroup
    rw [hgroup, hcls, hcounts'.unique hcounts (groupClass_mem hentry)]
  · intro heq
    exact ⟨cls, heq.trans hcls, hcounts⟩

/-- The chain `r(A, X), s(X, Y), t(Y, Z), u(Z, B)`. -/
def chainSlots : List (List (Option Nat)) :=
  [[some 0, some 1], [some 1, some 2], [some 2, some 3], [some 3, some 4]]

def chainNode (outputColumns : List ProjectExpr) : RirNode :=
  .multiWayJoin [.scan 0, .scan 1, .scan 2, .scan 3] chainSlots outputColumns .unit
    (some .freeJoin) none

def chainEnv : FreeJoinEnv where
  disabled := false
  relation _ := some ⟨[.u32, .u32], 1⟩
  costModel := .cardinality
  stats := ⟨fun _ => none, fun _ _ _ _ => 0, fun running _ _ => running⟩

/-- The nodes that count by `A`: `B` is left to the lengths of its ranges. -/
def chainCounts : FjPlan where
  numVars := 5
  nodes := [⟨⟨0, [0, 1]⟩, [⟨1, [1]⟩]⟩, ⟨⟨1, [2]⟩, [⟨2, [2]⟩]⟩, ⟨⟨2, [3]⟩, [⟨3, [3]⟩]⟩]
  outputVars := [0]

def chainRows : FjPlan where
  numVars := 5
  nodes := [⟨⟨0, [0, 1]⟩, [⟨1, [1]⟩]⟩, ⟨⟨1, [2]⟩, [⟨2, [2]⟩]⟩, ⟨⟨2, [3]⟩, [⟨3, [3]⟩]⟩,
    ⟨⟨3, [4]⟩, []⟩]
  outputVars := [0, 4]

theorem freeJoinPlans_compute_iff_chain
    : (∃ head, [ProjectExpr.column 0, .column 7].mapM (columnEntry (classesOf chainSlots).flatten)
          = some head ∧ ComputesJoin Nat (classesOf chainSlots) head chainRows)
      ∧ ∃ group, groupClass chainSlots [.column 0, .column 7] (.column 0) = some group
        ∧ CountsBindings Nat (classesOf chainSlots) group chainCounts :=
  have h := freeJoinPlans_compute_iff Nat chainEnv [.scan 0, .scan 1, .scan 2, .scan 3]
    chainSlots rfl [.column 0, .column 7] .unit (some .freeJoin) none
  ⟨(h.2.1 chainRows rfl).mpr (by simp),
    (h.2.2 [.column 0, .column 1] chainCounts rfl).mpr rfl⟩

/-- Grouped by `B`, its first output column, the chain is counted by `A`, the first column of its inputs. -/
theorem freeJoinCountPlan_counts_first_input
    : freeJoinCountPlan chainEnv [.column 0, .column 1] (chainNode [.column 7, .column 0])
        = some chainCounts
      ∧ ¬ ∃ group, groupClass chainSlots [.column 7, .column 0] (.column 0) = some group
        ∧ CountsBindings Nat (classesOf chainSlots) group chainCounts := by
  refine ⟨rfl, ?_⟩
  rintro ⟨group, hgroup, hcounts⟩
  have hplan : freeJoinCountPlan chainEnv [.column 0, .column 1] (chainNode [.column 7, .column 0])
      = some chainCounts := rfl
  obtain ⟨cls, hcls, hcounts'⟩ := countsBindings_of_plan (V := Nat) rfl hplan
  obtain rfl : 4 = group := Option.some.inj hgroup
  obtain rfl : 0 = cls := Option.some.inj hcls
  have hsame := hcounts.unique hcounts' (groupClass_mem hgroup)
  simp at hsame

end Xlog.Runtime
