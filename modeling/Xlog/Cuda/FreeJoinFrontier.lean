import Xlog.Cuda.FreeJoin

/-! The frontier of a plan that follows the columns of its atoms holds the bindings under which every atom
has a row, each once.
-/

namespace Xlog.Cuda

open Xlog.Foundation

-- Plans that follow the columns

section

variable (atomVars : List (List Nat))

def colVars (i : Nat) : List Nat := atomVars.getD i []

/-- The subatom has the next columns of its atom. -/
structure FjSubAtom.Next (consumed : Nat → Nat) (sub : FjSubAtom) : Prop where
  inside : sub.inputIdx < atomVars.length
  nonempty : sub.varPositions ≠ []
  columns : sub.varPositions <+: (colVars atomVars sub.inputIdx).drop (consumed sub.inputIdx)

def ProbesFollow (bound : List Nat) : (Nat → Nat) → List FjSubAtom → Prop
  | _, [] => True
  | consumed, probe :: probes =>
      probe.Next atomVars consumed ∧ (∀ v ∈ probe.varPositions, v ∈ bound)
        ∧ (∀ other ∈ probes, other.inputIdx ≠ probe.inputIdx)
        ∧ ProbesFollow bound (probe.consume consumed) probes

/-- The cover binds new variables, and the probes match bound ones of other atoms. -/
structure FjNode.Follows (consumed : Nat → Nat) (bound : List Nat) (node : FjNode) : Prop where
  cover : node.cover.Next atomVars consumed
  distinct : node.cover.varPositions.Nodup
  fresh : ∀ v ∈ node.cover.varPositions, v ∉ bound
  apart : ∀ probe ∈ node.probes, probe.inputIdx ≠ node.cover.inputIdx
  probes : ProbesFollow atomVars (bound ++ node.cover.varPositions) (node.cover.consume consumed)
    node.probes

def consumeAll (consumed : Nat → Nat) (subs : List FjSubAtom) : Nat → Nat :=
  subs.foldl (fun consumed sub => sub.consume consumed) consumed

def FjNode.consume (node : FjNode) (consumed : Nat → Nat) : Nat → Nat :=
  consumeAll (node.cover.consume consumed) node.probes

def NodesFollow : (Nat → Nat) → List Nat → List FjNode → Prop
  | _, _, [] => True
  | consumed, bound, node :: nodes =>
      node.Follows atomVars consumed bound
        ∧ NodesFollow (node.consume consumed) (bound ++ node.cover.varPositions) nodes

def consumedAfter (consumed : Nat → Nat) (nodes : List FjNode) : Nat → Nat :=
  nodes.foldl (fun consumed node => node.consume consumed) consumed

def boundBy (nodes : List FjNode) : List Nat := nodes.flatMap fun node => node.cover.varPositions

/-- The variables bound are those of the columns used up. -/
def Covered (consumed : Nat → Nat) (bound : List Nat) : Prop :=
  ∀ v, v ∈ bound ↔ ∃ i < atomVars.length, v ∈ (colVars atomVars i).take (consumed i)

end

variable {atomVars : List (List Nat)} {consumed : Nat → Nat} {bound : List Nat}

theorem FjSubAtom.consume_self (sub : FjSubAtom) (consumed : Nat → Nat)
    : sub.consume consumed sub.inputIdx = consumed sub.inputIdx + sub.varPositions.length :=
  Function.update_self _ _ _

theorem FjSubAtom.consume_of_ne {sub : FjSubAtom} {i : Nat} (h : i ≠ sub.inputIdx)
    (consumed : Nat → Nat)
    : sub.consume consumed i = consumed i :=
  Function.update_of_ne h _ _

/-- The columns used up grow by those of the subatom. -/
theorem FjSubAtom.Next.take {sub : FjSubAtom} (h : sub.Next atomVars consumed)
    : (colVars atomVars sub.inputIdx).take (sub.consume consumed sub.inputIdx)
      = (colVars atomVars sub.inputIdx).take (consumed sub.inputIdx) ++ sub.varPositions := by
  rw [FjSubAtom.consume_self, List.take_add, List.prefix_iff_eq_take.mp h.columns]
  simp

theorem FjSubAtom.Next.length_le {sub : FjSubAtom} (h : sub.Next atomVars consumed)
    : consumed sub.inputIdx + sub.varPositions.length
      ≤ (colVars atomVars sub.inputIdx).length := by
  have hle := h.columns.length_le
  have hpos := List.length_pos_of_ne_nil h.nonempty
  rw [List.length_drop] at hle
  omega

theorem Covered.cover (h : Covered atomVars consumed bound) {sub : FjSubAtom}
    (hnext : sub.Next atomVars consumed)
    : Covered atomVars (sub.consume consumed) (bound ++ sub.varPositions) := by
  intro v
  rw [List.mem_append, h v]
  constructor
  · rintro (⟨i, hi, hv⟩ | hv)
    · by_cases hsame : i = sub.inputIdx
      · subst hsame
        exact ⟨_, hi, hnext.take ▸ List.mem_append_left _ hv⟩
      · exact ⟨i, hi, by rwa [FjSubAtom.consume_of_ne hsame]⟩
    · exact ⟨_, hnext.inside, hnext.take ▸ List.mem_append_right _ hv⟩
  · rintro ⟨i, hi, hv⟩
    by_cases hsame : i = sub.inputIdx
    · subst hsame
      rw [hnext.take] at hv
      exact (List.mem_append.mp hv).imp (fun hv => ⟨_, hi, hv⟩) id
    · rw [FjSubAtom.consume_of_ne hsame] at hv
      exact .inl ⟨i, hi, hv⟩

theorem Covered.probe (h : Covered atomVars consumed bound) {sub : FjSubAtom}
    (hnext : sub.Next atomVars consumed) (hbound : ∀ v ∈ sub.varPositions, v ∈ bound)
    : Covered atomVars (sub.consume consumed) bound := by
  intro v
  rw [← h.cover hnext v, List.mem_append]
  exact ⟨.inl, fun hv => hv.elim id (hbound v)⟩

theorem covered_start : Covered atomVars (fun _ => 0) [] := by
  intro v
  simp

-- Frontiers

section

variable {V : Type}

theorem map_some_injective {xs ys : List V} (h : xs.map some = ys.map some) : xs = ys :=
  (List.map_inj_right fun _ _ => Option.some.inj).mp h

theorem mapM_binding_eq_some {binding : Nat → Option V} {vars : List Nat} {key : List V}
    : vars.mapM binding = some key ↔ vars.map binding = key.map some := by
  induction vars generalizing key with
  | nil => cases key <;> simp
  | cons v vars ih =>
    rw [List.mapM_cons]
    cases key with
    | nil => simp [Option.bind_eq_some_iff]
    | cons x key => simp [Option.bind_eq_some_iff, ih]

theorem bindAll_of_not_mem {vars : List Nat} {v : Nat} (hv : v ∉ vars) (binding : Nat → Option V)
    (key : List V)
    : bindAll binding vars key v = binding v := by
  simp [bindAll, lookup_zip_of_not_mem hv]

theorem map_bindAll {vars : List Nat} (hnodup : vars.Nodup) (binding : Nat → Option V)
    {key : List V} (hlength : key.length = vars.length)
    : vars.map (bindAll binding vars key) = key.map some := by
  rw [← map_lookup_zip hnodup hlength.symm]
  refine List.map_congr_left fun v hv => ?_
  obtain ⟨x, hx⟩ := Option.isSome_iff_exists.mp (lookup_zip_isSome hnodup hlength.symm hv)
  simp [bindAll, hx]

variable [DecidableEq V]

/-- The range of an atom under a binding: the rows below the bound values of the columns used up. -/
def Ranges (atomVars : List (List Nat)) (rels : Nat → List (List V)) (binding : Nat → Option V)
    (consumed : Nat → Nat) (i : Nat) (range : List (List V)) : Prop :=
  ∃ key, ((colVars atomVars i).take (consumed i)).map binding = key.map some
    ∧ range = refine (rels i) key

/-- The binding has values for the bound variables, and leaves every atom a row. -/
structure Admits (atomVars : List (List Nat)) (rels : Nat → List (List V)) (consumed : Nat → Nat)
    (bound : List Nat) (binding : Nat → Option V) : Prop where
  bound : ∀ v, (binding v).isSome = true ↔ v ∈ bound
  live : ∀ i < atomVars.length, ∃ range, Ranges atomVars rels binding consumed i range ∧ range ≠ []

/-- The frontier holds the admitted bindings, each once and with its ranges. -/
structure FrontierOk (atomVars : List (List Nat)) (rels : Nat → List (List V))
    (consumed : Nat → Nat) (bound : List Nat) (frontier : List (FrontierRow V)) : Prop where
  admits : ∀ row ∈ frontier, Admits atomVars rels consumed bound row.binding
  ranges : ∀ row ∈ frontier, ∀ i < atomVars.length,
    Ranges atomVars rels row.binding consumed i (row.range i)
  complete : ∀ binding, Admits atomVars rels consumed bound binding
    → ∃ row ∈ frontier, row.binding = binding
  distinct : (frontier.map FrontierRow.binding).Nodup

variable {rels : Nat → List (List V)} {binding : Nat → Option V} {i : Nat}

/-- A binding leaves an atom one range. -/
theorem Ranges.unique {range range' : List (List V)}
    (h : Ranges atomVars rels binding consumed i range)
    (h' : Ranges atomVars rels binding consumed i range')
    : range = range' := by
  obtain ⟨key, hkey, rfl⟩ := h
  obtain ⟨key', hkey', rfl⟩ := h'
  rw [map_some_injective (hkey.symm.trans hkey')]

theorem Ranges.congr {binding' : Nat → Option V} {consumed' : Nat → Nat} {range : List (List V)}
    (h : Ranges atomVars rels binding consumed i range) (hsame : consumed' i = consumed i)
    (hbinding : ∀ v ∈ (colVars atomVars i).take (consumed i), binding v = binding' v)
    : Ranges atomVars rels binding' consumed' i range := by
  obtain ⟨key, hkey, hrange⟩ := h
  refine ⟨key, ?_, hrange⟩
  rw [hsame, ← List.map_congr_left hbinding, hkey]

/-- Reading the next columns refines the range. -/
theorem Ranges.next {sub : FjSubAtom} (hnext : sub.Next atomVars consumed)
    {range : List (List V)} (h : Ranges atomVars rels binding consumed sub.inputIdx range)
    {key : List V} (hkey : sub.varPositions.map binding = key.map some)
    : Ranges atomVars rels binding (sub.consume consumed) sub.inputIdx (refine range key) := by
  obtain ⟨before, hbefore, rfl⟩ := h
  refine ⟨before ++ key, ?_, (refine_append _ _ _).symm⟩
  rw [hnext.take, List.map_append, List.map_append, hbefore, hkey]

/-- A range after the next columns refines one before them. -/
theorem Ranges.split {sub : FjSubAtom} (hnext : sub.Next atomVars consumed)
    {range : List (List V)}
    (h : Ranges atomVars rels binding (sub.consume consumed) sub.inputIdx range)
    : ∃ before key, Ranges atomVars rels binding consumed sub.inputIdx before
        ∧ sub.varPositions.map binding = key.map some ∧ range = refine before key := by
  obtain ⟨whole, hwhole, rfl⟩ := h
  rw [hnext.take, List.map_append] at hwhole
  obtain ⟨before, key, rfl, hbefore, hkey⟩ := List.map_eq_append_iff.mp hwhole.symm
  exact ⟨refine (rels sub.inputIdx) before, key, ⟨before, hbefore.symm, rfl⟩, hkey.symm,
    refine_append _ _ _⟩

theorem refine_ne_nil {rows : List (List V)} {key : List V} (h : refine rows key ≠ [])
    : rows ≠ [] := by
  rintro rfl
  exact h rfl

/-- Rows as wide as their atom leave as many columns as the atom has left. -/
theorem Ranges.long (hwidth : ∀ row ∈ rels i, row.length = (colVars atomVars i).length)
    {range : List (List V)} (h : Ranges atomVars rels binding consumed i range)
    (hle : consumed i ≤ (colVars atomVars i).length)
    : ∀ rest ∈ range, rest.length = (colVars atomVars i).length - consumed i := by
  obtain ⟨key, hkey, rfl⟩ := h
  intro rest hrest
  have hrow := hwidth _ (mem_refine.mp hrest)
  have hlength := congrArg List.length hkey
  simp only [List.length_map, List.length_take, List.length_append] at hlength hrow
  omega

/-- The admitted bindings of before, from those of after: the cover's variables are unbound. -/
theorem Admits.uncover {sub : FjSubAtom} (hcovered : Covered atomVars consumed bound)
    (hnext : sub.Next atomVars consumed) (hfresh : ∀ v ∈ sub.varPositions, v ∉ bound)
    (h : Admits atomVars rels (sub.consume consumed) (bound ++ sub.varPositions) binding)
    : Admits atomVars rels consumed bound
        fun v => if v ∈ sub.varPositions then none else binding v where
  bound := by
    intro v
    by_cases hv : v ∈ sub.varPositions
    · simp [hv, hfresh v hv]
    · simp [hv, h.bound v]
  live := by
    intro i hi
    have hkeep : ∀ v ∈ (colVars atomVars i).take (consumed i),
        binding v = if v ∈ sub.varPositions then none else binding v := by
      intro v hv
      have hno : v ∉ sub.varPositions := fun hmem => hfresh v hmem ((hcovered v).mpr ⟨i, hi, hv⟩)
      simp [hno]
    obtain ⟨range, hrange, hne⟩ := h.live i hi
    by_cases hsame : i = sub.inputIdx
    · subst hsame
      obtain ⟨before, key, hbefore, -, rfl⟩ := hrange.split hnext
      exact ⟨before, hbefore.congr rfl hkeep, refine_ne_nil hne⟩
    · have hconsumed := FjSubAtom.consume_of_ne hsame consumed
      exact ⟨range, hrange.congr hconsumed.symm (hconsumed ▸ hkeep), hne⟩

variable {frontier : List (FrontierRow V)}

/-- Expanding a cover keeps the frontier. -/
theorem FrontierOk.expand (hwidth : ∀ i < atomVars.length, ∀ row ∈ rels i,
      row.length = (colVars atomVars i).length)
    (hcovered : Covered atomVars consumed bound)
    (h : FrontierOk atomVars rels consumed bound frontier) {cover : FjSubAtom}
    (hnext : cover.Next atomVars consumed) (hdistinct : cover.varPositions.Nodup)
    (hfresh : ∀ v ∈ cover.varPositions, v ∉ bound)
    : FrontierOk atomVars rels (cover.consume consumed) (bound ++ cover.varPositions)
        (frontier.flatMap (expandRow cover)) := by
  have hkeys (row : FrontierRow V) (hrow : row ∈ frontier) (key : List V)
      : key ∈ nextKeys (row.range cover.inputIdx) cover.varPositions.length
        ↔ key.length = cover.varPositions.length ∧ refine (row.range cover.inputIdx) key ≠ [] := by
    have hlong := (h.ranges row hrow _ hnext.inside).long (hwidth _ hnext.inside)
      (by have := hnext.length_le; omega)
    have hle := hnext.length_le
    exact mem_nextKeys fun rest hrest => by rw [hlong rest hrest]; omega
  have hunbound (row : FrontierRow V) (hrow : row ∈ frontier) (v : Nat)
      (hv : v ∈ cover.varPositions) : row.binding v = none := by
    have hno := mt ((h.admits row hrow).bound v).mp (hfresh v hv)
    simpa using hno
  have hranges (row : FrontierRow V) (hrow : row ∈ frontier) (key : List V)
      (hlength : key.length = cover.varPositions.length) (i : Nat) (hi : i < atomVars.length)
      : Ranges atomVars rels (bindAll row.binding cover.varPositions key) (cover.consume consumed) i
          (Function.update row.range cover.inputIdx (refine (row.range cover.inputIdx) key) i) := by
    have hkeep : ∀ v ∈ (colVars atomVars i).take (consumed i),
        row.binding v = bindAll row.binding cover.varPositions key v := by
      intro v hv
      have hno : v ∉ cover.varPositions :=
        fun hmem => hfresh v hmem ((hcovered v).mpr ⟨i, hi, hv⟩)
      exact (bindAll_of_not_mem hno _ _).symm
    by_cases hsame : i = cover.inputIdx
    · subst hsame
      rw [Function.update_self]
      exact ((h.ranges row hrow _ hi).congr rfl hkeep).next hnext (map_bindAll hdistinct _ hlength)
    · rw [Function.update_of_ne hsame]
      exact (h.ranges row hrow i hi).congr (FjSubAtom.consume_of_ne hsame consumed) hkeep
  refine ⟨?_, ?_, ?_, ?_⟩
  · intro next hmem
    obtain ⟨row, hrow, hmem⟩ := List.mem_flatMap.mp hmem
    obtain ⟨key, hkey, rfl⟩ := List.mem_map.mp hmem
    obtain ⟨hlength, hne⟩ := (hkeys row hrow key).mp hkey
    constructor
    · intro v
      have hmap := map_bindAll hdistinct row.binding hlength
      by_cases hv : v ∈ cover.varPositions
      · obtain ⟨x, -, hx⟩ := List.mem_map.mp (hmap ▸ List.mem_map_of_mem hv)
        simp [← hx, hv]
      · simp [bindAll_of_not_mem hv, (h.admits row hrow).bound v, hv]
    · intro i hi
      refine ⟨_, hranges row hrow key hlength i hi, ?_⟩
      by_cases hsame : i = cover.inputIdx
      · subst hsame
        rwa [Function.update_self]
      · rw [Function.update_of_ne hsame]
        obtain ⟨range, hrange, hrne⟩ := (h.admits row hrow).live i hi
        rwa [(h.ranges row hrow i hi).unique hrange]
  · intro next hmem i hi
    obtain ⟨row, hrow, hmem⟩ := List.mem_flatMap.mp hmem
    obtain ⟨key, hkey, rfl⟩ := List.mem_map.mp hmem
    exact hranges row hrow key ((hkeys row hrow key).mp hkey).1 i hi
  · intro binding hadmits
    obtain ⟨row, hrow, hbinding⟩ := h.complete _ (hadmits.uncover hcovered hnext hfresh)
    obtain ⟨range, hrange, hne⟩ := hadmits.live _ hnext.inside
    obtain ⟨before, key, hbefore, hkey, rfl⟩ := hrange.split hnext
    have hlength : key.length = cover.varPositions.length := by
      simpa using (congrArg List.length hkey).symm
    have hkeep : ∀ v ∈ (colVars atomVars cover.inputIdx).take (consumed cover.inputIdx),
        binding v = row.binding v := by
      intro v hv
      have hno : v ∉ cover.varPositions :=
        fun hmem => hfresh v hmem ((hcovered v).mpr ⟨_, hnext.inside, hv⟩)
      simp [hbinding, hno]
    have hsame := (hbefore.congr rfl hkeep).unique (h.ranges row hrow _ hnext.inside)
    refine ⟨_, List.mem_flatMap.mpr ⟨row, hrow, List.mem_map.mpr ⟨key, ?_, rfl⟩⟩, ?_⟩
    · exact (hkeys row hrow key).mpr ⟨hlength, hsame ▸ hne⟩
    · funext v
      by_cases hv : v ∈ cover.varPositions
      · have hmap := (map_bindAll hdistinct row.binding hlength).trans hkey.symm
        exact List.map_inj_left.mp hmap v hv
      · simp [bindAll_of_not_mem hv, hbinding, hv]
  · rw [List.map_flatMap, List.nodup_flatMap]
    constructor
    · intro row hrow
      unfold expandRow
      rw [List.map_map]
      refine (nodup_nextKeys _ _).map_on fun key hkey key' hkey' heq => ?_
      have hlength := ((hkeys row hrow key).mp hkey).1
      have hlength' := ((hkeys row hrow key').mp hkey').1
      have heq : bindAll row.binding cover.varPositions key
          = bindAll row.binding cover.varPositions key' := heq
      refine map_some_injective ?_
      rw [← map_bindAll hdistinct row.binding hlength, heq,
        map_bindAll hdistinct row.binding hlength']
    · refine (List.pairwise_map.mp h.distinct).imp_of_mem fun hrow hrow' hne => ?_
      refine List.disjoint_iff_ne.mpr ?_
      intro left hleft right hright heq
      obtain ⟨_, hmem, rfl⟩ := List.mem_map.mp hleft
      obtain ⟨key, -, rfl⟩ := List.mem_map.mp hmem
      obtain ⟨_, hmem', rfl⟩ := List.mem_map.mp hright
      obtain ⟨key', -, rfl⟩ := List.mem_map.mp hmem'
      refine hne (funext fun v => ?_)
      by_cases hv : v ∈ cover.varPositions
      · rw [hunbound _ hrow v hv, hunbound _ hrow' v hv]
      · have hat := congrFun heq v
        simpa [bindAll_of_not_mem hv] using hat

-- Probes

/-- What a probe keeps: the row with the range refined by the values of the probe's variables. -/
theorem probeRow_eq_some {row next : FrontierRow V} {probe : FjSubAtom}
    : probeRow row probe = some next
      ↔ ∃ key, probe.varPositions.map row.binding = key.map some
        ∧ refine (row.range probe.inputIdx) key ≠ []
        ∧ next = row.narrow probe.inputIdx key := by
  simp only [probeRow, Option.bind_eq_bind, Option.bind_eq_some_iff, mapM_binding_eq_some,
    List.isEmpty_iff, Option.ite_none_left_eq_some, Option.some.injEq, FrontierRow.narrow,
    Function.update_self]
  exact exists_congr fun key => and_congr_right fun _ => and_congr_right fun _ => eq_comm

/-- Matching a probe keeps the frontier. -/
theorem FrontierOk.probe (h : FrontierOk atomVars rels consumed bound frontier)
    {probe : FjSubAtom} (hnext : probe.Next atomVars consumed)
    : FrontierOk atomVars rels (probe.consume consumed) bound
        (frontier.filterMap fun row => probeRow row probe) := by
  have hranges (row : FrontierRow V) (hrow : row ∈ frontier) (key : List V)
      (hkey : probe.varPositions.map row.binding = key.map some) (i : Nat)
      (hi : i < atomVars.length)
      : Ranges atomVars rels row.binding (probe.consume consumed) i
          (Function.update row.range probe.inputIdx (refine (row.range probe.inputIdx) key) i) := by
    by_cases hsame : i = probe.inputIdx
    · subst hsame
      rw [Function.update_self]
      exact (h.ranges row hrow _ hi).next hnext hkey
    · rw [Function.update_of_ne hsame]
      exact (h.ranges row hrow i hi).congr (FjSubAtom.consume_of_ne hsame consumed) fun _ _ => rfl
  refine ⟨?_, ?_, ?_, ?_⟩
  · intro next hmem
    obtain ⟨row, hrow, hprobe⟩ := List.mem_filterMap.mp hmem
    obtain ⟨key, hkey, hne, rfl⟩ := probeRow_eq_some.mp hprobe
    refine ⟨(h.admits row hrow).bound, fun i hi => ⟨_, hranges row hrow key hkey i hi, ?_⟩⟩
    by_cases hsame : i = probe.inputIdx
    · subst hsame
      rwa [Function.update_self]
    · rw [Function.update_of_ne hsame]
      obtain ⟨range, hrange, hrne⟩ := (h.admits row hrow).live i hi
      rwa [(h.ranges row hrow i hi).unique hrange]
  · intro next hmem i hi
    obtain ⟨row, hrow, hprobe⟩ := List.mem_filterMap.mp hmem
    obtain ⟨key, hkey, -, rfl⟩ := probeRow_eq_some.mp hprobe
    exact hranges row hrow key hkey i hi
  · intro binding hadmits
    have hbefore : Admits atomVars rels consumed bound binding := by
      refine ⟨hadmits.bound, fun i hi => ?_⟩
      obtain ⟨range, hrange, hne⟩ := hadmits.live i hi
      by_cases hsame : i = probe.inputIdx
      · subst hsame
        obtain ⟨before, key, hbefore, -, rfl⟩ := hrange.split hnext
        exact ⟨before, hbefore, refine_ne_nil hne⟩
      · exact ⟨range, hrange.congr (FjSubAtom.consume_of_ne hsame consumed).symm fun _ _ => rfl,
          hne⟩
    obtain ⟨row, hrow, rfl⟩ := h.complete _ hbefore
    obtain ⟨range, hrange, hne⟩ := hadmits.live _ hnext.inside
    obtain ⟨before, key, hbefore, hkey, rfl⟩ := hrange.split hnext
    rw [hbefore.unique (h.ranges row hrow _ hnext.inside)] at hne
    exact ⟨_, List.mem_filterMap.mpr ⟨row, hrow, probeRow_eq_some.mpr ⟨key, hkey, hne, rfl⟩⟩, rfl⟩
  · refine List.pairwise_map.mpr (List.Pairwise.filterMap _ ?_ (List.pairwise_map.mp h.distinct))
    intro row row' hne next hnext next' hnext'
    obtain ⟨key, -, -, rfl⟩ := probeRow_eq_some.mp hnext
    obtain ⟨key', -, -, rfl⟩ := probeRow_eq_some.mp hnext'
    exact hne

/-- Matching the probes of a node one after the other keeps the frontier. -/
theorem FrontierOk.probes (h : FrontierOk atomVars rels consumed bound frontier)
    {probes : List FjSubAtom} (hfollow : ProbesFollow atomVars bound consumed probes)
    : FrontierOk atomVars rels (consumeAll consumed probes) bound
        (frontier.filterMap fun row => probes.foldlM probeRow row) := by
  induction probes generalizing consumed frontier with
  | nil => simpa [consumeAll] using h
  | cons probe probes ih =>
    obtain ⟨hnext, -, -, hrest⟩ := hfollow
    have hfirst := ih (h.probe hnext) hrest
    rw [List.filterMap_filterMap] at hfirst
    exact hfirst

-- Nodes

theorem Covered.probes {probes : List FjSubAtom} (h : Covered atomVars consumed bound)
    (hfollow : ProbesFollow atomVars bound consumed probes)
    : Covered atomVars (consumeAll consumed probes) bound := by
  induction probes generalizing consumed with
  | nil => exact h
  | cons probe probes ih =>
    obtain ⟨hnext, hbound, -, hrest⟩ := hfollow
    exact ih (h.probe hnext hbound) hrest

theorem Covered.node {node : FjNode} (h : Covered atomVars consumed bound)
    (hfollows : node.Follows atomVars consumed bound)
    : Covered atomVars (node.consume consumed) (bound ++ node.cover.varPositions) :=
  (h.cover hfollows.cover).probes hfollows.probes

theorem FrontierOk.node (hwidth : ∀ i < atomVars.length, ∀ row ∈ rels i,
      row.length = (colVars atomVars i).length)
    (hcovered : Covered atomVars consumed bound)
    (h : FrontierOk atomVars rels consumed bound frontier) {node : FjNode}
    (hfollows : node.Follows atomVars consumed bound)
    : FrontierOk atomVars rels (node.consume consumed) (bound ++ node.cover.varPositions)
        (executeNode frontier node) :=
  (h.expand hwidth hcovered hfollows.cover hfollows.distinct hfollows.fresh).probes hfollows.probes

theorem Covered.nodes {nodes : List FjNode} (h : Covered atomVars consumed bound)
    (hfollow : NodesFollow atomVars consumed bound nodes)
    : Covered atomVars (consumedAfter consumed nodes) (bound ++ boundBy nodes) := by
  induction nodes generalizing consumed bound with
  | nil => simpa [consumedAfter, boundBy] using h
  | cons node nodes ih =>
    obtain ⟨hnode, hrest⟩ := hfollow
    have hnext := ih (h.node hnode) hrest
    simpa [consumedAfter, boundBy, List.append_assoc] using hnext

/-- Executing the nodes in order keeps the frontier. -/
theorem FrontierOk.nodes (hwidth : ∀ i < atomVars.length, ∀ row ∈ rels i,
      row.length = (colVars atomVars i).length)
    (hcovered : Covered atomVars consumed bound)
    (h : FrontierOk atomVars rels consumed bound frontier) {nodes : List FjNode}
    (hfollow : NodesFollow atomVars consumed bound nodes)
    : FrontierOk atomVars rels (consumedAfter consumed nodes) (bound ++ boundBy nodes)
        (nodes.foldl executeNode frontier) := by
  induction nodes generalizing consumed bound frontier with
  | nil => simpa [consumedAfter, boundBy] using h
  | cons node nodes ih =>
    obtain ⟨hnode, hrest⟩ := hfollow
    have hnext := ih (hcovered.node hnode) (h.node hwidth hcovered hnode) hrest
    simpa [consumedAfter, boundBy, List.append_assoc] using hnext

end

end Xlog.Cuda
