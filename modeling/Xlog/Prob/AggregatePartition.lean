import Xlog.Prob.AggregateRows

/-! The tuples of an aggregate head partition the worlds: in every world exactly one tuple of
every group with a row there is true, and it has the aggregates of the rows that are there.
-/

namespace Xlog.Prob

open Xlog.Core Xlog.Foundation Xlog.Logic PirBuilder

-- Emission

/-- Tuples are distinct and their formulas are nodes of the graph. -/
structure OutOk (s : AggregateOutput) : Prop where
  ok : s.builder.Ok
  distinct : (s.out.map Prod.fst).Nodup
  inside : ∀ tuple node, (tuple, node) ∈ s.out → node < s.builder.pir.len

/-- The tuple is true in the world. -/
def TrueOut (s : AggregateOutput) (w : World) (tuple : List Value) : Prop :=
  ∃ node, (tuple, node) ∈ s.out ∧ s.builder.pir.eval w node = true

/-- The worlds of a proof go to a tuple, whatever was there. -/
theorem OutOk.add {s : AggregateOutput} (h : OutOk s) {tuple : List Value} {proof : PirNodeId}
    (hproof : proof < s.builder.pir.len)
    : Grows s.builder (s.add tuple proof).builder ∧ OutOk (s.add tuple proof)
      ∧ ∀ w other, TrueOut (s.add tuple proof) w other
        ↔ TrueOut s w other ∨ other = tuple ∧ s.builder.pir.eval w proof = true := by
  set old := (findEntry s.out tuple).getD s.builder.constFalse with hold
  have hcases : (old < s.builder.pir.len)
      ∧ ∀ w, s.builder.pir.eval w old = true ↔ TrueOut s w tuple := by
    cases hl : findEntry s.out tuple with
    | none =>
        have hf : old = s.builder.constFalse := by rw [hold, hl, Option.getD_none]
        refine ⟨hf ▸ h.ok.constFalse_lt, fun w => ?_⟩
        rw [hf, h.ok.eval_constFalse]
        simp only [Bool.false_eq_true, false_iff]
        rintro ⟨node, hm, -⟩
        rw [findEntry, lookup_of_mem h.distinct hm] at hl
        exact Option.some_ne_none _ hl
    | some node =>
        have hf : old = node := by rw [hold, hl, Option.getD_some]
        have hm := mem_of_lookup hl
        refine ⟨hf ▸ h.inside tuple node hm, fun w => ?_⟩
        rw [hf]
        refine ⟨fun ht => ⟨node, hm, ht⟩, ?_⟩
        rintro ⟨node', hm', ht⟩
        have hl' := (lookup_of_mem h.distinct hm').symm.trans hl
        rwa [Option.some.inj hl'] at ht
  obtain ⟨hlt, htrue⟩ := hcases
  have hor := or_pair_spec h.ok hlt hproof
  unfold AggregateOutput.add
  rw [← hold]
  generalize s.builder.or [old, proof] = joined at hor ⊢
  refine ⟨hor.grows, ⟨hor.grows.ok, nodup_keys_insertEntry _ _ _ h.distinct, ?_⟩, ?_⟩
  · intro other node hm
    rcases (mem_insertEntry _ h.distinct).mp hm with ⟨-, rfl⟩ | ⟨-, hm⟩
    · exact hor.lt
    · exact hor.grows.lt (h.inside other node hm)
  · intro w other
    simp only [TrueOut, mem_insertEntry _ h.distinct]
    by_cases ho : other = tuple
    · subst ho
      have hnode := htrue w
      simp only [TrueOut] at hnode
      simp [hor.eval w, hnode]
    · simp only [ho, false_and, false_or, or_false, ne_eq, not_false_eq_true, true_and]
      apply exists_congr
      intro node
      apply and_congr_right
      intro hm
      rw [hor.grows.eval_eq (h.inside other node hm) w]

/-- Emit the tuples of the items that are not skipped. -/
def emitItem {ι : Type} (skip : ι → Prop) [DecidablePred skip]
    (materialize : ι → Result (List Value)) (proof : ι → PirNodeId) (s : AggregateOutput)
    (item : ι) : Result AggregateOutput :=
  if skip item then .ok s
  else do
    let tuple ← materialize item
    return s.add tuple (proof item)

/-- What emitting leaves behind: the tuples of the items whose proofs hold. -/
theorem OutOk.emit {ι : Type} {skip : ι → Prop} [DecidablePred skip]
    {materialize : ι → Result (List Value)} {proof : ι → PirNodeId} {items : List ι}
    {s s' : AggregateOutput} (h : OutOk s)
    (inside : ∀ item ∈ items, proof item < s.builder.pir.len)
    (run : items.foldlM (emitItem skip materialize proof) s = .ok s')
    : Grows s.builder s'.builder ∧ OutOk s'
      ∧ (∀ item ∈ items, ¬ skip item → ∃ tuple, materialize item = .ok tuple)
      ∧ ∀ w other, TrueOut s' w other ↔ TrueOut s w other
        ∨ ∃ item ∈ items, ¬ skip item ∧ materialize item = .ok other
          ∧ s.builder.pir.eval w (proof item) = true := by
  refine foldlM_inv (emitItem skip materialize proof)
    (fun done (next : AggregateOutput) => Grows s.builder next.builder ∧ OutOk next
      ∧ (∀ item ∈ done, ¬ skip item → ∃ tuple, materialize item = .ok tuple)
      ∧ ∀ w other, TrueOut next w other ↔ TrueOut s w other
        ∨ ∃ item ∈ done, ¬ skip item ∧ materialize item = .ok other
          ∧ s.builder.pir.eval w (proof item) = true) items ?_ ?_ run
  · exact ⟨.refl h.ok, h, by simp, by simp⟩
  · intro done item next next' hitem hinv hstep
    obtain ⟨hgrows, hok, hdone, htrue⟩ := hinv
    have hmem (P : ι → Prop) : (∃ other ∈ done ++ [item], P other)
        ↔ (∃ other ∈ done, P other) ∨ P item := by
      simp only [List.mem_append, List.mem_singleton, or_and_right, exists_or, exists_eq_left]
    unfold emitItem at hstep
    split at hstep
    · next hskip =>
        obtain rfl := Except.ok.inj hstep
        refine ⟨hgrows, hok, ?_, ?_⟩
        · intro other ho hnot
          rcases List.mem_append.mp ho with ho | ho
          · exact hdone other ho hnot
          · obtain rfl := List.mem_singleton.mp ho
            exact absurd hskip hnot
        · intro w other
          rw [htrue, hmem]
          simp [hskip]
    · next hskip =>
        obtain ⟨tuple, htuple, hstep⟩ := bind_eq_ok.mp hstep
        obtain rfl := Except.ok.inj hstep
        have hlt := hgrows.lt (inside item hitem)
        obtain ⟨hgrows', hok', htrue'⟩ := @OutOk.add next hok tuple (proof item) hlt
        refine ⟨hgrows.trans hgrows', hok', ?_, ?_⟩
        · intro other ho hnot
          rcases List.mem_append.mp ho with ho | ho
          · exact hdone other ho hnot
          · obtain rfl := List.mem_singleton.mp ho
            exact ⟨tuple, htuple⟩
        · intro w other
          rw [htrue', htrue, hmem, hgrows.eval_eq (inside item hitem) w, or_assoc]
          simp only [hskip, not_false_eq_true, true_and, htuple, Except.ok.injEq,
            @eq_comm _ tuple other]

-- One group

/-- What a group leaves behind: in every world with a row one more tuple, the outcome of the
rows that are present there.
-/
structure GroupDone (head : Atom) (plan : AggregatePlan) (groupKey : List Value)
    (present : World → List AggregateProvRow) (s s' : AggregateOutput) : Prop where
  grows : Grows s.builder s'.builder
  ok : OutOk s'
  outcome : ∀ w, ∃ tuple,
    (present w ≠ [] → ∀ group, groupKey = plan.keyVars.map group →
      IsOutcome head group (canonicalRows (present w)) tuple)
    ∧ ∀ other, TrueOut s' w other ↔ TrueOut s w other ∨ present w ≠ [] ∧ other = tuple

/-- The rows that hold are the settled ones and the uncertain ones among them. -/
theorem holds_split {b : PirBuilder} (h : b.Ok) (rows : List AggregateProvRow) (w : World)
    : (rows.filter (·.holds b w)).Perm
        (rows.filter (fun row => b.pirConstValue row.prov = some true)
          ++ (rows.filter fun row => b.pirConstValue row.prov = none).filter (·.holds b w)) := by
  induction rows with
  | nil => exact List.Perm.nil
  | cons row rows ih =>
      cases hc : b.pirConstValue row.prov with
      | none =>
          by_cases hr : row.holds b w = true
          · simpa [hc, hr] using (ih.cons row).trans List.perm_middle.symm
          · simpa [hc, hr] using ih
      | some value =>
          have hvalue : row.holds b w = value := eval_of_pirConstValue h hc w
          cases value with
          | true => simpa [hc, hvalue] using ih.cons row
          | false => simpa [hc, hvalue] using ih

theorem canonicalRows_perm {rows rows' : List AggregateProvRow} (h : rows.Perm rows')
    : canonicalRows rows = canonicalRows rows' := by
  ext row
  simp only [mem_canonicalRows, h.mem_iff]

theorem RowList.sublist {rows rows' : List AggregateProvRow} (h : RowList rows)
    (sub : rows'.Sublist rows)
    : RowList rows' where
  distinct := h.distinct.sublist (sub.map _)
  names := fun row hr => h.names row (sub.subset hr)

theorem RowList.perm {rows rows' : List AggregateProvRow} (h : RowList rows)
    (hperm : rows.Perm rows')
    : RowList rows' where
  distinct := (hperm.map AggregateProvRow.key).nodup_iff.mp h.distinct
  names := fun row hr => h.names row (hperm.mem_iff.mpr hr)

/-- Growing the graph keeps the tuples. -/
theorem OutOk.grows {s : AggregateOutput} (h : OutOk s) {b : PirBuilder}
    (hgrows : Grows s.builder b) (reports : List AggregateLiftReport)
    : OutOk { s with builder := b, reports := reports }
      ∧ ∀ w other, TrueOut { s with builder := b, reports := reports } w other
        ↔ TrueOut s w other := by
  refine ⟨⟨hgrows.ok, h.distinct, fun tuple node hm => hgrows.lt (h.inside tuple node hm)⟩, ?_⟩
  intro w other
  apply exists_congr
  intro node
  apply and_congr_right
  intro hm
  rw [hgrows.eval_eq (h.inside other node hm) w]

/-- When one item is true in every world, emitting the items adds its tuple. -/
theorem groupDone_of_emit {ι : Type} {skip : ι → Prop} [DecidablePred skip]
    {materialize : ι → Result (List Value)} {proof : ι → PirNodeId} {items : List ι} {head : Atom}
    {plan : AggregatePlan} {groupKey : List Value} {present : World → List AggregateProvRow}
    {s mid s' : AggregateOutput} (hgrows : Grows s.builder mid.builder) (hmid : OutOk mid)
    (hsame : ∀ w other, TrueOut mid w other ↔ TrueOut s w other)
    (inside : ∀ item ∈ items, proof item < mid.builder.pir.len)
    (hone : ∀ w, ∃ item ∈ items, mid.builder.pir.eval w (proof item) = true
      ∧ (∀ other ∈ items, mid.builder.pir.eval w (proof other) = true → other = item)
      ∧ (skip item ↔ present w = [])
      ∧ (present w ≠ [] → ∀ tuple, materialize item = .ok tuple →
        ∀ group, groupKey = plan.keyVars.map group →
          IsOutcome head group (canonicalRows (present w)) tuple))
    (run : items.foldlM (emitItem skip materialize proof) mid = .ok s')
    : GroupDone head plan groupKey present s s' := by
  obtain ⟨hgrows', hok, hdone, htrue⟩ := hmid.emit inside run
  refine ⟨hgrows.trans hgrows', hok, ?_⟩
  intro w
  obtain ⟨item, hitem, heval, hunique, hskip, houtcome⟩ := hone w
  by_cases hempty : present w = []
  · refine ⟨[], fun hne => absurd hempty hne, ?_⟩
    intro other
    rw [htrue, hsame, or_congr_right]
    constructor
    · rintro ⟨item', hm, hnot, -, he⟩
      obtain rfl := hunique item' hm he
      exact absurd (hskip.mpr hempty) hnot
    · exact fun hne => absurd hempty hne.1
  · have hnot : ¬ skip item := fun h => hempty (hskip.mp h)
    obtain ⟨tuple, htuple⟩ := hdone item hitem hnot
    refine ⟨tuple, fun _ => houtcome hempty tuple htuple, ?_⟩
    intro other
    rw [htrue, hsame, or_congr_right]
    constructor
    · rintro ⟨item', hm, -, ho, he⟩
      obtain rfl := hunique item' hm he
      exact ⟨hempty, Except.ok.inj (ho.symm.trans htuple)⟩
    · rintro ⟨-, rfl⟩
      exact ⟨item, hitem, hnot, htuple, heval⟩

/-- The rows of a group that are present in a world. -/
def presentRows (b : PirBuilder) (always uncertain : List AggregateProvRow) (w : World)
    : List AggregateProvRow :=
  always ++ uncertain.filter (·.holds b w)

/-- A group of a head with counts only. -/
theorem evalCountGroup_spec {head : Atom} {plan : AggregatePlan} (hplan : PlanOk head.terms plan)
    {groupKey : List Value} {always uncertain : List AggregateProvRow} {s s' : AggregateOutput}
    (h : OutOk s) (huncertain : RowsInside s.builder uncertain)
    (hrows : ∀ w, RowList (presentRows s.builder always uncertain w))
    (run : evalCountGroup plan head groupKey always uncertain s = .ok s')
    : GroupDone head plan groupKey (presentRows s.builder always uncertain) s s' := by
  unfold evalCountGroup at run
  split at run
  · simp at run
  · obtain ⟨-, -, run⟩ := bind_eq_ok.mp run
    simp only at run
    obtain ⟨hgrows, hlen, hformulas⟩ := countLiftFormulas_spec h.ok huncertain
    generalize countLiftFormulas s.builder uncertain = formulas at hgrows hlen hformulas run
    obtain ⟨hok, hsame⟩ := h.grows hgrows (recordAggregateLiftReports s.reports head groupKey
      plan.aggSpecs always.length uncertain.length .fired)
    refine groupDone_of_emit hgrows hok hsame
      (fun (formula : PirNodeId × Nat) hf => (hformulas formula.1 formula.2 hf).1) ?_ run
    intro w
    set count := uncertain.countP (·.holds s.builder w) with hcount
    have hlength : (presentRows s.builder always uncertain w).length = always.length + count := by
      rw [presentRows, List.length_append, ← List.countP_eq_length_filter]
    have hle : count ≤ uncertain.length := List.countP_le_length
    have hlt : count < formulas.1.length := by omega
    have hmem : (formulas.1[count], count) ∈ formulas.1.zipIdx :=
      List.mem_zipIdx_iff_getElem?.mpr (List.getElem?_eq_getElem hlt)
    have hworld (formula : PirNodeId × Nat) (hf : formula ∈ formulas.1.zipIdx)
        : formulas.2.pir.eval w formula.1 = decide (count = formula.2) :=
      (hformulas formula.1 formula.2 hf).2 w
    refine ⟨_, hmem, by simp [hworld _ hmem], ?_, ?_, ?_⟩
    · intro formula hf ht
      rw [hworld formula hf, decide_eq_true_eq] at ht
      have hget := List.mem_zipIdx_iff_getElem?.mp hf
      rw [← ht, List.getElem?_eq_getElem hlt] at hget
      exact Prod.ext (Option.some.inj hget).symm ht.symm
    · rw [← List.length_eq_zero_iff, hlength]
      omega
    · rintro - tuple htuple group rfl
      refine isOutcome_of_materialized (hplan.materializeCountLiftTuple htuple) ?_
      rintro agg v ⟨hop, rfl⟩
      rw [hop, IsAggregate, (hrows w).card, hlength]

/-- A group of a head with other aggregates. -/
theorem evalOutcomeGroup_spec {runtime : Runtime} {head : Atom} {plan : AggregatePlan}
    (hplan : PlanOk head.terms plan) {groupKey : List Value}
    {always uncertain : List AggregateProvRow} {s s' : AggregateOutput} (h : OutOk s)
    (huncertain : RowsInside s.builder uncertain)
    (hrows : ∀ w, RowList (presentRows s.builder always uncertain w))
    (run : evalOutcomeGroup runtime plan head groupKey always uncertain s = .ok s')
    : GroupDone head plan groupKey (presentRows s.builder always uncertain) s s' := by
  unfold evalOutcomeGroup at run
  split at run
  · simp at run
  · obtain ⟨outcomes, houtcomes, run⟩ := bind_eq_ok.mp run
    simp only at run
    obtain ⟨hgrows, hdp, hreached⟩ := factorizedAggregateOutcomes_spec h.ok huncertain houtcomes
    obtain ⟨hok, hsame⟩ := h.grows hgrows (recordAggregateLiftReports s.reports head groupKey
      plan.aggSpecs always.length uncertain.length .fired)
    refine groupDone_of_emit hgrows hok hsame
      (fun (entry : DpKey × (List AggState × PirNodeId)) he =>
        hdp.inside entry.1 entry.2.1 entry.2.2 he) ?_ run
    intro w
    obtain ⟨key, states, proof, hm, heval, hunique, hany, htracks⟩ := hreached w
    refine ⟨_, hm, heval, ?_, ?_, ?_⟩
    · intro entry he ht
      have hl : findEntry outcomes.1 entry.1 = some entry.2 := lookup_of_mem hdp.distinct he
      have hk : entry.1 = key := hunique entry.1 ⟨entry.2.1, entry.2.2, hl, ht⟩
      have hl' : findEntry outcomes.1 key = some (states, proof) := lookup_of_mem hdp.distinct hm
      rw [hk, hl'] at hl
      exact Prod.ext hk (Option.some.inj hl).symm
    · rw [hany, presentRows, List.append_eq_nil_iff, List.isEmpty_iff, List.filter_eq_nil_iff,
        List.any_eq_false]
    · rintro hne tuple htuple group rfl
      refine isOutcome_of_materialized (hplan.materializeAggregateTuple htuple) ?_
      rintro agg v ⟨idx, state, hspec, hstate, hfinish⟩
      obtain ⟨hlt, hspec⟩ := List.getElem?_eq_some_iff.mp hspec
      obtain ⟨hlt', hstate⟩ := List.getElem?_eq_some_iff.mp hstate
      obtain ⟨values, hvalues, htrack⟩ := htracks.get hlt hlt'
      rw [List.get_eq_getElem, hspec] at hvalues htrack
      rw [List.get_eq_getElem, hstate] at htrack
      have hvaluesNe : values ≠ [] := by
        rintro rfl
        exact hne (List.eq_nil_of_length_eq_zero hvalues.length_eq)
      exact (hrows w).isAggregate hvalues (htrack.finish hvaluesNe hfinish)

/-- One group: the rows that hold in a world are the settled and the uncertain ones there. -/
theorem evalGroup_spec {runtime : Runtime} {head : Atom} {plan : AggregatePlan}
    (hplan : PlanOk head.terms plan) {group : List Value × List AggregateProvRow}
    {s s' : AggregateOutput} (h : OutOk s) (hinside : RowsInside s.builder group.2)
    (hrows : RowList group.2) (run : evalGroup runtime plan head s group = .ok s')
    : GroupDone head plan group.1 (fun w => group.2.filter (·.holds s.builder w)) s s' := by
  set always := group.2.filter fun row => s.builder.pirConstValue row.prov = some true
  set uncertain := group.2.filter fun row => s.builder.pirConstValue row.prov = none
  have hperm (w : World) : (group.2.filter (·.holds s.builder w)).Perm
      (presentRows s.builder always uncertain w) := holds_split h.ok group.2 w
  have hpresent (w : World) : RowList (presentRows s.builder always uncertain w) :=
    (hrows.sublist List.filter_sublist).perm (hperm w)
  have huncertain : RowsInside s.builder uncertain :=
    fun row hr => hinside row (List.mem_filter.mp hr).1
  have hdone (hgroup : GroupDone head plan group.1 (presentRows s.builder always uncertain) s s')
      : GroupDone head plan group.1 (fun w => group.2.filter (·.holds s.builder w)) s s' := by
    refine ⟨hgroup.grows, hgroup.ok, ?_⟩
    intro w
    have hnil : presentRows s.builder always uncertain w ≠ []
        ↔ group.2.filter (·.holds s.builder w) ≠ [] := by
      rw [← List.length_pos_iff, ← List.length_pos_iff, (hperm w).length_eq]
    rw [canonicalRows_perm (hperm w), ← hnil]
    exact hgroup.outcome w
  unfold evalGroup at run
  simp only at run
  split at run
  · next hempty =>
      obtain rfl := Except.ok.inj run
      obtain ⟨halways, hnone⟩ := hempty
      refine hdone ⟨.refl h.ok, h, fun w => ⟨[], ?_⟩⟩
      have hsettled : always = [] := List.isEmpty_iff.mp halways
      have hopen : uncertain = [] := List.isEmpty_iff.mp hnone
      have hnil : presentRows s.builder always uncertain w = [] := by
        rw [presentRows, hsettled, hopen]
        rfl
      simp [hnil]
  · split at run
    · exact hdone (evalCountGroup_spec hplan h huncertain hpresent run)
    · exact hdone (evalOutcomeGroup_spec hplan h huncertain hpresent run)

-- All groups

/-- The rows of a group that hold in a world. -/
def heldRows (base : PirBuilder) (group : List Value × List AggregateProvRow) (w : World)
    : List AggregateProvRow :=
  group.2.filter (·.holds base w)

/-- The tuples so far are the outcomes of the groups so far. -/
structure GroupsDone (head : Atom) (plan : AggregatePlan) (base : PirBuilder)
    (done : List (List Value × List AggregateProvRow)) (s : AggregateOutput) : Prop where
  grows : Grows base s.builder
  ok : OutOk s
  sound : ∀ w tuple, TrueOut s w tuple → ∃ group ∈ done, heldRows base group w ≠ []
    ∧ ∀ values, group.1 = plan.keyVars.map values →
      IsOutcome head values (canonicalRows (heldRows base group w)) tuple
  complete : ∀ w, ∀ group ∈ done, heldRows base group w ≠ [] →
    ∀ values, group.1 = plan.keyVars.map values → ∃ tuple, TrueOut s w tuple
      ∧ IsOutcome head values (canonicalRows (heldRows base group w)) tuple
      ∧ ∀ other, TrueOut s w other → InGroup head values other → other = tuple

/-- The key of a group is that of its rows. -/
theorem Grouped.exists_values {keyVars : List String} {rows : List AggregateProvRow}
    {groups : List (List Value × List AggregateProvRow)} (h : Grouped keyVars rows groups)
    {group : List Value × List AggregateProvRow} (hg : group ∈ groups)
    : ∃ values : String → Value, group.1 = keyVars.map values := by
  obtain ⟨row, hr⟩ := List.exists_mem_of_ne_nil _ (h.nonempty group.1 group.2 hg)
  have hlookup := groupKeyOf_eq_ok (h.key group.1 group.2 hg row hr)
  refine ⟨fun name => (row.binding.lookup name).getD (.i64 0), ?_⟩
  generalize group.1 = key at hlookup ⊢
  clear h
  induction hlookup with
  | nil => rfl
  | cons hn _ ih => rw [List.map_cons, ← ih, hn, Option.getD_some]

/-- Tuples of two groups tell the groups apart. -/
theorem PlanOk.key_eq {head : Atom} {plan : AggregatePlan} (h : PlanOk head.terms plan)
    {values values' : String → Value} {tuple : List Value} (hin : InGroup head values tuple)
    (hin' : InGroup head values' tuple)
    : plan.keyVars.map values = plan.keyVars.map values' := by
  apply List.map_congr_left
  intro name hname
  exact hin.agree hin' ((h.vars name).mp hname)

/-- One more group, whose key is new. -/
theorem GroupsDone.evalGroup {runtime : Runtime} {head : Atom} {plan : AggregatePlan}
    (hplan : PlanOk head.terms plan) {base : PirBuilder} {rows : List AggregateProvRow}
    {groups done : List (List Value × List AggregateProvRow)}
    (hgroups : Grouped plan.keyVars rows groups) (hinside : RowsInside base rows)
    (hrows : RowList rows) {s s' : AggregateOutput} (h : GroupsDone head plan base done s)
    {group : List Value × List AggregateProvRow} (hgroup : group ∈ groups)
    (hdone : ∀ other ∈ done, other ∈ groups ∧ other.1 ≠ group.1)
    (run : Xlog.Prob.evalGroup runtime plan head s group = .ok s')
    : GroupsDone head plan base (done ++ [group]) s' := by
  have hsub := hgroups.sublist group.1 group.2 hgroup
  have hin : RowsInside base group.2 := fun row hr => hinside row (hsub.subset hr)
  have hspec := evalGroup_spec hplan h.ok (hin.grows h.grows) (hrows.sublist hsub) run
  have hheld (w : World) : group.2.filter (·.holds s.builder w) = heldRows base group w :=
    hin.filter_holds h.grows w
  have houtcome (w : World) := hspec.outcome w
  simp only [hheld] at houtcome
  refine ⟨h.grows.trans hspec.grows, hspec.ok, ?_, ?_⟩
  · intro w tuple ht
    obtain ⟨new, hnew, htrue⟩ := houtcome w
    rcases (htrue tuple).mp ht with hold | ⟨hne, rfl⟩
    · obtain ⟨other, ho, hrest⟩ := h.sound w tuple hold
      exact ⟨other, List.mem_append_left _ ho, hrest⟩
    · exact ⟨group, by simp, hne, hnew hne⟩
  · intro w other ho hne values hkey
    obtain ⟨new, hnew, htrue⟩ := houtcome w
    rcases List.mem_append.mp ho with ho | ho
    · obtain ⟨tuple, ht, hout, hunique⟩ := h.complete w other ho hne values hkey
      refine ⟨tuple, (htrue tuple).mpr (.inl ht), hout, ?_⟩
      intro candidate hc hgroupOf
      rcases (htrue candidate).mp hc with hold | ⟨hneNew, rfl⟩
      · exact hunique candidate hold hgroupOf
      · -- a tuple of the new group would have its key
        obtain ⟨newValues, hnewKey⟩ := hgroups.exists_values hgroup
        have hsame := hplan.key_eq hgroupOf (hnew hneNew newValues hnewKey).inGroup
        exact absurd (hkey.trans (hsame.trans hnewKey.symm)) (hdone other ho).2
    · obtain rfl := List.mem_singleton.mp ho
      refine ⟨new, (htrue new).mpr (.inr ⟨hne, rfl⟩), hnew hne values hkey, ?_⟩
      intro candidate hc hgroupOf
      rcases (htrue candidate).mp hc with hold | ⟨-, rfl⟩
      · obtain ⟨old, hold, -, hout⟩ := h.sound w candidate hold
        obtain ⟨oldValues, holdKey⟩ := hgroups.exists_values (hdone old hold).1
        have hsame := hplan.key_eq (hout oldValues holdKey).inGroup hgroupOf
        exact absurd (holdKey.trans (hsame.trans hkey.symm)) (hdone old hold).2
      · rfl

theorem groupsDone_foldlM {runtime : Runtime} {head : Atom} {plan : AggregatePlan}
    (hplan : PlanOk head.terms plan) {base : PirBuilder} (hbase : base.Ok)
    {rows : List AggregateProvRow} {groups : List (List Value × List AggregateProvRow)}
    (hgroups : Grouped plan.keyVars rows groups) (hinside : RowsInside base rows)
    (hrows : RowList rows) {reports : List AggregateLiftReport} {s : AggregateOutput}
    (run : groups.foldlM (Xlog.Prob.evalGroup runtime plan head) ⟨[], base, reports⟩ = .ok s)
    : GroupsDone head plan base groups s := by
  have hends : Ends (fun _ => True) (GroupsDone head plan base groups)
      (groups.foldlM (Xlog.Prob.evalGroup runtime plan head) ⟨[], base, reports⟩) := by
    refine Ends.foldlM (GroupsDone head plan base) ?_ ?_
    · refine ⟨.refl hbase, ⟨hbase, by simp, by simp⟩, ?_, by simp⟩
      rintro w tuple ⟨node, hm, -⟩
      simp at hm
    · intro before group after state heq h
      have hmem : group ∈ groups := by simp [heq]
      have hnew : ∀ other ∈ before, other ∈ groups ∧ other.1 ≠ group.1 := by
        intro other ho
        refine ⟨by simp [heq, ho], ?_⟩
        have hdistinct := hgroups.distinct
        rw [heq, List.map_append, List.map_cons, List.nodup_append] at hdistinct
        exact hdistinct.2.2 other.1 (List.mem_map_of_mem ho) group.1 (by simp)
      cases hrun : Xlog.Prob.evalGroup runtime plan head state group with
      | error e => trivial
      | ok next => exact h.evalGroup hplan hgroups hinside hrows hmem hnew hrun
  rwa [run] at hends

-- The head

/-- A row belongs to the group of some values when it binds the group variables to them. -/
theorem groupKeyOf_eq_map {keyVars : List String} {row : AggregateProvRow} {key : List Value}
    (run : groupKeyOf keyVars row = .ok key) (values : String → Value)
    : key = keyVars.map values
      ↔ ∀ name ∈ keyVars, row.binding.lookup name = some (values name) := by
  have hlookup := groupKeyOf_eq_ok run
  clear run
  induction hlookup with
  | nil => simp
  | cons hn _ ih => simp [hn, ih]

/-- The rows of the group with given values of the head's variables, as a set. -/
theorem canonicalRows_heldRows {head : Atom} {plan : AggregatePlan}
    (hplan : PlanOk head.terms plan) {b : PirBuilder} {states : List (Binding × PirNodeId)}
    {s : List (CanonicalRow × AggregateProvRow) × PirBuilder} (hdedup : Deduped b states s)
    (hnames : ∀ state ∈ states, (state.1.map Prod.fst).Nodup)
    {groups : List (List Value × List AggregateProvRow)}
    (hgroups : Grouped plan.keyVars (s.1.map Prod.snd) groups) (values : String → Value)
    (w : World) (key : CanonicalRow)
    : key ∈ rowsOf b.pir head states values w ↔ ∃ group ∈ groups,
        group.1 = plan.keyVars.map values ∧ key ∈ canonicalRows (heldRows s.2 group w) := by
  have hbinds (state : Binding × PirNodeId) (hs : state ∈ states) (row : AggregateProvRow)
      (hrow : (row.key, row) ∈ s.1) (hsame : canonicalBindingKey state.1 = row.key)
      : HasGroup head values state.1
        ↔ ∀ name ∈ plan.keyVars, row.binding.lookup name = some (values name) := by
    unfold HasGroup
    simp only [hplan.vars]
    apply forall_congr'
    intro name
    apply imp_congr_right
    intro _
    rw [← lookup_canonicalBindingKey (hnames state hs) name, hsame, AggregateProvRow.key,
      lookup_canonicalBindingKey (hdedup.row _ row hrow).2.1 name]
  constructor
  · intro hm
    obtain ⟨state, hs, ht, hgroup, hkey⟩ := mem_rowsOf.mp hm
    obtain ⟨row, hrow, hholds⟩ := (hdedup.holds_iff w key).mpr ⟨state, hs, hkey, ht⟩
    have hrowKey := (hdedup.row key row hrow).1
    subst hrowKey
    obtain ⟨groupKey, rows, hg, hin⟩ :=
      hgroups.total row (List.mem_map.mpr ⟨(row.key, row), hrow, rfl⟩)
    have hvalues := (hbinds state hs row hrow hkey).mp hgroup
    refine ⟨(groupKey, rows), hg,
      (groupKeyOf_eq_map (hgroups.key groupKey rows hg row hin) values).mpr hvalues, ?_⟩
    exact mem_canonicalRows.mpr ⟨row, List.mem_filter.mpr ⟨hin, hholds⟩, rfl⟩
  · rintro ⟨group, hg, hgroupKey, hm⟩
    obtain ⟨row, hheld, rfl⟩ := mem_canonicalRows.mp hm
    obtain ⟨hin, hholds⟩ := List.mem_filter.mp hheld
    obtain ⟨⟨key, row⟩, hrow, rfl⟩ :=
      List.mem_map.mp ((hgroups.sublist group.1 group.2 hg).subset hin)
    obtain rfl := (hdedup.row key row hrow).1
    obtain ⟨state, hs, hkey, ht⟩ := (hdedup.holds_iff w row.key).mp ⟨row, hrow, hholds⟩
    have hvalues := (groupKeyOf_eq_map (hgroups.key group.1 group.2 hg row hin) values).mp hgroupKey
    exact mem_rowsOf.mpr ⟨state, hs, ht, (hbinds state hs row hrow hkey).mpr hvalues, hkey⟩

/-- In every world at most one tuple of a group is true, one is when a row of the group is, and
it has the aggregates of the distinct rows that are.
-/
theorem evalAggregateHeadProvenance_partitions {runtime : Runtime} {head : Atom}
    {states : List (Binding × PirNodeId)} {b : PirBuilder} (hb : b.Ok)
    (hstates : ∀ state ∈ states, (state.1.map Prod.fst).Nodup ∧ state.2 < b.pir.len)
    {reports : List AggregateLiftReport} {s : AggregateOutput}
    (run : evalAggregateHeadProvenance runtime head states b reports = .ok s) (w : World)
    (group : String → Value)
    : (rowsOf b.pir head states group w = ∅ →
        ∀ tuple, TrueOut s w tuple → ¬ InGroup head group tuple)
      ∧ ((rowsOf b.pir head states group w).Nonempty → ∃ tuple, TrueOut s w tuple
        ∧ IsOutcome head group (rowsOf b.pir head states group w) tuple
        ∧ ∀ other, TrueOut s w other → InGroup head group other → other = tuple) := by
  unfold evalAggregateHeadProvenance at run
  obtain ⟨plan, hplanRun, run⟩ := bind_eq_ok.mp run
  simp only at run
  obtain ⟨groups, hgroupsRun, run⟩ := bind_eq_ok.mp run
  have hplan := planOk_of_aggregateHeadPlan hplanRun
  have hdedup := deduped_foldl hb hstates
  generalize states.foldl dedupState ([], b) = deduped at hdedup hgroupsRun run
  have hgroups := grouped_foldlM hgroupsRun
  have hinside : RowsInside deduped.2 (deduped.1.map Prod.snd) := by
    intro row hr
    obtain ⟨entry, hm, rfl⟩ := List.mem_map.mp hr
    exact (hdedup.row entry.1 entry.2 hm).2.2
  have hdone := groupsDone_foldlM hplan hdedup.grows.ok hgroups hinside hdedup.rowList run
  have hrows := canonicalRows_heldRows hplan hdedup (fun state hs => (hstates state hs).1) hgroups
    group w
  have hset {other : List Value × List AggregateProvRow} (ho : other ∈ groups)
      (hkey : other.1 = plan.keyVars.map group)
      : canonicalRows (heldRows deduped.2 other w) = rowsOf b.pir head states group w := by
    ext key
    rw [hrows]
    refine ⟨fun hm => ⟨other, ho, hkey, hm⟩, ?_⟩
    rintro ⟨other', ho', hkey', hm⟩
    have hl := lookup_of_mem hgroups.distinct ho
    have hl' := lookup_of_mem hgroups.distinct ho'
    rw [hkey', ← hkey, hl] at hl'
    have hsame : other' = other := Prod.ext (hkey'.trans hkey.symm) (Option.some.inj hl').symm
    exact hsame ▸ hm
  constructor
  · intro hempty tuple ht hin
    obtain ⟨other, ho, hne, hout⟩ := hdone.sound w tuple ht
    obtain ⟨values, hkey⟩ := hgroups.exists_values ho
    have hsame := hplan.key_eq (hout values hkey).inGroup hin
    have hnone := hset ho (hkey.trans hsame)
    rw [hempty] at hnone
    obtain ⟨row, hr⟩ := List.exists_mem_of_ne_nil _ hne
    have hmem := mem_canonicalRows.mpr ⟨row, hr, rfl⟩
    rw [hnone] at hmem
    exact absurd hmem (Finset.notMem_empty _)
  · rintro ⟨key, hkey⟩
    obtain ⟨other, ho, hotherKey, hm⟩ := (hrows key).mp hkey
    obtain ⟨row, hr, -⟩ := mem_canonicalRows.mp hm
    have hcomplete := hdone.complete w other ho (List.ne_nil_of_mem hr) group hotherKey
    rwa [hset ho hotherKey] at hcomplete

/-- A runtime for values without floats and symbols. -/
def integerRuntime : Runtime where
  intern _ := 0
  resolve _ := ""
  powf a _ := a
  rem64 a _ := a
  rem32 a _ := a
  exp a := a
  ln a := a
  displayF64 _ := ""

def countAndSum : Atom := ⟨"total", [.aggregate ⟨.count, "X"⟩, .aggregate ⟨.sum, "X"⟩]⟩

/-- A leaf and its negation. -/
def eitherRow : PirBuilder := ((PirBuilder.new.lit 0).2.negLit 0).2

/-- Two rows of which exactly one holds in every world. -/
def eitherStates : List (Binding × PirNodeId) := [([("X", .i64 4)], 2), ([("X", .i64 7)], 3)]

theorem either_partitions
    : ∃ s, evalAggregateHeadProvenance integerRuntime countAndSum eitherStates eitherRow [] = .ok s
      ∧ ∀ w, (rowsOf eitherRow.pir countAndSum eitherStates (fun _ => .i64 0) w).Nonempty →
        ∃ tuple, TrueOut s w tuple
          ∧ IsOutcome countAndSum (fun _ => .i64 0)
            (rowsOf eitherRow.pir countAndSum eitherStates (fun _ => .i64 0) w) tuple
          ∧ ∀ other, TrueOut s w other →
            InGroup countAndSum (fun _ => .i64 0) other → other = tuple := by
  have hok : eitherRow.Ok := (negLit_spec (lit_spec ok_new 0).grows.ok 0).grows.ok
  have hstates : ∀ state ∈ eitherStates,
      (state.1.map Prod.fst).Nodup ∧ state.2 < eitherRow.pir.len := by
    decide +kernel
  have hruns : (evalAggregateHeadProvenance integerRuntime countAndSum eitherStates eitherRow
      []).isOk = true := by
    decide +kernel
  cases run : evalAggregateHeadProvenance integerRuntime countAndSum eitherStates eitherRow [] with
  | error e =>
      rw [run] at hruns
      cases hruns
  | ok s => exact ⟨s, rfl, fun w => (evalAggregateHeadProvenance_partitions hok hstates run w _).2⟩

end Xlog.Prob
