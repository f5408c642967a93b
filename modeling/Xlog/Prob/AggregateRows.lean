import Xlog.Prob.AggregateTables

/-! The distinct rows of a rule body and their groups, what the plan of an aggregate head says about its terms,
and which values the head tuple of a group has.
-/

namespace Xlog.Prob

open Xlog.Core Xlog.Foundation Xlog.Logic PirBuilder

/-- A binding with its variables in order. -/
abbrev CanonicalRow := List (String × Value)

def AggregateProvRow.key (row : AggregateProvRow) : CanonicalRow := canonicalBindingKey row.binding

-- Purpose

/-- The value of an aggregate over a set of rows: their number, the sum of a column of integers,
its least and its greatest value. Other sums are left open.
-/
def IsAggregate (op : AggOp) (var : String) (rows : Finset CanonicalRow) (value : Value) : Prop :=
  match op with
  | .count => value = .i64 rows.card
  | .sum => ∀ amount : CanonicalRow → Int,
      (∀ row ∈ rows, row.lookup var = some (.i64 (amount row))) →
        value = .i64 (∑ row ∈ rows, amount row)
  | .min => (∃ row ∈ rows, row.lookup var = some value)
      ∧ ∀ row ∈ rows, ∀ other, row.lookup var = some other → valueLe value other = .ok true
  | .max => (∃ row ∈ rows, row.lookup var = some value)
      ∧ ∀ row ∈ rows, ∀ other, row.lookup var = some other → valueLe other value = .ok true
  | .logSumExp => True

/-- One value of the head tuple of a group. -/
def TermOutcome (group : String → Value) (rows : Finset CanonicalRow) (term : Term)
    (value : Value) : Prop :=
  match term with
  | .var name => value = group name
  | .aggregate agg => IsAggregate agg.op agg.var rows value
  | term => valueFromTerm term = .ok value

/-- The head tuple of a group with these rows. -/
def IsOutcome (head : Atom) (group : String → Value) (rows : Finset CanonicalRow)
    (tuple : List Value) : Prop :=
  List.Forall₂ (TermOutcome group rows) head.terms tuple

/-- The tuple has the values of the group at the variables of the head. -/
def InGroup (head : Atom) (group : String → Value) (tuple : List Value) : Prop :=
  List.Forall₂ (fun term value => ∀ name, term = .var name → value = group name) head.terms tuple

/-- The binding belongs to the group. -/
def HasGroup (head : Atom) (group : String → Value) (binding : Binding) : Prop :=
  ∀ name, Term.var name ∈ head.terms → binding.lookup name = some (group name)

/-- The distinct rows of a group that hold in a world. -/
noncomputable def rowsOf (g : PirGraph) (head : Atom) (states : List (Binding × PirNodeId))
    (group : String → Value) (w : World) : Finset CanonicalRow :=
  open Classical in
  ((states.filter fun state => g.eval w state.2 = true ∧ HasGroup head group state.1).map
    fun state => canonicalBindingKey state.1).toFinset

theorem mem_rowsOf {g : PirGraph} {head : Atom} {states : List (Binding × PirNodeId)}
    {group : String → Value} {w : World} {row : CanonicalRow}
    : row ∈ rowsOf g head states group w
      ↔ ∃ state ∈ states, g.eval w state.2 = true ∧ HasGroup head group state.1
        ∧ canonicalBindingKey state.1 = row := by
  simp [rowsOf, and_assoc]

theorem IsOutcome.inGroup {head : Atom} {group : String → Value} {rows : Finset CanonicalRow}
    {tuple : List Value} (h : IsOutcome head group rows tuple)
    : InGroup head group tuple := by
  refine List.Forall₂.imp ?_ h
  rintro term value hvalue name rfl
  exact hvalue

/-- A tuple tells its group at the variables of the head, by induction on the terms. -/
theorem InGroup.agree {head : Atom} {group group' : String → Value} {tuple : List Value}
    (h : InGroup head group tuple) (h' : InGroup head group' tuple) {name : String}
    (hname : Term.var name ∈ head.terms)
    : group name = group' name := by
  obtain ⟨i, hi, heq⟩ := List.getElem_of_mem hname
  have hlt : i < tuple.length := h.length_eq ▸ hi
  have hone := h.get hi hlt name heq
  have htwo := h'.get hi hlt name heq
  exact hone.symm.trans htwo

-- Canonical rows

theorem perm_canonicalBindingKey (binding : Binding) : (canonicalBindingKey binding).Perm binding :=
  List.perm_insertionSort _ _

/-- A canonical row binds the same values. -/
theorem lookup_canonicalBindingKey {binding : Binding} (distinct : (binding.map Prod.fst).Nodup)
    (name : String)
    : (canonicalBindingKey binding).lookup name = binding.lookup name := by
  have hperm := perm_canonicalBindingKey binding
  have hdistinct := (hperm.map Prod.fst).nodup_iff.mpr distinct
  rw [Option.ext_iff]
  intro value
  rw [lookup_eq_some_iff_mem hdistinct, lookup_eq_some_iff_mem distinct, hperm.mem_iff]

/-- Distinct rows that hold, as the aggregates see them. -/
structure RowList (rows : List AggregateProvRow) : Prop where
  distinct : (rows.map AggregateProvRow.key).Nodup
  names : ∀ row ∈ rows, (row.binding.map Prod.fst).Nodup

theorem RowList.lookup {rows : List AggregateProvRow} (h : RowList rows) {row : AggregateProvRow}
    (hr : row ∈ rows) (name : String)
    : row.key.lookup name = row.binding.lookup name :=
  lookup_canonicalBindingKey (h.names row hr) name

/-- The set of the rows' canonical forms. -/
def canonicalRows (rows : List AggregateProvRow) : Finset CanonicalRow :=
  (rows.map AggregateProvRow.key).toFinset

theorem mem_canonicalRows {rows : List AggregateProvRow} {row : CanonicalRow}
    : row ∈ canonicalRows rows ↔ ∃ r ∈ rows, r.key = row := by
  simp [canonicalRows]

theorem RowList.card {rows : List AggregateProvRow} (h : RowList rows)
    : (canonicalRows rows).card = rows.length := by
  rw [canonicalRows, List.toFinset_card_of_nodup h.distinct, List.length_map]

/-- The entries of a column, by position. -/
theorem Columns.mem_iff {rows : List AggregateProvRow} {var : String} {values : List Value}
    (h : Columns rows var values) (value : Value)
    : value ∈ values ↔ ∃ row ∈ rows, row.binding.lookup var = some value := by
  induction h with
  | nil => simp
  | @cons row first rows values hrow _ ih =>
      rw [List.mem_cons, ih]
      simp [hrow, eq_comm]

/-- The aggregate of a column is that of the set of rows. -/
theorem RowList.isAggregate {rows : List AggregateProvRow} (h : RowList rows) {op : AggOp}
    {var : String} {values : List Value} (hvalues : Columns rows var values) {value : Value}
    (hvalue : IsAggregateOf op values value)
    : IsAggregate op var (canonicalRows rows) value := by
  have hrow (row : CanonicalRow) (other : Value)
      : (row ∈ canonicalRows rows ∧ row.lookup var = some other)
        ↔ ∃ r ∈ rows, r.key = row ∧ r.binding.lookup var = some other := by
    rw [mem_canonicalRows]
    constructor
    · rintro ⟨⟨r, hr, rfl⟩, hl⟩
      exact ⟨r, hr, rfl, h.lookup hr var ▸ hl⟩
    · rintro ⟨r, hr, rfl, hl⟩
      exact ⟨⟨r, hr, rfl⟩, (h.lookup hr var).trans hl⟩
  have hextreme (le : Value → Value → Result Bool) (hle : Extreme le values value)
      : (∃ row ∈ canonicalRows rows, row.lookup var = some value)
        ∧ ∀ row ∈ canonicalRows rows, ∀ other, row.lookup var = some other →
          le value other = .ok true := by
    obtain ⟨hmem, hall⟩ := hle
    obtain ⟨r, hr, hl⟩ := (hvalues.mem_iff value).mp hmem
    refine ⟨⟨r.key, (hrow _ _).mpr ⟨r, hr, rfl, hl⟩⟩, ?_⟩
    intro row hm other ho
    obtain ⟨r', hr', -, hl'⟩ := (hrow _ _).mp ⟨hm, ho⟩
    exact hall other ((hvalues.mem_iff other).mpr ⟨r', hr', hl'⟩)
  cases op with
  | count =>
      obtain rfl : value = _ := hvalue
      simp only [IsAggregate, h.card, hvalues.length_eq]
  | sum =>
      intro amount hamount
      have hcolumn : values = (rows.map fun r => amount r.key).map Value.i64 := by
        have hlookup : ∀ r ∈ rows, r.binding.lookup var = some (.i64 (amount r.key)) := by
          intro r hr
          rw [← h.lookup hr]
          exact hamount r.key (mem_canonicalRows.mpr ⟨r, hr, rfl⟩)
        clear hrow hextreme hamount hvalue h
        induction hvalues with
        | nil => rfl
        | @cons row first rows values hfirst _ ih =>
            obtain ⟨hr, hrest⟩ := List.forall_mem_cons.mp hlookup
            rw [ih hrest, List.map_cons, List.map_cons, Option.some.inj (hfirst.symm.trans hr)]
      rw [hvalue _ hcolumn, canonicalRows, List.sum_toFinset _ h.distinct, List.map_map]
      rfl
  | min => exact hextreme valueLe hvalue
  | max => exact hextreme (fun x y => valueLe y x) hvalue
  | logSumExp => trivial

-- Deduplication

/-- The rows so far: one for every distinct binding, true where one of its formulas is. -/
structure Deduped (base : PirBuilder) (done : List (Binding × PirNodeId))
    (s : List (CanonicalRow × AggregateProvRow) × PirBuilder) : Prop where
  grows : Grows base s.2
  distinct : (s.1.map Prod.fst).Nodup
  row : ∀ key row, (key, row) ∈ s.1 →
    row.key = key ∧ (row.binding.map Prod.fst).Nodup ∧ row.prov < s.2.pir.len
  holds_iff : ∀ w key, (∃ row, (key, row) ∈ s.1 ∧ row.holds s.2 w = true)
    ↔ ∃ state ∈ done, canonicalBindingKey state.1 = key ∧ base.pir.eval w state.2 = true

/-- One more binding. -/
theorem Deduped.dedupState {base : PirBuilder} {done : List (Binding × PirNodeId)}
    {s : List (CanonicalRow × AggregateProvRow) × PirBuilder} (h : Deduped base done s)
    {state : Binding × PirNodeId} (hnames : (state.1.map Prod.fst).Nodup)
    (hprov : state.2 < base.pir.len)
    : Deduped base (done ++ [state]) (dedupState s state) := by
  have hstate (w : World) : s.2.pir.eval w state.2 = base.pir.eval w state.2 :=
    h.grows.eval_eq hprov w
  have hmore (w : World) (key : CanonicalRow)
      : (∃ other ∈ done ++ [state], canonicalBindingKey other.1 = key
          ∧ base.pir.eval w other.2 = true)
        ↔ (∃ row, (key, row) ∈ s.1 ∧ row.holds s.2 w = true)
          ∨ canonicalBindingKey state.1 = key ∧ base.pir.eval w state.2 = true := by
    rw [h.holds_iff]
    simp only [List.mem_append, List.mem_singleton, or_and_right, exists_or, exists_eq_left]
  unfold Xlog.Prob.dedupState
  simp only
  split
  · next row hl =>
      have hrow := mem_of_lookup hl
      obtain ⟨hkey, hrowNames, hlt⟩ := h.row _ row hrow
      have hor := or_pair_spec h.grows.ok hlt (h.grows.lt hprov)
      generalize s.2.or [row.prov, state.2] = prov at hor ⊢
      refine ⟨h.grows.trans hor.grows, nodup_keys_insertEntry _ _ _ h.distinct, ?_, ?_⟩
      · intro key other hm
        rcases (mem_insertEntry _ h.distinct).mp hm with ⟨rfl, rfl⟩ | ⟨-, hm⟩
        · exact ⟨hkey, hrowNames, hor.lt⟩
        · obtain ⟨hk, hn, hp⟩ := h.row key other hm
          exact ⟨hk, hn, hor.grows.lt hp⟩
      · intro w key
        rw [hmore]
        simp only [mem_insertEntry _ h.distinct]
        by_cases hk : key = canonicalBindingKey state.1
        · subst hk
          have hall : (∃ other, (canonicalBindingKey state.1, other) ∈ s.1
              ∧ other.holds s.2 w = true) ↔ row.holds s.2 w = true := by
            constructor
            · rintro ⟨other, hm, ht⟩
              have hl' := (lookup_of_mem h.distinct hm).symm.trans hl
              obtain rfl := Option.some.inj hl'
              exact ht
            · exact fun ht => ⟨row, hrow, ht⟩
          rw [hall]
          simp [AggregateProvRow.holds, hor.eval w, hstate w]
        · have hne : canonicalBindingKey state.1 ≠ key := fun he => hk he.symm
          simp only [hk, hne, false_and, true_and, ne_eq, not_false_eq_true, false_or, or_false]
          apply exists_congr
          intro other
          apply and_congr_right
          intro hm
          simp only [AggregateProvRow.holds, hor.grows.eval_eq (h.row key other hm).2.2 w]
  · next hl =>
      refine ⟨h.grows, nodup_keys_insertEntry _ _ _ h.distinct, ?_, ?_⟩
      · intro key other hm
        rcases (mem_insertEntry _ h.distinct).mp hm with ⟨rfl, rfl⟩ | ⟨-, hm⟩
        · exact ⟨rfl, hnames, h.grows.lt hprov⟩
        · exact h.row key other hm
      · intro w key
        rw [hmore]
        simp only [mem_insertEntry _ h.distinct]
        by_cases hk : key = canonicalBindingKey state.1
        · subst hk
          have hnone : ¬ ∃ other, (canonicalBindingKey state.1, other) ∈ s.1
              ∧ other.holds s.2 w = true := by
            rintro ⟨other, hm, -⟩
            rw [findEntry, lookup_of_mem h.distinct hm] at hl
            exact Option.some_ne_none _ hl
          rw [or_iff_right hnone]
          simp [AggregateProvRow.holds, hstate w]
        · have hne : canonicalBindingKey state.1 ≠ key := fun he => hk he.symm
          simp [hk, hne]

theorem deduped_foldl {b : PirBuilder} (h : b.Ok) {states : List (Binding × PirNodeId)}
    (hstates : ∀ state ∈ states, (state.1.map Prod.fst).Nodup ∧ state.2 < b.pir.len)
    : Deduped b states (states.foldl dedupState ([], b)) := by
  refine foldl_inv dedupState (Deduped b) states _ ?_ ?_
  · exact ⟨.refl h, by simp, by simp, by simp⟩
  · intro done state s hm hinv
    exact hinv.dedupState (hstates state hm).1 (hstates state hm).2

theorem Deduped.rowList {base : PirBuilder} {done : List (Binding × PirNodeId)}
    {s : List (CanonicalRow × AggregateProvRow) × PirBuilder} (h : Deduped base done s)
    : RowList (s.1.map Prod.snd) where
  distinct := by
    have hkeys : (s.1.map Prod.snd).map AggregateProvRow.key = s.1.map Prod.fst := by
      rw [List.map_map]
      apply List.map_congr_left
      rintro ⟨key, row⟩ hm
      exact (h.row key row hm).1
    rw [hkeys]
    exact h.distinct
  names := by
    intro row hr
    obtain ⟨⟨key, row⟩, hm, rfl⟩ := List.mem_map.mp hr
    exact (h.row key row hm).2.1

-- Groups

/-- The key of a row lists its values of the group variables. -/
theorem groupKeyOf_eq_ok {keyVars : List String} {row : AggregateProvRow} {key : List Value}
    (run : groupKeyOf keyVars row = .ok key)
    : List.Forall₂ (fun name value => row.binding.lookup name = some value) keyVars key := by
  refine List.Forall₂.imp ?_ (forall₂_of_mapM run)
  intro name value hvalue
  split at hvalue
  · next found hl => rw [hl, Except.ok.inj hvalue]
  · simp at hvalue

/-- The rows of the groups are the given rows, each in the group of its key. -/
structure Grouped (keyVars : List String) (done : List AggregateProvRow)
    (groups : List (List Value × List AggregateProvRow)) : Prop where
  distinct : (groups.map Prod.fst).Nodup
  sublist : ∀ key rows, (key, rows) ∈ groups → rows.Sublist done
  key : ∀ key rows, (key, rows) ∈ groups → ∀ row ∈ rows, groupKeyOf keyVars row = .ok key
  nonempty : ∀ key rows, (key, rows) ∈ groups → rows ≠ []
  total : ∀ row ∈ done, ∃ key rows, (key, rows) ∈ groups ∧ row ∈ rows

theorem Grouped.addToGroup {keyVars : List String} {done : List AggregateProvRow}
    {groups groups' : List (List Value × List AggregateProvRow)} (h : Grouped keyVars done groups)
    {row : AggregateProvRow} (run : addToGroup keyVars groups row = .ok groups')
    : Grouped keyVars (done ++ [row]) groups' := by
  unfold Xlog.Prob.addToGroup at run
  obtain ⟨key, hkey, run⟩ := bind_eq_ok.mp run
  obtain rfl := Except.ok.inj run
  set old := (findEntry groups key).getD [] with hold
  have hcases : old = [] ∨ (key, old) ∈ groups := by
    cases hl : findEntry groups key with
    | none => exact .inl (by rw [hold, hl, Option.getD_none])
    | some rows =>
        rw [hold, hl, Option.getD_some]
        exact .inr (mem_of_lookup hl)
  refine ⟨nodup_keys_insertEntry _ _ _ h.distinct, ?_, ?_, ?_, ?_⟩
  · intro other rows hm
    rcases (mem_insertEntry _ h.distinct).mp hm with ⟨rfl, rfl⟩ | ⟨-, hm⟩
    · refine List.Sublist.append ?_ (List.Sublist.refl _)
      rcases hcases with he | he
      · rw [he]
        exact List.nil_sublist done
      · exact h.sublist other old he
    · exact (h.sublist other rows hm).trans (List.sublist_append_left _ _)
  · intro other rows hm r hr
    rcases (mem_insertEntry _ h.distinct).mp hm with ⟨rfl, rfl⟩ | ⟨-, hm⟩
    · rcases List.mem_append.mp hr with hr | hr
      · rcases hcases with he | he
        · rw [he] at hr
          exact absurd hr (List.not_mem_nil)
        · exact h.key other old he r hr
      · obtain rfl := List.mem_singleton.mp hr
        exact hkey
    · exact h.key other rows hm r hr
  · intro other rows hm
    rcases (mem_insertEntry _ h.distinct).mp hm with ⟨rfl, rfl⟩ | ⟨-, hm⟩
    · simp
    · exact h.nonempty other rows hm
  · intro r hr
    have hnew : (key, old ++ [row]) ∈ insertEntry tupleLe groups key (old ++ [row]) :=
      (mem_insertEntry _ h.distinct).mpr (.inl ⟨rfl, rfl⟩)
    rcases List.mem_append.mp hr with hr | hr
    · obtain ⟨other, rows, hm, hin⟩ := h.total r hr
      by_cases ho : other = key
      · subst ho
        have hl : findEntry groups other = some rows := lookup_of_mem h.distinct hm
        refine ⟨other, old ++ [row], hnew, List.mem_append_left _ ?_⟩
        rw [hold, hl, Option.getD_some]
        exact hin
      · exact ⟨other, rows, (mem_insertEntry _ h.distinct).mpr (.inr ⟨ho, hm⟩), hin⟩
    · obtain rfl := List.mem_singleton.mp hr
      exact ⟨key, old ++ [r], hnew, by simp⟩

theorem grouped_foldlM {keyVars : List String} {rows : List AggregateProvRow}
    {groups : List (List Value × List AggregateProvRow)}
    (run : rows.foldlM (addToGroup keyVars) [] = .ok groups)
    : Grouped keyVars rows groups := by
  refine foldlM_inv (addToGroup keyVars) (Grouped keyVars) rows ?_ ?_ run
  · exact ⟨by simp, by simp, by simp, by simp, by simp⟩
  · intro done row groups groups' _ hinv hstep
    exact hinv.addToGroup hstep

-- The plan of a head

/-- The positions point to their variables and aggregates, and the group variables are those of
the terms.
-/
structure PlanOk (terms : List Term) (plan : AggregatePlan) : Prop where
  keys : ∀ name pos, plan.keyVarToPos.lookup name = some pos → plan.keyVars[pos]? = some name
  specs : ∀ spec idx, findEntry plan.aggToPos spec = some idx → plan.aggSpecs[idx]? = some spec
  listed : ∀ name, (plan.keyVarToPos.lookup name).isSome ↔ name ∈ plan.keyVars
  vars : ∀ name, name ∈ plan.keyVars ↔ Term.var name ∈ terms

/-- One more term, by cases on it. -/
theorem PlanOk.addTerm {predicate : String} {terms : List Term} {plan plan' : AggregatePlan}
    {term : Term} (h : PlanOk terms plan) (run : plan.addTerm predicate term = .ok plan')
    : PlanOk (terms ++ [term]) plan' := by
  have hsame (hterm : ∀ name, term ≠ .var name) (name : String)
      : name ∈ plan.keyVars ↔ Term.var name ∈ terms ++ [term] := by
    rw [h.vars, List.mem_append, List.mem_singleton]
    exact ⟨.inl, fun hm => hm.resolve_right fun he => hterm name he.symm⟩
  cases term with
  | var name =>
      simp only [AggregatePlan.addTerm] at run
      split at run
      · next found =>
          obtain rfl := Except.ok.inj run
          refine ⟨h.keys, h.specs, h.listed, ?_⟩
          intro other
          rw [h.vars, List.mem_append, List.mem_singleton]
          refine ⟨.inl, fun hm => hm.elim id ?_⟩
          rintro he
          obtain rfl := Term.var.inj he
          exact (h.vars other).mp ((h.listed other).mp found)
      · next hnew =>
          obtain rfl := Except.ok.inj run
          have hlookup (other : String)
              : List.lookup other ((name, plan.keyVars.length) :: plan.keyVarToPos)
                = if other = name then some plan.keyVars.length
                  else plan.keyVarToPos.lookup other := by
            by_cases ho : other = name
            · simp [ho]
            · have hb : (other == name) = false := by simpa using ho
              simp [List.lookup_cons, hb, ho]
          refine ⟨?_, h.specs, ?_, ?_⟩
          · intro other pos hl
            simp only [hlookup] at hl
            split at hl
            · next ho =>
                obtain rfl := Option.some.inj hl
                simp [ho]
            · have hget := h.keys other pos hl
              rw [List.getElem?_append_left (List.getElem?_eq_some_iff.mp hget).1, hget]
          · intro other
            simp only [hlookup, List.mem_append, List.mem_singleton]
            by_cases ho : other = name
            · simp [ho]
            · simp [ho, h.listed]
          · intro other
            simp only [List.mem_append, List.mem_singleton, h.vars, Term.var.injEq]
  | aggregate agg =>
      simp only [AggregatePlan.addTerm] at run
      split at run
      · obtain rfl := Except.ok.inj run
        exact ⟨h.keys, h.specs, h.listed, hsame (by simp)⟩
      · obtain rfl := Except.ok.inj run
        refine ⟨h.keys, ?_, h.listed, hsame (by simp)⟩
        intro spec idx hl
        simp only [findEntry, List.lookup_cons] at hl
        split at hl
        · next heq =>
            obtain rfl := Option.some.inj hl
            simp only [List.getElem?_concat_length, Option.some.injEq]
            exact (eq_of_beq heq).symm
        · have hget := h.specs spec idx hl
          rw [List.getElem?_append_left (List.getElem?_eq_some_iff.mp hget).1, hget]
  | integer _ | float _ | string _ | symbol _ =>
      obtain rfl := Except.ok.inj run
      exact ⟨h.keys, h.specs, h.listed, hsame (by simp)⟩
  | anonymous | list _ | cons _ _ | compound _ _ | predRef _ => simp [AggregatePlan.addTerm] at run

theorem planOk_of_aggregateHeadPlan {head : Atom} {plan : AggregatePlan}
    (run : aggregateHeadPlan head = .ok plan)
    : PlanOk head.terms plan := by
  refine foldlM_inv (AggregatePlan.addTerm head.predicate) (fun done plan => PlanOk done plan)
    head.terms ?_ ?_ run
  · exact ⟨by simp, by simp, by simp, by simp⟩
  · intro done term plan plan' _ hinv hstep
    exact hinv.addTerm hstep

/-- A materialized value: the group's value of a variable, the given value of an aggregate, or
the constant.
-/
def Materialized (group : String → Value) (aggregate : AggExpr → Value → Prop) (term : Term)
    (value : Value) : Prop :=
  match term with
  | .var name => value = group name
  | .aggregate agg => aggregate agg value
  | term => valueFromTerm term = .ok value

theorem PlanOk.materializeTerm {terms : List Term} {plan : AggregatePlan} (h : PlanOk terms plan)
    {group : String → Value} {aggregate : AggExpr → Result Value} {term : Term} {value : Value}
    (run : materializeTerm plan (plan.keyVars.map group) aggregate term = .ok value)
    : Materialized group (fun agg v => aggregate agg = .ok v) term value := by
  cases term with
  | var name =>
      simp only [Xlog.Prob.materializeTerm] at run
      split at run
      · next pos hl =>
          rw [List.getElem?_map, h.keys name pos hl] at run
          exact (Except.ok.inj run).symm
      · simp at run
  | aggregate agg => exact run
  | integer _ | float _ | string _ | symbol _ => exact run
  | anonymous | list _ | cons _ _ | compound _ _ | predRef _ =>
      simp [Xlog.Prob.materializeTerm] at run

/-- A count tuple has the count at every aggregate, which are counts. -/
theorem PlanOk.materializeCountLiftTuple {head : Atom} {plan : AggregatePlan}
    (h : PlanOk head.terms plan) {group : String → Value} {n : Nat} {tuple : List Value}
    (run : materializeCountLiftTuple plan head (plan.keyVars.map group) n = .ok tuple)
    : List.Forall₂ (Materialized group fun agg v => agg.op = .count ∧ v = .i64 n) head.terms
        tuple := by
  unfold Xlog.Prob.materializeCountLiftTuple at run
  split at run
  · refine List.Forall₂.imp ?_ (forall₂_of_mapM run)
    intro term value hrun
    have hvalue := h.materializeTerm hrun
    cases term with
    | aggregate agg =>
        simp only [Materialized] at hvalue ⊢
        split at hvalue
        · next hop => exact ⟨hop, (Except.ok.inj hvalue).symm⟩
        · simp at hvalue
    | _ => exact hvalue
  · simp at run

/-- An outcome tuple has the finished states at the aggregates. -/
theorem PlanOk.materializeAggregateTuple {head : Atom} {plan : AggregatePlan}
    (h : PlanOk head.terms plan) {runtime : Runtime} {group : String → Value}
    {states : List AggState} {tuple : List Value}
    (run : materializeAggregateTuple runtime plan head (plan.keyVars.map group) states = .ok tuple)
    : List.Forall₂ (Materialized group fun agg v => ∃ (idx : Nat) (state : AggState),
        plan.aggSpecs[idx]? = some (agg.op, agg.var) ∧ states[idx]? = some state
          ∧ state.finish runtime agg.op = .ok v) head.terms tuple := by
  unfold Xlog.Prob.materializeAggregateTuple at run
  refine List.Forall₂.imp ?_ (forall₂_of_mapM run)
  intro term value hrun
  have hvalue := h.materializeTerm hrun
  cases term with
  | aggregate agg =>
      simp only [Materialized] at hvalue ⊢
      split at hvalue
      · simp at hvalue
      · next idx hl =>
          rw [h.specs _ idx hl] at hvalue
          cases hs : states[idx]? with
          | none => simp [hs] at hvalue
          | some state =>
              rw [hs] at hvalue
              exact ⟨idx, state, h.specs _ idx hl, hs, hvalue⟩
  | _ => exact hvalue

/-- Materialized values with the aggregates of a set of rows are its outcome. -/
theorem isOutcome_of_materialized {head : Atom} {group : String → Value}
    {aggregate : AggExpr → Value → Prop} {rows : Finset CanonicalRow} {tuple : List Value}
    (h : List.Forall₂ (Materialized group aggregate) head.terms tuple)
    (hagg : ∀ agg v, aggregate agg v → IsAggregate agg.op agg.var rows v)
    : IsOutcome head group rows tuple := by
  refine List.Forall₂.imp ?_ h
  intro term value hvalue
  cases term with
  | aggregate agg => exact hagg agg value hvalue
  | _ => exact hvalue

end Xlog.Prob
