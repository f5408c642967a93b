import Xlog.Prob.AggregateStates
import Xlog.Prob.PirBuilderMeaning

/-! The two dynamic programs over uncertain rows. In every world one entry of the finished table
is true: that of the rows which are true there, whatever else their formulas have in common.
-/

namespace Xlog.Prob

open Xlog.Core Xlog.Foundation Xlog.Logic PirBuilder

/-- The row is there in the world. -/
def AggregateProvRow.holds (b : PirBuilder) (w : World) (row : AggregateProvRow) : Bool :=
  b.pir.eval w row.prov

/-- The formulas of the rows are nodes of the graph. -/
def RowsInside (b : PirBuilder) (rows : List AggregateProvRow) : Prop :=
  ∀ row ∈ rows, row.prov < b.pir.len

theorem RowsInside.grows {b b' : PirBuilder} {rows : List AggregateProvRow}
    (h : RowsInside b rows) (hgrows : Grows b b')
    : RowsInside b' rows :=
  fun row hr => hgrows.lt (h row hr)

/-- Which rows hold does not change while the graph grows. -/
theorem RowsInside.countP_holds {b b' : PirBuilder} {rows : List AggregateProvRow}
    (h : RowsInside b rows) (hgrows : Grows b b') (w : World)
    : rows.countP (·.holds b' w) = rows.countP (·.holds b w) := by
  apply List.countP_congr
  intro row hr
  simp only [AggregateProvRow.holds, hgrows.eval_eq (h row hr) w]

theorem RowsInside.filter_holds {b b' : PirBuilder} {rows : List AggregateProvRow}
    (h : RowsInside b rows) (hgrows : Grows b b') (w : World)
    : rows.filter (·.holds b' w) = rows.filter (·.holds b w) := by
  apply List.filter_congr
  intro row hr
  simp only [AggregateProvRow.holds, hgrows.eval_eq (h row hr) w]

-- Counting

/-- Every cell has a formula with the given meaning. -/
def CountTable (b : PirBuilder) (dp : Nat → PirNodeId) (value : World → Nat → Bool) : Prop :=
  ∀ j, dp j < b.pir.len ∧ ∀ w, b.pir.eval w (dp j) = value w j

theorem CountTable.grows {b b' : PirBuilder} {dp : Nat → PirNodeId} {value : World → Nat → Bool}
    (h : CountTable b dp value) (hgrows : Grows b b')
    : CountTable b' dp value :=
  fun j => ⟨hgrows.lt (h j).1, fun w => (hgrows.eval_eq (h j).1 w).trans ((h j).2 w)⟩

theorem CountTable.congr {b : PirBuilder} {dp : Nat → PirNodeId} {value value' : World → Nat → Bool}
    (h : CountTable b dp value) (same : ∀ w j, value w j = value' w j)
    : CountTable b dp value' :=
  fun j => ⟨(h j).1, fun w => ((h j).2 w).trans (same w j)⟩

theorem CountTable.update {b : PirBuilder} {dp : Nat → PirNodeId} {value : World → Nat → Bool}
    (h : CountTable b dp value) {i : Nat} {id : PirNodeId} {cell : World → Bool}
    (hlt : id < b.pir.len) (heval : ∀ w, b.pir.eval w id = cell w)
    : CountTable b (Function.update dp i id)
        (fun w j => if j = i then cell w else value w j) := by
  intro j
  by_cases hj : j = i
  · subst hj
    simpa using ⟨hlt, heval⟩
  · simpa [hj] using h j

/-- Joining a conjunction of two existing nodes to a cell. -/
theorem joinCell_spec {b : PirBuilder} (h : b.Ok) {old left right : PirNodeId}
    (hold : old < b.pir.len) (hleft : left < b.pir.len) (hright : right < b.pir.len)
    : Made b (fun w => b.pir.eval w old || b.pir.eval w left && b.pir.eval w right)
        (joinCell b old left right) := by
  have hand := and_pair_spec h hleft hright
  refine Made.of_grows hand.grows ((or_pair_spec hand.grows.ok (hand.grows.lt hold) hand.lt).congr ?_)
  intro w
  rw [hand.grows.eval_eq hold w, hand.eval w]

/-- One cell of the next table and its right neighbour. -/
theorem countLiftCell_spec {b : PirBuilder} (h : b.Ok) {dp next : Nat → PirNodeId}
    {value nextValue : World → Nat → Bool} (hdp : CountTable b dp value)
    (hnext : CountTable b next nextValue) {present absent : PirNodeId}
    (hpresent : present < b.pir.len) (habsent : absent < b.pir.len) (selected : Nat)
    : Grows b (countLiftCell dp present absent (next, b) selected).2
      ∧ CountTable (countLiftCell dp present absent (next, b) selected).2
        (countLiftCell dp present absent (next, b) selected).1
        (fun w j =>
          nextValue w j || decide (j = selected) && (value w selected && b.pir.eval w absent)
            || decide (j = selected + 1) && (value w selected && b.pir.eval w present)) := by
  have hcell := joinCell_spec h (hnext selected).1 (hdp selected).1 habsent
  simp only [countLiftCell]
  generalize joinCell b (next selected) (dp selected) absent = kept at hcell ⊢
  have hfirst : CountTable kept.2 (Function.update next selected kept.1) _ :=
    (hnext.grows hcell.grows).update hcell.lt hcell.eval
  have hraise := joinCell_spec hcell.grows.ok (hfirst (selected + 1)).1
    (hcell.grows.lt (hdp selected).1) (hcell.grows.lt hpresent)
  generalize joinCell kept.2 (Function.update next selected kept.1 (selected + 1)) (dp selected)
    present = raised at hraise ⊢
  refine ⟨hcell.grows.trans hraise.grows,
    ((hfirst.grows hraise.grows).update hraise.lt hraise.eval).congr ?_⟩
  intro w j
  rw [(hfirst (selected + 1)).2 w, if_neg (Nat.succ_ne_self selected),
    hcell.grows.eval_eq (hdp selected).1 w, hcell.grows.eval_eq hpresent w,
    (hnext selected).2 w, (hdp selected).2 w]
  by_cases h1 : j = selected + 1
  · subst h1
    simp
  · by_cases h0 : j = selected
    · subst h0
      simp
    · simp [h0, h1]

/-- The cells up to a bound, by induction on it. -/
theorem countLiftCells_spec {b : PirBuilder} (h : b.Ok) {dp : Nat → PirNodeId}
    {value : World → Nat → Bool} (hdp : CountTable b dp value) {present absent : PirNodeId}
    (hpresent : present < b.pir.len) (habsent : absent < b.pir.len) (bound : Nat)
    : Grows b ((List.range bound).foldl (countLiftCell dp present absent)
        (fun _ => b.constFalse, b)).2
      ∧ CountTable ((List.range bound).foldl (countLiftCell dp present absent)
          (fun _ => b.constFalse, b)).2
        ((List.range bound).foldl (countLiftCell dp present absent)
          (fun _ => b.constFalse, b)).1
        (fun w j => decide (j < bound) && (value w j && b.pir.eval w absent)
          || decide (0 < j ∧ j ≤ bound) && (value w (j - 1) && b.pir.eval w present)) := by
  induction bound with
  | zero =>
      refine ⟨.refl h, fun j => ⟨h.constFalse_lt, fun w => ?_⟩⟩
      have hnot : ¬ (0 < j ∧ j ≤ 0) := by omega
      simp only [List.range_zero, List.foldl_nil, h.eval_constFalse, Nat.not_lt_zero, hnot,
        decide_false, Bool.false_and, Bool.or_false]
  | succ bound ih =>
      rw [List.range_succ, List.foldl_append, List.foldl_cons, List.foldl_nil]
      generalize (List.range bound).foldl (countLiftCell dp present absent)
        (fun _ => b.constFalse, b) = s at ih ⊢
      obtain ⟨hgrows, htable⟩ := ih
      have hcell := countLiftCell_spec hgrows.ok (hdp.grows hgrows) htable
        (hgrows.lt hpresent) (hgrows.lt habsent) bound
      refine ⟨hgrows.trans hcell.1, hcell.2.congr ?_⟩
      intro w j
      rw [hgrows.eval_eq hpresent w, hgrows.eval_eq habsent w]
      have hle : j < bound + 1 ↔ j < bound ∨ j = bound := by omega
      have hup : 0 < j ∧ j ≤ bound + 1 ↔ 0 < j ∧ j ≤ bound ∨ j = bound + 1 := by omega
      by_cases h1 : j = bound + 1
      · subst h1
        simp
      · by_cases h0 : j = bound
        · subst h0
          by_cases hpos : 0 < j
          · simp [hpos, Bool.or_comm]
          · simp [hpos]
        · simp [h0, h1, hle, hup]

/-- The rows one after the other: every cell has the worlds with so many rows, by list
induction.
-/
theorem countLiftRows_spec {rows : List AggregateProvRow} {done : List AggregateProvRow}
    {b : PirBuilder} (h : b.Ok) (hdone : RowsInside b done) (hrows : RowsInside b rows)
    {dp : Nat → PirNodeId}
    (hdp : CountTable b dp fun w j => decide (done.countP (·.holds b w) = j))
    : Grows b (countLiftRows b dp done.length rows).2
      ∧ CountTable (countLiftRows b dp done.length rows).2
        (countLiftRows b dp done.length rows).1
        fun w j => decide ((done ++ rows).countP (·.holds b w) = j) := by
  induction rows generalizing done b dp with
  | nil => exact ⟨.refl h, by simpa [countLiftRows] using hdp⟩
  | cons row rows ih =>
      have hrow : row.prov < b.pir.len := hrows row (by simp)
      have habsent := negateProvenance_spec h hrow
      rw [countLiftRows]
      generalize b.negateProvenance row.prov = absent at habsent ⊢
      have hcells := countLiftCells_spec habsent.grows.ok (hdp.grows habsent.grows)
        (habsent.grows.lt hrow) habsent.lt (done.length + 1)
      rw [habsent.grows.constFalse] at hcells
      generalize (List.range (done.length + 1)).foldl (countLiftCell dp row.prov absent.1)
        (fun _ => b.constFalse, absent.2) = next at hcells ⊢
      obtain ⟨hgrows, htable⟩ := hcells
      have hall := habsent.grows.trans hgrows
      have hdone' : RowsInside b (done ++ [row]) := by
        intro other ho
        rcases List.mem_append.mp ho with ho | ho
        · exact hdone other ho
        · obtain rfl := List.mem_singleton.mp ho
          exact hrow
      have hnext : CountTable next.2 next.1
          fun w j => decide ((done ++ [row]).countP (·.holds next.2 w) = j) := by
        refine htable.congr ?_
        intro w j
        rw [hdone'.countP_holds hall w, habsent.grows.eval_eq hrow w, habsent.eval w,
          List.countP_append, List.countP_singleton]
        have hle := List.countP_le_length (p := fun other : AggregateProvRow => other.holds b w)
          (l := done)
        generalize done.countP (·.holds b w) = count at hle ⊢
        cases hp : b.pir.eval w row.prov with
        | false =>
            simp only [AggregateProvRow.holds, hp, Bool.not_false, Bool.and_true,
              Bool.and_false, Bool.or_false, Bool.false_eq_true, if_false, Nat.add_zero]
            by_cases hj : count = j
            · have hlt : j < done.length + 1 := by omega
              simp [hj, hlt]
            · simp [hj]
        | true =>
            simp only [AggregateProvRow.holds, hp, Bool.not_true, Bool.and_false, Bool.and_true,
              Bool.false_or, if_true]
            by_cases hj : count + 1 = j
            · have hprev : count = j - 1 := by omega
              have hbound : 0 < j ∧ j ≤ done.length + 1 := by omega
              simp [hj, ← hprev, hbound]
            · by_cases hpos : 0 < j
              · have hprev : count ≠ j - 1 := by omega
                simp [hj, hprev]
              · simp [hj, hpos]
      have hlen : done.length + 1 = (done ++ [row]).length := by simp
      have hrest := ih hall.ok (hdone'.grows hall)
        (RowsInside.grows (fun other ho => hrows other (by simp [ho])) hall) hnext
      rw [hlen]
      refine ⟨hall.trans hrest.1, hrest.2.congr ?_⟩
      intro w j
      rw [List.append_assoc, List.singleton_append, RowsInside.countP_holds _ hall w]
      intro other ho
      rcases List.mem_append.mp ho with ho | ho
      · exact hdone other ho
      · exact hrows other ho

/-- The formula of a count holds in the worlds with so many of the rows. -/
theorem countLiftFormulas_spec {b : PirBuilder} (h : b.Ok) {rows : List AggregateProvRow}
    (hrows : RowsInside b rows)
    : Grows b (countLiftFormulas b rows).2
      ∧ (countLiftFormulas b rows).1.length = rows.length + 1
      ∧ ∀ formula count, (formula, count) ∈ (countLiftFormulas b rows).1.zipIdx →
        formula < (countLiftFormulas b rows).2.pir.len
        ∧ ∀ w, (countLiftFormulas b rows).2.pir.eval w formula
          = decide (rows.countP (·.holds b w) = count) := by
  have hstart : CountTable b (Function.update (fun _ => b.constFalse) 0 b.constTrue)
      fun w j => decide (([] : List AggregateProvRow).countP (·.holds b w) = j) := by
    intro j
    by_cases hj : j = 0
    · subst hj
      simpa [h] using h.constTrue_lt
    · have hne : ¬ 0 = j := fun he => hj he.symm
      simpa [h, hj, hne] using h.constFalse_lt
  have htable := countLiftRows_spec h (by simp [RowsInside] : RowsInside b []) hrows hstart
  simp only [List.nil_append, List.length_nil] at htable
  refine ⟨htable.1, by simp [countLiftFormulas], ?_⟩
  intro formula count hm
  have hget := List.mem_zipIdx_iff_getElem?.mp hm
  simp only [countLiftFormulas, List.getElem?_map] at hget
  obtain ⟨j, hj, rfl⟩ := Option.map_eq_some_iff.mp hget
  obtain ⟨hlt, rfl⟩ := List.getElem?_eq_some_iff.mp hj
  rw [List.getElem_range]
  exact htable.2 count

-- Aggregate states

/-- The world has the outcome of the key. -/
def TrueAt (b : PirBuilder) (w : World) (dp : DpTable) (key : DpKey) : Prop :=
  ∃ states proof, findEntry dp key = some (states, proof) ∧ b.pir.eval w proof = true

/-- Keys are distinct and belong to their states, formulas are nodes of the graph. -/
structure DpOk (b : PirBuilder) (dp : DpTable) : Prop where
  distinct : (dp.map Prod.fst).Nodup
  inside : ∀ key states proof, (key, (states, proof)) ∈ dp → proof < b.pir.len
  keyed : ∀ key states proof, (key, (states, proof)) ∈ dp → key.1 = statesKey states

theorem DpOk.grows {b b' : PirBuilder} {dp : DpTable} (h : DpOk b dp) (hgrows : Grows b b')
    : DpOk b' dp where
  distinct := h.distinct
  inside := fun key states proof hm => hgrows.lt (h.inside key states proof hm)
  keyed := h.keyed

theorem DpOk.trueAt_grows {b b' : PirBuilder} {dp : DpTable} (h : DpOk b dp)
    (hgrows : Grows b b') (w : World) (key : DpKey)
    : TrueAt b' w dp key ↔ TrueAt b w dp key := by
  unfold TrueAt
  apply exists_congr
  intro states
  apply exists_congr
  intro proof
  apply and_congr_right
  intro hl
  rw [hgrows.eval_eq (h.inside key states proof (mem_of_lookup hl)) w]

/-- The worlds of a proof go to a key, whatever was there. -/
theorem addOutcome_spec {s : DpTable × PirBuilder} (h : s.2.Ok) (hdp : DpOk s.2 s.1)
    {key : DpKey} {states : List AggState} {proof : PirNodeId} (hproof : proof < s.2.pir.len)
    (hkey : key.1 = statesKey states)
    : Grows s.2 (addOutcome s key states proof).2
      ∧ DpOk (addOutcome s key states proof).2 (addOutcome s key states proof).1
      ∧ ∀ w other, TrueAt (addOutcome s key states proof).2 w (addOutcome s key states proof).1 other
        ↔ TrueAt s.2 w s.1 other ∨ other = key ∧ s.2.pir.eval w proof = true := by
  obtain ⟨dp, b⟩ := s
  simp only at h hdp hproof ⊢
  unfold addOutcome
  simp only
  split
  · next old oldProof hl =>
      have hold := mem_of_lookup hl
      have hor := or_pair_spec h (hdp.inside key old oldProof hold) hproof
      generalize b.or [oldProof, proof] = joined at hor ⊢
      refine ⟨hor.grows, ⟨nodup_keys_insertEntry _ _ _ hdp.distinct, ?_, ?_⟩, ?_⟩
      · intro other states' proof' hm
        rcases (mem_insertEntry _ hdp.distinct).mp hm with ⟨-, heq⟩ | ⟨-, hm⟩
        · obtain ⟨rfl, rfl⟩ := Prod.mk.inj heq
          exact hor.lt
        · exact hor.grows.lt (hdp.inside other states' proof' hm)
      · intro other states' proof' hm
        rcases (mem_insertEntry _ hdp.distinct).mp hm with ⟨rfl, heq⟩ | ⟨-, hm⟩
        · obtain ⟨rfl, rfl⟩ := Prod.mk.inj heq
          exact hdp.keyed other states' oldProof hold
        · exact hdp.keyed other states' proof' hm
      · intro w other
        by_cases ho : other = key
        · subst ho
          simp only [TrueAt, lookup_insertEntry, if_true, Option.some.injEq, Prod.mk.injEq,
            hl, true_and]
          constructor
          · rintro ⟨_, _, ⟨rfl, rfl⟩, heval⟩
            rw [hor.eval w, Bool.or_eq_true] at heval
            exact heval.imp (fun he => ⟨_, _, ⟨rfl, rfl⟩, he⟩) id
          · intro hcases
            refine ⟨_, _, ⟨rfl, rfl⟩, ?_⟩
            rw [hor.eval w, Bool.or_eq_true]
            refine hcases.imp ?_ id
            rintro ⟨_, _, ⟨rfl, rfl⟩, he⟩
            exact he
        · have hsame : TrueAt joined.2 w (insertEntry dpKeyLe dp key (old, joined.1)) other
              ↔ TrueAt joined.2 w dp other := by
            simp only [TrueAt, lookup_insertEntry, ho, if_false]
          rw [hsame, hdp.trueAt_grows hor.grows]
          simp [ho]
  · next hl =>
      refine ⟨.refl h, ⟨nodup_keys_insertEntry _ _ _ hdp.distinct, ?_, ?_⟩, ?_⟩
      · intro other states' proof' hm
        rcases (mem_insertEntry _ hdp.distinct).mp hm with ⟨-, heq⟩ | ⟨-, hm⟩
        · obtain ⟨rfl, rfl⟩ := Prod.mk.inj heq
          exact hproof
        · exact hdp.inside other states' proof' hm
      · intro other states' proof' hm
        rcases (mem_insertEntry _ hdp.distinct).mp hm with ⟨rfl, heq⟩ | ⟨-, hm⟩
        · obtain ⟨rfl, rfl⟩ := Prod.mk.inj heq
          exact hkey
        · exact hdp.keyed other states' proof' hm
      · intro w other
        by_cases ho : other = key
        · subst ho
          simp [TrueAt, lookup_insertEntry, hl]
        · simp [TrueAt, lookup_insertEntry, ho]

/-- Where the worlds of an entry go under one more row. -/
def Target (runtime : Runtime) (aggSpecs : List (AggOp × String)) (row : AggregateProvRow)
    (holds : Bool) (entry : DpKey × (List AggState × PirNodeId)) (key : DpKey) : Prop :=
  if holds then ∃ present, updateAggregateStates runtime aggSpecs entry.2.1 row = .ok present
    ∧ key = (statesKey present, true)
  else key = entry.1

/-- One entry under one more row. -/
theorem foldEntry_spec {runtime : Runtime} {aggSpecs : List (AggOp × String)}
    {row : AggregateProvRow} {absent : PirNodeId} {s s' : DpTable × PirBuilder}
    {entry : DpKey × (List AggState × PirNodeId)} (h : s.2.Ok) (hdp : DpOk s.2 s.1)
    (hrow : row.prov < s.2.pir.len) (habsent : absent < s.2.pir.len)
    (hneg : ∀ w, s.2.pir.eval w absent = !s.2.pir.eval w row.prov)
    (hproof : entry.2.2 < s.2.pir.len) (hkey : entry.1.1 = statesKey entry.2.1)
    (run : foldEntry runtime aggSpecs row absent s entry = .ok s')
    : Grows s.2 s'.2 ∧ DpOk s'.2 s'.1
      ∧ (∃ present, updateAggregateStates runtime aggSpecs entry.2.1 row = .ok present)
      ∧ ∀ w key, TrueAt s'.2 w s'.1 key ↔ TrueAt s.2 w s.1 key
        ∨ s.2.pir.eval w entry.2.2 = true
          ∧ Target runtime aggSpecs row (s.2.pir.eval w row.prov) entry key := by
  unfold foldEntry at run
  obtain ⟨present, hpresent, run⟩ := bind_eq_ok.mp run
  obtain rfl := Except.ok.inj run
  have hand := and_pair_spec h hproof hrow
  generalize s.2.and [entry.2.2, row.prov] = presentProof at hand ⊢
  have hfirst := @addOutcome_spec (s.1, presentProof.2) hand.grows.ok (hdp.grows hand.grows)
    (statesKey present, true) present presentProof.1 hand.lt rfl
  generalize addOutcome (s.1, presentProof.2) (statesKey present, true) present presentProof.1
    = first at hfirst ⊢
  obtain ⟨hgrows, hdp', htrue⟩ := hfirst
  have hall := hand.grows.trans hgrows
  have hnot := and_pair_spec hall.ok (hall.lt hproof) (hall.lt habsent)
  generalize first.2.and [entry.2.2, absent] = absentProof at hnot ⊢
  have hsecond := @addOutcome_spec (first.1, absentProof.2) hnot.grows.ok (hdp'.grows hnot.grows)
    entry.1 entry.2.1 absentProof.1 hnot.lt hkey
  generalize addOutcome (first.1, absentProof.2) entry.1 entry.2.1 absentProof.1
    = second at hsecond ⊢
  obtain ⟨hgrows', hdp'', htrue'⟩ := hsecond
  refine ⟨hall.trans (hnot.grows.trans hgrows'), hdp'', ⟨present, hpresent⟩, ?_⟩
  intro w key
  simp only at htrue htrue'
  rw [htrue', hdp'.trueAt_grows hnot.grows, htrue, hdp.trueAt_grows hand.grows, hand.eval w,
    hnot.eval w, hall.eval_eq hproof w, hall.eval_eq habsent w, hneg w]
  cases hrowValue : s.2.pir.eval w row.prov with
  | true => simp [Target, hpresent, and_comm]
  | false => simp [Target, and_comm]

/-- All entries under one more row, by the loop rule over the table. -/
theorem foldRow_spec {runtime : Runtime} {aggSpecs : List (AggOp × String)}
    {row : AggregateProvRow} {s s' : DpTable × PirBuilder} (h : s.2.Ok) (hdp : DpOk s.2 s.1)
    (hrow : row.prov < s.2.pir.len) (run : foldRow runtime aggSpecs s row = .ok s')
    : Grows s.2 s'.2 ∧ DpOk s'.2 s'.1
      ∧ (∀ entry ∈ s.1, ∃ present,
        updateAggregateStates runtime aggSpecs entry.2.1 row = .ok present)
      ∧ ∀ w key, TrueAt s'.2 w s'.1 key ↔ ∃ entry ∈ s.1, s.2.pir.eval w entry.2.2 = true
        ∧ Target runtime aggSpecs row (s.2.pir.eval w row.prov) entry key := by
  unfold foldRow at run
  have habsent := negateProvenance_spec h hrow
  generalize s.2.negateProvenance row.prov = absent at habsent run
  refine foldlM_inv (foldEntry runtime aggSpecs row absent.1)
    (fun done (next : DpTable × PirBuilder) => Grows s.2 next.2 ∧ DpOk next.2 next.1
      ∧ absent.1 < next.2.pir.len
      ∧ (∀ w, next.2.pir.eval w absent.1 = !s.2.pir.eval w row.prov)
      ∧ (∀ entry ∈ done, ∃ present,
        updateAggregateStates runtime aggSpecs entry.2.1 row = .ok present)
      ∧ ∀ w key, TrueAt next.2 w next.1 key ↔ ∃ entry ∈ done, s.2.pir.eval w entry.2.2 = true
        ∧ Target runtime aggSpecs row (s.2.pir.eval w row.prov) entry key)
    s.1 ?_ ?_ run |>.imp id (fun hrest => ⟨hrest.1, hrest.2.2.2⟩)
  · refine ⟨habsent.grows, ⟨by simp, by simp, by simp⟩, habsent.lt, habsent.eval, by simp, ?_⟩
    intro w key
    simp [TrueAt]
  · intro done entry next next' hentry hinv hstep
    obtain ⟨hgrows, hdp', hlt, hneg, hdone, htrue⟩ := hinv
    have hproof := hdp.inside entry.1 entry.2.1 entry.2.2 hentry
    obtain ⟨hgrows', hdp'', hpresent, htrue'⟩ := foldEntry_spec hgrows.ok hdp' (hgrows.lt hrow) hlt
      (fun w => by rw [hneg w, hgrows.eval_eq hrow w]) (hgrows.lt hproof)
      (hdp.keyed entry.1 entry.2.1 entry.2.2 hentry) hstep
    refine ⟨hgrows.trans hgrows', hdp'', hgrows'.lt hlt, ?_, ?_, ?_⟩
    · intro w
      rw [hgrows'.eval_eq hlt w, hneg w]
    · intro other ho
      rcases List.mem_append.mp ho with ho | ho
      · exact hdone other ho
      · obtain rfl := List.mem_singleton.mp ho
        exact hpresent
    · intro w key
      rw [htrue', htrue, hgrows.eval_eq hproof w, hgrows.eval_eq hrow w]
      simp only [List.mem_append, List.mem_singleton, or_and_right, exists_or, exists_eq_left]

/-- In the world one outcome is true, with states that track the rows that hold there. -/
def ReachedStates (base b : PirBuilder) (aggSpecs : List (AggOp × String)) (w : World)
    (always done : List AggregateProvRow) (dp : DpTable) : Prop :=
  ∃ key states proof, (key, (states, proof)) ∈ dp ∧ b.pir.eval w proof = true
    ∧ (∀ other, TrueAt b w dp other → other = key)
    ∧ key.2 = done.any (·.holds base w)
    ∧ TracksRows aggSpecs (always ++ done.filter (·.holds base w)) states

/-- One more row keeps the outcome of every world. -/
theorem ReachedStates.foldRow {runtime : Runtime} {aggSpecs : List (AggOp × String)}
    {base : PirBuilder} {w : World} {always done : List AggregateProvRow}
    {row : AggregateProvRow} {s s' : DpTable × PirBuilder} (hbase : Grows base s.2)
    (hdp : DpOk s.2 s.1) (hrow : row.prov < base.pir.len)
    (h : ReachedStates base s.2 aggSpecs w always done s.1)
    (run : Xlog.Prob.foldRow runtime aggSpecs s row = .ok s')
    : ReachedStates base s'.2 aggSpecs w always (done ++ [row]) s'.1 := by
  obtain ⟨key, states, proof, hm, heval, hunique, hany, htracks⟩ := h
  obtain ⟨hgrows, hdp', hpresent, htrue⟩ := foldRow_spec hbase.ok hdp (hbase.lt hrow) run
  have hholds : s.2.pir.eval w row.prov = row.holds base w := hbase.eval_eq hrow w
  -- the only entry whose worlds include this one
  have hentry (entry : DpKey × (List AggState × PirNodeId)) (he : entry ∈ s.1)
      (ht : s.2.pir.eval w entry.2.2 = true)
      : entry = (key, (states, proof)) := by
    have hl : findEntry s.1 entry.1 = some entry.2 := lookup_of_mem hdp.distinct he
    have hk : entry.1 = key := hunique entry.1 ⟨entry.2.1, entry.2.2, hl, ht⟩
    have hl' : findEntry s.1 key = some (states, proof) := lookup_of_mem hdp.distinct hm
    rw [hk, hl'] at hl
    exact Prod.ext hk (Option.some.inj hl).symm
  have hreach (target : DpKey)
      (htarget : Target runtime aggSpecs row (row.holds base w) (key, (states, proof)) target)
      : ∃ states' proof', (target, (states', proof')) ∈ s'.1 ∧ s'.2.pir.eval w proof' = true := by
    obtain ⟨states', proof', hl, ht⟩ := (htrue w target).mpr ⟨_, hm, heval, hholds ▸ htarget⟩
    exact ⟨states', proof', mem_of_lookup hl, ht⟩
  have honly (target other : DpKey)
      (hsame : ∀ t, Target runtime aggSpecs row (row.holds base w) (key, (states, proof)) t →
        t = target) (ho : TrueAt s'.2 w s'.1 other)
      : other = target := by
    obtain ⟨entry, he, ht, htarget⟩ := (htrue w other).mp ho
    obtain rfl := hentry entry he ht
    exact hsame other (hholds ▸ htarget)
  cases hvalue : row.holds base w with
  | true =>
      obtain ⟨present, hp⟩ := hpresent _ hm
      simp only [hvalue] at hreach honly
      obtain ⟨states', proof', hm', ht'⟩ := hreach (statesKey present, true)
        ⟨present, hp, rfl⟩
      refine ⟨_, states', proof', hm', ht', fun other => honly _ other ?_, ?_, ?_⟩
      · rintro t ⟨present', hp', rfl⟩
        obtain rfl := Except.ok.inj (hp.symm.trans hp')
        rfl
      · simp [hvalue]
      · have hkeyed : statesKey states' = statesKey present :=
          (hdp'.keyed _ states' proof' hm').symm
        simpa [List.filter_append, hvalue] using (htracks.update hp).of_statesKey hkeyed
  | false =>
      simp only [hvalue] at hreach honly
      obtain ⟨states', proof', hm', ht'⟩ := hreach key rfl
      refine ⟨key, states', proof', hm', ht', fun other => honly key other fun t ht => ht, ?_, ?_⟩
      · simp [hvalue, hany]
      · have hkeyed : statesKey states' = statesKey states :=
          (hdp'.keyed _ states' proof' hm').symm.trans (hdp.keyed _ states proof hm)
        simpa [List.filter_append, hvalue] using htracks.of_statesKey hkeyed

/-- The finished table: every world has one outcome, that of the rows that hold there. -/
theorem factorizedAggregateOutcomes_spec {runtime : Runtime} {aggSpecs : List (AggOp × String)}
    {always uncertain : List AggregateProvRow} {b : PirBuilder} {s : DpTable × PirBuilder}
    (h : b.Ok) (hrows : RowsInside b uncertain)
    (run : factorizedAggregateOutcomes runtime aggSpecs always uncertain b = .ok s)
    : Grows b s.2 ∧ DpOk s.2 s.1
      ∧ ∀ w, ReachedStates b s.2 aggSpecs w always uncertain s.1 := by
  unfold factorizedAggregateOutcomes at run
  obtain ⟨states, hstates, run⟩ := bind_eq_ok.mp run
  refine foldlM_inv (Xlog.Prob.foldRow runtime aggSpecs)
    (fun done (s : DpTable × PirBuilder) => Grows b s.2 ∧ DpOk s.2 s.1
      ∧ ∀ w, ReachedStates b s.2 aggSpecs w always done s.1) uncertain ?_ ?_ run
  · refine ⟨.refl h, ⟨by simp, ?_, ?_⟩, ?_⟩
    · intro key states' proof' hm
      obtain ⟨-, -, rfl⟩ : _ ∧ states' = states ∧ proof' = b.constTrue := by simpa using hm
      exact h.constTrue_lt
    · intro key states' proof' hm
      obtain ⟨rfl, rfl, -⟩ : key = (statesKey states, false) ∧ states' = states ∧ _ := by
        simpa using hm
      rfl
    intro w
    refine ⟨_, states, b.constTrue, List.mem_singleton_self _, h.eval_constTrue w, ?_, rfl, ?_⟩
    · rintro other ⟨states', proof', hl, -⟩
      exact (Prod.mk.inj (List.mem_singleton.mp (mem_of_lookup hl))).1
    · simpa using (tracksRows_new aggSpecs).foldlM hstates
  · intro done row s s' hr hinv hstep
    obtain ⟨hgrows, hdp, hreached⟩ := hinv
    obtain ⟨hgrows', hdp', -, -⟩ := foldRow_spec hgrows.ok hdp (hgrows.lt (hrows row hr)) hstep
    exact ⟨hgrows.trans hgrows', hdp', fun w =>
      (hreached w).foldRow hgrows hdp (hrows row hr) hstep⟩

end Xlog.Prob
