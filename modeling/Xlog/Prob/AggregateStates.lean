import Xlog.Foundation.Loop
import Xlog.Prob.AggregateHead

/-! What the running states of the aggregates say about the rows folded so far: their number,
the sum of their integers, their least and their greatest value.
-/

namespace Xlog.Prob

open Xlog.Core Xlog.Foundation Xlog.Logic

-- Comparable values

theorem valueLe_self (x : Value) : valueLe x x = .ok true := by
  cases x <;> simp [valueLe]

/-- Comparable values are ordered one way or the other. -/
theorem valueLe_total {x y : Value} (h : valueLe x y = .ok false)
    : valueLe y x = .ok true := by
  cases x <;> cases y <;> simp only [valueLe, Except.ok.injEq, decide_eq_false_iff_not,
    decide_eq_true_eq, reduceCtorEq] at h ⊢
  · exact (not_le.mp h).le
  · exact UInt64.le_of_lt (UInt64.not_le.mp h)
  · exact (not_le.mp h).le
  · exact (not_le.mp h).le

theorem valueLe_trans {x y z : Value} (hxy : valueLe x y = .ok true)
    (hyz : valueLe y z = .ok true)
    : valueLe x z = .ok true := by
  cases x <;> cases y <;> simp only [valueLe, reduceCtorEq, Except.ok.injEq,
    decide_eq_true_eq] at hxy <;> cases z <;> simp only [valueLe, reduceCtorEq,
      Except.ok.injEq, decide_eq_true_eq] at hyz ⊢
  · exact hxy.trans hyz
  · exact UInt64.le_trans hxy hyz
  · exact hxy.trans hyz
  · exact hxy.trans hyz

/-- The value comes before all listed ones and is one of them. -/
def Extreme (le : Value → Value → Result Bool) (values : List Value) (value : Value) : Prop :=
  value ∈ values ∧ ∀ other ∈ values, le value other = .ok true

/-- One more value: it is the extreme one or the old extreme stays. -/
theorem Extreme.append (le : Value → Value → Result Bool)
    (refl : ∀ x, le x x = .ok true)
    (total : ∀ x y, le x y = .ok false → le y x = .ok true)
    (trans : ∀ x y z, le x y = .ok true → le y z = .ok true → le x z = .ok true)
    {values : List Value} {old value : Value} (h : Extreme le values old) {b : Bool}
    (hle : le value old = .ok b)
    : Extreme le (values ++ [value]) (if b then value else old) := by
  obtain ⟨hmem, hall⟩ := h
  cases b with
  | true =>
      refine ⟨by simp, ?_⟩
      intro other ho
      rcases List.mem_append.mp ho with ho | ho
      · exact trans value old other hle (hall other ho)
      · obtain rfl := List.mem_singleton.mp ho
        exact refl other
  | false =>
      refine ⟨List.mem_append_left _ hmem, ?_⟩
      intro other ho
      rcases List.mem_append.mp ho with ho | ho
      · exact hall other ho
      · obtain rfl := List.mem_singleton.mp ho
        exact total other old hle

-- One aggregate

/-- The value is the aggregate of the listed values; sums of doubles are left open. -/
def IsAggregateOf (op : AggOp) (values : List Value) (value : Value) : Prop :=
  match op with
  | .count => value = .i64 values.length
  | .sum => ∀ amounts : List Int, values = amounts.map .i64 → value = .i64 amounts.sum
  | .min => Extreme valueLe values value
  | .max => Extreme (fun x y => valueLe y x) values value
  | .logSumExp => True

/-- The extreme value seen so far, if any. -/
def TracksExtreme (le : Value → Value → Result Bool) (values : List Value)
    (seen : Option Value) : Prop :=
  match seen with
  | none => values = []
  | some value => Extreme le values value

/-- The state of one aggregate after the listed values. -/
def Tracks (op : AggOp) (values : List Value) (state : AggState) : Prop :=
  match op with
  | .count => state = .count (min values.length u64Count)
  | .sum => ∀ amounts : List Int, values = amounts.map .i64 → state = .sumI128 amounts.sum
  | .min => ∃ least, state = .min least ∧ TracksExtreme valueLe values least
  | .max => ∃ greatest, state = .max greatest
      ∧ TracksExtreme (fun x y => valueLe y x) values greatest
  | .logSumExp => True

theorem tracks_new (op : AggOp) : Tracks op [] (AggState.new op) := by
  cases op with
  | count => simp [Tracks, AggState.new]
  | sum =>
      intro amounts h
      obtain rfl : amounts = [] := by simpa using h.symm
      rfl
  | min | max => exact ⟨none, rfl, rfl⟩
  | logSumExp => trivial

/-- One more value. -/
theorem Tracks.update {runtime : Runtime} {op : AggOp} {values : List Value}
    {state state' : AggState} {value : Value} (h : Tracks op values state)
    (run : state.update runtime op value = .ok state')
    : Tracks op (values ++ [value]) state' := by
  cases op with
  | count =>
      obtain rfl : state = _ := h
      obtain rfl := Except.ok.inj run
      simp only [Tracks, List.length_append, List.length_singleton, AggState.count.injEq]
      omega
  | sum =>
      intro amounts hamounts
      obtain ⟨before, last, rfl, hbefore, hlast⟩ := List.map_eq_append_iff.mp hamounts.symm
      obtain ⟨amount, rfl, hv⟩ : ∃ amount, last = [amount] ∧ Value.i64 amount = value := by
        simpa using hlast
      obtain rfl := h before hbefore.symm
      subst hv
      simp only [AggState.update, AggState.updateSum] at run
      split at run
      · obtain rfl := Except.ok.inj run
        simp
      · simp at run
  | min =>
      obtain ⟨least, rfl, hseen⟩ := h
      cases least with
      | none =>
          obtain rfl := Except.ok.inj run
          obtain rfl : values = [] := hseen
          exact ⟨some value, rfl, by simp [TracksExtreme, Extreme, valueLe_self]⟩
      | some old =>
          obtain ⟨b, hle, run⟩ := bind_eq_ok.mp run
          obtain rfl := Except.ok.inj run
          exact ⟨_, rfl, Extreme.append valueLe valueLe_self (fun _ _ => valueLe_total)
            (fun _ _ _ => valueLe_trans) hseen hle⟩
  | max =>
      obtain ⟨greatest, rfl, hseen⟩ := h
      cases greatest with
      | none =>
          obtain rfl := Except.ok.inj run
          obtain rfl : values = [] := hseen
          exact ⟨some value, rfl, by simp [TracksExtreme, Extreme, valueLe_self]⟩
      | some old =>
          obtain ⟨b, hle, run⟩ := bind_eq_ok.mp run
          obtain rfl := Except.ok.inj run
          have htotal (x y : Value) (hxy : valueLe y x = .ok false) : valueLe x y = .ok true :=
            valueLe_total hxy
          have htrans (x y z : Value) (hxy : valueLe y x = .ok true)
              (hyz : valueLe z y = .ok true) : valueLe z x = .ok true :=
            valueLe_trans hyz hxy
          exact ⟨_, rfl, Extreme.append (fun x y => valueLe y x) valueLe_self htotal htrans hseen hle⟩
  | logSumExp => trivial

/-- States with one key track the same values. -/
theorem Tracks.of_dpKey {op : AggOp} {values : List Value} {state state' : AggState}
    (h : Tracks op values state) (same : state'.dpKey = state.dpKey)
    : Tracks op values state' := by
  cases op with
  | count =>
      obtain rfl : state = _ := h
      cases state' <;> simp_all [AggState.dpKey, Tracks]
  | sum =>
      intro amounts hamounts
      obtain rfl := h amounts hamounts
      cases state' <;> simp_all [AggState.dpKey]
  | min =>
      obtain ⟨least, rfl, hseen⟩ := h
      refine ⟨least, ?_, hseen⟩
      cases state' <;> simp_all [AggState.dpKey]
  | max =>
      obtain ⟨greatest, rfl, hseen⟩ := h
      refine ⟨greatest, ?_, hseen⟩
      cases state' <;> simp_all [AggState.dpKey]
  | logSumExp => trivial

/-- The finished value of a state. -/
theorem Tracks.finish {runtime : Runtime} {op : AggOp} {values : List Value} {state : AggState}
    {value : Value} (h : Tracks op values state) (nonempty : values ≠ [])
    (run : state.finish runtime op = .ok value)
    : IsAggregateOf op values value := by
  cases op with
  | count =>
      obtain rfl : state = _ := h
      simp only [AggState.finish] at run
      split at run
      · next hle =>
          obtain rfl := Except.ok.inj run
          have hmin : min values.length u64Count = values.length := by
            simp only [u64Count, i64Max] at hle ⊢
            omega
          simp only [IsAggregateOf, hmin]
      · simp at run
  | sum =>
      intro amounts hamounts
      obtain rfl := h amounts hamounts
      simp only [AggState.finish] at run
      split at run
      · exact (Except.ok.inj run).symm
      · simp at run
  | min =>
      obtain ⟨least, rfl, hseen⟩ := h
      cases least with
      | none => exact absurd hseen nonempty
      | some least =>
          obtain rfl := Except.ok.inj run
          exact hseen
  | max =>
      obtain ⟨greatest, rfl, hseen⟩ := h
      cases greatest with
      | none => exact absurd hseen nonempty
      | some greatest =>
          obtain rfl := Except.ok.inj run
          exact hseen
  | logSumExp => trivial

-- All aggregates of a head

/-- The values of a variable in the rows. -/
def Columns (rows : List AggregateProvRow) (var : String) (values : List Value) : Prop :=
  List.Forall₂ (fun (row : AggregateProvRow) value => row.binding.lookup var = some value) rows
    values

/-- Every state tracks the column of its variable. -/
def TracksRows (aggSpecs : List (AggOp × String)) (rows : List AggregateProvRow)
    (states : List AggState) : Prop :=
  List.Forall₂ (fun (spec : AggOp × String) state =>
    ∃ values, Columns rows spec.2 values ∧ Tracks spec.1 values state) aggSpecs states

theorem tracksRows_new (aggSpecs : List (AggOp × String))
    : TracksRows aggSpecs [] (aggSpecs.map fun spec => AggState.new spec.1) := by
  induction aggSpecs with
  | nil => exact List.Forall₂.nil
  | cons spec aggSpecs ih =>
      exact List.Forall₂.cons ⟨[], List.Forall₂.nil, tracks_new spec.1⟩ ih

/-- One more row, by induction on the aggregates. -/
theorem TracksRows.update {runtime : Runtime} {aggSpecs : List (AggOp × String)}
    {rows : List AggregateProvRow} {states states' : List AggState} {row : AggregateProvRow}
    (h : TracksRows aggSpecs rows states)
    (run : updateAggregateStates runtime aggSpecs states row = .ok states')
    : TracksRows aggSpecs (rows ++ [row]) states' := by
  unfold updateAggregateStates at run
  induction h generalizing states' with
  | nil =>
      obtain rfl : [] = states' := by simpa using run
      exact List.Forall₂.nil
  | @cons spec state aggSpecs states hstate hrest ih =>
      rw [List.zip_cons_cons, List.mapM_cons] at run
      obtain ⟨first, hfirst, run⟩ := bind_eq_ok.mp run
      obtain ⟨rest, hr, run⟩ := bind_eq_ok.mp run
      obtain rfl := Except.ok.inj run
      obtain ⟨values, hvalues, htracks⟩ := hstate
      refine List.Forall₂.cons ?_ (ih hr)
      cases hl : row.binding.lookup spec.2 with
      | none => simp [hl] at hfirst
      | some value =>
          simp only [hl] at hfirst
          exact ⟨values ++ [value], List.rel_append hvalues
            (List.Forall₂.cons hl List.Forall₂.nil), htracks.update hfirst⟩

/-- States with one key track the same rows, by induction on the aggregates. -/
theorem TracksRows.of_statesKey {aggSpecs : List (AggOp × String)}
    {rows : List AggregateProvRow} {states states' : List AggState}
    (h : TracksRows aggSpecs rows states) (same : statesKey states' = statesKey states)
    : TracksRows aggSpecs rows states' := by
  induction h generalizing states' with
  | nil =>
      obtain rfl : states' = [] := by simpa [statesKey] using same
      exact List.Forall₂.nil
  | @cons spec state aggSpecs states hstate _ ih =>
      cases states' with
      | nil => simp [statesKey] at same
      | cons first rest =>
          simp only [statesKey, List.map_cons, List.cons.injEq] at same
          obtain ⟨values, hvalues, htracks⟩ := hstate
          exact List.Forall₂.cons ⟨values, hvalues, htracks.of_dpKey same.1⟩ (ih same.2)

/-- Folding rows into states that track others, by list induction. -/
theorem TracksRows.foldlM {runtime : Runtime} {aggSpecs : List (AggOp × String)}
    {rows more : List AggregateProvRow} {states states' : List AggState}
    (h : TracksRows aggSpecs rows states)
    (run : more.foldlM (updateAggregateStates runtime aggSpecs) states = .ok states')
    : TracksRows aggSpecs (rows ++ more) states' := by
  induction more generalizing rows states with
  | nil =>
      obtain rfl : states = states' := by simpa using run
      simpa using h
  | cons row more ih =>
      rw [List.foldlM_cons] at run
      obtain ⟨mid, hm, run⟩ := bind_eq_ok.mp run
      simpa using ih (h.update hm) run

end Xlog.Prob
