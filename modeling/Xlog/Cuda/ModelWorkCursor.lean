import Mathlib.Algebra.BigOperators.Group.List.Basic
import Mathlib.Data.List.Sort
import Mathlib.Tactic.Ring
import Xlog.Cuda.ModelWork

/-! The cursor of a model work plan. In every run of checked steps the recorded indices and the skipped
spans cover what the cursor has passed, each operation once.
-/

namespace Xlog.Cuda.ModelWork

open Xlog.Foundation

-- Skipped spans

/-- Whether an index lies in one of the spans. -/
def Skipped (spans : List (Nat × Nat)) (index : Nat) : Prop :=
  ∃ span ∈ spans, span.1 ≤ index ∧ index < span.2

instance (spans : List (Nat × Nat)) (index : Nat) : Decidable (Skipped spans index) :=
  inferInstanceAs (Decidable (∃ span ∈ spans, _))

@[simp] theorem not_skipped_nil {index : Nat} : ¬ Skipped [] index := by
  simp [Skipped]

theorem skipped_append {spans more : List (Nat × Nat)} {index : Nat}
    : Skipped (spans ++ more) index ↔ Skipped spans index ∨ Skipped more index := by
  simp [Skipped, or_and_right, exists_or]

@[simp] theorem skipped_singleton {span : Nat × Nat} {index : Nat}
    : Skipped [span] index ↔ span.1 ≤ index ∧ index < span.2 := by
  simp [Skipped]

/-- The one span between two positions, unless nothing lies between them. -/
theorem skipped_gap {start stop index : Nat}
    : Skipped (if start < stop then [(start, stop)] else []) index
      ↔ start ≤ index ∧ index < stop := by
  split
  · exact skipped_singleton
  · simp only [not_skipped_nil, false_iff]
    omega

/-- The planned operations that no skip left out. -/
def withoutSkipped (spans : List (Nat × Nat)) (events : List ModelWorkGeometry)
    : List ModelWorkGeometry :=
  ((List.range events.length).filter (¬ Skipped spans ·)).filterMap (events[·]?)

/-- A listing of skipped indices by spans that are neither empty nor adjacent. -/
structure ListsSkipped (listed spans : List (Nat × Nat)) : Prop where
  nonempty : ∀ span ∈ listed, span.1 < span.2
  apart : listed.Pairwise (fun before after => before.2 < after.1)
  same : ∀ index, Skipped listed index ↔ Skipped spans index

-- The cursor

namespace ModelWorkPlan

/-- The loop lists the positions before the cursor that are not recorded, by induction on the
recorded indices.
-/
theorem skippedFrom_spec {next position : Nat} {recorded : List Nat}
    (sorted : recorded.Pairwise (· < ·))
    (bounds : ∀ index ∈ recorded, position ≤ index ∧ index < next)
    : ∃ listed,
        skippedFrom next position recorded = .ok listed
        ∧ (∀ span ∈ listed, position ≤ span.1 ∧ span.1 < span.2)
        ∧ listed.Pairwise (fun before after => before.2 < after.1)
        ∧ ∀ index, Skipped listed index ↔ position ≤ index ∧ index < next ∧ index ∉ recorded := by
  induction recorded generalizing position with
  | nil =>
      refine ⟨_, rfl, ?_, ?_, fun index => ?_⟩
      · split <;> simp_all
      · split <;> simp
      · simp [skipped_gap]
  | cons head rest ih =>
      obtain ⟨first, later⟩ := List.pairwise_cons.mp sorted
      obtain ⟨above, below⟩ := bounds head (by simp)
      have later_bounds : ∀ index ∈ rest, head + 1 ≤ index ∧ index < next :=
        fun index member => ⟨first index member, (bounds index (by simp [member])).2⟩
      obtain ⟨listed, answer, inside, apart, same⟩ := ih later later_bounds
      refine ⟨(if position < head then [(position, head)] else []) ++ listed, ?_, ?_, ?_, ?_⟩
      · rw [skippedFrom, if_neg (by omega), answer]
        rfl
      · intro span member
        rcases List.mem_append.mp member with gap | member
        · split at gap
          · obtain rfl := List.mem_singleton.mp gap
            exact ⟨le_rfl, by assumption⟩
          · simp at gap
        · have := inside span member
          omega
      · refine List.pairwise_append.mpr ⟨by split <;> simp, apart, fun gap member span later => ?_⟩
        have := (inside span later).1
        split at member
        · obtain rfl := List.mem_singleton.mp member
          exact this
        · simp at member
      · intro index
        rw [skipped_append, skipped_gap, same]
        simp only [List.mem_cons, not_or]
        constructor
        · rintro (⟨low, high⟩ | ⟨low, high, out⟩)
          · exact ⟨low, by omega, by omega, fun member => by have := first index member; omega⟩
          · exact ⟨by omega, high, by omega, out⟩
        · rintro ⟨low, high, other, out⟩
          by_cases before : index < head
          · exact .inl ⟨low, before⟩
          · exact .inr ⟨by omega, high, out⟩

-- Steps of a plan

/-- A sequence of checked steps from a plan, with the spans that its skips have left out. -/
inductive Run (start : ModelWorkPlan) : ModelWorkPlan → List (Nat × Nat) → Prop
  | start : Run start start []
  | record {plan spans kind dimensions region} (run : Run start plan spans)
      (checked : plan.requireNext kind dimensions region = .ok ())
      : Run start plan.consume spans
  | regionStart {plan spans index} (run : Run start plan spans)
      (checked : plan.requireRegionStart index = .ok ())
      : Run start plan spans
  | regionEnd {plan spans index} (run : Run start plan spans)
      (checked : plan.requireRegionEnd index = .ok ())
      : Run start plan spans
  | skip {plan skipped spans index} (run : Run start plan spans)
      (checked : plan.skipUnenteredRegion index = .ok skipped)
      : Run start skipped (spans ++ [(plan.next, skipped.next)])

/-- What a plan's cursor has passed: each operation is recorded or skipped, and only once. -/
structure Accounts (start plan : ModelWorkPlan) (spans : List (Nat × Nat)) : Prop where
  events_eq : plan.events = start.events
  regionEnds_eq : plan.regionEnds = start.regionEnds
  recorded_increasing : plan.recordedIndices.Pairwise (· < ·)
  passed : ∀ index, index < plan.next ↔ index ∈ plan.recordedIndices ∨ Skipped spans index
  recorded_not_skipped : ∀ index ∈ plan.recordedIndices, ¬ Skipped spans index
  spans_ordered : ∀ span ∈ spans, span.1 ≤ span.2 ∧ span.2 ≤ plan.next
  spans_apart : spans.Pairwise (fun before after => before.2 ≤ after.1)
  next_le : plan.next ≤ plan.events.length

theorem requireNextAt_ok {plan : ModelWorkPlan} {offset : Nat} {kind : ModelWorkKind}
    {dimensions : List Nat} {region : Option Nat}
    (checked : plan.requireNextAt offset kind dimensions region = .ok ())
    : plan.next + offset < plan.events.length := by
  simp only [requireNextAt, checkedAdd, bind_eq_ok] at checked
  obtain ⟨index, added, _, _, found⟩ := checked
  split at added
  · obtain rfl := Except.ok.inj added
    split at found
    · next planned =>
        by_contra beyond
        rw [List.getElem?_eq_none (by omega)] at planned
        cases planned
    · cases found
  · cases added

theorem requireRegionStart_ok {plan : ModelWorkPlan} {index : Nat}
    (checked : plan.requireRegionStart index = .ok ())
    : ∃ stop, plan.region index = .ok (plan.next, stop) := by
  simp only [requireRegionStart, bind_eq_ok] at checked
  obtain ⟨⟨start, stop⟩, bounds, same⟩ := checked
  split at same
  · cases same
  · next equal =>
      obtain rfl := not_not.mp equal
      exact ⟨stop, bounds⟩

theorem skipUnenteredRegion_ok {plan skipped : ModelWorkPlan} {index : Nat}
    (checked : plan.skipUnenteredRegion index = .ok skipped)
    : ∃ stop, plan.region index = .ok (plan.next, stop) ∧ skipped = { plan with next := stop } := by
  simp only [skipUnenteredRegion, bind_eq_ok] at checked
  obtain ⟨_, begun, ⟨start, stop⟩, bounds, last⟩ := checked
  cases last
  obtain ⟨_, same⟩ := requireRegionStart_ok begun
  rw [same] at bounds
  cases bounds
  exact ⟨_, same, rfl⟩

/-- A region begins no later than it ends. -/
theorem region_le {plan : ModelWorkPlan} (ordered : plan.regionEnds.Pairwise (· ≤ ·))
    {index start stop : Nat} (bounds : plan.region index = .ok (start, stop))
    : start ≤ stop ∧ stop ∈ plan.regionEnds := by
  unfold region at bounds
  split at bounds
  · cases bounds
  · next found =>
      obtain ⟨within, rfl⟩ := List.getElem?_eq_some_iff.mp found
      cases bounds
      refine ⟨?_, List.getElem_mem _⟩
      split
      · exact Nat.zero_le _
      · rw [← List.getElem_eq_getD (h := by omega)]
        exact List.pairwise_iff_getElem.mp ordered _ _ _ _ (by omega)

-- Admission of a plan

/-- A plan at its start, with regions in order up to the end of its operations. -/
structure Fresh (plan : ModelWorkPlan) : Prop where
  recorded_eq : plan.recordedIndices = []
  next_eq : plan.next = 0
  ends_ordered : plan.regionEnds.Pairwise (· ≤ ·)
  ends_le : ∀ stop ∈ plan.regionEnds, stop ≤ plan.events.length

/-- One operation more, and nothing else than the events and their counters changed. -/
theorem addOperation_ok {plan admitted : ModelWorkPlan} {operation : ModelWorkKind × List Nat}
    (h : plan.addOperation operation = .ok admitted)
    : admitted.events.length = plan.events.length + 1
      ∧ admitted.regionEnds = plan.regionEnds
      ∧ admitted.recordedIndices = plan.recordedIndices
      ∧ admitted.next = plan.next := by
  simp only [addOperation, bind_eq_ok] at h
  obtain ⟨_, _, _, _, _, _, last⟩ := h
  cases last
  simp

theorem new_fresh {capacity regionCount : Nat} {operations : List (ModelWorkKind × List Nat)}
    {regionEnds : List Nat} {plan : ModelWorkPlan}
    (admitted : new capacity operations regionEnds regionCount = .ok plan)
    : plan.Fresh := by
  unfold new at admitted
  split at admitted
  · cases admitted
  split at admitted
  · cases admitted
  next bounded =>
  simp only [not_or] at bounded
  obtain ⟨_, ordered, last⟩ := bounded
  obtain ⟨count, ends, recorded, next⟩ :=
    foldlM_inv addOperation
      (fun done plan =>
        plan.events.length = done.length
        ∧ plan.regionEnds = regionEnds
        ∧ plan.recordedIndices = []
        ∧ plan.next = 0)
      operations (by simp)
      (by
        rintro done operation plan next _ ⟨count, ends, recorded, start⟩ step
        obtain ⟨more, ends', recorded', start'⟩ := addOperation_ok step
        simp [*])
      admitted
  have chain : regionEnds.Pairwise (· ≤ ·) := by
    refine List.isChain_iff_pairwise.mp (List.isChain_iff_getElem.mpr fun index within => ?_)
    by_contra decreasing
    refine ordered (List.any_eq_true.mpr ⟨(regionEnds[index], regionEnds[index + 1]), ?_, ?_⟩)
    · refine List.mem_iff_getElem.mpr ⟨index, by simp; omega, by simp⟩
    · simpa using decreasing
  refine ⟨recorded, next, ends ▸ chain, ?_⟩
  rw [ends, count]
  intro stop member
  rcases List.eq_nil_or_concat regionEnds with rfl | ⟨before, final, rfl⟩
  · simp at member
  · have final_eq : final = operations.length := by simpa using last
    rw [List.concat_eq_append] at chain member
    rcases List.mem_append.mp member with member | member
    · have := (List.pairwise_append.mp chain).2.2 stop member final (by simp)
      omega
    · have := List.mem_singleton.mp member
      omega

-- Runs of a plan

theorem Fresh.accounts {plan : ModelWorkPlan} (fresh : plan.Fresh)
    : Accounts plan plan [] where
  events_eq := rfl
  regionEnds_eq := rfl
  recorded_increasing := by simp [fresh.recorded_eq]
  passed := by simp [fresh.recorded_eq, fresh.next_eq]
  recorded_not_skipped := by simp
  spans_ordered := by simp
  spans_apart := .nil
  next_le := by simp [fresh.next_eq]

/-- The indices of a passed operation lie before the cursor. -/
theorem Accounts.recorded_lt {start plan : ModelWorkPlan} {spans : List (Nat × Nat)}
    (accounts : Accounts start plan spans) {index : Nat} (member : index ∈ plan.recordedIndices)
    : index < plan.next :=
  (accounts.passed index).mpr (.inl member)

theorem Accounts.consume {start plan : ModelWorkPlan} {spans : List (Nat × Nat)}
    (accounts : Accounts start plan spans) (within : plan.next < plan.events.length)
    : Accounts start plan.consume spans where
  events_eq := accounts.events_eq
  regionEnds_eq := accounts.regionEnds_eq
  recorded_increasing := by
    refine List.pairwise_append.mpr ⟨accounts.recorded_increasing, by simp, ?_⟩
    intro index member last final
    obtain rfl := List.mem_singleton.mp final
    exact accounts.recorded_lt member
  passed := by
    intro index
    have before := accounts.passed index
    simp only [ModelWorkPlan.consume, List.mem_append, List.mem_singleton]
    constructor
    · intro low
      by_cases last : index = plan.next
      · exact .inl (.inr last)
      · exact (before.mp (by omega)).imp_left .inl
    · rintro ((member | rfl) | skipped)
      · have := before.mpr (.inl member)
        omega
      · exact Nat.lt_succ_self _
      · have := before.mpr (.inr skipped)
        omega
  recorded_not_skipped := by
    intro index member skipped
    rcases List.mem_append.mp member with member | member
    · exact accounts.recorded_not_skipped index member skipped
    · obtain rfl := List.mem_singleton.mp member
      exact Nat.lt_irrefl _ ((accounts.passed plan.next).mpr (.inr skipped))
  spans_ordered := fun span member =>
    ⟨(accounts.spans_ordered span member).1,
      Nat.le_succ_of_le (accounts.spans_ordered span member).2⟩
  spans_apart := accounts.spans_apart
  next_le := within

theorem Accounts.skip {start plan : ModelWorkPlan} {spans : List (Nat × Nat)}
    (accounts : Accounts start plan spans) {stop : Nat} (ordered : plan.next ≤ stop)
    (within : stop ≤ plan.events.length)
    : Accounts start { plan with next := stop } (spans ++ [(plan.next, stop)]) where
  events_eq := accounts.events_eq
  regionEnds_eq := accounts.regionEnds_eq
  recorded_increasing := accounts.recorded_increasing
  passed := by
    intro index
    have before := accounts.passed index
    rw [skipped_append, skipped_singleton]
    constructor
    · intro low
      by_cases passed : index < plan.next
      · exact (before.mp passed).imp_right .inl
      · exact .inr (.inr ⟨by simpa using passed, low⟩)
    · rintro (member | skipped | ⟨_, low⟩)
      · exact (before.mpr (.inl member)).trans_le ordered
      · exact (before.mpr (.inr skipped)).trans_le ordered
      · exact low
  recorded_not_skipped := by
    intro index member skipped
    rcases skipped_append.mp skipped with skipped | skipped
    · exact accounts.recorded_not_skipped index member skipped
    · have := accounts.recorded_lt member
      have := (skipped_singleton.mp skipped).1
      simp only at this
      omega
  spans_ordered := by
    intro span member
    rcases List.mem_append.mp member with member | member
    · exact ⟨(accounts.spans_ordered span member).1,
        (accounts.spans_ordered span member).2.trans ordered⟩
    · obtain rfl := List.mem_singleton.mp member
      exact ⟨ordered, le_rfl⟩
  spans_apart := by
    refine List.pairwise_append.mpr ⟨accounts.spans_apart, by simp, ?_⟩
    intro span member last final
    obtain rfl := List.mem_singleton.mp final
    exact (accounts.spans_ordered span member).2
  next_le := within

/-- Every run from a fresh plan accounts for what it has passed, by induction on the run. -/
theorem Run.accounts {start plan : ModelWorkPlan} {spans : List (Nat × Nat)}
    (fresh : start.Fresh) (run : Run start plan spans)
    : Accounts start plan spans := by
  induction run with
  | start => exact fresh.accounts
  | record run checked ih => exact ih.consume (requireNextAt_ok checked)
  | regionStart run checked ih => exact ih
  | regionEnd run checked ih => exact ih
  | skip run checked ih =>
      obtain ⟨stop, bounds, rfl⟩ := skipUnenteredRegion_ok checked
      obtain ⟨ordered, member⟩ := region_le (ih.regionEnds_eq ▸ fresh.ends_ordered) bounds
      refine ih.skip ordered ?_
      rw [ih.events_eq]
      exact fresh.ends_le stop (ih.regionEnds_eq ▸ member)

/-- The cursor lists the skipped indices; its loop finds nothing out of order. -/
theorem Accounts.skippedFrom {start plan : ModelWorkPlan} {spans : List (Nat × Nat)}
    (accounts : Accounts start plan spans)
    : ∃ listed,
        skippedFrom plan.next 0 plan.recordedIndices = .ok listed
        ∧ ListsSkipped listed spans := by
  obtain ⟨listed, answer, inside, apart, same⟩ :=
    skippedFrom_spec accounts.recorded_increasing
      (fun index member => ⟨Nat.zero_le _, accounts.recorded_lt member⟩)
  refine ⟨listed, answer, fun span member => (inside span member).2, apart, fun index => ?_⟩
  rw [same]
  constructor
  · rintro ⟨_, low, out⟩
    exact ((accounts.passed index).mp low).resolve_left out
  · intro skipped
    exact ⟨Nat.zero_le _, (accounts.passed index).mpr (.inr skipped),
      fun member => accounts.recorded_not_skipped index member skipped⟩

/-- The recorded indices are those before the cursor that no skip left out. -/
theorem Accounts.recordedIndices_eq {start plan : ModelWorkPlan} {spans : List (Nat × Nat)}
    (accounts : Accounts start plan spans)
    : plan.recordedIndices = (List.range plan.next).filter (¬ Skipped spans ·) := by
  refine accounts.recorded_increasing.eq_of_mem_iff (List.pairwise_lt_range.filter _) ?_
  intro index
  simp only [List.mem_filter, List.mem_range, decide_eq_true_eq]
  constructor
  · intro member
    exact ⟨accounts.recorded_lt member, accounts.recorded_not_skipped index member⟩
  · rintro ⟨low, out⟩
    exact ((accounts.passed index).mp low).resolve_right out

-- Traces

/-- A trace is accepted when its events match the planned ones at the recorded indices, by
induction on the indices.
-/
theorem matches_zip_iff {events : List ModelWorkGeometry} {indices : List Nat}
    (within : ∀ index ∈ indices, index < events.length) {recorded : List ModelWorkEvent}
    : recorded.length = indices.length
        ∧ (recorded.zip indices).all (fun pair => events[pair.2]?.any (Matches pair.1 ·))
      ↔ List.Forall₂ Matches recorded (indices.filterMap (events[·]?)) := by
  induction indices generalizing recorded with
  | nil => cases recorded <;> simp
  | cons index indices ih =>
      obtain ⟨low, later⟩ := List.forall_mem_cons.mp within
      rw [List.filterMap_cons, List.getElem?_eq_getElem low]
      cases recorded with
      | nil => simp
      | cons event recorded =>
          simp only [List.forall₂_cons, ← ih later]
          simp [low]
          tauto

theorem requireRecordedTrace_ok_iff {plan : ModelWorkPlan} {recorded : List ModelWorkEvent}
    : plan.requireRecordedTrace recorded = .ok ()
      ↔ recorded.length = plan.recordedIndices.length
        ∧ (recorded.zip plan.recordedIndices).all
          (fun pair => plan.events[pair.2]?.any (Matches pair.1 ·)) := by
  unfold requireRecordedTrace
  split
  · next refused =>
      simp only [reduceCtorEq, false_iff]
      rintro ⟨lengths, all⟩
      simp [lengths, all] at refused
  · next accepted => simpa using accepted

/-- The accepted traces are the passed part of the plan without its skipped spans. -/
theorem Accounts.requireRecordedTrace {start plan : ModelWorkPlan} {spans : List (Nat × Nat)}
    (accounts : Accounts start plan spans) (recorded : List ModelWorkEvent)
    : plan.requireRecordedTrace recorded = .ok ()
      ↔ List.Forall₂ Matches recorded (withoutSkipped spans (start.events.take plan.next)) := by
  have within : ∀ index ∈ plan.recordedIndices, index < plan.events.length :=
    fun index member => (accounts.recorded_lt member).trans_le accounts.next_le
  rw [requireRecordedTrace_ok_iff, matches_zip_iff within, withoutSkipped, List.length_take,
    ← accounts.events_eq, Nat.min_eq_left accounts.next_le, ← accounts.recordedIndices_eq]
  have same : ∀ index ∈ plan.recordedIndices,
      plan.events[index]? = (plan.events.take plan.next)[index]? :=
    fun index member => (List.getElem?_take_of_lt (accounts.recorded_lt member)).symm
  rw [List.filterMap_congr same]

end ModelWorkPlan

end Xlog.Cuda.ModelWork
