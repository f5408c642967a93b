import Mathlib.Algebra.Order.BigOperators.Group.List
import Xlog.Cuda.ModelWorkCursor

/-! The counters of a model work recording, which are the sums of the units it has accepted, and the
accounts of plans and recordings together.
-/

namespace Xlog.Cuda.ModelWork

open Xlog.Foundation

-- Charges

/-- The units that an event is charged with. -/
def ModelWorkEvent.charge (event : ModelWorkEvent) : Nat := event.units.toOption.getD 0

def charges (events : List ModelWorkEvent) : Nat := (events.map ModelWorkEvent.charge).sum

/-- The events whose geometry is exact. -/
def exactEvents (events : List ModelWorkEvent) : List ModelWorkEvent := events.filter (·.actual = 0)

/-- The occurrences of the saved copies. -/
def savedOccurrences (events : List ModelWorkEvent) : List (Nat × Nat) :=
  (events.filter (·.kind = ModelWorkKind.savedCopyBytes.code)).map
    (fun event => (event.witness, event.tensor))

theorem charges_append {events more : List ModelWorkEvent}
    : charges (events ++ more) = charges events + charges more := by
  simp [charges]

theorem charges_exactEvents_le {events : List ModelWorkEvent}
    : charges (exactEvents events) ≤ charges events :=
  List.Sublist.sum_le_sum (List.filter_sublist.map _) (by simp)

namespace ModelWorkRecording

-- Calls on a recording

/-- The recordings that calls lead to, with the events of the accepted pushes in order. -/
inductive Run (start : ModelWorkRecording) : ModelWorkRecording → List ModelWorkEvent → Prop
  | start : Run start start []
  | accepted {recording pushed events event} (run : Run start recording events)
      (answer : recording.push event = (pushed, .ok ()))
      : Run start pushed (events ++ [event])
  | refused {recording pushed events event error} (run : Run start recording events)
      (answer : recording.push event = (pushed, .error error))
      : Run start pushed events
  | freeze {recording events} (run : Run start recording events)
      : Run start recording.freeze.1 events
  | freezeCold {recording events} (run : Run start recording events)
      : Run start recording.freezeCold.1 events

/-- What a recording says of the events that it has accepted. -/
structure Accounts (recording : ModelWorkRecording) (accepted : List ModelWorkEvent) : Prop where
  events_eq : recording.events = accepted
  charged : ∀ event ∈ accepted, ∃ units, event.units = .ok units
  bound_eq : recording.bound = charges accepted
  minimum_eq : recording.minimum = charges (exactEvents accepted)
  minimum_le : recording.minimum ≤ recording.bound
  bound_le : recording.bound ≤ wordMax
  saved_iff : ∀ occurrence, occurrence ∈ recording.saved ↔ occurrence ∈ savedOccurrences accepted
  saved_once : (savedOccurrences accepted).Nodup

/-- What an accepted push has checked and what it changes. -/
theorem push_ok {recording pushed : ModelWorkRecording} {event : ModelWorkEvent}
    (answer : recording.push event = (pushed, .ok ()))
    : ∃ units,
        event.units = .ok units
        ∧ recording.bound + units ≤ wordMax
        ∧ recording.frozen = false
        ∧ recording.events.length ≠ recording.capacity
        ∧ (event.kind = ModelWorkKind.savedCopyBytes.code →
            (event.witness, event.tensor) ∉ recording.saved)
        ∧ pushed = { recording with
            events := recording.events ++ [event]
            saved :=
              if event.kind = ModelWorkKind.savedCopyBytes.code then
                insert (event.witness, event.tensor) recording.saved
              else recording.saved
            minimum :=
              if event.actual = 0 then (recording.minimum + units) % (wordMax + 1)
              else recording.minimum
            bound := recording.bound + units } := by
  unfold push at answer
  split at answer
  · cases answer
  split at answer
  · cases answer
  split at answer
  · cases answer
  next unfrozen room _ bound summed =>
  obtain ⟨units, measured, added⟩ := bind_eq_ok.mp summed
  unfold checkedAdd at added
  split at added
  · next fits =>
      cases added
      dsimp only at answer
      split at answer
      · cases answer
      · next fresh =>
          cases answer
          refine ⟨units, measured, fits, by simpa using unfrozen, room, ?_, ?_⟩
          · exact fun saved member => fresh ⟨saved, member⟩
          · simp
  · cases added

/-- A refused push leaves the recording as it is. -/
theorem push_error {recording pushed : ModelWorkRecording} {event : ModelWorkEvent}
    {error : String} (answer : recording.push event = (pushed, .error error))
    : pushed = recording := by
  unfold push at answer
  split at answer
  · cases answer; rfl
  split at answer
  · cases answer; rfl
  split at answer
  · cases answer; rfl
  dsimp only at answer
  split at answer
  · cases answer; rfl
  · cases answer

/-- A freeze changes nothing but the flag. -/
theorem freezeCold_fst (recording : ModelWorkRecording)
    : recording.freezeCold.1 = { recording with frozen := true } := by
  unfold freezeCold
  split
  · next frozen => simp [← frozen]
  · rfl

theorem freeze_fst (recording : ModelWorkRecording)
    : recording.freeze.1 = recording ∨ recording.freeze.1 = { recording with frozen := true } := by
  unfold freeze
  split
  · exact .inl rfl
  · exact .inr recording.freezeCold_fst

theorem Accounts.push {recording pushed : ModelWorkRecording} {accepted : List ModelWorkEvent}
    {event : ModelWorkEvent} (accounts : Accounts recording accepted)
    (answer : recording.push event = (pushed, .ok ()))
    : Accounts pushed (accepted ++ [event]) := by
  obtain ⟨units, measured, fits, _, _, fresh, rfl⟩ := push_ok answer
  have charge : event.charge = units := by simp [ModelWorkEvent.charge, measured, Except.toOption]
  have exact_charges : charges (exactEvents (accepted ++ [event]))
      = charges (exactEvents accepted) + if event.actual = 0 then units else 0 := by
    by_cases exact_ : event.actual = 0 <;>
      simp [exactEvents, List.filter_append, exact_, charges, charge]
  have minimum : (if event.actual = 0 then (recording.minimum + units) % (wordMax + 1)
      else recording.minimum) = charges (exactEvents (accepted ++ [event])) := by
    rw [exact_charges, ← accounts.minimum_eq]
    have := accounts.minimum_le
    split
    · exact Nat.mod_eq_of_lt (by omega)
    · rfl
  have bound : recording.bound + units = charges (accepted ++ [event]) := by
    rw [charges_append, ← accounts.bound_eq]
    simp [charges, charge]
  refine ⟨by simp [accounts.events_eq], ?_, bound, minimum, ?_, fits, ?_, ?_⟩
  · intro other member
    rcases List.mem_append.mp member with member | member
    · exact accounts.charged other member
    · obtain rfl := List.mem_singleton.mp member
      exact ⟨units, measured⟩
  · dsimp only
    rw [minimum, bound]
    exact charges_exactEvents_le
  · intro occurrence
    by_cases saved : event.kind = ModelWorkKind.savedCopyBytes.code
    · simp [savedOccurrences, List.filter_append, saved, accounts.saved_iff, or_comm]
    · simp [savedOccurrences, List.filter_append, saved, accounts.saved_iff]
  · by_cases saved : event.kind = ModelWorkKind.savedCopyBytes.code
    · have absent := fresh saved
      rw [accounts.saved_iff] at absent
      have one : savedOccurrences [event] = [(event.witness, event.tensor)] := by
        simp [savedOccurrences, saved]
      have split : savedOccurrences (accepted ++ [event])
          = savedOccurrences accepted ++ savedOccurrences [event] := by
        simp [savedOccurrences]
      rw [split, one, List.nodup_append]
      refine ⟨accounts.saved_once, by simp, ?_⟩
      rintro occurrence member other single rfl
      rw [List.mem_singleton.mp single] at member
      exact absent member
    · simpa [savedOccurrences, saved] using accounts.saved_once

theorem Accounts.refreeze {recording : ModelWorkRecording} {accepted : List ModelWorkEvent}
    (accounts : Accounts recording accepted)
    : Accounts { recording with frozen := true } accepted :=
  { accounts with }

/-- Every run of calls on a new recording keeps its accounts, by induction on the run. -/
theorem Run.accounts {start recording : ModelWorkRecording} {accepted : List ModelWorkEvent}
    {capacity : Nat} (created : new capacity = .ok start) (run : Run start recording accepted)
    : Accounts recording accepted := by
  induction run with
  | start =>
      unfold new at created
      split at created
      · cases created
      · cases created
        refine ⟨rfl, by simp, rfl, rfl, le_rfl, Nat.zero_le _, ?_, .nil⟩
        simp [savedOccurrences]
  | accepted run answer ih => exact ih.push answer
  | refused run answer ih => exact push_error answer ▸ ih
  | @freeze recording events run ih =>
      rcases recording.freeze_fst with same | frozen
      · rwa [same]
      · rw [frozen]
        exact ih.refreeze
  | freezeCold run ih => exact freezeCold_fst _ ▸ ih.refreeze

/-- A frozen recording never changes, by induction on the run. -/
theorem Run.of_frozen {start recording : ModelWorkRecording} {accepted : List ModelWorkEvent}
    (frozen : start.frozen = true) (run : Run start recording accepted)
    : recording = start ∧ accepted = [] := by
  induction run with
  | start => exact ⟨rfl, rfl⟩
  | accepted run answer ih =>
      obtain ⟨rfl, _⟩ := ih
      obtain ⟨_, _, _, unfrozen, _⟩ := push_ok answer
      exact absurd frozen (by simp [unfrozen])
  | refused run answer ih =>
      obtain ⟨rfl, rfl⟩ := ih
      exact ⟨push_error answer, rfl⟩
  | freeze run ih =>
      obtain ⟨rfl, rfl⟩ := ih
      exact ⟨by simp [ModelWorkRecording.freeze, frozen], rfl⟩
  | freezeCold run ih =>
      obtain ⟨rfl, rfl⟩ := ih
      exact ⟨by simp [ModelWorkRecording.freezeCold, frozen], rfl⟩

end ModelWorkRecording

-- Accounts of plans and recordings

namespace ModelWorkPlan

/-- What a plan answers about the operations that its cursor has passed. -/
structure Answers (start plan : ModelWorkPlan) (spans : List (Nat × Nat)) : Prop where
  accounts : Accounts start plan spans
  projects : ∀ region : Option Nat, (∀ index ∈ region, index < start.regionEnds.length) →
    ∃ projection,
      plan.cursorProjection region = .ok projection
      ∧ projection.next = plan.next
      ∧ projection.recorded = plan.recordedIndices.length
      ∧ ListsSkipped projection.skipped spans
  unbounded : ∀ index, start.regionEnds.length ≤ index →
    ∃ error, plan.cursorProjection (some index) = .error error
  traces : ∀ recorded,
    plan.requireRecordedTrace recorded = .ok ()
    ↔ List.Forall₂ Matches recorded (withoutSkipped spans (start.events.take plan.next))

theorem Accounts.answers {start plan : ModelWorkPlan} {spans : List (Nat × Nat)}
    (accounts : Accounts start plan spans)
    : Answers start plan spans where
  accounts := accounts
  projects := by
    obtain ⟨listed, answer, lists⟩ := accounts.skippedFrom
    intro region known
    cases region with
    | none =>
        refine ⟨⟨0, plan.events.length, plan.next, plan.recordedIndices.length, listed⟩,
          ?_, rfl, rfl, lists⟩
        simp only [cursorProjection, answer]
        rfl
    | some index =>
        have within := known index rfl
        rw [← accounts.regionEnds_eq] at within
        refine ⟨⟨if index = 0 then 0 else plan.regionEnds.getD (index - 1) 0,
          plan.regionEnds[index], plan.next, plan.recordedIndices.length, listed⟩,
          ?_, rfl, rfl, lists⟩
        simp only [cursorProjection, region, List.getElem?_eq_getElem within, answer]
        rfl
  unbounded := by
    intro index beyond
    rw [← accounts.regionEnds_eq] at beyond
    refine ⟨"cold recording lost its original region boundary", ?_⟩
    simp only [cursorProjection, region, List.getElem?_eq_none beyond]
    rfl
  traces := accounts.requireRecordedTrace

end ModelWorkPlan

/-- Plans account for every operation once along all runs of checked steps, and recordings charge
every accepted event once along all runs of calls.
-/
theorem modelWork_accounts
    : (∀ capacity operations regionEnds regionCount start plan spans,
        ModelWorkPlan.new capacity operations regionEnds regionCount = .ok start
        → ModelWorkPlan.Run start plan spans
        → ModelWorkPlan.Answers start plan spans)
      ∧ (∀ capacity start recording accepted,
        ModelWorkRecording.new capacity = .ok start
        → ModelWorkRecording.Run start recording accepted
        → ModelWorkRecording.Accounts recording accepted)
      ∧ (∀ (recording pushed : ModelWorkRecording) event error,
        recording.push event = (pushed, .error error) → pushed = recording)
      ∧ (∀ (frozen recording : ModelWorkRecording) accepted,
        frozen.frozen = true
        → ModelWorkRecording.Run frozen recording accepted
        → recording = frozen ∧ accepted = []) := by
  refine ⟨?_, ?_, ?_, ?_⟩
  · intro capacity operations regionEnds regionCount start plan spans admitted run
    exact (run.accounts (ModelWorkPlan.new_fresh admitted)).answers
  · intro capacity start recording accepted created run
    exact run.accounts created
  · intro recording pushed event error answer
    exact ModelWorkRecording.push_error answer
  · intro frozen recording accepted isFrozen run
    exact run.of_frozen isFrozen

/-- Two fills in a region each. -/
def twoFills : ModelWorkPlan :=
  ⟨[⟨.fill, 1, [1, 0, 0, 0, 0, 0, 0, 0]⟩, ⟨.fill, 1, [1, 0, 0, 0, 0, 0, 0, 0]⟩], [1, 2], [], 2, 0, 0⟩

/-- The event of a fill of two units. -/
def fillOfTwo : ModelWorkEvent :=
  ⟨ModelWorkKind.fill.code, wordMax, wordMax, 1, [2, 0, 0, 0, 0, 0, 0, 0], 0, rfl⟩

/-- A plan of two fills whose first is recorded and whose second is skipped, and a recording that
accepts one fill and is frozen.
-/
theorem modelWork_accounts_fills
    : ModelWorkPlan.Answers twoFills ⟨twoFills.events, [1, 2], [0], 2, 0, 2⟩ [(1, 2)]
      ∧ ModelWorkRecording.Accounts ⟨1, [fillOfTwo], ∅, 2, 2, true⟩ [fillOfTwo] := by
  refine ⟨modelWork_accounts.1 2 [(.fill, [1]), (.fill, [1])] [1, 2] 2 _ _ _ (by decide) ?_,
    modelWork_accounts.2.1 1 ⟨1, [], ∅, 0, 0, false⟩ _ _ rfl ?_⟩
  · have next : twoFills.requireNext .fill [1] (some 0) = .ok () := by decide
    have unentered : twoFills.consume.skipUnenteredRegion 1
        = .ok ⟨twoFills.events, [1, 2], [0], 2, 0, 2⟩ := by decide
    exact .skip (.record .start next) unentered
  · have pushed : ModelWorkRecording.push ⟨1, [], ∅, 0, 0, false⟩ fillOfTwo
        = (⟨1, [fillOfTwo], ∅, 2, 2, false⟩, .ok ()) := by decide
    exact .freezeCold (.accepted .start pushed)

/-- Skips of two adjacent regions are listed as one span, and a region that the plan has not is an
error.
-/
theorem cursorProjection_joins_spans
    : ModelWorkPlan.new 2 [(.fill, [1]), (.fill, [1])] [1, 2] 2 = .ok twoFills
      ∧ ModelWorkPlan.Run twoFills { twoFills with next := 2 } [(0, 1), (1, 2)]
      ∧ ModelWorkPlan.cursorProjection { twoFills with next := 2 } none = .ok ⟨0, 2, 2, 0, [(0, 2)]⟩
      ∧ ModelWorkPlan.cursorProjection { twoFills with next := 2 } (some 2)
        = .error "cold recording lost its original region boundary" := by
  refine ⟨by decide, ?_, by decide, by decide⟩
  have first : twoFills.skipUnenteredRegion 0 = .ok { twoFills with next := 1 } := by decide
  have second : ModelWorkPlan.skipUnenteredRegion { twoFills with next := 1 } 1
      = .ok { twoFills with next := 2 } := by decide
  exact .skip (.skip .start first) second

end Xlog.Cuda.ModelWork
