import Mathlib
import Xlog.Foundation.Assoc
import Xlog.Foundation.Loop
import Xlog.Gpu.DeltaBatch

/-! What a coalesced batch does to a tuple. Its occurrences in the batch, the insertion of an update
before its deletion, cancel in pairs of opposite directions; what is left over decides, and when nothing
is left the relation keeps what it had.
-/

namespace Xlog.Gpu.DeltaBatch

open Xlog.Core Xlog.Foundation

-- Occurrences

/-- An occurrence cancels a pending one of the other direction. -/
def cancel (pending : Option RelationDeltaDirection) (direction : RelationDeltaDirection)
    : Option RelationDeltaDirection :=
  if pending = some direction.opposite then none else some direction

/-- What is left of the occurrences. -/
def pendingAfter (occurrences : List RelationDeltaDirection) : Option RelationDeltaDirection :=
  occurrences.foldl cancel none

@[simp] theorem pendingAfter_nil : pendingAfter [] = none := rfl

theorem pendingAfter_concat (occurrences : List RelationDeltaDirection)
    (direction : RelationDeltaDirection)
    : pendingAfter (occurrences ++ [direction]) = cancel (pendingAfter occurrences) direction := by
  simp [pendingAfter, List.foldl_append]

theorem RelationDeltaDirection.eq_or_eq_opposite (direction other : RelationDeltaDirection)
    : other = direction ∨ other = direction.opposite := by
  cases direction <;> cases other <;> simp [opposite]

theorem RelationDeltaDirection.opposite_ne (direction : RelationDeltaDirection)
    : direction.opposite ≠ direction := by
  cases direction <;> simp [opposite]

theorem cancel_eq_self_iff {pending : Option RelationDeltaDirection}
    {direction : RelationDeltaDirection}
    : cancel pending direction = some direction ↔ pending ≠ some direction.opposite := by
  simp [cancel]

theorem cancel_ne_opposite (pending : Option RelationDeltaDirection)
    (direction : RelationDeltaDirection)
    : cancel pending direction ≠ some direction.opposite := by
  rw [cancel]
  split
  · simp
  · intro h
    exact direction.opposite_ne (Option.some.inj h).symm

-- Buffers

section

variable {Row : Type} [LinearOrder Row]

/-- Equality of rows is lawful, under a name that the definitions below share. -/
local instance lawfulBEq_row : LawfulBEq Row := inferInstance

def rowsOf (buffer : Option (CudaBuffer Row)) : List Row := (buffer.map (·.rows)).getD []

omit [LinearOrder Row] in
@[simp] theorem rowsOf_none : rowsOf (none : Option (CudaBuffer Row)) = [] := rfl

omit [LinearOrder Row] in
@[simp] theorem rowsOf_some (buffer : CudaBuffer Row) : rowsOf (some buffer) = buffer.rows := rfl

@[simp] theorem mem_distinctRows {rows : List Row} {row : Row}
    : row ∈ distinctRows rows ↔ row ∈ rows := by
  simp [distinctRows]

theorem mem_diffFullRow {a b result : CudaBuffer Row} (h : diffFullRow a b = .ok result) {row : Row}
    : row ∈ result.rows ↔ row ∈ a.rows ∧ row ∉ b.rows := by
  unfold diffFullRow at h
  split at h
  · next hempty =>
      obtain rfl := Except.ok.inj h
      simp [List.isEmpty_iff.mp hempty]
  · split at h
    · contradiction
    · obtain rfl := Except.ok.inj h
      simp

theorem mem_unionGpu {a b result : CudaBuffer Row} (h : unionGpu a b = .ok result) {row : Row}
    : row ∈ result.rows ↔ row ∈ a.rows ∨ row ∈ b.rows := by
  unfold unionGpu at h
  split at h
  · contradiction
  · obtain rfl := Except.ok.inj h
    simp

omit [LinearOrder Row] in
@[simp] theorem rowsOf_nonEmptyBuffer (buffer : CudaBuffer Row)
    : rowsOf (nonEmptyBuffer buffer) = buffer.rows := by
  unfold nonEmptyBuffer
  split
  · next h => rw [List.isEmpty_iff.mp h, rowsOf_none]
  · rfl

omit [LinearOrder Row] in
@[simp] theorem rowsOf_bind_nonEmptyBuffer (buffer : Option (CudaBuffer Row))
    : rowsOf (buffer.bind nonEmptyBuffer) = rowsOf buffer := by
  cases buffer with
  | none => rfl
  | some buffer => rw [Option.bind_some, rowsOf_nonEmptyBuffer, rowsOf_some]

theorem mem_mergeOptionalBuffer {existing merged : Option (CudaBuffer Row)}
    {incoming : CudaBuffer Row} (h : mergeOptionalBuffer existing incoming = .ok merged) {row : Row}
    : row ∈ rowsOf merged ↔ row ∈ rowsOf existing ∨ row ∈ incoming.rows := by
  have hincoming := rowsOf_nonEmptyBuffer incoming
  have hexisting := rowsOf_bind_nonEmptyBuffer existing
  unfold mergeOptionalBuffer at h
  cases hin : nonEmptyBuffer incoming with
  | none =>
      rw [hin] at h hincoming
      obtain rfl := Except.ok.inj h
      simp [← hincoming]
  | some incoming' =>
      rw [hin] at h hincoming
      cases hex : existing.bind nonEmptyBuffer with
      | none =>
          rw [hex] at h hexisting
          obtain rfl := Except.ok.inj h
          simp [← hexisting, ← hincoming]
      | some existing' =>
          rw [hex] at h hexisting
          obtain ⟨union, hunion, h⟩ := bind_eq_ok.mp h
          obtain rfl := Except.ok.inj h
          rw [rowsOf_nonEmptyBuffer, mem_unionGpu hunion, ← hexisting, ← hincoming]
          rfl

omit [LinearOrder Row] in
@[simp] theorem side_setSide (delta : RelationDelta Row) (direction : RelationDeltaDirection)
    (buffer : Option (CudaBuffer Row)) : (delta.setSide direction buffer).side direction = buffer := by
  cases direction <;> rfl

omit [LinearOrder Row] in
theorem side_setSide_of_ne (delta : RelationDelta Row) {direction other : RelationDeltaDirection}
    (h : other ≠ direction) (buffer : Option (CudaBuffer Row))
    : (delta.setSide direction buffer).side other = delta.side other := by
  cases direction <;> cases other <;> first | rfl | exact absurd rfl h

-- One side of an update

/-- The pending update has what is left of the occurrences of each tuple. -/
def Tracks (pending : RelationDelta Row) (occurrences : Row → List RelationDeltaDirection) : Prop :=
  ∀ row direction, row ∈ rowsOf (pending.side direction)
    ↔ pendingAfter (occurrences row) = some direction

/-- The occurrences after one side of an update. -/
def addOccurrences (occurrences : Row → List RelationDeltaDirection)
    (direction : RelationDeltaDirection) (rows : List Row) (row : Row)
    : List RelationDeltaDirection :=
  occurrences row ++ if row ∈ rows then [direction] else []

/-- The tuples of the cancellations that one side of an update has captured. -/
structure CapturedBy (updateIndex : Nat) (direction : RelationDeltaDirection) (rows : List Row)
    (occurrences : Row → List RelationDeltaDirection)
    (captured : List (RelationDeltaCancellation Row)) : Prop where
  origin : ∀ c ∈ captured, c.updateIndex = updateIndex ∧ c.incomingDirection = direction
  tuples
    : ∀ row, (∃ c ∈ captured, row ∈ c.tuples.rows)
      ↔ row ∈ rows ∧ pendingAfter (occurrences row) = some direction.opposite

/-- What a merge appends to the captured cancellations, if there are any. -/
def Captures (before after : Option (List (RelationDeltaCancellation Row))) (updateIndex : Nat)
    (direction : RelationDeltaDirection) (rows : List Row)
    (occurrences : Row → List RelationDeltaDirection) : Prop :=
  match before with
  | none => after = none
  | some cancellations => ∃ captured, after = some (cancellations ++ captured)
      ∧ CapturedBy updateIndex direction rows occurrences captured

theorem captureCanceledTuples_ok {incoming after : CudaBuffer Row} {updateIndex : Nat}
    {direction : RelationDeltaDirection} {before result : Option (List (RelationDeltaCancellation Row))}
    (h : captureCanceledTuples incoming after updateIndex direction before = .ok result)
    {rows : List Row} {occurrences : Row → List RelationDeltaDirection}
    (hcanceled : ∀ row, row ∈ incoming.rows ∧ row ∉ after.rows
      ↔ row ∈ rows ∧ pendingAfter (occurrences row) = some direction.opposite)
    : Captures before result updateIndex direction rows occurrences := by
  cases before with
  | none => exact (Except.ok.inj h).symm
  | some cancellations =>
      obtain ⟨intersection, hdiff, h⟩ := bind_eq_ok.mp h
      have hrows (row : Row) : row ∈ intersection.rows
          ↔ row ∈ rows ∧ pendingAfter (occurrences row) = some direction.opposite := by
        rw [mem_diffFullRow hdiff, hcanceled]
      have hkept := rowsOf_nonEmptyBuffer intersection
      cases hempty : nonEmptyBuffer intersection with
      | none =>
          rw [hempty] at h hkept
          obtain rfl := Except.ok.inj h
          refine ⟨[], by rw [List.append_nil], by simp, fun row => ?_⟩
          rw [← hrows, ← hkept]
          simp
      | some tuples =>
          rw [hempty] at h hkept
          obtain rfl := Except.ok.inj h
          refine ⟨_, rfl, by simp, fun row => ?_⟩
          rw [← hrows, ← hkept]
          simp

/-- One side of an update adds its occurrences and captures the tuples that cancel. -/
theorem mergeDelta_ok {direction : RelationDeltaDirection} {delta : CudaBuffer Row}
    {updateIndex : Nat} {state state' : Merge Row}
    (h : mergeDelta direction delta updateIndex state = .ok state')
    {occurrences : Row → List RelationDeltaDirection} (htracks : Tracks state.pending occurrences)
    : Tracks state'.pending (addOccurrences occurrences direction delta.rows)
      ∧ Captures state.cancellations state'.cancellations updateIndex direction delta.rows
          occurrences := by
  have hincoming (row : Row) : row ∈ (dedupFullRow delta).rows ↔ row ∈ delta.rows :=
    mem_distinctRows
  have hother (row : Row) := htracks row direction.opposite
  rw [← rowsOf_bind_nonEmptyBuffer] at hother
  -- The new pending sides, row by row, are what is left of the occurrences.
  have hadded {pending : RelationDelta Row}
      (hsame : ∀ row, row ∈ rowsOf (pending.side direction)
        ↔ row ∈ rowsOf (state.pending.side direction)
          ∨ row ∈ delta.rows ∧ pendingAfter (occurrences row) ≠ some direction.opposite)
      (hopposite : ∀ row, row ∈ rowsOf (pending.side direction.opposite)
        ↔ pendingAfter (occurrences row) = some direction.opposite ∧ row ∉ delta.rows)
      : Tracks pending (addOccurrences occurrences direction delta.rows) := by
    intro row side
    by_cases hrow : row ∈ delta.rows
    · rw [addOccurrences, if_pos hrow, pendingAfter_concat]
      rcases direction.eq_or_eq_opposite side with rfl | rfl
      · rw [hsame, cancel_eq_self_iff, htracks]
        constructor
        · rintro (hpending | ⟨_, hne⟩)
          · rw [hpending]
            exact fun heq => side.opposite_ne (Option.some.inj heq).symm
          · exact hne
        · exact fun hne => .inr ⟨hrow, hne⟩
      · rw [hopposite]
        exact iff_of_false (fun hin => hin.2 hrow) (cancel_ne_opposite _ _)
    · rw [addOccurrences, if_neg hrow, List.append_nil]
      rcases direction.eq_or_eq_opposite side with rfl | rfl
      · rw [hsame, htracks]
        simp [hrow]
      · rw [hopposite]
        simp [hrow]
  unfold mergeDelta at h
  cases hpending : (state.pending.side direction.opposite).bind nonEmptyBuffer with
  | none =>
      rw [hpending] at h hother
      obtain ⟨merged, hmerged, h⟩ := bind_eq_ok.mp h
      obtain rfl := Except.ok.inj h
      have hnone (row : Row) : pendingAfter (occurrences row) ≠ some direction.opposite :=
        fun heq => by simpa using (hother row).mpr heq
      refine ⟨hadded (fun row => ?_) (fun row => ?_), ?_⟩
      · rw [side_setSide, mem_mergeOptionalBuffer hmerged, hincoming]
        simp [hnone]
      · rw [side_setSide_of_ne _ direction.opposite_ne, side_setSide]
        simp [hnone]
      · cases hcapture : state.cancellations with
        | none => rfl
        | some cancellations =>
            refine ⟨[], by rw [List.append_nil], by simp, fun row => ?_⟩
            simp [hnone]
  | some other =>
      rw [hpending] at h hother
      obtain ⟨otherAfter, hotherAfter, h⟩ := bind_eq_ok.mp h
      obtain ⟨incomingAfter, hincomingAfter, h⟩ := bind_eq_ok.mp h
      obtain ⟨cancellations, hcancellations, h⟩ := bind_eq_ok.mp h
      obtain ⟨merged, hmerged, h⟩ := bind_eq_ok.mp h
      obtain rfl := Except.ok.inj h
      rw [rowsOf_some] at hother
      refine ⟨hadded (fun row => ?_) (fun row => ?_), captureCanceledTuples_ok hcancellations ?_⟩
      · rw [side_setSide, mem_mergeOptionalBuffer hmerged, mem_diffFullRow hincomingAfter,
          hincoming, hother]
      · rw [side_setSide_of_ne _ direction.opposite_ne, side_setSide, rowsOf_nonEmptyBuffer,
          mem_diffFullRow hotherAfter, hincoming, hother]
      · intro row
        rw [mem_diffFullRow hincomingAfter, hincoming, hother]
        tauto

theorem mergeSide_ok {direction : RelationDeltaDirection} {side : Option (CudaBuffer Row)}
    {updateIndex : Nat} {state state' : Merge Row}
    (h : mergeSide (mergeDelta direction) side updateIndex state = .ok state')
    {occurrences : Row → List RelationDeltaDirection} (htracks : Tracks state.pending occurrences)
    : Tracks state'.pending (addOccurrences occurrences direction (rowsOf side))
      ∧ Captures state.cancellations state'.cancellations updateIndex direction (rowsOf side)
          occurrences := by
  cases side with
  | some delta => exact mergeDelta_ok h htracks
  | none =>
      obtain rfl := Except.ok.inj h
      refine ⟨fun row other => ?_, ?_⟩
      · simpa [addOccurrences] using htracks row other
      · cases hcapture : state.cancellations with
        | none => rfl
        | some cancellations => exact ⟨[], by rw [List.append_nil], by simp, by simp⟩

-- One update

/-- The occurrences of a tuple in an update. -/
def directionsOf (delta : RelationDelta Row) (row : Row) : List RelationDeltaDirection :=
  (if row ∈ rowsOf delta.insert then [.insert] else [])
  ++ if row ∈ rowsOf delta.delete then [.delete] else []

/-- Those that come before one side of the update. -/
def directionsBefore (delta : RelationDelta Row) (row : Row)
    : RelationDeltaDirection → List RelationDeltaDirection
  | .insert => []
  | .delete => if row ∈ rowsOf delta.insert then [.insert] else []

/-- The occurrences of a tuple of a relation in a batch. -/
def occurrences (updates : List (String × RelationDelta Row)) (name : String) (row : Row)
    : List RelationDeltaDirection :=
  updates.flatMap fun update => if update.1 = name then directionsOf update.2 row else []

theorem occurrences_concat (updates : List (String × RelationDelta Row))
    (update : String × RelationDelta Row) (name : String) (row : Row)
    : occurrences (updates ++ [update]) name row
      = occurrences updates name row
        ++ if update.1 = name then directionsOf update.2 row else [] := by
  simp [occurrences]

/-- The cancellations of a relation name a tuple at one side of one update. -/
def Names (cancellations : List (RelationDeltaCancellation Row)) (updateIndex : Nat)
    (direction : RelationDeltaDirection) (row : Row) : Prop :=
  ∃ c ∈ cancellations, c.updateIndex = updateIndex ∧ c.incomingDirection = direction
    ∧ row ∈ c.tuples.rows

omit [LinearOrder Row] in
theorem names_append {left right : List (RelationDeltaCancellation Row)} {updateIndex : Nat}
    {direction : RelationDeltaDirection} {row : Row}
    : Names (left ++ right) updateIndex direction row
      ↔ Names left updateIndex direction row ∨ Names right updateIndex direction row := by
  simp only [Names, List.mem_append, or_and_right, exists_or]

omit [LinearOrder Row] in
theorem CapturedBy.names_iff {updateIndex index : Nat} {direction other : RelationDeltaDirection}
    {rows : List Row} {earlier : Row → List RelationDeltaDirection}
    {captured : List (RelationDeltaCancellation Row)}
    (h : CapturedBy updateIndex direction rows earlier captured) {row : Row}
    : Names captured index other row
      ↔ index = updateIndex ∧ other = direction ∧ row ∈ rows
        ∧ pendingAfter (earlier row) = some direction.opposite := by
  rw [← h.tuples]
  constructor
  · rintro ⟨c, hc, rfl, rfl, hrow⟩
    obtain ⟨hindex, hdirection⟩ := h.origin c hc
    exact ⟨hindex, hdirection, c, hc, hrow⟩
  · rintro ⟨rfl, rfl, c, hc, hrow⟩
    obtain ⟨hindex, hdirection⟩ := h.origin c hc
    exact ⟨c, hc, hindex, hdirection, hrow⟩

theorem coalesceUpdate_ok {captureRelations : List String} {state state' : Coalescing Row}
    {name : String} {delta : RelationDelta Row} {updateIndex : Nat}
    (h : coalesceUpdate captureRelations state ((name, delta), updateIndex) = .ok state')
    {earlier : Row → List RelationDeltaDirection} (htracks : Tracks (state.pending name) earlier)
    : Tracks (state'.pending name) (fun row => earlier row ++ directionsOf delta row)
      ∧ (∀ other ≠ name, state'.pending other = state.pending other)
      ∧ (∀ other ≠ name, state'.cancellations other = state.cancellations other)
      ∧ ∀ index direction row, Names (state'.cancellations name) index direction row
        ↔ Names (state.cancellations name) index direction row
          ∨ name ∈ captureRelations ∧ index = updateIndex ∧ row ∈ rowsOf (delta.side direction)
            ∧ pendingAfter (earlier row ++ directionsBefore delta row direction)
              = some direction.opposite := by
  obtain ⟨inserted, hinserted, h⟩ := bind_eq_ok.mp h
  obtain ⟨merged, hmerged, h⟩ := bind_eq_ok.mp h
  obtain rfl := Except.ok.inj h
  obtain ⟨htracked, hfirst⟩ := @mergeSide_ok Row _ .insert _ _ _ _ hinserted _ htracks
  obtain ⟨hdone, hsecond⟩ := @mergeSide_ok Row _ .delete _ _ _ _ hmerged _ htracked
  refine ⟨?_, fun other hne => ?_, fun other hne => ?_, fun index direction row => ?_⟩
  · simp only [Function.update_self]
    intro row direction
    rw [hdone, addOccurrences, addOccurrences, List.append_assoc]
    rfl
  · simp [Function.update_of_ne hne]
  · simp [Function.update_of_ne hne]
  · simp only [Function.update_self, names_append]
    refine or_congr_right ?_
    by_cases hcapture : name ∈ captureRelations
    · rw [if_pos hcapture] at hfirst
      obtain ⟨captured, hafter, hcaptured⟩ := hfirst
      rw [hafter] at hsecond
      obtain ⟨more, hafter', hmore⟩ := hsecond
      rw [hafter', Option.getD_some, List.nil_append, names_append, hcaptured.names_iff,
        hmore.names_iff]
      cases direction with
      | insert => simp [hcapture, directionsBefore, RelationDelta.side]
      | delete => simp [hcapture, directionsBefore, RelationDelta.side, addOccurrences]
    · rw [if_neg hcapture] at hfirst
      have hnone : inserted.cancellations = none := hfirst
      rw [hnone] at hsecond
      have hnone' : merged.cancellations = none := hsecond
      simp [hnone', hcapture, Names]

-- The batch

/-- A tuple is taken from the pending opposite side when one side of an update comes in. -/
def CancelledAt (updates : List (String × RelationDelta Row)) (name : String) (updateIndex : Nat)
    (direction : RelationDeltaDirection) (row : Row) : Prop :=
  ∃ delta, updates[updateIndex]? = some (name, delta) ∧ row ∈ rowsOf (delta.side direction)
    ∧ pendingAfter (occurrences (updates.take updateIndex) name row
        ++ directionsBefore delta row direction)
      = some direction.opposite

theorem cancelledAt_concat {updates : List (String × RelationDelta Row)}
    {update : String × RelationDelta Row} {name : String} {updateIndex : Nat}
    {direction : RelationDeltaDirection} {row : Row}
    : CancelledAt (updates ++ [update]) name updateIndex direction row
      ↔ CancelledAt updates name updateIndex direction row
        ∨ update.1 = name ∧ updateIndex = updates.length ∧ row ∈ rowsOf (update.2.side direction)
          ∧ pendingAfter (occurrences updates name row
              ++ directionsBefore update.2 row direction)
            = some direction.opposite := by
  rcases Nat.lt_trichotomy updateIndex updates.length with hlt | rfl | hgt
  · have hne : updateIndex ≠ updates.length := hlt.ne
    simp [CancelledAt, List.getElem?_append_left hlt, List.take_append_of_le_length hlt.le, hne]
  · have hnone : updates[updates.length]? = none := List.getElem?_eq_none le_rfl
    simp only [CancelledAt, hnone, List.getElem?_append_right le_rfl, Nat.sub_self,
      List.getElem?_cons_zero, List.take_append_of_le_length le_rfl, List.take_length,
      Option.some.injEq, reduceCtorEq, false_and, exists_false, false_or, true_and]
    constructor
    · rintro ⟨delta, rfl, hrow, hpending⟩
      exact ⟨rfl, hrow, hpending⟩
    · rintro ⟨rfl, hrow, hpending⟩
      exact ⟨update.2, rfl, hrow, hpending⟩
  · have hnone : (updates ++ [update])[updateIndex]? = none :=
      List.getElem?_eq_none (by simp; omega)
    have hnone' : updates[updateIndex]? = none := List.getElem?_eq_none hgt.le
    simp [CancelledAt, hnone, hnone', hgt.ne']

/-- What a batch has recorded after some updates. -/
structure Recorded (captureRelations : List String) (updates : List (String × RelationDelta Row))
    (state : Coalescing Row) : Prop where
  tracks : ∀ name, Tracks (state.pending name) (occurrences updates name)
  cancellations
    : ∀ name updateIndex direction row,
      Names (state.cancellations name) updateIndex direction row
        ↔ name ∈ captureRelations ∧ CancelledAt updates name updateIndex direction row

theorem Recorded.step {captureRelations : List String}
    {updates : List (String × RelationDelta Row)} {update : String × RelationDelta Row}
    {state state' : Coalescing Row} (h : Recorded captureRelations updates state)
    (hupdate : coalesceUpdate captureRelations state (update, updates.length) = .ok state')
    : Recorded captureRelations (updates ++ [update]) state' := by
  obtain ⟨name, delta⟩ := update
  obtain ⟨htracks, hpending, hother, hnames⟩ := coalesceUpdate_ok hupdate (h.tracks name)
  refine ⟨fun other => ?_, fun other updateIndex direction row => ?_⟩
  · by_cases hname : other = name
    · subst hname
      intro row direction
      rw [htracks, occurrences_concat, if_pos rfl]
    · intro row direction
      rw [hpending other hname, h.tracks, occurrences_concat, if_neg (Ne.symm hname),
        List.append_nil]
  · rw [cancelledAt_concat]
    by_cases hname : other = name
    · subst hname
      rw [hnames, h.cancellations]
      simp [and_or_left]
    · rw [hother other hname, h.cancellations]
      simp [Ne.symm hname]

/-- Every update adds what it records, by induction along the batch. -/
theorem recorded_of_run {captureRelations : List String}
    {batch : List (String × RelationDelta Row)} {final : Coalescing Row}
    (h : batch.zipIdx.foldlM (coalesceUpdate captureRelations) .start = .ok final)
    : Recorded captureRelations batch final := by
  suffices hfrom : ∀ rest updates state, Recorded captureRelations updates state
      → (rest.zipIdx updates.length).foldlM (coalesceUpdate captureRelations) state = .ok final
      → Recorded captureRelations (updates ++ rest) final by
    refine hfrom batch [] .start ⟨fun name row direction => ?_, ?_⟩ h
    · cases direction <;> simp [Coalescing.start, occurrences, RelationDelta.side]
    · simp [Coalescing.start, Names, CancelledAt]
  intro rest
  induction rest with
  | nil =>
      intro updates state hstate hrun
      obtain rfl := Except.ok.inj hrun
      rwa [List.append_nil]
  | cons update rest ih =>
      intro updates state hstate hrun
      rw [List.zipIdx_cons, List.foldlM_cons] at hrun
      obtain ⟨next, hnext, hrun⟩ := bind_eq_ok.mp hrun
      have hlength : updates.length + 1 = (updates ++ [update]).length := by simp
      rw [hlength] at hrun
      simpa using ih (updates ++ [update]) next (hstate.step hnext) hrun

-- Applied updates

/-- What an update makes of a tuple: its deletions come first. -/
def written (delta : RelationDelta Row) (row : Row) : Option Bool :=
  if row ∈ rowsOf delta.insert then some true
  else if row ∈ rowsOf delta.delete then some false
  else none

/-- What the last update that touches a tuple makes of it. -/
def lastWritten (updates : List (String × RelationDelta Row)) (name : String) (row : Row)
    : Option Bool :=
  updates.foldl (fun last update =>
    if update.1 = name then (written update.2 row).or last else last) none

theorem lastWritten_concat (updates : List (String × RelationDelta Row))
    (update : String × RelationDelta Row) (name : String) (row : Row)
    : lastWritten (updates ++ [update]) name row
      = if update.1 = name then (written update.2 row).or (lastWritten updates name row)
        else lastWritten updates name row := by
  simp [lastWritten, List.foldl_append]

/-- A tuple is there after writes to it, or without one when it was there before. -/
def Present (last : Option Bool) (before : Prop) : Prop :=
  match last with
  | some inserted => inserted = true
  | none => before

theorem present_or {first second : Option Bool} {before : Prop}
    : Present (first.or second) before ↔ Present first (Present second before) := by
  cases first <;> rfl

theorem mem_deleteRows {existing result : CudaBuffer Row} {delete : Option (CudaBuffer Row)}
    (h : deleteRows existing delete = .ok result) {row : Row}
    : row ∈ result.rows ↔ row ∈ existing.rows ∧ row ∉ rowsOf delete := by
  cases delete with
  | none =>
      obtain rfl := Except.ok.inj h
      simp
  | some delete => exact mem_diffFullRow h

theorem mem_insertRows {existing result : CudaBuffer Row} {insert : Option (CudaBuffer Row)}
    (h : insertRows existing insert = .ok result) {row : Row}
    : row ∈ result.rows ↔ row ∈ rowsOf insert ∨ row ∈ existing.rows := by
  cases insert with
  | none =>
      obtain rfl := Except.ok.inj h
      simp
  | some insert => rw [mem_unionGpu h, rowsOf_some, or_comm]

theorem applyRelationDelta_ok {store store' : RelationStore Row}
    {update : String × RelationDelta Row} (h : applyRelationDelta store update = .ok store')
    (name : String) (row : Row)
    : row ∈ rowsOf (store' name)
      ↔ Present (if update.1 = name then written update.2 row else none)
          (row ∈ rowsOf (store name)) := by
  obtain ⟨target, delta⟩ := update
  unfold applyRelationDelta at h
  simp only at h
  split at h
  · next types htypes =>
      obtain ⟨deleted, hdeleted, h⟩ := bind_eq_ok.mp h
      obtain ⟨updated, hupdated, h⟩ := bind_eq_ok.mp h
      obtain rfl := Except.ok.inj h
      by_cases hname : target = name
      · subst hname
        have hexisting : row ∈ ((store target).getD ⟨types, []⟩).rows
            ↔ row ∈ rowsOf (store target) := by
          cases store target <;> rfl
        have hkept : row ∈ deleted.rows
            ↔ row ∈ rowsOf (store target) ∧ row ∉ rowsOf delta.delete := by
          rw [← hexisting, mem_deleteRows hdeleted]
        have hresult : row ∈ updated.rows
            ↔ row ∈ rowsOf delta.insert ∨ row ∈ deleted.rows :=
          mem_insertRows hupdated
        rw [Function.update_self, rowsOf_some, hresult, hkept, if_pos rfl, written]
        by_cases hin : row ∈ rowsOf delta.insert
        · simp [hin, Present]
        · by_cases hout : row ∈ rowsOf delta.delete <;> simp [hin, hout, Present]
      · rw [Function.update_of_ne (Ne.symm hname), if_neg hname]
        rfl
  · contradiction

/-- Updates one after the other leave what the last one to touch a tuple makes of it, by induction along
them.
-/
theorem applyRelationDeltas_ok {store final : RelationStore Row}
    {updates : List (String × RelationDelta Row)}
    (h : applyRelationDeltas store updates = .ok final) (name : String) (row : Row)
    : row ∈ rowsOf (final name)
      ↔ Present (lastWritten updates name row) (row ∈ rowsOf (store name)) := by
  refine foldlM_inv applyRelationDelta
    (fun done state => row ∈ rowsOf (state name)
      ↔ Present (lastWritten done name row) (row ∈ rowsOf (store name))) updates Iff.rfl ?_ h
  intro done update state state' _ hdone hstep
  rw [applyRelationDelta_ok hstep, lastWritten_concat]
  by_cases hname : update.1 = name
  · rw [if_pos hname, if_pos hname, present_or]
    unfold Present
    split
    · exact Iff.rfl
    · exact hdone
  · rw [if_neg hname, if_neg hname]
    exact hdone

-- Net updates

/-- The net rows of one side for a relation. -/
def PreparedRelationDeltaBatch.netRows (prepared : PreparedRelationDeltaBatch Row) (name : String)
    (direction : RelationDeltaDirection) : List Row :=
  rowsOf ((prepared.deltas.lookup name).bind (·.side direction))

omit [LinearOrder Row] in
theorem rowsOf_netDelta (pending : RelationDelta Row) (direction : RelationDeltaDirection)
    : rowsOf ((netDelta pending).bind (·.side direction)) = rowsOf (pending.side direction) := by
  have hinsert := rowsOf_bind_nonEmptyBuffer pending.insert
  have hdelete := rowsOf_bind_nonEmptyBuffer pending.delete
  unfold netDelta
  simp only
  split
  · next hnone =>
      simp only [Bool.and_eq_true, Option.isNone_iff_eq_none] at hnone
      rw [hnone.1] at hinsert
      rw [hnone.2] at hdelete
      cases direction with
      | insert => exact hinsert
      | delete => exact hdelete
  · cases direction with
    | insert => exact hinsert
    | delete => exact hdelete

/-- Looking a key up among entries that are there or not by their key, by induction on the keys. -/
theorem lookup_filterMap_key {α : Type} (value : String → Option α) (keys : List String)
    (key : String)
    : (keys.filterMap fun other => (value other).map (other, ·)).lookup key
      = if key ∈ keys then value key else none := by
  induction keys with
  | nil => rfl
  | cons first keys ih =>
      cases hvalue : value first with
      | none =>
          rw [List.filterMap_cons_none (by simp [hvalue]), ih]
          by_cases hkey : key = first
          · simp [hkey, hvalue]
          · simp [hkey]
      | some found =>
          rw [List.filterMap_cons_some (by rw [hvalue]; rfl), List.lookup_cons]
          by_cases hkey : key = first
          · simp [hkey, hvalue]
          · have hbeq : (key == first) = false := by simpa using hkey
            simp [hbeq, hkey, ih]

theorem nodup_keys_filterMap {α : Type} (value : String → Option α) {keys : List String}
    (h : keys.Nodup)
    : ((keys.filterMap fun other => (value other).map (other, ·)).map Prod.fst).Nodup := by
  refine h.sublist ?_
  induction keys with
  | nil => exact .slnil
  | cons first keys ih =>
      have hrest := ih (List.nodup_cons.mp h).2
      cases hvalue : value first with
      | none =>
          rw [List.filterMap_cons_none (by simp [hvalue])]
          exact hrest.cons first
      | some found =>
          rw [List.filterMap_cons_some (by rw [hvalue]; rfl)]
          exact hrest.cons_cons first

/-- With one update for each relation the last one is the only one, by induction along them. -/
theorem lastWritten_of_nodup {updates : List (String × RelationDelta Row)}
    (h : (updates.map Prod.fst).Nodup) (name : String) (row : Row)
    : lastWritten updates name row = (updates.lookup name).bind (written · row) := by
  have hrest (rest : List (String × RelationDelta Row)) (hout : name ∉ rest.map Prod.fst)
      (last : Option Bool)
      : rest.foldl (fun last update =>
          if update.1 = name then (written update.2 row).or last else last) last = last := by
    induction rest with
    | nil => rfl
    | cons update rest ih =>
        simp only [List.map_cons, List.mem_cons, not_or] at hout
        rw [List.foldl_cons, if_neg (Ne.symm hout.1)]
        exact ih hout.2
  induction updates with
  | nil => rfl
  | cons update updates ih =>
      obtain ⟨target, delta⟩ := update
      obtain ⟨hfresh, hnodup⟩ := List.nodup_cons.mp h
      rw [lastWritten, List.foldl_cons, List.lookup_cons]
      by_cases hname : target = name
      · subst hname
        rw [hrest updates hfresh]
        simp
      · have hbeq : (name == target) = false := by simpa using Ne.symm hname
        rw [if_neg hname, hbeq]
        exact ih hnodup

/-- The net rows of a relation are what is left of the occurrences in the batch. -/
theorem coalesced_ok {batch : List (String × RelationDelta Row)} {captureRelations : List String}
    {prepared : PreparedRelationDeltaBatch Row}
    (h : coalesceRelationDeltaBatchWithCancellationCapture batch captureRelations = .ok prepared)
    : (∀ name direction row, row ∈ prepared.netRows name direction
        ↔ pendingAfter (occurrences batch name row) = some direction)
      ∧ (prepared.deltas.map Prod.fst).Nodup
      ∧ ∀ name updateIndex direction row,
        Names (prepared.cancellations name) updateIndex direction row
          ↔ name ∈ captureRelations ∧ CancelledAt batch name updateIndex direction row := by
  obtain ⟨final, hfinal, h⟩ := bind_eq_ok.mp h
  obtain rfl := Except.ok.inj h
  have hrecorded := recorded_of_run hfinal
  refine ⟨fun name direction row => ?_, ?_, hrecorded.cancellations⟩
  · rw [PreparedRelationDeltaBatch.netRows, lookup_filterMap_key]
    by_cases hname : name ∈ (batch.map Prod.fst).dedup
    · rw [if_pos hname, rowsOf_netDelta]
      exact hrecorded.tracks name row direction
    · rw [if_neg hname]
      have hnone : occurrences batch name row = [] := by
        rw [occurrences, List.flatMap_eq_nil_iff]
        intro update hmem
        refine if_neg fun heq => hname ?_
        rw [List.mem_dedup, ← heq]
        exact List.mem_map_of_mem hmem
      simp [hnone]
  · exact nodup_keys_filterMap _ (List.nodup_dedup _)

-- The effect of a batch

/-- What is left of the occurrences was also written last: an insertion by an update that inserts, a
deletion by one that touches the tuple. By induction along the batch.
-/
theorem lastWritten_of_pending (batch : List (String × RelationDelta Row)) (name : String)
    (row : Row)
    : (pendingAfter (occurrences batch name row) = some .insert
        → lastWritten batch name row = some true)
      ∧ (pendingAfter (occurrences batch name row) = some .delete
        → lastWritten batch name row ≠ none) := by
  induction batch using List.reverseRecOn with
  | nil => simp [occurrences]
  | append_singleton batch update ih =>
      rw [occurrences_concat, lastWritten_concat]
      by_cases hname : update.1 = name
      · rw [if_pos hname, if_pos hname, directionsOf, written]
        by_cases hin : row ∈ rowsOf update.2.insert
        · simp [hin]
        · by_cases hout : row ∈ rowsOf update.2.delete
          · simp only [hin, hout, if_false, if_true, List.nil_append, pendingAfter_concat,
              Option.some_or, ne_eq, reduceCtorEq, not_false_eq_true, implies_true, and_true]
            exact fun heq => absurd heq (cancel_ne_opposite _ .delete)
          · simpa [hin, hout] using ih
      · simpa [hname] using ih

/-- When the net update of a relation does to a tuple what the updates one after the other do: what is
left of its occurrences is an insertion; or a deletion, and the last update that touches it does not also
insert it; or nothing, and it is not touched or was there exactly when that update inserts it.
-/
def Agrees (batch : List (String × RelationDelta Row)) (store : RelationStore Row) (name : String)
    (row : Row) : Prop :=
  match pendingAfter (occurrences batch name row), lastWritten batch name row with
  | some .insert, _ => True
  | some .delete, last => last ≠ some true
  | none, none => True
  | none, some inserted => row ∈ rowsOf (store name) ↔ inserted = true

/-- What a prepared batch is, for its batch. -/
structure CoalescesByCancellation (batch : List (String × RelationDelta Row))
    (captureRelations : List String) (prepared : PreparedRelationDeltaBatch Row) : Prop where
  disjoint
    : ∀ name row, row ∈ prepared.netRows name .insert → row ∉ prepared.netRows name .delete
  effect
    : ∀ store net, cloneProspectiveBaseForPreparedDeltaBatch store prepared = .ok net
      → ∀ name row, row ∈ rowsOf (net name)
        ↔ match pendingAfter (occurrences batch name row) with
          | some .insert => True
          | some .delete => False
          | none => row ∈ rowsOf (store name)
  agrees
    : ∀ store net final, cloneProspectiveBaseForPreparedDeltaBatch store prepared = .ok net
      → applyRelationDeltas store batch = .ok final
      → ∀ name row, (row ∈ rowsOf (net name) ↔ row ∈ rowsOf (final name))
        ↔ Agrees batch store name row
  cancellations
    : ∀ name updateIndex direction row,
      Names (prepared.cancellations name) updateIndex direction row
        ↔ name ∈ captureRelations ∧ CancelledAt batch name updateIndex direction row

end

-- An insertion that is taken back

def sevens : CudaBuffer Nat := ⟨[.u32], [7]⟩

/-- Insert a tuple and delete it again. -/
def insertThenDelete : List (String × RelationDelta Nat) :=
  [("fact", ⟨some sevens, none⟩), ("fact", ⟨none, some sevens⟩)]

/-- The tuple is there before. -/
def storeOfSevens : RelationStore Nat := fun name => if name = "fact" then some sevens else none

end Xlog.Gpu.DeltaBatch
