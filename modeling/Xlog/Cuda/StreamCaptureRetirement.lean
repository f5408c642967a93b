import Xlog.Cuda.StreamCaptureRun

/-! One drain at a time, never beside an active key, and a ledger in which every queued
retirement has exactly one place.
-/

namespace Xlog.Cuda.StreamCapture

open Xlog.Foundation

variable {state state' : CaptureState} {activity : Activity} {next : List Activity}
  {others : Multiset Activity}

-- The reservation

/-- A running drain holds the one reservation. -/
def reserving : Activity → Nat
  | .reservation _ _ _ => 1
  | _ => 0

/-- A retiring registry has exactly one drain and no active key. -/
structure Exclusive (world : World CaptureState Activity) : Prop where
  inactive : world.shared.registry.retiring = true → world.shared.registry.active = ∅
  reserved : total reserving world.activities = world.shared.registry.retiring.toNat

@[simp]
theorem reserving_next (caller : DrainCaller) : reserving caller.next = 0 := by
  cases caller <;> rfl

/-- A section that leaves the flag alone keeps exclusion, if it leaves as many drains. -/
theorem Exclusive.of_same (h : Exclusive ⟨state, activity ::ₘ others⟩)
    (hretiring : state'.registry.retiring = state.registry.retiring)
    (hactive : state.registry.retiring = true → state'.registry.active = state.registry.active)
    (hnext : total reserving next = reserving activity)
    : Exclusive ⟨state', next + others⟩ := by
  refine ⟨?_, ?_⟩
  · intro hr
    simp only [hretiring] at hr
    exact (hactive hr).trans (h.inactive hr)
  · have := h.reserved
    simp only [total_add, total_cons, hnext, hretiring] at this ⊢
    exact this

/-- A drain that starts makes the registry retiring, and was not in the way of any other. -/
theorem Exclusive.of_drain {registry registry' : StreamCaptureRegistry}
    {reservation : Option DriverMutationReservation} {caller : DrainCaller}
    (h : Exclusive ⟨state, activity ::ₘ others⟩) (hactivity : reserving activity = 0)
    (hretiring : registry.retiring = state.registry.retiring)
    (hactive : state.registry.retiring = true → registry.active = ∅)
    (hdrain : drainCaptureRetirements registry = (registry', reservation))
    (hstate : state'.registry = registry')
    : Exclusive ⟨state', [afterDrain caller reservation] + others⟩ := by
  have hreserved := h.reserved
  simp only [total_cons, hactivity, zero_add] at hreserved
  rcases drainCaptureRetirements_cases hdrain with
    ⟨rfl, rfl⟩ | ⟨hempty, hidle, retire, deferred, hcons, rfl, rfl⟩
  · refine ⟨?_, ?_⟩
    · intro hr
      simp only [hstate, hretiring] at hr ⊢
      exact hactive hr
    · simp [afterDrain, hreserved, hstate, hretiring]
  · refine ⟨?_, ?_⟩
    · intro _
      simpa [hstate] using hempty
    · rw [hretiring] at hidle
      simp [afterDrain, reserving, hreserved, hstate, hidle]

/-- While a drain is under way, the registry is retiring and nothing else is a drain. -/
theorem Exclusive.retiring {reservation : DriverMutationReservation} {running : Bool}
    {caller : DrainCaller}
    (h : Exclusive ⟨state, .reservation reservation running caller ::ₘ others⟩)
    : state.registry.retiring = true ∧ total reserving others = 0 := by
  have hreserved := h.reserved
  simp only [total_cons, reserving] at hreserved
  cases hr : state.registry.retiring <;> simp [hr] at hreserved ⊢
  simpa using hreserved

theorem Exclusive.drainMove (h : Exclusive ⟨state, activity ::ₘ others⟩)
    (hmove : DrainMove state activity state' next)
    : Exclusive ⟨state', next + others⟩ := by
  cases hmove with
  | start hdrain => exact h.of_drain rfl rfl h.inactive hdrain rfl
  | call => exact h.of_same rfl (fun _ => rfl) rfl
  | skip => exact h.of_same rfl (fun _ => rfl) rfl
  | report => exact h.of_same rfl (fun _ => rfl) rfl
  | turn hcurrent hturn =>
      obtain ⟨hretiring, hothers⟩ := h.retiring
      rcases drainTurn_cases hturn with ⟨retire, deferred, _, rfl, rfl⟩ | ⟨_, rfl, rfl⟩
      · exact h.of_same rfl (fun _ => rfl) rfl
      · refine ⟨?_, ?_⟩
        · intro hr
          cases hr
        · simp [afterDrain, hothers]
  | unwind =>
      obtain ⟨_, hothers⟩ := h.retiring
      refine ⟨?_, ?_⟩
      · intro hr
        cases hr
      · simpa [DriverMutationReservation.drop] using hothers

theorem Exclusive.captureMove (h : Exclusive ⟨state, activity ::ₘ others⟩)
    (hmove : CaptureMove state activity state' next)
    : Exclusive ⟨state', next + others⟩ := by
  cases hmove with
  | acquired hacquire =>
      obtain ⟨hretiring, _, _, rfl, rfl⟩ := tryAcquireStreamCaptureKey_ok hacquire
      exact h.of_same rfl (fun hr => by simp [hretiring] at hr) rfl
  | busy => exact h.of_same rfl (fun _ => rfl) rfl
  | unbound => exact h.of_same rfl (fun _ => rfl) rfl
  | begin _ hbegin =>
      obtain ⟨hsame, hactive⟩ := begin_sameRetirement hbegin
      exact h.of_same hsame.retiring (fun _ => hactive) rfl
  | finish _ hclose =>
      rcases closeSubmissionAdmission_cases hclose with ⟨rfl, _⟩ | ⟨_, _, _, _, rfl, _⟩ <;>
        exact h.of_same rfl (fun _ => rfl) rfl
  | dropActive _ _ hclose =>
      rcases closeSubmissionAdmission_cases hclose with ⟨rfl, _⟩ | ⟨_, _, _, _, rfl, _⟩ <;>
        exact h.of_same rfl (fun _ => rfl) rfl
  | release _ _ hrelease =>
      refine h.of_drain rfl ?_ ?_ hrelease rfl
      · rfl
      · intro hr
        have hempty : state.registry.active = ∅ := h.inactive hr
        simp [hempty]
  | abandon => exact h.of_same rfl (fun _ => rfl) rfl
  | idle => exact h.of_same rfl (fun _ => rfl) rfl
  | stillActive => exact h.of_same rfl (fun _ => rfl) rfl
  | ended => exact h.of_same rfl (fun _ => rfl) rfl
  | complete hcomplete =>
      obtain ⟨hsame, hactive⟩ := completeDriverCapture_sameRetirement hcomplete
      exact h.of_same hsame.retiring (fun _ => hactive) rfl

/-- Submissions touch neither the keys nor what concerns deferred destruction. -/
theorem SubmissionMove.same (hmove : SubmissionMove state activity state' next)
    : SameRetirement state.registry state'.registry
      ∧ state'.registry.active = state.registry.active
      ∧ state'.enqueued = state.enqueued ∧ state'.finished = state.finished
      ∧ state'.called = state.called := by
  cases hmove with
  | phase h =>
      rcases fromCaptureInfo_cases h with ⟨rfl, _⟩ | ⟨rfl, _⟩ <;>
        exact ⟨⟨rfl, rfl, rfl⟩, rfl, rfl, rfl, rfl⟩
  | @phaseDrop submission _ => cases submission <;> exact ⟨⟨rfl, rfl, rfl⟩, rfl, rfl, rfl, rfl⟩
  | exclusion h =>
      obtain ⟨_, rfl⟩ := reserveCaptureExclusion_ok h
      exact ⟨⟨rfl, rfl, rfl⟩, rfl, rfl, rfl, rfl⟩
  | loading h =>
      obtain ⟨_, rfl⟩ := reserveCaptureExclusion_ok h
      exact ⟨⟨rfl, rfl, rfl⟩, rfl, rfl, rfl, rfl⟩
  | _ => exact ⟨⟨rfl, rfl, rfl⟩, rfl, rfl, rfl, rfl⟩

/-- Submissions are no drains. -/
theorem SubmissionMove.reserving (hmove : SubmissionMove state activity state' next)
    : total StreamCapture.reserving next = StreamCapture.reserving activity := by
  cases hmove <;> rfl

theorem Exclusive.move (h : Exclusive ⟨state, activity ::ₘ others⟩)
    (hmove : Move state activity state' next)
    : Exclusive ⟨state', next + others⟩ := by
  cases hmove with
  | drain hmove => exact h.drainMove hmove
  | capture hmove => exact h.captureMove hmove
  | submission hmove =>
      obtain ⟨hsame, hactive, _⟩ := hmove.same
      exact h.of_same hsame.retiring (fun _ => hactive) hmove.reserving
  | enqueue henqueue =>
      refine h.of_drain rfl ?_ ?_ henqueue rfl
      · rfl
      · exact h.inactive

/-- In every reachable world at most one drain runs, and only while no key is active. -/
theorem Reachable.exclusive {world : World CaptureState Activity} (h : Reachable world)
    : Exclusive world := by
  refine ActivitySystem.Reachable.invariant h ⟨by simp, by simp⟩ ?_ ?_
  · intro shared others activity hinv hentry
    refine ⟨hinv.inactive, ?_⟩
    have hzero : reserving activity = 0 := by cases hentry <;> rfl
    simpa [hzero] using hinv.reserved
  · intro shared others activity shared' next _ hinv hmove
    exact hinv.move hmove

end Xlog.Cuda.StreamCapture
