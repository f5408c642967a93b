import Xlog.Cuda.StreamCapture
import Xlog.Foundation.Interleaving

/-! Interleavings of captures, submissions, module loads and retirements. Between two sections
of one activity every other may move, and callbacks may start whatever the module offers.
-/

namespace Xlog.Cuda.StreamCapture

open Xlog.Foundation

-- Activities

/-- The registry with what lives beside it. The last four fields only record the run: the
capture ids the driver gave, how many retirements were queued, which of them are finished,
and each call of a retirement callback.
-/
structure CaptureState where
  registry : StreamCaptureRegistry := {}
  executing : ExecutingRef → Nat := fun _ => 0
  nextExecuting : ExecutingRef := 0
  issued : List Nat := []
  enqueued : Nat := 0
  finished : List Nat := []
  called : List DeferredRetirement := []

/-- How far a capture has come: `finish` closes admission, waits, and ends the capture in the
driver, which the registry is then told.
-/
inductive CaptureStage where
  | prepared
  | begun
  | waiting (executing : Option ExecutingRef)
  | ending
  | completing
  | settled
  deriving DecidableEq, Repr

/-- A capture, with the id the driver gave it even where the host could not learn it. -/
structure DriverStreamCapture where
  lease : StreamCaptureLease
  driverId : Option Nat
  deriving DecidableEq, Repr

/-- What the caller of a drain does after it. -/
inductive DrainCaller where
  | done
  | acquireKey (key : StreamCaptureKey) (modules : CaptureOwners)
  | reserveLoading
  deriving DecidableEq, Repr

/-- What can be under way: a drain on behalf of its caller, the other entry points at the
section they come to, and the values that callers hold. A held phase records which registered
count it was taken from.
-/
inductive Activity where
  | drain (caller : DrainCaller)
  | reservation (reservation : DriverMutationReservation) (running : Bool)
    (caller : DrainCaller)
  | enqueue (once : Bool)
  | acquireKey (key : StreamCaptureKey) (modules : CaptureOwners)
  | capture (capture : DriverStreamCapture) (stage : CaptureStage) (dropping : Bool)
  | acquirePhase
  | phase (state : StreamSubmissionState) (source : Option ExecutingRef)
  | pin (pin : StreamSubmissionPin) (state : StreamSubmissionState)
  | reserveExclusion
  | exclusion
  | reserveLoading
  | loading
  | returned
  deriving DecidableEq, Repr

/-- The entry points, at their first section. -/
inductive Entry : Activity → Prop
  | reap : Entry (.drain .done)
  | retire once : Entry (.enqueue once)
  | prepare key modules : Entry (.drain (.acquireKey key modules))
  | acquirePhase : Entry .acquirePhase
  | reserveExclusion : Entry .reserveExclusion
  | loadModule : Entry (.drain .reserveLoading)

def DrainCaller.next : DrainCaller → Activity
  | .done => .returned
  | .acquireKey key modules => .acquireKey key modules
  | .reserveLoading => .reserveLoading

/-- What is left to be done when a section of a drain has unlocked the registry. -/
def afterDrain (caller : DrainCaller) : Option DriverMutationReservation → Activity
  | none => caller.next
  | some reservation => .reservation reservation false caller

/-- The retirement that is queued with the next number. -/
def newRetirement (id : Nat) : Bool → DeferredRetirement
  | true => .once id true
  | false => .retry id

/-- A one-shot callback always completes. -/
def DeferredRetirement.mayReport : DeferredRetirement → RetirementDisposition → Prop
  | .once _ _, disposition => disposition = .complete
  | .retry _, _ => True

/-- The retirement that a settled attempt finishes. -/
def completedBy (retire : DeferredRetirement) : RetirementDisposition → List Nat
  | .complete => [retire.id]
  | _ => []

/-- The one-shot retirement that an unwinding drain drops. -/
def droppedBy : Option DeferredRetirement → List DeferredRetirement
  | some (.once id callable) => [.once id callable]
  | _ => []

-- Sections

/-- One section of the drain loop, a callback's start, its return or its unwinding. -/
inductive DrainMove (state : CaptureState) : Activity → CaptureState → List Activity → Prop
  | start {caller registry reservation}
      (h : drainCaptureRetirements state.registry = (registry, reservation))
    : DrainMove state (.drain caller) { state with registry := registry }
        [afterDrain caller reservation]
  | call {reservation retire inHand caller} (hcurrent : reservation.current = some retire)
      (h : retire.attempt = (inHand, true))
    : DrainMove state (.reservation reservation false caller)
        { state with called := retire :: state.called }
        [.reservation { reservation with current := some inHand } true caller]
  | skip {reservation retire inHand caller} (hcurrent : reservation.current = some retire)
      (h : retire.attempt = (inHand, false))
    : DrainMove state (.reservation reservation false caller)
        { state with finished := retire.id :: state.finished }
        [.reservation (reservation.settle inHand .complete) false caller]
  | report {reservation retire disposition caller}
      (hcurrent : reservation.current = some retire) (h : retire.mayReport disposition)
    : DrainMove state (.reservation reservation true caller)
        { state with finished := completedBy retire disposition ++ state.finished }
        [.reservation (reservation.settle retire disposition) false caller]
  | turn {reservation caller registry reservation'} (hcurrent : reservation.current = none)
      (h : drainTurn state.registry reservation = (registry, reservation'))
    : DrainMove state (.reservation reservation false caller)
        { state with registry := registry } [afterDrain caller reservation']
  | unwind {reservation running caller} (h : running = true ∨ reservation.current = none)
    : DrainMove state (.reservation reservation running caller)
        { state with
          registry := reservation.drop state.registry
          finished := (droppedBy reservation.current).map (·.id) ++ state.finished }
        []

/-- The id of the capture that is under way in the driver after its begin section. -/
def begunId (lease : StreamCaptureLease) (answer : BeginAnswer) : Option Nat :=
  if lease.driverActive then answer.captureId? else none

/-- One section of a capture, from the reservation of its key to its drop. -/
inductive CaptureMove (state : CaptureState) : Activity → CaptureState → List Activity → Prop
  | acquired {key modules registry lease}
      (h : tryAcquireStreamCaptureKey state.registry key modules = .ok (registry, lease))
    : CaptureMove state (.acquireKey key modules) { state with registry := registry }
        [.capture ⟨lease, none⟩ .prepared false]
  | busy {key modules error}
      (h : tryAcquireStreamCaptureKey state.registry key modules = .error error)
    : CaptureMove state (.acquireKey key modules) state [.returned]
  | unbound {capture}
    : CaptureMove state (.capture capture .prepared false) state
        [.capture capture .begun false]
  -- The driver's capture ids are unique over the lifetime of the process.
  | begin {capture answer registry lease result}
      (hfresh : ∀ id ∈ answer.captureId?, id ∉ state.issued)
      (h : capture.lease.begin state.registry state.nextExecuting answer
        = (registry, lease, result))
    : CaptureMove state (.capture capture .prepared false)
        { state with
          registry := registry
          nextExecuting := state.nextExecuting + 1
          issued := (begunId lease answer).toList ++ state.issued }
        [.capture ⟨lease, begunId lease answer⟩ .begun false]
  | finish {capture registry executing} (hactive : capture.lease.driverActive = true)
      (h : capture.lease.closeSubmissionAdmission state.registry = (registry, executing))
    : CaptureMove state (.capture capture .begun false) { state with registry := registry }
        [.capture capture (.waiting executing) false]
  | dropActive {capture stage registry executing}
      (hstage : stage = .begun ∨ stage = .settled) (hactive : capture.lease.driverActive = true)
      (h : capture.lease.closeSubmissionAdmission state.registry = (registry, executing))
    : CaptureMove state (.capture capture stage false) { state with registry := registry }
        [.capture capture (.waiting executing) true]
  | release {capture stage dropping registry reservation}
      (hstage
        : stage = .settled ∨ dropping = false ∧ (stage = .prepared ∨ stage = .begun))
      (hactive : capture.lease.driverActive = false)
      (h : releaseStreamCaptureKey state.registry capture.lease.key = (registry, reservation))
    : CaptureMove state (.capture capture stage dropping) { state with registry := registry }
        [afterDrain .done reservation]
  | abandon {capture} (hactive : capture.lease.driverActive = true)
    : CaptureMove state (.capture capture .settled true) state [.enqueue true]
  | idle {capture executing dropping} (h : ∀ ref ∈ executing, state.executing ref = 0)
    : CaptureMove state (.capture capture (.waiting executing) dropping) state
        [.capture capture .ending dropping]
  | stillActive {capture dropping}
    : CaptureMove state (.capture capture .ending dropping) state
        [.capture capture .settled dropping]
  | ended {capture dropping}
    : CaptureMove state (.capture capture .ending dropping) state
        [.capture capture .completing dropping]
  | complete {capture dropping registry lease}
      (h : capture.lease.completeDriverCapture state.registry = (registry, lease))
    : CaptureMove state (.capture capture .completing dropping)
        { state with registry := registry }
        [.capture { capture with lease := lease } .settled dropping]

/-- The registered count that a captured phase's entry has. -/
def sourceOf (registry : StreamCaptureRegistry) : StreamSubmissionState → Option ExecutingRef
  | .ordinary _ => none
  | .captured context id _ _ => (registry.modules (context, id)).map (·.executing)

/-- The counts after one more submission is counted, or one less. -/
def countExecuting (executing : ExecutingRef → Nat) (change : Nat → Nat)
    : Option ExecutingRef → ExecutingRef → Nat
  | none => executing
  | some ref => Function.update executing ref (change (executing ref))

/-- One section of a submission, a reservation or a module load. -/
inductive SubmissionMove (state : CaptureState)
    : Activity → CaptureState → List Activity → Prop
  | phase {context status id executionId registry submission}
      (h : fromCaptureInfo state.registry context status id (some executionId)
        = .ok (registry, submission))
    : SubmissionMove state .acquirePhase { state with registry := registry }
        [.phase submission (sourceOf state.registry submission)]
  | phaseRefused : SubmissionMove state .acquirePhase state [.returned]
  | phaseDrop {submission source}
    : SubmissionMove state (.phase submission source)
        { state with registry := submission.drop state.registry } [.returned]
  | pin {submission source pin} (h : submission.pin state.registry = .ok pin)
    : SubmissionMove state (.phase submission source)
        { state with executing := countExecuting state.executing (· + 1) pin.executing }
        [.phase submission source, .pin pin submission]
  | pinDrop {pin submission}
    : SubmissionMove state (.pin pin submission)
        { state with executing := countExecuting state.executing (· - 1) pin.executing }
        [.returned]
  | exclusion {registry} (h : reserveCaptureExclusion state.registry = .ok registry)
    : SubmissionMove state .reserveExclusion { state with registry := registry } [.exclusion]
  | exclusionRefused {error} (h : reserveCaptureExclusion state.registry = .error error)
    : SubmissionMove state .reserveExclusion state [.returned]
  | exclusionDrop
    : SubmissionMove state .exclusion
        { state with registry := releaseExclusion state.registry } [.returned]
  | loading {registry} (h : reserveCaptureExclusion state.registry = .ok registry)
    : SubmissionMove state .reserveLoading { state with registry := registry } [.loading]
  | loadingRefused {error} (h : reserveCaptureExclusion state.registry = .error error)
    : SubmissionMove state .reserveLoading state [.returned]
  | loaded
    : SubmissionMove state .loading
        { state with registry := releaseExclusion state.registry } [.drain .done]
  | loadUnwind
    : SubmissionMove state .loading
        { state with registry := releaseExclusion state.registry } [.returned]

/-- One section of any activity; queueing a retirement gives it the next number. -/
inductive Move (state : CaptureState) : Activity → CaptureState → List Activity → Prop
  | drain {activity state' next} (h : DrainMove state activity state' next)
    : Move state activity state' next
  | capture {activity state' next} (h : CaptureMove state activity state' next)
    : Move state activity state' next
  | submission {activity state' next} (h : SubmissionMove state activity state' next)
    : Move state activity state' next
  | enqueue {once registry reservation}
      (h : enqueueRetirement state.registry (newRetirement state.enqueued once)
        = (registry, reservation))
    : Move state (.enqueue once)
        { state with registry := registry, enqueued := state.enqueued + 1 }
        [afterDrain .done reservation]

/-- Every entry point at any time, and every section in any order. -/
def captures : ActivitySystem CaptureState Activity where
  entry := Entry
  move := Move

/-- What any interleaving can reach from the empty registry. -/
def Reachable (world : World CaptureState Activity) : Prop :=
  captures.Reachable {} world

end Xlog.Cuda.StreamCapture
