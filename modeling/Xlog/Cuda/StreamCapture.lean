import Mathlib.Data.Finset.Basic

/-! The registry that keeps stream capture, ordinary submission and deferred destruction apart.
Each definition is one section of the source under the registry mutex, or a part of one.
-/

namespace Xlog.Cuda.StreamCapture

-- Registry

structure StreamCaptureKey where
  context : Nat
  stream : Nat
  deriving DecidableEq, Repr

/-- The driver's answers that the registry itself gives as errors. -/
inductive DriverError where
  | invalidValue
  | streamCaptureUnsupported
  | streamCaptureInvalidated
  deriving DecidableEq, Repr

inductive CudaConditionalGraphUnavailable where
  | streamCaptureBusy
  | driverCallFailed
  deriving DecidableEq, Repr

inductive RetirementDisposition where
  | complete
  | pending
  | retainUnknown
  deriving DecidableEq, Repr

/-- A queued retirement, known by the number it was queued under. A one-shot callback is
callable until it is moved out to be called.
-/
inductive DeferredRetirement where
  | once (id : Nat) (callable : Bool)
  | retry (id : Nat)
  deriving DecidableEq, Repr

def DeferredRetirement.id : DeferredRetirement → Nat
  | .once id _ => id
  | .retry id => id

/-- The start of an attempt: what stays in hand, and whether there is a callback to call. -/
def DeferredRetirement.attempt : DeferredRetirement → DeferredRetirement × Bool
  | .once id callable => (.once id false, callable)
  | .retry id => (.retry id, true)

/-- An owner set shared by reference, known by its address. -/
abbrev CaptureOwners := Nat

/-- A shared count of executing submissions, known by its address. -/
abbrev ExecutingRef := Nat

structure CaptureSubmissionEntry where
  owners : CaptureOwners
  executionId : Nat
  closing : Bool
  executing : ExecutingRef
  deriving DecidableEq, Repr

structure StreamCaptureRegistry where
  active : Finset StreamCaptureKey := ∅
  modules : Nat × Nat → Option CaptureSubmissionEntry := fun _ => none
  deferred : List DeferredRetirement := []
  retainedUnknown : List DeferredRetirement := []
  retiring : Bool := false
  captureExclusions : Nat := 0

-- Deferred destruction

/-- The exclusive reservation of a running drain. It is active as long as it exists here. -/
structure DriverMutationReservation where
  current : Option DeferredRetirement := none
  retry : List DeferredRetirement := []
  retainedUnknown : List DeferredRetirement := []
  deriving DecidableEq, Repr

/-- What an unwinding drain hands back: a callback that may be called again, nothing else. -/
def restored : Option DeferredRetirement → List DeferredRetirement
  | some (.retry id) => [.retry id]
  | _ => []

/-- `Drop for DriverMutationReservation` while the reservation is active. -/
def DriverMutationReservation.drop (reservation : DriverMutationReservation)
    (registry : StreamCaptureRegistry) : StreamCaptureRegistry :=
  { registry with
    deferred := registry.deferred ++ reservation.retry ++ restored reservation.current
    retainedUnknown := registry.retainedUnknown ++ reservation.retainedUnknown
    retiring := false }

/-- Where an attempted retirement goes. A completed one is dropped. -/
def DriverMutationReservation.settle (reservation : DriverMutationReservation)
    (retire : DeferredRetirement) : RetirementDisposition → DriverMutationReservation
  | .complete => { reservation with current := none }
  | .pending => { reservation with current := none, retry := reservation.retry ++ [retire] }
  | .retainUnknown =>
      { reservation with
        current := none
        retainedUnknown := reservation.retainedUnknown ++ [retire] }

/-- One turn of the drain loop: the next retirement is taken in hand, or the drain ends. -/
def drainTurn (registry : StreamCaptureRegistry) (reservation : DriverMutationReservation)
    : StreamCaptureRegistry × Option DriverMutationReservation :=
  match registry.deferred with
  | retire :: deferred =>
      ({ registry with deferred := deferred }, some { reservation with current := some retire })
  | [] =>
      ({ registry with
          deferred := reservation.retry
          retainedUnknown := registry.retainedUnknown ++ reservation.retainedUnknown
          retiring := false },
        none)

/-- The first section of a drain, up to where it unlocks the registry. -/
def drainCaptureRetirements (registry : StreamCaptureRegistry)
    : StreamCaptureRegistry × Option DriverMutationReservation :=
  if registry.active ≠ ∅ ∨ registry.retiring = true ∨ registry.deferred = [] then
    (registry, none)
  else
    drainTurn { registry with retiring := true } {}

/-- `enqueue_retirement`: the retirement is queued, and the same section starts a drain. -/
def enqueueRetirement (registry : StreamCaptureRegistry) (retire : DeferredRetirement)
    : StreamCaptureRegistry × Option DriverMutationReservation :=
  drainCaptureRetirements { registry with deferred := registry.deferred ++ [retire] }

-- Exclusion of captures

/-- `CaptureExclusionReservation::acquire`. -/
def acquireExclusion (registry : StreamCaptureRegistry) : StreamCaptureRegistry :=
  { registry with captureExclusions := registry.captureExclusions + 1 }

/-- `Drop for CaptureExclusionReservation`. -/
def releaseExclusion (registry : StreamCaptureRegistry) : StreamCaptureRegistry :=
  { registry with captureExclusions := registry.captureExclusions - 1 }

def reserveCaptureExclusion (registry : StreamCaptureRegistry)
    : Except DriverError StreamCaptureRegistry :=
  if registry.active ≠ ∅ then .error .streamCaptureUnsupported
  else .ok (acquireExclusion registry)

-- Captures

structure StreamCaptureLease where
  key : StreamCaptureKey
  driverActive : Bool
  modules : CaptureOwners
  captureId : Option Nat
  deriving DecidableEq, Repr

/-- The second section of `try_acquire_stream_capture_key`, after its drain. The lease's
owner set is the one that `DriverStreamCapture::prepare` puts in.
-/
def tryAcquireStreamCaptureKey (registry : StreamCaptureRegistry) (key : StreamCaptureKey)
    (modules : CaptureOwners)
    : Except CudaConditionalGraphUnavailable (StreamCaptureRegistry × StreamCaptureLease) :=
  if registry.retiring = true ∨ registry.captureExclusions ≠ 0 ∨ key ∈ registry.active then
    .error .streamCaptureBusy
  else
    .ok ({ registry with active := insert key registry.active },
      { key := key, driverActive := false, modules := modules, captureId := none })

/-- `release_stream_capture_key`, up to where its drain unlocks the registry. -/
def releaseStreamCaptureKey (registry : StreamCaptureRegistry) (key : StreamCaptureKey)
    : StreamCaptureRegistry × Option DriverMutationReservation :=
  drainCaptureRetirements { registry with active := registry.active.erase key }

/-- `register_capture`, with the address of the new count of executing submissions. -/
def StreamCaptureLease.registerCapture (lease : StreamCaptureLease) (id : Nat)
    (executing : ExecutingRef) (registry : StreamCaptureRegistry)
    : StreamCaptureRegistry × StreamCaptureLease :=
  let entry : CaptureSubmissionEntry :=
    { owners := lease.modules
      executionId := lease.key.stream
      closing := false
      executing := executing }
  ({ registry with
      modules := Function.update registry.modules (lease.key.context, id) (some entry) },
    { lease with captureId := some id })

/-- `close_submission_admission`. -/
def StreamCaptureLease.closeSubmissionAdmission (lease : StreamCaptureLease)
    (registry : StreamCaptureRegistry) : StreamCaptureRegistry × Option ExecutingRef :=
  match lease.captureId with
  | none => (registry, none)
  | some id =>
      match registry.modules (lease.key.context, id) with
      | none => (registry, none)
      | some entry =>
          if entry.owners ≠ lease.modules then (registry, none)
          else
            ({ registry with
                modules := Function.update registry.modules (lease.key.context, id)
                  (some { entry with closing := true }) },
              some entry.executing)

/-- `complete_driver_capture`. -/
def StreamCaptureLease.completeDriverCapture (lease : StreamCaptureLease)
    (registry : StreamCaptureRegistry) : StreamCaptureRegistry × StreamCaptureLease :=
  let completed := { lease with driverActive := false, captureId := none }
  match lease.captureId with
  | none => (registry, completed)
  | some id =>
      ({ registry with
          modules := Function.update registry.modules (lease.key.context, id) none },
        completed)

/-- What the driver answers within `DriverStreamCapture::begin`: the begin call fails, or a
capture is under way, whose query fails or does not find it active, or is found active.
-/
inductive BeginAnswer where
  | refused
  | unidentified (id : Nat)
  | active (id : Nat)
  deriving DecidableEq, Repr

/-- The capture that a begin call left under way in the driver. -/
def BeginAnswer.captureId? : BeginAnswer → Option Nat
  | .refused => none
  | .unidentified id => some id
  | .active id => some id

/-- The locked section of `DriverStreamCapture::begin`, which holds the driver calls. -/
def StreamCaptureLease.begin (lease : StreamCaptureLease) (registry : StreamCaptureRegistry)
    (executing : ExecutingRef) (answer : BeginAnswer)
    : StreamCaptureRegistry × StreamCaptureLease
      × Except CudaConditionalGraphUnavailable Unit :=
  if registry.captureExclusions ≠ 0 then (registry, lease, .error .streamCaptureBusy)
  else
    match answer with
    | .refused => (registry, lease, .error .driverCallFailed)
    | .unidentified _ =>
        (registry, { lease with driverActive := true }, .error .driverCallFailed)
    | .active id =>
        let (registry, lease) :=
          { lease with driverActive := true }.registerCapture id executing registry
        (registry, lease, .ok ())

-- Submission phases

inductive CUstreamCaptureStatus where
  | none
  | active
  | invalidated
  deriving DecidableEq, Repr

/-- An ordinary phase owns a capture exclusion. -/
inductive StreamSubmissionState where
  | ordinary (executionId : Nat)
  | captured (context id : Nat) (owners : CaptureOwners) (executionId : Nat)
  deriving DecidableEq, Repr

/-- `StreamSubmissionPhase::from_capture_info`. -/
def fromCaptureInfo (registry : StreamCaptureRegistry) (context : Nat)
    (status : CUstreamCaptureStatus) (id : Nat) (ordinaryExecutionId : Option Nat)
    : Except DriverError (StreamCaptureRegistry × StreamSubmissionState) :=
  match status with
  | .none =>
      match ordinaryExecutionId with
      | some executionId => .ok (acquireExclusion registry, .ordinary executionId)
      | none => .error .invalidValue
  | .active =>
      match registry.modules (context, id) with
      | none => .error .streamCaptureUnsupported
      | some entry =>
          if entry.closing = true then .error .streamCaptureInvalidated
          else .ok (registry, .captured context id entry.owners entry.executionId)
  | .invalidated => .error .streamCaptureInvalidated

/-- `Drop` of a phase: an ordinary one releases its exclusion. -/
def StreamSubmissionState.drop (registry : StreamCaptureRegistry)
    : StreamSubmissionState → StreamCaptureRegistry
  | .ordinary _ => releaseExclusion registry
  | .captured _ _ _ _ => registry

/-- A submission that may call its enqueue callback, with the count it is counted in. -/
structure StreamSubmissionPin where
  executing : Option ExecutingRef
  owners : Option CaptureOwners
  executionId : Nat
  deriving DecidableEq, Repr

/-- `StreamSubmissionPhase::pin`, without the increment of the count it is to be counted in. -/
def StreamSubmissionState.pin (registry : StreamCaptureRegistry)
    : StreamSubmissionState → Except DriverError StreamSubmissionPin
  | .ordinary executionId =>
      .ok { executing := none, owners := none, executionId := executionId }
  | .captured context id owners executionId =>
      match registry.modules (context, id) with
      | none => .error .streamCaptureInvalidated
      | some entry =>
          if entry.closing = false ∧ entry.owners = owners then
            .ok
              { executing := some entry.executing
                owners := some owners
                executionId := executionId }
          else .error .streamCaptureInvalidated

-- What the sections do

/-- The registries differ at most in what concerns deferred destruction. -/
structure SameAdmission (registry registry' : StreamCaptureRegistry) : Prop where
  active : registry'.active = registry.active
  modules : registry'.modules = registry.modules
  captureExclusions : registry'.captureExclusions = registry.captureExclusions

/-- The registries agree in what concerns deferred destruction. -/
structure SameRetirement (registry registry' : StreamCaptureRegistry) : Prop where
  deferred : registry'.deferred = registry.deferred
  retainedUnknown : registry'.retainedUnknown = registry.retainedUnknown
  retiring : registry'.retiring = registry.retiring

variable {registry registry' : StreamCaptureRegistry}
  {reservation : DriverMutationReservation} {reservation' : Option DriverMutationReservation}
  {lease lease' : StreamCaptureLease}

/-- A drain does nothing, or it takes the first retirement in hand while no key is active. -/
theorem drainCaptureRetirements_cases
    (h : drainCaptureRetirements registry = (registry', reservation'))
    : registry' = registry ∧ reservation' = none
      ∨ registry.active = ∅ ∧ registry.retiring = false
        ∧ ∃ retire deferred, registry.deferred = retire :: deferred
          ∧ registry' = { registry with deferred := deferred, retiring := true }
          ∧ reservation' = some { current := some retire } := by
  simp only [drainCaptureRetirements] at h
  split at h
  · exact .inl ⟨(Prod.mk.inj h).1.symm, (Prod.mk.inj h).2.symm⟩
  · rename_i hnot
    simp only [not_or, not_not, Bool.not_eq_true] at hnot
    obtain ⟨hactive, hretiring, hdeferred⟩ := hnot
    obtain ⟨retire, deferred, hcons⟩ := List.exists_cons_of_ne_nil hdeferred
    simp only [drainTurn, hcons] at h
    exact .inr ⟨hactive, hretiring, retire, deferred, hcons, (Prod.mk.inj h).1.symm,
      (Prod.mk.inj h).2.symm⟩

/-- A turn takes the next retirement in hand, or it ends the drain. -/
theorem drainTurn_cases (h : drainTurn registry reservation = (registry', reservation'))
    : (∃ retire deferred, registry.deferred = retire :: deferred
        ∧ registry' = { registry with deferred := deferred }
        ∧ reservation' = some { reservation with current := some retire })
      ∨ registry.deferred = []
        ∧ registry' = { registry with
          deferred := reservation.retry
          retainedUnknown := registry.retainedUnknown ++ reservation.retainedUnknown
          retiring := false }
        ∧ reservation' = none := by
  simp only [drainTurn] at h
  split at h
  · rename_i retire deferred hcons
    exact .inl ⟨retire, deferred, hcons, (Prod.mk.inj h).1.symm, (Prod.mk.inj h).2.symm⟩
  · rename_i hnil
    exact .inr ⟨hnil, (Prod.mk.inj h).1.symm, (Prod.mk.inj h).2.symm⟩

theorem drainCaptureRetirements_sameAdmission
    (h : drainCaptureRetirements registry = (registry', reservation'))
    : SameAdmission registry registry' := by
  rcases drainCaptureRetirements_cases h with ⟨rfl, _⟩ | ⟨_, _, _, _, _, rfl, _⟩ <;>
    exact ⟨rfl, rfl, rfl⟩

theorem drainTurn_sameAdmission
    (h : drainTurn registry reservation = (registry', reservation'))
    : SameAdmission registry registry' := by
  rcases drainTurn_cases h with ⟨_, _, _, rfl, _⟩ | ⟨_, rfl, _⟩ <;> exact ⟨rfl, rfl, rfl⟩

/-- A key is acquired only outside retirement and exclusion, and only if nobody has it. -/
theorem tryAcquireStreamCaptureKey_ok {key : StreamCaptureKey} {modules : CaptureOwners}
    (h : tryAcquireStreamCaptureKey registry key modules = .ok (registry', lease))
    : registry.retiring = false ∧ registry.captureExclusions = 0 ∧ key ∉ registry.active
      ∧ registry' = { registry with active := insert key registry.active }
      ∧ lease = ⟨key, false, modules, none⟩ := by
  simp only [tryAcquireStreamCaptureKey] at h
  split at h
  · cases h
  · rename_i hnot
    simp only [not_or, not_not, Bool.not_eq_true] at hnot
    cases h
    exact ⟨hnot.1, hnot.2.1, hnot.2.2, rfl, rfl⟩

/-- Closing admission leaves everything, or it marks the lease's own entry. -/
theorem closeSubmissionAdmission_cases {executing : Option ExecutingRef}
    (h : lease.closeSubmissionAdmission registry = (registry', executing))
    : registry' = registry ∧ executing = none
        ∧ (∀ id ∈ lease.captureId, ∀ entry,
          registry.modules (lease.key.context, id) = some entry → entry.owners ≠ lease.modules)
      ∨ ∃ id entry, lease.captureId = some id
        ∧ registry.modules (lease.key.context, id) = some entry
        ∧ registry' = { registry with
          modules := Function.update registry.modules (lease.key.context, id)
            (some { entry with closing := true }) }
        ∧ executing = some entry.executing := by
  simp only [StreamCaptureLease.closeSubmissionAdmission] at h
  split at h
  · rename_i hnone
    obtain ⟨rfl, rfl⟩ := Prod.mk.inj h
    exact .inl ⟨rfl, rfl, by simp [hnone]⟩
  · rename_i id hid
    split at h
    · rename_i hmodules
      obtain ⟨rfl, rfl⟩ := Prod.mk.inj h
      exact .inl ⟨rfl, rfl, by simp [hid, hmodules]⟩
    · rename_i entry hmodules
      split at h
      · rename_i howners
        obtain ⟨rfl, rfl⟩ := Prod.mk.inj h
        exact .inl ⟨rfl, rfl, by simpa [hid, hmodules] using howners⟩
      · obtain ⟨rfl, rfl⟩ := Prod.mk.inj h
        exact .inr ⟨id, entry, hid, hmodules, rfl, rfl⟩

theorem closeSubmissionAdmission_sameRetirement {executing : Option ExecutingRef}
    (h : lease.closeSubmissionAdmission registry = (registry', executing))
    : SameRetirement registry registry' := by
  rcases closeSubmissionAdmission_cases h with ⟨rfl, _, _⟩ | ⟨_, _, _, _, rfl, _⟩ <;>
    exact ⟨rfl, rfl, rfl⟩

/-- A begin section changes nothing, or it runs outside exclusion, and registers a capture
that the driver has identified.
-/
theorem begin_cases {executing : ExecutingRef} {answer : BeginAnswer}
    {result : Except CudaConditionalGraphUnavailable Unit}
    (h : lease.begin registry executing answer = (registry', lease', result))
    : registry' = registry ∧ lease' = lease ∧ (∃ error, result = .error error)
      ∨ registry.captureExclusions = 0
        ∧ ((∃ id error, answer = .unidentified id ∧ registry' = registry
            ∧ lease' = { lease with driverActive := true } ∧ result = .error error)
          ∨ ∃ id, answer = .active id
            ∧ registry' = { registry with
              modules := Function.update registry.modules (lease.key.context, id)
                (some ⟨lease.modules, lease.key.stream, false, executing⟩) }
            ∧ lease' = { lease with driverActive := true, captureId := some id }
            ∧ result = .ok ()) := by
  simp only [StreamCaptureLease.begin, StreamCaptureLease.registerCapture] at h
  split at h
  · cases h
    exact .inl ⟨rfl, rfl, _, rfl⟩
  · rename_i hexclusions
    cases answer with
    | refused =>
        cases h
        exact .inl ⟨rfl, rfl, _, rfl⟩
    | unidentified id =>
        cases h
        exact .inr ⟨not_not.mp hexclusions, .inl ⟨id, _, rfl, rfl, rfl, rfl⟩⟩
    | active id =>
        cases h
        exact .inr ⟨not_not.mp hexclusions, .inr ⟨id, rfl, rfl, rfl, rfl⟩⟩

theorem begin_sameRetirement {executing : ExecutingRef} {answer : BeginAnswer}
    {result : Except CudaConditionalGraphUnavailable Unit}
    (h : lease.begin registry executing answer = (registry', lease', result))
    : SameRetirement registry registry' ∧ registry'.active = registry.active := by
  rcases begin_cases h with ⟨rfl, _⟩ | ⟨_, ⟨_, _, _, rfl, _⟩ | ⟨_, _, rfl, _⟩⟩ <;>
    exact ⟨⟨rfl, rfl, rfl⟩, rfl⟩

/-- Completion removes the lease's own entry, if it has registered one. -/
theorem completeDriverCapture_cases
    (h : lease.completeDriverCapture registry = (registry', lease'))
    : lease' = { lease with driverActive := false, captureId := none }
      ∧ (lease.captureId = none ∧ registry' = registry
        ∨ ∃ id, lease.captureId = some id
          ∧ registry' = { registry with
            modules := Function.update registry.modules (lease.key.context, id) none }) := by
  simp only [StreamCaptureLease.completeDriverCapture] at h
  split at h
  · rename_i hnone
    cases h
    exact ⟨rfl, .inl ⟨hnone, rfl⟩⟩
  · rename_i id hid
    cases h
    exact ⟨rfl, .inr ⟨id, hid, rfl⟩⟩

theorem completeDriverCapture_sameRetirement
    (h : lease.completeDriverCapture registry = (registry', lease'))
    : SameRetirement registry registry' ∧ registry'.active = registry.active := by
  rcases completeDriverCapture_cases h with ⟨_, ⟨_, rfl⟩ | ⟨_, _, rfl⟩⟩ <;>
    exact ⟨⟨rfl, rfl, rfl⟩, rfl⟩

/-- A reservation excludes captures; it is granted only while no key is active. -/
theorem reserveCaptureExclusion_ok (h : reserveCaptureExclusion registry = .ok registry')
    : registry.active = ∅ ∧ registry' = acquireExclusion registry := by
  simp only [reserveCaptureExclusion] at h
  split at h
  · cases h
  · rename_i hactive
    cases h
    exact ⟨not_not.mp hactive, rfl⟩

/-- A phase is ordinary and excludes captures, or it is taken from an open entry. -/
theorem fromCaptureInfo_cases {context id : Nat} {status : CUstreamCaptureStatus}
    {executionId : Nat} {submission : StreamSubmissionState}
    (h : fromCaptureInfo registry context status id (some executionId)
      = .ok (registry', submission))
    : registry' = acquireExclusion registry ∧ submission = .ordinary executionId
      ∨ registry' = registry
        ∧ ∃ entry, registry.modules (context, id) = some entry ∧ entry.closing = false
          ∧ submission = .captured context id entry.owners entry.executionId := by
  cases status with
  | none =>
      cases h
      exact .inl ⟨rfl, rfl⟩
  | invalidated => cases h
  | active =>
      simp only [fromCaptureInfo] at h
      split at h
      · cases h
      · rename_i entry hentry
        split at h
        · cases h
        · rename_i hclosing
          cases h
          exact .inr ⟨rfl, entry, hentry, by simpa using hclosing, rfl⟩

/-- A captured submission is pinned only to an open entry with the phase's owners. -/
theorem pin_captured {context id executionId : Nat} {owners : CaptureOwners}
    {pin : StreamSubmissionPin}
    (h : StreamSubmissionState.pin registry (.captured context id owners executionId) = .ok pin)
    : ∃ entry, registry.modules (context, id) = some entry ∧ entry.closing = false
      ∧ entry.owners = owners ∧ pin = ⟨some entry.executing, some owners, executionId⟩ := by
  simp only [StreamSubmissionState.pin] at h
  split at h
  · cases h
  · rename_i entry hentry
    split at h
    · rename_i hopen
      cases h
      exact ⟨entry, hentry, hopen.1, hopen.2, rfl⟩
    · cases h

end Xlog.Cuda.StreamCapture
