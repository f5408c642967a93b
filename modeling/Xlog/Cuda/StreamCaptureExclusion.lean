import Xlog.Cuda.StreamCaptureAdmission
import Xlog.Cuda.StreamCaptureLedger

/-! Stream capture and deferred destruction exclude each other in every interleaving. -/

namespace Xlog.Cuda.StreamCapture

open Xlog.Foundation

variable {state state' : CaptureState} {activity : Activity} {next : List Activity}
  {others : Multiset Activity} {world world' : World CaptureState Activity}

-- Open entries

/-- Every open entry belongs to a capture that has begun and has not come to `finish`. -/
def Opened (world : World CaptureState Activity) : Prop :=
  ∀ key entry, world.shared.registry.modules key = some entry → entry.closing = false
    → ∃ capture, .capture capture .begun false ∈ world.activities
      ∧ capture.lease.captureId = some key.2 ∧ capture.lease.key.context = key.1

/-- Open entries keep their captures when no registered capture leaves its beginning. -/
theorem Opened.keep (h : Opened ⟨state, activity ::ₘ others⟩)
    (hmodules : state'.registry.modules = state.registry.modules)
    (hactivity
      : ∀ capture, activity = .capture capture .begun false → capture.lease.captureId = none)
    : Opened ⟨state', next + others⟩ := by
  intro key entry hentry hopen
  obtain ⟨capture, hmem, hid, hcontext⟩ := h key entry (hmodules ▸ hentry) hopen
  refine ⟨capture, ?_, hid, hcontext⟩
  rcases Multiset.mem_cons.mp hmem with heq | hmem
  · rw [hactivity capture heq.symm] at hid
    cases hid
  · exact Multiset.mem_add.mpr (.inr hmem)

/-- A capture that comes to `finish` takes only its own open entry with it. -/
theorem Opened.close {capture : DriverStreamCapture} {stage : CaptureStage}
    {dropping : Bool} {registry : StreamCaptureRegistry} {executing : Option ExecutingRef}
    (h : Opened ⟨state, .capture capture stage dropping ::ₘ others⟩)
    (hadmission : Admission ⟨state, .capture capture stage dropping ::ₘ others⟩)
    (hclose : capture.lease.closeSubmissionAdmission state.registry = (registry, executing))
    : Opened ⟨{ state with registry := registry }, next + others⟩ := by
  obtain ⟨_, _, hok⟩ := hadmission.own
  rcases closeSubmissionAdmission_cases hclose with
    ⟨rfl, rfl, howners⟩ | ⟨id, own, hid, hown, rfl, rfl⟩
  · refine h.keep rfl ?_
    intro other heq
    cases heq
    cases hid : capture.lease.captureId with
    | none => rfl
    | some id =>
        obtain ⟨entry, hentry, hsame, _⟩ := hok.entry id hid
        exact absurd hsame (howners id hid entry hentry)
  · intro key entry hentry hopen
    simp only [Function.update_apply] at hentry
    split at hentry
    · cases hentry
      cases hopen
    · rename_i hne
      obtain ⟨other, hmem, hother, hcontext⟩ := h key entry hentry hopen
      refine ⟨other, ?_, hother, hcontext⟩
      rcases Multiset.mem_cons.mp hmem with heq | hmem
      · cases heq
        cases hid.symm.trans hother
        have hkey : key = (capture.lease.key.context, key.2) := Prod.ext hcontext.symm rfl
        exact absurd hkey hne
      · exact Multiset.mem_add.mpr (.inr hmem)

theorem Opened.captureMove (h : Opened ⟨state, activity ::ₘ others⟩)
    (hadmission : Admission ⟨state, activity ::ₘ others⟩)
    (hmove : CaptureMove state activity state' next)
    : Opened ⟨state', next + others⟩ := by
  cases hmove with
  | acquired hacquire =>
      obtain ⟨_, _, _, rfl, _⟩ := tryAcquireStreamCaptureKey_ok hacquire
      exact h.keep rfl fun _ heq => by cases heq
  | @begin capture answer registry lease result _ hbegin =>
      rcases begin_cases hbegin with
        ⟨rfl, _⟩ | ⟨_, ⟨_, _, _, rfl, _⟩ | ⟨id, rfl, rfl, rfl, _⟩⟩
      · exact h.keep rfl fun _ heq => by cases heq
      · exact h.keep rfl fun _ heq => by cases heq
      · intro key entry hentry hopen
        simp only [Function.update_apply] at hentry
        split at hentry
        · rename_i hkey
          refine ⟨_, Multiset.mem_add.mpr (.inl (Multiset.mem_coe.mpr List.mem_cons_self)), ?_⟩
          rw [hkey]
          exact ⟨rfl, rfl⟩
        · obtain ⟨other, hmem, hother⟩ := h key entry hentry hopen
          rcases Multiset.mem_cons.mp hmem with heq | hmem
          · cases heq
          · exact ⟨other, Multiset.mem_add.mpr (.inr hmem), hother⟩
  | finish _ hclose => exact h.close hadmission hclose
  | dropActive _ _ hclose => exact h.close hadmission hclose
  | release _ hactive hrelease =>
      obtain ⟨_, _, hok⟩ := hadmission.own
      refine h.keep (drainCaptureRetirements_sameAdmission hrelease).modules ?_
      intro other heq
      cases heq
      exact hok.inactive hactive
  | complete hcomplete =>
      rcases completeDriverCapture_cases hcomplete with ⟨_, ⟨_, rfl⟩ | ⟨_, _, rfl⟩⟩
      · exact h.keep rfl fun _ heq => by cases heq
      · intro key entry hentry hopen
        simp only [Function.update_apply] at hentry
        split at hentry
        · cases hentry
        · obtain ⟨other, hmem, hother⟩ := h key entry hentry hopen
          rcases Multiset.mem_cons.mp hmem with heq | hmem
          · cases heq
          · exact ⟨other, Multiset.mem_add.mpr (.inr hmem), hother⟩
  | _ => exact h.keep rfl fun _ heq => by cases heq

/-- Submissions register nothing. -/
theorem SubmissionMove.modules (hmove : SubmissionMove state activity state' next)
    : state'.registry.modules = state.registry.modules := by
  cases hmove with
  | phase h => rcases fromCaptureInfo_cases h with ⟨rfl, _⟩ | ⟨rfl, _⟩ <;> rfl
  | @phaseDrop submission _ => cases submission <;> rfl
  | exclusion h =>
      obtain ⟨_, rfl⟩ := reserveCaptureExclusion_ok h
      rfl
  | loading h =>
      obtain ⟨_, rfl⟩ := reserveCaptureExclusion_ok h
      rfl
  | _ => rfl

theorem Opened.move (h : Opened ⟨state, activity ::ₘ others⟩)
    (hadmission : Admission ⟨state, activity ::ₘ others⟩)
    (hmove : Move state activity state' next)
    : Opened ⟨state', next + others⟩ := by
  cases hmove with
  | drain hmove =>
      cases hmove with
      | start hdrain =>
          exact h.keep (drainCaptureRetirements_sameAdmission hdrain).modules
            fun _ heq => by cases heq
      | turn _ hturn =>
          exact h.keep (drainTurn_sameAdmission hturn).modules fun _ heq => by cases heq
      | _ => exact h.keep rfl fun _ heq => by cases heq
  | capture hmove => exact h.captureMove hadmission hmove
  | submission hmove =>
      refine h.keep hmove.modules ?_
      intro capture heq
      subst heq
      cases hmove
  | enqueue henqueue =>
      exact h.keep (drainCaptureRetirements_sameAdmission henqueue).modules
        fun _ heq => by cases heq

/-- In every reachable world every open entry has its capture. -/
theorem Reachable.opened (h : Reachable world) : Opened world := by
  refine ActivitySystem.Reachable.invariant h ?_ ?_ ?_
  · intro key entry hentry
    cases hentry
  · intro shared others activity hinv hentry key entry hmodules hopen
    obtain ⟨capture, hmem, hcapture⟩ := hinv key entry hmodules hopen
    exact ⟨capture, Multiset.mem_cons_of_mem hmem, hcapture⟩
  · intro shared others activity shared' next hreachable hinv hmove
    exact Opened.move hinv (Reachable.admission hreachable) hmove

-- Retirements of unknown outcome

/-- How often the callback of a retirement was called. -/
def calls (state : CaptureState) (id : Nat) : Nat :=
  state.called.countP fun retire => retire.id == id

/-- A section leaves a retirement of unknown outcome where it is, and does not call it. -/
theorem Move.retainedUnknown (h : Ledgered ⟨state, activity ::ₘ others⟩)
    (hmove : Move state activity state' next) {retire : DeferredRetirement}
    (hretire : retire ∈ state.registry.retainedUnknown)
    : retire ∈ state'.registry.retainedUnknown ∧ calls state' retire.id = calls state retire.id := by
  cases hmove with
  | drain hmove =>
      cases hmove with
      | start hdrain =>
          rcases drainCaptureRetirements_cases hdrain with ⟨rfl, _⟩ | ⟨_, _, _, _, _, rfl, _⟩ <;>
            exact ⟨hretire, rfl⟩
      | @call reservation called taken caller hcurrent hattempt =>
          refine ⟨hretire, ?_⟩
          have hpending
            : ledger ⟨state, .reservation reservation false caller ::ₘ others⟩
              = ⟨called ::ₘ apart state reservation others, state.finished, state.called,
                  state.enqueued⟩ :=
            ledger_current hcurrent
          have hne : retire.id ≠ called.id := by
            refine h.accounted.id_ne (congrArg RetirementLedger.pending hpending) ?_
            simp only [apart, Multiset.mem_add, Multiset.mem_coe]
            exact .inl (.inl (.inr hretire))
          simp [calls, Ne.symm hne]
      | turn _ hturn =>
          rcases drainTurn_cases hturn with ⟨_, _, _, rfl, _⟩ | ⟨_, rfl, _⟩
          · exact ⟨hretire, rfl⟩
          · exact ⟨List.mem_append_left _ hretire, rfl⟩
      | unwind => exact ⟨List.mem_append_left _ hretire, rfl⟩
      | _ => exact ⟨hretire, rfl⟩
  | capture hmove =>
      cases hmove with
      | acquired hacquire =>
          obtain ⟨_, _, _, rfl, _⟩ := tryAcquireStreamCaptureKey_ok hacquire
          exact ⟨hretire, rfl⟩
      | begin _ hbegin =>
          obtain ⟨hsame, _⟩ := begin_sameRetirement hbegin
          exact ⟨hsame.retainedUnknown ▸ hretire, rfl⟩
      | finish _ hclose =>
          have hsame := closeSubmissionAdmission_sameRetirement hclose
          exact ⟨hsame.retainedUnknown ▸ hretire, rfl⟩
      | dropActive _ _ hclose =>
          have hsame := closeSubmissionAdmission_sameRetirement hclose
          exact ⟨hsame.retainedUnknown ▸ hretire, rfl⟩
      | release _ _ hrelease =>
          rcases drainCaptureRetirements_cases hrelease with
            ⟨rfl, _⟩ | ⟨_, _, _, _, _, rfl, _⟩ <;> exact ⟨hretire, rfl⟩
      | complete hcomplete =>
          obtain ⟨hsame, _⟩ := completeDriverCapture_sameRetirement hcomplete
          exact ⟨hsame.retainedUnknown ▸ hretire, rfl⟩
      | _ => exact ⟨hretire, rfl⟩
  | submission hmove =>
      obtain ⟨hsame, _, _, _, hcalled⟩ := hmove.same
      exact ⟨hsame.retainedUnknown ▸ hretire, by rw [calls, hcalled, calls]⟩
  | enqueue henqueue =>
      rcases drainCaptureRetirements_cases henqueue with ⟨rfl, _⟩ | ⟨_, _, _, _, _, rfl, _⟩ <;>
        exact ⟨hretire, rfl⟩

/-- Nor does any run. -/
theorem Reachable.retainedUnknown (h : Reachable world)
    (hrun : Relation.ReflTransGen captures.Step world world') {retire : DeferredRetirement}
    (hretire : retire ∈ world.shared.registry.retainedUnknown)
    : retire ∈ world'.shared.registry.retainedUnknown
      ∧ calls world'.shared retire.id = calls world.shared retire.id := by
  induction hrun with
  | refl => exact ⟨hretire, rfl⟩
  | tail hrun hstep ih =>
      have hreachable : Reachable _ := Relation.ReflTransGen.trans h hrun
      cases hstep with
      | start => exact ih
      | move hmove =>
          obtain ⟨hmem, hcalls⟩ := Move.retainedUnknown hreachable.ledgered hmove ih.1
          exact ⟨hmem, hcalls.trans ih.2⟩

-- Exclusion

/-- What keeps capture, submission and destruction apart in one world: no retirement callback
runs beside an active key, nor is a key acquired beside one; no driver capture begins while an
ordinary phase or an exclusion is held; a captured submission is pinned to the open capture it
was taken from, and executes no more once that capture ends in the driver. A queued retirement
is in one place, finished only after a call, called once if it is one-shot, and never again
once its outcome is unknown.
-/
structure CaptureExclusion (world : World CaptureState Activity) : Prop where
  retirement
    : ∀ reservation running caller,
        .reservation reservation running caller ∈ world.activities
        → world.shared.registry.retiring = true ∧ world.shared.registry.active = ∅
  acquisition
    : ∀ key modules registry lease,
        tryAcquireStreamCaptureKey world.shared.registry key modules = .ok (registry, lease)
        → ∀ reservation running caller,
          .reservation reservation running caller ∉ world.activities
  beginning
    : ∀ lease executing answer registry lease' result,
        StreamCaptureLease.begin lease world.shared.registry executing answer
          = (registry, lease', result)
        → lease.driverActive = false → lease'.driverActive = true
        → ∀ activity ∈ world.activities,
          (∀ executionId source, activity ≠ .phase (.ordinary executionId) source)
          ∧ activity ≠ .exclusion ∧ activity ≠ .loading
  admission
    : ∀ context id owners executionId source pin,
        .phase (.captured context id owners executionId) source ∈ world.activities
        → StreamSubmissionState.pin world.shared.registry
            (.captured context id owners executionId) = .ok pin
        → pin.executing = source
          ∧ ∃ capture, .capture capture .begun false ∈ world.activities
            ∧ capture.lease.captureId = some id ∧ capture.lease.key.context = context
  ending
    : ∀ capture dropping, .capture capture .ending dropping ∈ world.activities
        → ∀ pin context id owners executionId,
          .pin pin (.captured context id owners executionId) ∈ world.activities
          → capture.driverId ≠ some id
  places
    : ((world.shared.registry.deferred : Multiset DeferredRetirement)
          + world.shared.registry.retainedUnknown
          + total inHand world.activities).map DeferredRetirement.id + world.shared.finished
        = Multiset.range world.shared.enqueued
  finished : ∀ id ∈ world.shared.finished, ∃ retire ∈ world.shared.called, retire.id = id
  once
    : ∀ id, world.shared.called.countP (fun retire => retire.isOnce && retire.id == id) ≤ 1
  retainedUnknown
    : ∀ world', Relation.ReflTransGen captures.Step world world'
        → ∀ retire ∈ world.shared.registry.retainedUnknown,
          retire ∈ world'.shared.registry.retainedUnknown
          ∧ calls world'.shared retire.id = calls world.shared retire.id

/-- A drain makes the registry retiring, so no key is active beside it. -/
theorem Exclusive.of_mem (h : Exclusive world) {reservation : DriverMutationReservation}
    {running : Bool} {caller : DrainCaller}
    (hmem : .reservation reservation running caller ∈ world.activities)
    : world.shared.registry.retiring = true ∧ world.shared.registry.active = ∅ := by
  have hheld
    : reserving (.reservation reservation running caller) ≤ total reserving world.activities :=
    le_total hmem
  have hretiring : world.shared.registry.retiring = true := by
    cases hr : world.shared.registry.retiring with
    | true => rfl
    | false => simp [h.reserved, hr, reserving] at hheld
  exact ⟨hretiring, h.inactive hretiring⟩

/-- A driver capture begins only where nobody holds an exclusion. -/
theorem Excluded.of_begin (h : Excluded world) {lease lease' : StreamCaptureLease}
    {executing : ExecutingRef} {answer : BeginAnswer} {registry : StreamCaptureRegistry}
    {result : Except CudaConditionalGraphUnavailable Unit}
    (hbegin : lease.begin world.shared.registry executing answer = (registry, lease', result))
    (hbefore : lease.driverActive = false) (hafter : lease'.driverActive = true)
    {activity : Activity} (hmem : activity ∈ world.activities)
    : excluding activity = 0 := by
  refine eq_zero_of_total ?_ hmem
  rcases begin_cases hbegin with ⟨_, rfl, _⟩ | ⟨hzero, _⟩
  · rw [hbefore] at hafter
    cases hafter
  · exact h.symm.trans hzero

/-- An admitted submission keeps its capture from ending: its entry still counts it. -/
theorem Admission.driverId_ne (h : Admission world) {capture : DriverStreamCapture}
    {dropping : Bool} (hending : .capture capture .ending dropping ∈ world.activities)
    {pin : StreamSubmissionPin} {context id executionId : Nat} {owners : CaptureOwners}
    (hpin : .pin pin (.captured context id owners executionId) ∈ world.activities)
    : capture.driverId ≠ some id := by
  intro hdriver
  have hok := h.captures capture .ending dropping hending
  obtain ⟨entry, hentry, hexec⟩ := h.pins pin _ hpin
  cases hid : capture.lease.captureId with
  | none =>
      have hnone := hok.unregistered hid id hdriver context
      rw [hnone] at hentry
      cases hentry
  | some id' =>
      cases (hok.driverId id' hid).symm.trans hdriver
      obtain ⟨own, hown, _, _, hzero⟩ := hok.entry id hid
      have hkey := h.single _ _ entry own hentry hown rfl
      rw [hkey, hown] at hentry
      cases hentry
      rw [h.counted] at hzero
      have hnothing := eq_zero_of_total hzero hpin
      simp [StreamCapture.counted, hexec] at hnothing

/-- Stream capture and deferred destruction exclude each other in every reachable world. -/
theorem captureExclusion_of_reachable {world : World CaptureState Activity}
    (h : Reachable world)
    : CaptureExclusion world where
  retirement _ _ _ hmem := h.exclusive.of_mem hmem
  acquisition key modules registry lease hacquire reservation running caller hmem := by
    obtain ⟨hidle, _⟩ := tryAcquireStreamCaptureKey_ok hacquire
    simp [(h.exclusive.of_mem hmem).1] at hidle
  beginning lease executing answer registry lease' result hbegin hbefore hafter activity hmem := by
    have hzero := h.excluded.of_begin hbegin hbefore hafter hmem
    refine ⟨?_, ?_, ?_⟩
    · rintro executionId source rfl
      cases hzero
    · rintro rfl
      cases hzero
    · rintro rfl
      cases hzero
  admission context id owners executionId source pin hphase hpin := by
    obtain ⟨entry, hentry, hopen, _, rfl⟩ := pin_captured hpin
    obtain ⟨_, ref, rfl, hsource⟩ := h.admission.phases _ source hphase _ _ _ _ rfl
    exact ⟨congrArg some (hsource entry hentry), h.opened _ entry hentry hopen⟩
  ending capture dropping hending pin context id owners executionId hpin :=
    h.admission.driverId_ne hending hpin
  places := h.ledgered.accounted.places
  finished := h.ledgered.accounted.finishedCalled
  once := h.ledgered.accounted.once
  retainedUnknown _ hrun _ hretire := h.retainedUnknown hrun hretire

/-- A capture with a pinned submission of its own is within reach. -/
theorem captureExclusion_pinned
    : ∃ world : World CaptureState Activity,
        (∃ pin submission, .pin pin submission ∈ world.activities
          ∧ pin.executing = some 0)
        ∧ CaptureExclusion world := by
  have hcalled : Reachable ⟨{}, .drain (.acquireKey ⟨1, 2⟩ 5) ::ₘ 0⟩ :=
    ActivitySystem.Reachable.start .refl (.prepare ⟨1, 2⟩ 5)
  have hdrained := ActivitySystem.Reachable.goOn hcalled (.drain (.start rfl))
  have hprepared := hdrained.goOn (.capture (.acquired rfl))
  have hfresh : ∀ id ∈ (BeginAnswer.active 7).captureId?, id ∉ ([] : List Nat) := by simp
  have hbegun := hprepared.goOn (.capture (.begin hfresh rfl))
  have hquery := hbegun.start .acquirePhase
  have hphase := hquery.goOn (.submission (.phase
    (rfl : fromCaptureInfo _ 1 .active 7 (some 0) = .ok (_, .captured 1 7 5 2))))
  have hpinned := hphase.fork (.submission (.pin
    (rfl : StreamSubmissionState.pin _ (.captured 1 7 5 2) = .ok ⟨some 0, some 5, 2⟩)))
  refine ⟨_, ⟨⟨some 0, some 5, 2⟩, .captured 1 7 5 2, ?_, rfl⟩,
    captureExclusion_of_reachable hpinned⟩
  simp

/-- What only activities keep is gone: exclusions, the drain, submission counts, open entries. -/
structure AtRest (state : CaptureState) : Prop where
  unexcluded : state.registry.captureExclusions = 0
  drained : state.registry.retiring = false
  uncounted : ∀ ref, state.executing ref = 0
  closed : ∀ key entry, state.registry.modules key = some entry → entry.closing = true

/-- Once all activities are over, also those that unwound, the registry is at rest. -/
theorem atRest_of_reachable {world : World CaptureState Activity} (h : Reachable world)
    (rest : ∀ activity ∈ world.activities, activity = .returned)
    : AtRest world.shared := by
  refine ⟨h.excluded.trans (total_of_ended rest rfl), ?_, fun ref => ?_,
    fun key entry hentry => ?_⟩
  · exact Bool.toNat_eq_zero.mp (h.exclusive.reserved.symm.trans (total_of_ended rest rfl))
  · exact (h.admission.counted ref).trans (total_of_ended rest rfl)
  · by_contra hopen
    obtain ⟨capture, hmem, _⟩ := h.opened key entry hentry (by simpa using hopen)
    cases rest _ hmem

/-- An exclusion that was held and given back. -/
theorem atRest_of_reachable_released
    : ∃ world : World CaptureState Activity,
        .returned ∈ world.activities ∧ AtRest world.shared := by
  have hcalled : Reachable ⟨{}, .reserveExclusion ::ₘ 0⟩ :=
    ActivitySystem.Reachable.start .refl .reserveExclusion
  have hheld := ActivitySystem.Reachable.goOn hcalled (.submission (.exclusion rfl))
  have hreleased := hheld.goOn (.submission .exclusionDrop)
  exact ⟨_, by simp, atRest_of_reachable hreleased (by simp)⟩

end Xlog.Cuda.StreamCapture
