import Xlog.Cuda.StreamCaptureRun

/-! Who holds what: exclusions and keys are counted by their holders, every open entry has its
capture, and every counted submission has its entry.
-/

namespace Xlog.Cuda.StreamCapture

open Xlog.Foundation

variable {state state' : CaptureState} {activity : Activity} {next : List Activity}
  {others : Multiset Activity}

-- Exclusions

/-- An ordinary phase, a reservation and a module load hold one exclusion each. -/
def excluding : Activity → Nat
  | .phase (.ordinary _) _ => 1
  | .exclusion => 1
  | .loading => 1
  | _ => 0

/-- The registry counts the exclusions that are held. -/
def Excluded (world : World CaptureState Activity) : Prop :=
  world.shared.registry.captureExclusions = total excluding world.activities

@[simp]
theorem excluding_afterDrain (caller : DrainCaller)
    (reservation : Option DriverMutationReservation)
    : excluding (afterDrain caller reservation) = 0 := by
  cases reservation with
  | none => cases caller <;> rfl
  | some => rfl

/-- A section keeps the count if it moves it as its own holdings move. -/
theorem Excluded.of_moved (h : Excluded ⟨state, activity ::ₘ others⟩)
    (hmoved
      : state'.registry.captureExclusions + excluding activity
        = state.registry.captureExclusions + total excluding next)
    : Excluded ⟨state', next + others⟩ := by
  simp only [Excluded, total_cons, total_add] at h ⊢
  omega

/-- A section of a drain moves no exclusion. -/
theorem excluding_drained {registry registry' : StreamCaptureRegistry} {caller : DrainCaller}
    {reservation : Option DriverMutationReservation}
    (hsame : registry'.captureExclusions = registry.captureExclusions)
    (hactivity : excluding activity = 0)
    : registry'.captureExclusions + excluding activity
      = registry.captureExclusions + total excluding {afterDrain caller reservation} := by
  simp [hsame, hactivity]

theorem Excluded.move (h : Excluded ⟨state, activity ::ₘ others⟩)
    (hmove : Move state activity state' next)
    : Excluded ⟨state', next + others⟩ := by
  have hheld : excluding activity ≤ state.registry.captureExclusions := by
    have hcount : state.registry.captureExclusions
        = total excluding (activity ::ₘ others) := h
    rw [hcount]
    exact le_total (Multiset.mem_cons_self _ _)
  refine h.of_moved ?_
  cases hmove with
  | drain hmove =>
      cases hmove with
      | start hdrain =>
          exact excluding_drained (drainCaptureRetirements_sameAdmission hdrain).captureExclusions rfl
      | turn _ hturn => exact excluding_drained (drainTurn_sameAdmission hturn).captureExclusions rfl
      | _ => rfl
  | capture hmove =>
      cases hmove with
      | acquired hacquire =>
          obtain ⟨_, _, _, rfl, rfl⟩ := tryAcquireStreamCaptureKey_ok hacquire
          rfl
      | begin _ hbegin =>
          rcases begin_cases hbegin with ⟨rfl, _⟩ | ⟨_, ⟨_, _, _, rfl, _⟩ | ⟨_, _, rfl, _⟩⟩ <;>
            rfl
      | finish _ hclose =>
          rcases closeSubmissionAdmission_cases hclose with ⟨rfl, _⟩ | ⟨_, _, _, _, rfl, _⟩ <;>
            rfl
      | dropActive _ _ hclose =>
          rcases closeSubmissionAdmission_cases hclose with ⟨rfl, _⟩ | ⟨_, _, _, _, rfl, _⟩ <;>
            rfl
      | release _ _ hrelease =>
          have hsame := drainCaptureRetirements_sameAdmission hrelease
          exact excluding_drained hsame.captureExclusions rfl
      | complete hcomplete =>
          rcases completeDriverCapture_cases hcomplete with ⟨_, ⟨_, rfl⟩ | ⟨_, _, rfl⟩⟩ <;> rfl
      | _ => rfl
  | submission hmove =>
      cases hmove with
      | phase hphase =>
          rcases fromCaptureInfo_cases hphase with ⟨rfl, rfl⟩ | ⟨rfl, _, _, _, rfl⟩ <;> rfl
      | @phaseDrop submission _ =>
          cases submission with
          | ordinary => exact Nat.sub_add_cancel hheld
          | captured => rfl
      | pin => rfl
      | exclusion hreserve =>
          obtain ⟨_, rfl⟩ := reserveCaptureExclusion_ok hreserve
          rfl
      | loading hreserve =>
          obtain ⟨_, rfl⟩ := reserveCaptureExclusion_ok hreserve
          rfl
      | exclusionDrop => exact Nat.sub_add_cancel hheld
      | loaded => exact Nat.sub_add_cancel hheld
      | loadUnwind => exact Nat.sub_add_cancel hheld
      | _ => rfl
  | enqueue henqueue =>
      have hsame := drainCaptureRetirements_sameAdmission henqueue
      exact excluding_drained hsame.captureExclusions rfl

/-- In every reachable world the registry counts the exclusions that are held. -/
theorem Reachable.excluded {world : World CaptureState Activity} (h : Reachable world)
    : Excluded world := by
  refine ActivitySystem.Reachable.invariant h (by simp [Excluded]) ?_ ?_
  · intro shared others activity hinv hentry
    have hzero : excluding activity = 0 := by cases hentry <;> rfl
    simpa [Excluded, hzero] using hinv
  · intro shared others activity shared' next _ hinv hmove
    exact Excluded.move hinv hmove

-- Captures and their entries

/-- The key that a capture has reserved. -/
def leased : Activity → Multiset StreamCaptureKey
  | .capture capture _ _ => {capture.lease.key}
  | _ => 0

/-- The driver's id of the capture that a capture has begun. -/
def driverIds : Activity → Multiset Nat
  | .capture capture _ _ => capture.driverId.toList
  | _ => 0

/-- A pinned submission counts once where it is counted. -/
def counted (ref : ExecutingRef) : Activity → Nat
  | .pin pin _ => if pin.executing = some ref then 1 else 0
  | _ => 0

/-- The registered entry of a capture: open from its beginning up to `finish`, then closing,
and without executing submissions once `finish` has waited.
-/
def StageOk (executing : ExecutingRef → Nat) (entry : CaptureSubmissionEntry)
    : CaptureStage → Prop
  | .prepared => False
  | .begun => entry.closing = false
  | .waiting ref => entry.closing = true ∧ ref = some entry.executing
  | .ending => entry.closing = true ∧ executing entry.executing = 0
  | .completing => entry.closing = true ∧ executing entry.executing = 0
  | .settled => entry.closing = true

/-- A capture has its own entry, or none has its id. -/
structure CaptureOk (state : CaptureState) (capture : DriverStreamCapture)
    (stage : CaptureStage) : Prop where
  prepared
    : stage = .prepared → capture.lease.driverActive = false ∧ capture.driverId = none
  inactive : capture.lease.driverActive = false → capture.lease.captureId = none
  driverId : ∀ id, capture.lease.captureId = some id → capture.driverId = some id
  entry
    : ∀ id, capture.lease.captureId = some id
      → ∃ entry, state.registry.modules (capture.lease.key.context, id) = some entry
        ∧ entry.owners = capture.lease.modules ∧ StageOk state.executing entry stage
  unregistered
    : capture.lease.captureId = none
      → ∀ id, capture.driverId = some id
      → ∀ context, state.registry.modules (context, id) = none

/-- A captured submission is counted in the entry of its capture, an ordinary one is not. -/
def PinOk (state : CaptureState) (pin : StreamSubmissionPin) : StreamSubmissionState → Prop
  | .ordinary _ => pin.executing = none
  | .captured context id _ _ =>
      ∃ entry, state.registry.modules (context, id) = some entry
        ∧ pin.executing = some entry.executing

/-- A captured phase was taken from the only entry that its id ever had. -/
def PhaseOk (state : CaptureState) (submission : StreamSubmissionState)
    (source : Option ExecutingRef) : Prop :=
  ∀ context id owners executionId, submission = .captured context id owners executionId
    → id ∈ state.issued
      ∧ ∃ ref, source = some ref
        ∧ ∀ entry, state.registry.modules (context, id) = some entry → entry.executing = ref

structure Admission (world : World CaptureState Activity) : Prop where
  leases : total leased world.activities ≤ world.shared.registry.active.val
  distinct : (total driverIds world.activities).Nodup
  issued : ∀ id ∈ total driverIds world.activities, id ∈ world.shared.issued
  entries
    : ∀ key entry, world.shared.registry.modules key = some entry
      → entry.executing < world.shared.nextExecuting ∧ key.2 ∈ world.shared.issued
  apart
    : ∀ key key' entry entry', world.shared.registry.modules key = some entry
      → world.shared.registry.modules key' = some entry'
      → entry.executing = entry'.executing → key = key'
  single
    : ∀ key key' entry entry', world.shared.registry.modules key = some entry
      → world.shared.registry.modules key' = some entry' → key.2 = key'.2 → key = key'
  counted
    : ∀ ref, world.shared.executing ref = total (counted ref) world.activities
  captures
    : ∀ capture stage dropping, .capture capture stage dropping ∈ world.activities
      → CaptureOk world.shared capture stage
  pins
    : ∀ pin submission, .pin pin submission ∈ world.activities
      → PinOk world.shared pin submission
  phases
    : ∀ submission source, .phase submission source ∈ world.activities
      → PhaseOk world.shared submission source

/-- A capture does not see changes to entries with other ids, nor counts that stay at zero. -/
theorem CaptureOk.frame {capture : DriverStreamCapture} {stage : CaptureStage}
    (h : CaptureOk state capture stage)
    (hmodules
      : ∀ context id, capture.driverId = some id
        → state'.registry.modules (context, id) = state.registry.modules (context, id))
    (hidle
      : ∀ key entry, state.registry.modules key = some entry → entry.closing = true
        → state.executing entry.executing = 0 → state'.executing entry.executing = 0)
    : CaptureOk state' capture stage := by
  refine ⟨h.prepared, h.inactive, h.driverId, ?_, ?_⟩
  · intro id hid
    obtain ⟨entry, hentry, howners, hstage⟩ := h.entry id hid
    refine ⟨entry, (hmodules _ _ (h.driverId id hid)).trans hentry, howners, ?_⟩
    cases stage with
    | ending => exact ⟨hstage.1, hidle _ _ hentry hstage.1 hstage.2⟩
    | completing => exact ⟨hstage.1, hidle _ _ hentry hstage.1 hstage.2⟩
    | _ => exact hstage
  · intro hnone id hid context
    exact (hmodules _ _ hid).trans (h.unregistered hnone id hid context)

/-- An activity that is no capture, no pin and no phase. -/
def Neutral : Activity → Prop
  | .capture _ _ _ => False
  | .pin _ _ => False
  | .phase _ _ => False
  | _ => True

theorem neutral_afterDrain (caller : DrainCaller)
    (reservation : Option DriverMutationReservation)
    : Neutral (afterDrain caller reservation) := by
  cases reservation with
  | none => cases caller <;> trivial
  | some => trivial

/-- The entries and counts are the same, no key of a capture is lost, and no number is given
back.
-/
theorem Admission.congr {activities : Multiset Activity} (h : Admission ⟨state, activities⟩)
    (hleases : total leased activities ≤ state'.registry.active.val)
    (hmodules : state'.registry.modules = state.registry.modules)
    (hexecuting : state'.executing = state.executing)
    (hnext : state.nextExecuting ≤ state'.nextExecuting)
    (hissued : ∀ id ∈ state.issued, id ∈ state'.issued)
    : Admission ⟨state', activities⟩ := by
  obtain ⟨_, distinct, issued, entries, apart, single, counted, captures, pins, phases⟩ := h
  refine ⟨hleases, distinct, fun id hid => hissued id (issued id hid), ?_, hmodules ▸ apart,
    hmodules ▸ single, hexecuting ▸ counted, ?_, ?_, ?_⟩
  · intro key entry hentry
    obtain ⟨hlt, hmem⟩ := entries key entry (hmodules ▸ hentry)
    exact ⟨hlt.trans_le hnext, hissued _ hmem⟩
  · intro capture stage dropping hmem
    refine (captures capture stage dropping hmem).frame ?_ ?_
    · intro context id _
      rw [hmodules]
    · intro key entry _ _ hzero
      rw [hexecuting]
      exact hzero
  · intro pin submission hmem
    have hok := pins pin submission hmem
    cases submission with
    | ordinary => exact hok
    | captured =>
        simp only [PinOk, hmodules] at hok ⊢
        exact hok
  · intro submission source hmem context id owners executionId hsubmission
    obtain ⟨hid, hsource⟩ := phases submission source hmem context id owners executionId
      hsubmission
    rw [hmodules]
    exact ⟨hissued id hid, hsource⟩

/-- Whatever is not counted may leave. -/
theorem Admission.leave (h : Admission ⟨state, activity ::ₘ others⟩)
    (hcounted : ∀ ref, StreamCapture.counted ref activity = 0)
    : Admission ⟨state, others⟩ := by
  obtain ⟨leases, distinct, issued, entries, apart, single, counted, captures, pins, phases⟩ := h
  simp only [total_cons, hcounted, zero_add] at leases distinct issued counted
  refine ⟨?_, ?_, ?_, entries, apart, single, counted, ?_, ?_, ?_⟩
  · exact (Multiset.le_add_left _ _).trans leases
  · exact Multiset.nodup_of_le (Multiset.le_add_left _ _) distinct
  · intro id hid
    exact issued id (Multiset.mem_add.mpr (.inr hid))
  · intro capture stage dropping hmem
    exact captures capture stage dropping (Multiset.mem_cons_of_mem hmem)
  · intro pin submission hmem
    exact pins pin submission (Multiset.mem_cons_of_mem hmem)
  · intro submission source hmem
    exact phases submission source (Multiset.mem_cons_of_mem hmem)

/-- A capture may join with a key and an id of its own. -/
theorem Admission.joinCapture {capture : DriverStreamCapture} {stage : CaptureStage}
    {dropping : Bool} (h : Admission ⟨state, others⟩)
    (hkey : capture.lease.key ::ₘ total leased others ≤ state.registry.active.val)
    (hids : ∀ id, capture.driverId = some id → id ∉ total driverIds others ∧ id ∈ state.issued)
    (hok : CaptureOk state capture stage)
    : Admission ⟨state, .capture capture stage dropping ::ₘ others⟩ := by
  obtain ⟨leases, distinct, issued, entries, apart, single, counted, captures, pins, phases⟩ := h
  refine ⟨?_, ?_, ?_, entries, apart, single, ?_, ?_, ?_, ?_⟩
  · simpa [leased] using hkey
  · rw [total_cons, driverIds]
    cases hid : capture.driverId with
    | none => simpa using distinct
    | some id => simpa using And.intro (hids id hid).1 distinct
  · intro id hmem
    rw [total_cons, driverIds, Multiset.mem_add] at hmem
    rcases hmem with hmem | hmem
    · exact (hids id (by simpa using hmem)).2
    · exact issued id hmem
  · intro ref
    simpa [StreamCapture.counted] using counted ref
  · intro other stage' dropping' hmem
    rcases Multiset.mem_cons.mp hmem with heq | hmem
    · cases heq
      exact hok
    · exact captures other stage' dropping' hmem
  · intro pin submission hmem
    rcases Multiset.mem_cons.mp hmem with heq | hmem
    · cases heq
    · exact pins pin submission hmem
  · intro submission source hmem
    rcases Multiset.mem_cons.mp hmem with heq | hmem
    · cases heq
    · exact phases submission source hmem

/-- A phase may join if it was taken from the entry of its id. -/
theorem Admission.joinPhase {submission : StreamSubmissionState}
    {source : Option ExecutingRef} (h : Admission ⟨state, others⟩)
    (hok : PhaseOk state submission source)
    : Admission ⟨state, .phase submission source ::ₘ others⟩ := by
  obtain ⟨leases, distinct, issued, entries, apart, single, counted, captures, pins, phases⟩ := h
  refine ⟨?_, ?_, ?_, entries, apart, single, ?_, ?_, ?_, ?_⟩
  · simpa [leased] using leases
  · simpa [driverIds] using distinct
  · simpa [driverIds] using issued
  · intro ref
    simpa [StreamCapture.counted] using counted ref
  · intro capture stage dropping hmem
    rcases Multiset.mem_cons.mp hmem with heq | hmem
    · cases heq
    · exact captures capture stage dropping hmem
  · intro pin other hmem
    rcases Multiset.mem_cons.mp hmem with heq | hmem
    · cases heq
    · exact pins pin other hmem
  · intro other source' hmem
    rcases Multiset.mem_cons.mp hmem with heq | hmem
    · cases heq
      exact hok
    · exact phases other source' hmem

/-- A neutral activity may join. -/
theorem Admission.join (h : Admission ⟨state, others⟩) (hneutral : Neutral activity)
    : Admission ⟨state, activity ::ₘ others⟩ := by
  obtain ⟨leases, distinct, issued, entries, apart, single, counted, captures, pins, phases⟩ := h
  have hleased : leased activity = 0 := by cases activity <;> first | rfl | cases hneutral
  have hids : driverIds activity = 0 := by cases activity <;> first | rfl | cases hneutral
  have hcounted (ref : ExecutingRef) : StreamCapture.counted ref activity = 0 := by
    cases activity <;> first | rfl | cases hneutral
  refine ⟨?_, ?_, ?_, entries, apart, single, ?_, ?_, ?_, ?_⟩
  · simpa [hleased] using leases
  · simpa [hids] using distinct
  · simpa [hids] using issued
  · intro ref
    simpa [hcounted] using counted ref
  · intro capture stage dropping hmem
    rcases Multiset.mem_cons.mp hmem with rfl | hmem
    · exact hneutral.elim
    · exact captures capture stage dropping hmem
  · intro pin submission hmem
    rcases Multiset.mem_cons.mp hmem with rfl | hmem
    · exact hneutral.elim
    · exact pins pin submission hmem
  · intro submission source hmem
    rcases Multiset.mem_cons.mp hmem with rfl | hmem
    · exact hneutral.elim
    · exact phases submission source hmem

-- Changes of the registry

/-- An entry of no capture among the others may be registered, changed or removed: a new one
has a new id and a count of its own, a changed one keeps its count, and a removed one counts
nothing.
-/
theorem Admission.update {context id : Nat} {replaced : Option CaptureSubmissionEntry}
    (h : Admission ⟨state, others⟩)
    (hmodules
      : state'.registry.modules = Function.update state.registry.modules (context, id) replaced)
    (hactive : state'.registry.active = state.registry.active)
    (hexecuting : state'.executing = state.executing)
    (hnext : state.nextExecuting ≤ state'.nextExecuting)
    (hissued : ∀ other ∈ state.issued, other ∈ state'.issued)
    (hid : id ∉ total driverIds others)
    (hnew
      : ∀ entry, replaced = some entry
        → entry.executing < state'.nextExecuting ∧ id ∈ state'.issued
          ∧ (∀ key old, state.registry.modules key = some old
            → old.executing = entry.executing ∨ key.2 = id → key = (context, id))
          ∧ ((∃ old, state.registry.modules (context, id) = some old
              ∧ old.executing = entry.executing)
            ∨ id ∉ state.issued))
    (hold
      : ∀ old, state.registry.modules (context, id) = some old
        → (∃ entry, replaced = some entry ∧ entry.executing = old.executing)
          ∨ state.executing old.executing = 0)
    : Admission ⟨state', others⟩ := by
  obtain ⟨leases, distinct, issued, entries, apart, single, counted, captures, pins, phases⟩ := h
  refine ⟨hactive ▸ leases, distinct, fun other hother => hissued other (issued other hother),
    ?_, ?_, ?_, hexecuting ▸ counted, ?_, ?_, ?_⟩
  · intro key entry hentry
    rw [hmodules, Function.update_apply] at hentry
    split at hentry
    · rename_i heq
      subst heq
      exact ⟨(hnew entry hentry).1, (hnew entry hentry).2.1⟩
    · obtain ⟨hlt, hmem⟩ := entries key entry hentry
      exact ⟨hlt.trans_le hnext, hissued _ hmem⟩
  · intro key key' entry entry' hentry hentry' heq
    rw [hmodules, Function.update_apply] at hentry hentry'
    split at hentry <;> split at hentry'
    · rename_i hkey hkey'
      exact hkey.trans hkey'.symm
    · rename_i hkey _
      exact hkey.trans ((hnew entry hentry).2.2.1 key' entry' hentry' (.inl heq.symm)).symm
    · rename_i hkey'
      exact ((hnew entry' hentry').2.2.1 key entry hentry (.inl heq)).trans hkey'.symm
    · exact apart key key' entry entry' hentry hentry' heq
  · intro key key' entry entry' hentry hentry' heq
    rw [hmodules, Function.update_apply] at hentry hentry'
    split at hentry <;> split at hentry'
    · rename_i hkey hkey'
      exact hkey.trans hkey'.symm
    · rename_i hkey _
      subst hkey
      exact ((hnew entry hentry).2.2.1 key' entry' hentry' (.inr heq.symm)).symm
    · rename_i hkey'
      subst hkey'
      exact (hnew entry' hentry').2.2.1 key entry hentry (.inr heq)
    · exact single key key' entry entry' hentry hentry' heq
  · intro capture stage dropping hmem
    refine (captures capture stage dropping hmem).frame ?_ ?_
    · intro context' id' hid'
      have hne : id' ≠ id := by
        rintro rfl
        exact hid (mem_total (by simp [driverIds, hid']) hmem)
      rw [hmodules, Function.update_of_ne (by simp [hne])]
    · intro key entry _ _ hzero
      rw [hexecuting]
      exact hzero
  · intro pin submission hmem
    have hok := pins pin submission hmem
    cases submission with
    | ordinary => exact hok
    | captured context' id' owners executionId =>
        obtain ⟨entry, hentry, hexec⟩ := hok
        by_cases hkey : (context', id') = (context, id)
        · rw [hkey] at hentry
          rcases hold entry hentry with ⟨entry', rfl, hentry'⟩ | hzero
          · refine ⟨entry', ?_, hexec.trans (congrArg some hentry'.symm)⟩
            rw [hmodules, hkey, Function.update_self]
          · have hone : StreamCapture.counted entry.executing
                (.pin pin (.captured context' id' owners executionId)) = 0 := by
              refine eq_zero_of_total ?_ hmem
              rw [← counted entry.executing]
              exact hzero
            simp [StreamCapture.counted, hexec] at hone
        · refine ⟨entry, ?_, hexec⟩
          rw [hmodules, Function.update_of_ne hkey]
          exact hentry
  · intro submission source hmem context' id' owners executionId hsubmission
    obtain ⟨hmem', ref, href, hentries⟩ :=
      phases submission source hmem context' id' owners executionId hsubmission
    refine ⟨hissued id' hmem', ref, href, ?_⟩
    intro entry hentry
    rw [hmodules, Function.update_apply] at hentry
    split at hentry
    · rename_i hkey
      rcases (hnew entry hentry).2.2.2 with ⟨old, hold', hsame⟩ | hfresh
      · rw [← hsame]
        exact hentries old (hkey ▸ hold')
      · exact absurd ((Prod.mk.inj hkey).2 ▸ hmem') hfresh
    · exact hentries entry hentry

-- Sections of captures

variable {capture : DriverStreamCapture} {stage stage' : CaptureStage}
  {dropping dropping' : Bool}

/-- What admission says of the capture that is about to move. -/
theorem Admission.own (h : Admission ⟨state, .capture capture stage dropping ::ₘ others⟩)
    : capture.lease.key ::ₘ total leased others ≤ state.registry.active.val
      ∧ (∀ id, capture.driverId = some id
        → id ∉ total driverIds others ∧ id ∈ state.issued)
      ∧ CaptureOk state capture stage := by
  refine ⟨?_, ?_, h.captures capture stage dropping (Multiset.mem_cons_self _ _)⟩
  · simpa [leased] using h.leases
  · intro id hid
    have hdistinct := h.distinct
    have hissued := h.issued id
    simp only [total_cons, driverIds, hid, Option.toList_some, Multiset.coe_singleton,
      Multiset.singleton_add, Multiset.nodup_cons, Multiset.mem_cons] at hdistinct hissued
    exact ⟨hdistinct.1, hissued (.inl trivial)⟩

/-- A capture may come to another stage that its entry allows. -/
theorem Admission.restage (h : Admission ⟨state, .capture capture stage dropping ::ₘ others⟩)
    (hok : CaptureOk state capture stage')
    : Admission ⟨state, .capture capture stage' dropping' ::ₘ others⟩ := by
  obtain ⟨hkey, hids, _⟩ := h.own
  exact (h.leave fun _ => rfl).joinCapture hkey hids hok

/-- A capture that begins has nothing registered. -/
theorem CaptureOk.captureId_eq_none (h : CaptureOk state capture .prepared)
    : capture.lease.captureId = none :=
  h.inactive (h.prepared rfl).1

/-- An unregistered capture may come to any stage after its beginning. -/
theorem CaptureOk.of_unregistered (h : CaptureOk state capture stage)
    (hnone : capture.lease.captureId = none) (hstage : stage' ≠ .prepared)
    : CaptureOk state capture stage' :=
  ⟨fun heq => absurd heq hstage, h.inactive, h.driverId,
    fun id hid => by simp [hnone] at hid, h.unregistered⟩

/-- The driver gives an id that no entry has. -/
theorem Admission.modules_eq_none {activities : Multiset Activity} {context id : Nat}
    (h : Admission ⟨state, activities⟩) (hfresh : id ∉ state.issued)
    : state.registry.modules (context, id) = none := by
  cases hentry : state.registry.modules (context, id) with
  | none => rfl
  | some entry => exact absurd (h.entries _ entry hentry).2 hfresh

/-- A new id is not the id of any capture under way. -/
theorem Admission.notMem_driverIds {activities : Multiset Activity} {id : Nat}
    (h : Admission ⟨state, activities⟩) (hfresh : id ∉ state.issued)
    : id ∉ total driverIds activities :=
  fun hid => hfresh (h.issued id hid)

theorem Admission.begin {registry : StreamCaptureRegistry} {lease : StreamCaptureLease}
    {answer : BeginAnswer} {result : Except CudaConditionalGraphUnavailable Unit}
    (h : Admission ⟨state, .capture capture .prepared false ::ₘ others⟩)
    (hfresh : ∀ id ∈ answer.captureId?, id ∉ state.issued)
    (hbegin : capture.lease.begin state.registry state.nextExecuting answer
      = (registry, lease, result))
    : Admission
        ⟨{ state with
            registry := registry
            nextExecuting := state.nextExecuting + 1
            issued := (begunId lease answer).toList ++ state.issued },
          .capture ⟨lease, begunId lease answer⟩ .begun false ::ₘ others⟩ := by
  obtain ⟨hkey, hids, hok⟩ := h.own
  have hnone := hok.captureId_eq_none
  have hothers : Admission ⟨state, others⟩ := h.leave fun _ => rfl
  rcases begin_cases hbegin with
    ⟨rfl, rfl, _⟩ | ⟨_, ⟨id, _, rfl, rfl, rfl, _⟩ | ⟨id, rfl, rfl, rfl, _⟩⟩
  · have hid : begunId capture.lease answer = capture.driverId := by
      simp [begunId, (hok.prepared rfl).1, (hok.prepared rfl).2]
    have hbegun : Admission ⟨state, .capture capture .begun false ::ₘ others⟩ :=
      h.restage (hok.of_unregistered hnone (by simp))
    rw [hid]
    refine hbegun.congr ?_ rfl rfl (Nat.le_succ _) ?_
    · simpa [leased] using hkey
    · intro other hother
      exact List.mem_append_right _ hother
  · have hid : id ∉ state.issued := hfresh id rfl
    have hrest
      : Admission
          ⟨{ state with
              nextExecuting := state.nextExecuting + 1
              issued := id :: state.issued }, others⟩ :=
      hothers.congr hothers.leases rfl rfl (Nat.le_succ _)
        fun other hother => List.mem_cons_of_mem _ hother
    refine hrest.joinCapture hkey ?_ ⟨?_, ?_, ?_, ?_, ?_⟩
    · intro other hother
      cases hother
      exact ⟨hothers.notMem_driverIds hid, List.mem_cons_self⟩
    · intro heq
      cases heq
    · intro hfalse
      cases hfalse
    · intro other hother
      simp [hnone] at hother
    · intro other hother
      simp [hnone] at hother
    · intro _ other hother context
      cases hother
      exact h.modules_eq_none hid
  · have hid : id ∉ state.issued := hfresh id rfl
    have hrest
      : Admission
          ⟨{ state with
              registry := { state.registry with
                modules := Function.update state.registry.modules (capture.lease.key.context, id)
                  (some ⟨capture.lease.modules, capture.lease.key.stream, false,
                    state.nextExecuting⟩) }
              nextExecuting := state.nextExecuting + 1
              issued := id :: state.issued }, others⟩ := by
      refine hothers.update rfl rfl rfl (Nat.le_succ _)
        (fun other hother => List.mem_cons_of_mem _ hother) (hothers.notMem_driverIds hid)
        ?_ ?_
      · intro entry hentry
        cases hentry
        refine ⟨Nat.lt_succ_self _, List.mem_cons_self, ?_, .inr hid⟩
        intro key old hold hsame
        obtain ⟨hlt, hissued⟩ := h.entries key old hold
        rcases hsame with heq | heq
        · exact absurd heq (Nat.ne_of_lt hlt)
        · exact absurd (heq ▸ hissued) hid
      · intro old hold
        rw [h.modules_eq_none hid] at hold
        cases hold
    refine hrest.joinCapture hkey ?_ ⟨?_, ?_, ?_, ?_, ?_⟩
    · intro other hother
      cases hother
      exact ⟨hothers.notMem_driverIds hid, List.mem_cons_self⟩
    · intro heq
      cases heq
    · intro hfalse
      cases hfalse
    · intro other hother
      cases hother
      rfl
    · intro other hother
      cases hother
      exact ⟨_, Function.update_self .., rfl, rfl⟩
    · intro hfalse
      cases hfalse

/-- Closing admission marks the capture's entry, whose executing submissions are awaited. -/
theorem Admission.close {registry : StreamCaptureRegistry} {executing : Option ExecutingRef}
    (h : Admission ⟨state, .capture capture stage dropping ::ₘ others⟩)
    (hclose : capture.lease.closeSubmissionAdmission state.registry = (registry, executing))
    : Admission
        ⟨{ state with registry := registry },
          .capture capture (.waiting executing) dropping' ::ₘ others⟩ := by
  obtain ⟨hkey, hids, hok⟩ := h.own
  rcases closeSubmissionAdmission_cases hclose with
    ⟨rfl, rfl, howners⟩ | ⟨id, entry, hid, hentry, rfl, rfl⟩
  · have hnone : capture.lease.captureId = none := by
      cases hid : capture.lease.captureId with
      | none => rfl
      | some id =>
          obtain ⟨entry, hentry, hsame, _⟩ := hok.entry id hid
          exact absurd hsame (howners id hid entry hentry)
    exact h.restage (hok.of_unregistered hnone (by simp))
  · obtain ⟨entry', hentry', hsame, _⟩ := hok.entry id hid
    cases hentry.symm.trans hentry'
    have hothers : Admission ⟨state, others⟩ := h.leave fun _ => rfl
    have hrest
      : Admission
          ⟨{ state with
              registry := { state.registry with
                modules := Function.update state.registry.modules (capture.lease.key.context, id)
                  (some { entry with closing := true }) } }, others⟩ := by
      refine hothers.update rfl rfl rfl le_rfl (fun _ hother => hother)
        (hids id (hok.driverId id hid)).1 ?_ ?_
      · intro new hnew
        cases hnew
        obtain ⟨hlt, hissued⟩ := h.entries _ entry hentry
        refine ⟨hlt, hissued, ?_, .inl ⟨entry, hentry, rfl⟩⟩
        intro key old hold hor
        rcases hor with heq | heq
        · exact h.apart _ _ old entry hold hentry heq
        · exact h.single _ _ old entry hold hentry heq
      · intro old hold
        cases hold.symm.trans hentry
        exact .inl ⟨_, rfl, rfl⟩
    refine hrest.joinCapture hkey hids ⟨?_, hok.inactive, hok.driverId, ?_, ?_⟩
    · intro heq
      cases heq
    · intro other hother
      cases hother.symm.trans hid
      exact ⟨_, Function.update_self .., hsame, rfl, rfl⟩
    · intro hnone
      simp [hnone] at hid

/-- Completion removes the entry of the capture, which counts nothing any more. -/
theorem Admission.complete {registry : StreamCaptureRegistry} {lease : StreamCaptureLease}
    (h : Admission ⟨state, .capture capture .completing dropping ::ₘ others⟩)
    (hcomplete : capture.lease.completeDriverCapture state.registry = (registry, lease))
    : Admission
        ⟨{ state with registry := registry },
          .capture { capture with lease := lease } .settled dropping ::ₘ others⟩ := by
  obtain ⟨hkey, hids, hok⟩ := h.own
  have hothers : Admission ⟨state, others⟩ := h.leave fun _ => rfl
  obtain ⟨rfl, ⟨hnone, rfl⟩ | ⟨id, hid, rfl⟩⟩ := completeDriverCapture_cases hcomplete
  · refine hothers.joinCapture hkey hids ⟨?_, fun _ => rfl, ?_, ?_, ?_⟩
    · intro heq
      cases heq
    · intro id hid
      cases hid
    · intro id hid
      cases hid
    · intro _
      exact hok.unregistered hnone
  · obtain ⟨entry, hentry, _, _, hzero⟩ := hok.entry id hid
    have hrest
      : Admission
          ⟨{ state with
              registry := { state.registry with
                modules := Function.update state.registry.modules (capture.lease.key.context, id)
                  none } }, others⟩ := by
      refine hothers.update rfl rfl rfl le_rfl (fun _ hother => hother)
        (hids id (hok.driverId id hid)).1 ?_ ?_
      · intro new hnew
        cases hnew
      · intro old hold
        cases hold.symm.trans hentry
        exact .inr hzero
    refine hrest.joinCapture hkey hids ⟨?_, fun _ => rfl, ?_, ?_, ?_⟩
    · intro heq
      cases heq
    · intro other hother
      cases hother
    · intro other hother
      cases hother
    · intro _ other hother context
      cases (hok.driverId id hid).symm.trans hother
      simp only [Function.update_apply]
      split
      · rfl
      · rename_i hne
        cases hold : state.registry.modules (context, id) with
        | none => rfl
        | some old => exact absurd (h.single _ _ old entry hold hentry rfl) hne

theorem Admission.captureMove (h : Admission ⟨state, activity ::ₘ others⟩)
    (hmove : CaptureMove state activity state' next)
    : Admission ⟨state', next + others⟩ := by
  cases hmove with
  | @acquired key modules registry lease hacquire =>
      obtain ⟨_, _, hnew, rfl, rfl⟩ := tryAcquireStreamCaptureKey_ok hacquire
      have hothers : Admission ⟨state, others⟩ := h.leave fun _ => rfl
      have hval : (insert key state.registry.active).val = key ::ₘ state.registry.active.val :=
        Finset.insert_val_of_notMem hnew
      have hrest
        : Admission
            ⟨{ state with
                registry := { state.registry with
                  active := insert key state.registry.active } }, others⟩ := by
        refine hothers.congr ?_ rfl rfl le_rfl fun _ hother => hother
        exact hothers.leases.trans (hval ▸ Multiset.le_cons_self _ _)
      refine hrest.joinCapture ?_ ?_ ⟨?_, ?_, ?_, ?_, ?_⟩
      · exact hval ▸ Multiset.cons_le_cons key hothers.leases
      · intro id hid
        cases hid
      · intro _
        exact ⟨rfl, rfl⟩
      · intro _
        rfl
      · intro id hid
        cases hid
      · intro id hid
        cases hid
      · intro _ id hid
        cases hid
  | busy => exact (h.leave fun _ => rfl).join trivial
  | unbound =>
      obtain ⟨_, _, hok⟩ := h.own
      exact h.restage (hok.of_unregistered hok.captureId_eq_none (by simp))
  | begin hfresh hbegin => exact h.begin hfresh hbegin
  | finish _ hclose => exact h.close hclose
  | dropActive _ _ hclose => exact h.close hclose
  | @release capture stage dropping registry reservation hstage hactive hrelease =>
      obtain ⟨hkey, _, _⟩ := h.own
      have hothers : Admission ⟨state, others⟩ := h.leave fun _ => rfl
      have hsame := drainCaptureRetirements_sameAdmission hrelease
      refine Admission.join ?_ (neutral_afterDrain _ _)
      refine hothers.congr ?_ hsame.modules rfl le_rfl fun _ hother => hother
      rw [hsame.active, Finset.erase_val]
      simpa using Multiset.erase_le_erase capture.lease.key hkey
  | abandon => exact (h.leave fun _ => rfl).join trivial
  | @idle capture executing dropping hidle =>
      obtain ⟨_, _, hok⟩ := h.own
      refine h.restage ⟨?_, hok.inactive, hok.driverId, ?_, hok.unregistered⟩
      · intro heq
        cases heq
      · intro id hid
        obtain ⟨entry, hentry, howners, hclosing, hwait⟩ := hok.entry id hid
        exact ⟨entry, hentry, howners, hclosing, hidle entry.executing hwait⟩
  | stillActive =>
      obtain ⟨_, _, hok⟩ := h.own
      refine h.restage ⟨?_, hok.inactive, hok.driverId, ?_, hok.unregistered⟩
      · intro heq
        cases heq
      · intro id hid
        obtain ⟨entry, hentry, howners, hclosing, _⟩ := hok.entry id hid
        exact ⟨entry, hentry, howners, hclosing⟩
  | ended =>
      obtain ⟨_, _, hok⟩ := h.own
      refine h.restage ⟨?_, hok.inactive, hok.driverId, hok.entry, hok.unregistered⟩
      intro heq
      cases heq
  | complete hcomplete => exact h.complete hcomplete

-- Sections of submissions

@[simp]
theorem countExecuting_none (executing : ExecutingRef → Nat) (change : Nat → Nat)
    : countExecuting executing change none = executing := rfl

theorem countExecuting_some (executing : ExecutingRef → Nat) (change : Nat → Nat)
    (ref other : ExecutingRef)
    : countExecuting executing change (some ref) other
      = if other = ref then change (executing ref) else executing other := by
  simp [countExecuting, Function.update_apply]

/-- A pinned submission is counted in the open entry that its phase names. -/
theorem Admission.pin {submission : StreamSubmissionState} {pin : StreamSubmissionPin}
    (h : Admission ⟨state, others⟩) (hpin : submission.pin state.registry = .ok pin)
    : Admission
        ⟨{ state with executing := countExecuting state.executing (· + 1) pin.executing },
          .pin pin submission ::ₘ others⟩ := by
  have hadd (ref : ExecutingRef)
      : countExecuting state.executing (· + 1) pin.executing ref
        = StreamCapture.counted ref (.pin pin submission) + state.executing ref := by
    cases hexec : pin.executing with
    | none => simp [StreamCapture.counted, hexec]
    | some counted =>
        rw [countExecuting_some]
        by_cases heq : ref = counted
        · subst heq
          simp [StreamCapture.counted, hexec, add_comm]
        · simp [StreamCapture.counted, hexec, heq, Ne.symm heq]
  have hopen
    : ∀ ref, pin.executing = some ref
      → ∃ key entry, state.registry.modules key = some entry ∧ entry.executing = ref
        ∧ entry.closing = false := by
    intro ref href
    cases submission with
    | ordinary =>
        cases hpin
        cases href
    | captured context id owners executionId =>
        obtain ⟨entry, hentry, hclosing, _, rfl⟩ := pin_captured hpin
        exact ⟨(context, id), entry, hentry, Option.some.inj href, hclosing⟩
  obtain ⟨leases, distinct, issued, entries, apart, single, counted, captures, pins, phases⟩ := h
  refine ⟨?_, ?_, ?_, entries, apart, single, ?_, ?_, ?_, ?_⟩
  · simpa [leased] using leases
  · simpa [driverIds] using distinct
  · simpa [driverIds] using issued
  · intro ref
    rw [total_cons, ← counted ref]
    exact hadd ref
  · intro capture stage dropping hmem
    rcases Multiset.mem_cons.mp hmem with heq | hmem
    · cases heq
    · refine (captures capture stage dropping hmem).frame (fun _ _ _ => rfl) ?_
      intro key entry hentry hclosing hzero
      have hother : pin.executing ≠ some entry.executing := by
        intro heq
        obtain ⟨_, entry', hentry', hsame, hnot⟩ := hopen _ heq
        have hkey := apart _ _ entry' entry hentry' hentry hsame
        rw [hkey, hentry] at hentry'
        cases hentry'
        simp [hclosing] at hnot
      have hnothing : StreamCapture.counted entry.executing (.pin pin submission) = 0 :=
        if_neg hother
      refine (hadd entry.executing).trans ?_
      rw [hnothing, zero_add]
      exact hzero
  · intro other submission' hmem
    rcases Multiset.mem_cons.mp hmem with heq | hmem
    · cases heq
      cases submission with
      | ordinary =>
          cases hpin
          rfl
      | captured =>
          obtain ⟨entry, hentry, _, _, rfl⟩ := pin_captured hpin
          exact ⟨entry, hentry, rfl⟩
    · exact pins other submission' hmem
  · intro other source hmem
    rcases Multiset.mem_cons.mp hmem with heq | hmem
    · cases heq
    · exact phases other source hmem

/-- A submission that has returned is counted no more. -/
theorem Admission.pinDrop {submission : StreamSubmissionState} {pin : StreamSubmissionPin}
    (h : Admission ⟨state, .pin pin submission ::ₘ others⟩)
    : Admission
        ⟨{ state with executing := countExecuting state.executing (· - 1) pin.executing },
          others⟩ := by
  obtain ⟨leases, distinct, issued, entries, apart, single, counted, captures, pins, phases⟩ := h
  have hsub (ref : ExecutingRef)
      : countExecuting state.executing (· - 1) pin.executing ref
        = total (StreamCapture.counted ref) others := by
    have hcount := counted ref
    rw [total_cons] at hcount
    cases hexec : pin.executing with
    | none => simpa [StreamCapture.counted, hexec] using hcount
    | some counted =>
        rw [countExecuting_some]
        by_cases heq : ref = counted
        · subst heq
          simp only [StreamCapture.counted, hexec, if_true] at hcount ⊢
          omega
        · simpa [StreamCapture.counted, hexec, heq, Ne.symm heq] using hcount
  refine ⟨?_, ?_, ?_, entries, apart, single, hsub, ?_, ?_, ?_⟩
  · simpa [leased] using leases
  · simpa [driverIds] using distinct
  · simpa [driverIds] using issued
  · intro capture stage dropping hmem
    refine (captures capture stage dropping (Multiset.mem_cons_of_mem hmem)).frame
      (fun _ _ _ => rfl) ?_
    intro key entry _ _ hzero
    refine (hsub entry.executing).trans ?_
    have hcount := counted entry.executing
    rw [hzero, total_cons] at hcount
    omega
  · intro other submission' hmem
    exact pins other submission' (Multiset.mem_cons_of_mem hmem)
  · intro other source hmem
    exact phases other source (Multiset.mem_cons_of_mem hmem)

theorem Admission.submissionMove (h : Admission ⟨state, activity ::ₘ others⟩)
    (hmove : SubmissionMove state activity state' next)
    : Admission ⟨state', next + others⟩ := by
  cases hmove with
  | phase hphase =>
      have hothers : Admission ⟨state, others⟩ := h.leave fun _ => rfl
      rcases fromCaptureInfo_cases hphase with
        ⟨rfl, rfl⟩ | ⟨rfl, entry, hentry, hclosing, rfl⟩
      · have hrest
          : Admission ⟨{ state with registry := acquireExclusion state.registry }, others⟩ :=
          hothers.congr hothers.leases rfl rfl le_rfl fun _ hother => hother
        refine hrest.joinPhase ?_
        intro context id owners executionId heq
        cases heq
      · refine hothers.joinPhase ?_
        intro context id owners executionId heq
        cases heq
        obtain ⟨_, hissued⟩ := h.entries _ entry hentry
        refine ⟨hissued, entry.executing, by simp [sourceOf, hentry], ?_⟩
        intro entry' hentry'
        cases hentry.symm.trans hentry'
        rfl
  | phaseRefused => exact (h.leave fun _ => rfl).join trivial
  | @phaseDrop submission source =>
      have hothers : Admission ⟨state, others⟩ := h.leave fun _ => rfl
      refine Admission.join ?_ trivial
      cases submission <;>
        exact hothers.congr hothers.leases rfl rfl le_rfl fun _ hother => hother
  | @pin submission source pin hpin =>
      have hphase := h.phases submission source (Multiset.mem_cons_self _ _)
      have hpinned := ((h.leave fun _ => rfl).pin hpin).joinPhase hphase
      simpa only [← Multiset.cons_coe, Multiset.coe_nil, Multiset.cons_add, zero_add]
        using hpinned
  | pinDrop => exact h.pinDrop.join trivial
  | exclusion hreserve =>
      obtain ⟨_, rfl⟩ := reserveCaptureExclusion_ok hreserve
      have hothers : Admission ⟨state, others⟩ := h.leave fun _ => rfl
      refine Admission.join ?_ trivial
      exact hothers.congr hothers.leases rfl rfl le_rfl fun _ hother => hother
  | exclusionRefused => exact (h.leave fun _ => rfl).join trivial
  | loading hreserve =>
      obtain ⟨_, rfl⟩ := reserveCaptureExclusion_ok hreserve
      have hothers : Admission ⟨state, others⟩ := h.leave fun _ => rfl
      refine Admission.join ?_ trivial
      exact hothers.congr hothers.leases rfl rfl le_rfl fun _ hother => hother
  | loadingRefused => exact (h.leave fun _ => rfl).join trivial
  | _ =>
      have hothers : Admission ⟨state, others⟩ := h.leave fun _ => rfl
      refine Admission.join ?_ trivial
      exact hothers.congr hothers.leases rfl rfl le_rfl fun _ hother => hother

/-- Drains change neither entries nor counts, and hold nothing that admission counts. -/
theorem Admission.drainMove (h : Admission ⟨state, activity ::ₘ others⟩)
    (hmove : DrainMove state activity state' next)
    : Admission ⟨state', next + others⟩ := by
  cases hmove with
  | start hdrain =>
      have hsame := drainCaptureRetirements_sameAdmission hdrain
      have hothers : Admission ⟨state, others⟩ := h.leave fun _ => rfl
      refine Admission.join ?_ (neutral_afterDrain _ _)
      exact hothers.congr (hsame.active ▸ hothers.leases) hsame.modules rfl le_rfl
        fun _ hother => hother
  | turn _ hturn =>
      have hsame := drainTurn_sameAdmission hturn
      have hothers : Admission ⟨state, others⟩ := h.leave fun _ => rfl
      refine Admission.join ?_ (neutral_afterDrain _ _)
      exact hothers.congr (hsame.active ▸ hothers.leases) hsame.modules rfl le_rfl
        fun _ hother => hother
  | unwind =>
      have hothers : Admission ⟨state, others⟩ := h.leave fun _ => rfl
      rw [Multiset.coe_nil, zero_add]
      exact hothers.congr hothers.leases rfl rfl le_rfl fun _ hother => hother
  | _ =>
      have hothers : Admission ⟨state, others⟩ := h.leave fun _ => rfl
      refine Admission.join ?_ trivial
      exact hothers.congr hothers.leases rfl rfl le_rfl fun _ hother => hother

theorem Admission.move (h : Admission ⟨state, activity ::ₘ others⟩)
    (hmove : Move state activity state' next)
    : Admission ⟨state', next + others⟩ := by
  cases hmove with
  | drain hmove => exact h.drainMove hmove
  | capture hmove => exact h.captureMove hmove
  | submission hmove => exact h.submissionMove hmove
  | enqueue henqueue =>
      have hsame := drainCaptureRetirements_sameAdmission henqueue
      have hothers : Admission ⟨state, others⟩ := h.leave fun _ => rfl
      refine Admission.join ?_ (neutral_afterDrain _ _)
      refine hothers.congr ?_ hsame.modules rfl le_rfl fun _ hother => hother
      rw [hsame.active]
      exact hothers.leases

/-- In every reachable world every capture and every counted submission has its entry. -/
theorem Reachable.admission {world : World CaptureState Activity} (h : Reachable world)
    : Admission world := by
  refine ActivitySystem.Reachable.invariant h ?_ ?_ ?_
  · refine ⟨?_, ?_, ?_, ?_, ?_, ?_, ?_, ?_, ?_, ?_⟩ <;> simp
  · intro shared others activity hinv hentry
    exact hinv.join (by cases hentry <;> trivial)
  · intro shared others activity shared' next _ hinv hmove
    exact Admission.move hinv hmove

end Xlog.Cuda.StreamCapture
