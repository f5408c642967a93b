import Mathlib.Tactic.Abel
import Xlog.Cuda.StreamCaptureRetirement

/-! The ledger of retirements: what is pending, what is finished, and which callbacks were
called. Every section of a run leaves the ledger or makes one of its entries.
-/

namespace Xlog.Cuda.StreamCapture

open Xlog.Foundation

-- Ledger

structure RetirementLedger where
  pending : Multiset DeferredRetirement
  finished : List Nat
  called : List DeferredRetirement
  enqueued : Nat

def DeferredRetirement.isOnce : DeferredRetirement → Bool
  | .once _ _ => true
  | .retry _ => false

/-- The callback of this retirement was called before. -/
def RetirementLedger.WasCalled (ledger : RetirementLedger) (id : Nat) : Prop :=
  ∃ retire ∈ ledger.called, retire.id = id

/-- What can happen to a retirement: it is queued, its callback is called, or it is finished,
which takes an earlier call.
-/
inductive LedgerStep : RetirementLedger → RetirementLedger → Prop
  | keep {ledger} : LedgerStep ledger ledger
  | queue {ledger} (once : Bool)
    : LedgerStep ledger
        { ledger with
          pending := newRetirement ledger.enqueued once ::ₘ ledger.pending
          enqueued := ledger.enqueued + 1 }
  | call {rest finished called enqueued retire inHand}
      (h : retire.attempt = (inHand, true))
    : LedgerStep ⟨retire ::ₘ rest, finished, called, enqueued⟩
        ⟨inHand ::ₘ rest, finished, retire :: called, enqueued⟩
  | finish {rest finished called enqueued retire}
      (h : ∃ earlier ∈ called, earlier.id = retire.id)
    : LedgerStep ⟨retire ::ₘ rest, finished, called, enqueued⟩
        ⟨rest, retire.id :: finished, called, enqueued⟩

/-- Every retirement has one place, a one-shot callback is called at most once and never
while it is still callable, and nothing is finished that was not called.
-/
structure RetirementLedger.Accounted (ledger : RetirementLedger) : Prop where
  places
    : ledger.pending.map DeferredRetirement.id + (ledger.finished : Multiset Nat)
      = Multiset.range ledger.enqueued
  callable
    : ∀ retire ∈ ledger.pending, ∀ id, retire = .once id true → ¬ ledger.WasCalled id
  taken : ∀ retire ∈ ledger.pending, ∀ id, retire = .once id false → ledger.WasCalled id
  once
    : ∀ id, ledger.called.countP (fun retire => retire.isOnce && retire.id == id) ≤ 1
  numbered : ∀ retire ∈ ledger.called, retire.id < ledger.enqueued
  finishedCalled : ∀ id ∈ ledger.finished, ledger.WasCalled id

@[simp]
theorem newRetirement_id (id : Nat) (once : Bool) : (newRetirement id once).id = id := by
  cases once <;> rfl

theorem attempt_id {retire inHand : DeferredRetirement} {callable : Bool}
    (h : retire.attempt = (inHand, callable))
    : inHand.id = retire.id := by
  cases retire <;> (cases h; rfl)

/-- A called retirement was callable, and is not afterwards if it is one-shot. -/
theorem attempt_called {retire inHand : DeferredRetirement}
    (h : retire.attempt = (inHand, true))
    : (∃ id, retire = .once id true ∧ inHand = .once id false)
      ∨ ∃ id, retire = .retry id ∧ inHand = .retry id := by
  cases retire with
  | once id callable =>
      simp only [DeferredRetirement.attempt, Prod.mk.injEq] at h
      exact .inl ⟨id, by rw [h.2], h.1.symm⟩
  | retry id =>
      simp only [DeferredRetirement.attempt, Prod.mk.injEq] at h
      exact .inr ⟨id, rfl, h.1.symm⟩

/-- The pending numbers are below the next one, and all different. -/
theorem RetirementLedger.Accounted.id_lt {ledger : RetirementLedger} (h : ledger.Accounted)
    {retire : DeferredRetirement} (hmem : retire ∈ ledger.pending)
    : retire.id < ledger.enqueued := by
  refine Multiset.mem_range.mp ?_
  rw [← h.places]
  exact Multiset.mem_add.mpr (.inl (Multiset.mem_map_of_mem _ hmem))

theorem RetirementLedger.Accounted.nodup {ledger : RetirementLedger} (h : ledger.Accounted)
    : (ledger.pending.map DeferredRetirement.id).Nodup :=
  Multiset.nodup_of_le (Multiset.le_add_right _ _) (h.places ▸ Multiset.nodup_range _)

/-- A number that is pending once is not pending a second time. -/
theorem RetirementLedger.Accounted.id_ne {ledger : RetirementLedger} (h : ledger.Accounted)
    {retire other : DeferredRetirement} {rest : Multiset DeferredRetirement}
    (hpending : ledger.pending = retire ::ₘ rest) (hother : other ∈ rest)
    : other.id ≠ retire.id := by
  have hnodup := h.nodup
  rw [hpending, Multiset.map_cons, Multiset.nodup_cons] at hnodup
  intro heq
  exact hnodup.1 (heq ▸ Multiset.mem_map_of_mem _ hother)

theorem RetirementLedger.Accounted.queue {ledger : RetirementLedger} (h : ledger.Accounted)
    (once : Bool)
    : RetirementLedger.Accounted
        { ledger with
          pending := newRetirement ledger.enqueued once ::ₘ ledger.pending
          enqueued := ledger.enqueued + 1 } := by
  have hnew : ¬ ledger.WasCalled ledger.enqueued := by
    rintro ⟨retire, hcalled, hid⟩
    exact absurd (h.numbered retire hcalled) (by omega)
  refine ⟨?_, ?_, ?_, h.once, ?_, h.finishedCalled⟩
  · have hplaces := h.places
    simp only [Multiset.map_cons, newRetirement_id, Multiset.cons_add, Multiset.range_succ,
      hplaces]
  · intro retire hretire id hid
    rcases Multiset.mem_cons.mp hretire with rfl | hold
    · have heq : ledger.enqueued = id := by
        rw [← newRetirement_id ledger.enqueued once, hid]
        rfl
      exact heq ▸ hnew
    · exact h.callable retire hold id hid
  · intro retire hretire id hid
    rcases Multiset.mem_cons.mp hretire with rfl | hold
    · cases once <;> simp [newRetirement] at hid
    · exact h.taken retire hold id hid
  · intro retire hcalled
    exact Nat.lt_succ_of_lt (h.numbered retire hcalled)

theorem RetirementLedger.Accounted.call {rest : Multiset DeferredRetirement}
    {finished : List Nat} {called : List DeferredRetirement} {enqueued : Nat}
    {retire inHand : DeferredRetirement}
    (h : RetirementLedger.Accounted ⟨retire ::ₘ rest, finished, called, enqueued⟩)
    (hattempt : retire.attempt = (inHand, true))
    : RetirementLedger.Accounted ⟨inHand ::ₘ rest, finished, retire :: called, enqueued⟩ := by
  have hmem : retire ∈ retire ::ₘ rest := Multiset.mem_cons_self _ _
  have hlt : retire.id < enqueued := h.id_lt hmem
  have hcalled {id : Nat} (hid : RetirementLedger.WasCalled ⟨retire ::ₘ rest, finished, called,
        enqueued⟩ id)
      : RetirementLedger.WasCalled ⟨inHand ::ₘ rest, finished, retire :: called, enqueued⟩ id := by
    obtain ⟨earlier, hearlier, hid⟩ := hid
    exact ⟨earlier, List.mem_cons_of_mem _ hearlier, hid⟩
  refine ⟨?_, ?_, ?_, ?_, ?_, ?_⟩
  · have hplaces := h.places
    simp only [Multiset.map_cons] at hplaces ⊢
    rw [attempt_id hattempt]
    exact hplaces
  · intro other hother id hid hwas
    rcases Multiset.mem_cons.mp hother with rfl | hrest
    · rcases attempt_called hattempt with ⟨_, _, hfalse⟩ | ⟨_, _, hretry⟩
      · simp [hid] at hfalse
      · simp [hid] at hretry
    · obtain ⟨earlier, hearlier, heq⟩ := hwas
      rcases List.mem_cons.mp hearlier with rfl | hearlier
      · exact h.id_ne rfl hrest (by rw [hid]; exact heq.symm)
      · exact h.callable other (Multiset.mem_cons_of_mem hrest) id hid ⟨earlier, hearlier, heq⟩
  · intro other hother id hid
    rcases Multiset.mem_cons.mp hother with rfl | hrest
    · refine ⟨retire, List.mem_cons_self, ?_⟩
      rw [← attempt_id hattempt, hid]
      rfl
    · exact hcalled (h.taken other (Multiset.mem_cons_of_mem hrest) id hid)
  · intro id
    rw [List.countP_cons]
    split
    · rename_i hmatch
      rcases attempt_called hattempt with ⟨id', rfl, _⟩ | ⟨_, rfl, _⟩
      · have heq : id' = id := by
          simpa [DeferredRetirement.isOnce, DeferredRetirement.id] using hmatch
        have hzero : called.countP (fun earlier => earlier.isOnce && earlier.id == id) = 0 := by
          refine List.countP_eq_zero.mpr fun earlier hin hsame => ?_
          refine h.callable _ hmem id' rfl ⟨earlier, hin, ?_⟩
          simpa [heq] using (Bool.and_eq_true_iff.mp hsame).2
        omega
      · simp [DeferredRetirement.isOnce] at hmatch
    · exact h.once id
  · intro other hother
    rcases List.mem_cons.mp hother with rfl | hother
    · exact hlt
    · exact h.numbered other hother
  · intro id hid
    exact hcalled (h.finishedCalled id hid)

theorem RetirementLedger.Accounted.finish {rest : Multiset DeferredRetirement}
    {finished : List Nat} {called : List DeferredRetirement} {enqueued : Nat}
    {retire : DeferredRetirement}
    (h : RetirementLedger.Accounted ⟨retire ::ₘ rest, finished, called, enqueued⟩)
    (hcalled : ∃ earlier ∈ called, earlier.id = retire.id)
    : RetirementLedger.Accounted ⟨rest, retire.id :: finished, called, enqueued⟩ := by
  refine ⟨?_, ?_, ?_, h.once, h.numbered, ?_⟩
  · rw [← h.places, Multiset.map_cons, ← Multiset.cons_coe, Multiset.add_cons,
      Multiset.cons_add]
  · intro other hother
    exact h.callable other (Multiset.mem_cons_of_mem hother)
  · intro other hother
    exact h.taken other (Multiset.mem_cons_of_mem hother)
  · intro id hid
    rcases List.mem_cons.mp hid with rfl | hid
    · exact hcalled
    · exact h.finishedCalled id hid

theorem LedgerStep.accounted {ledger ledger' : RetirementLedger}
    (h : LedgerStep ledger ledger') (hledger : ledger.Accounted)
    : ledger'.Accounted := by
  cases h with
  | keep => exact hledger
  | queue once => exact hledger.queue once
  | call h => exact hledger.call h
  | finish h => exact hledger.finish h

-- The ledger of a world

/-- What a running drain has taken out of the registry. -/
def inHand : Activity → Multiset DeferredRetirement
  | .reservation reservation _ _ =>
      reservation.current.toList + (reservation.retry + reservation.retainedUnknown)
  | _ => 0

/-- Pending are the queue, the retirements of unknown outcome and those in hand. -/
def ledger (world : World CaptureState Activity) : RetirementLedger where
  pending :=
    world.shared.registry.deferred + world.shared.registry.retainedUnknown
      + total inHand world.activities
  finished := world.shared.finished
  called := world.shared.called
  enqueued := world.shared.enqueued

variable {state state' : CaptureState} {activity : Activity} {next : List Activity}
  {others : Multiset Activity}

@[simp]
theorem inHand_next (caller : DrainCaller) : inHand caller.next = 0 := by
  cases caller <;> rfl

/-- The start of a drain moves the first retirement from the queue into the hand. -/
theorem pending_of_drain {registry registry' : StreamCaptureRegistry}
    {reservation : Option DriverMutationReservation} (caller : DrainCaller)
    (h : drainCaptureRetirements registry = (registry', reservation))
    : (registry'.deferred + registry'.retainedUnknown + inHand (afterDrain caller reservation)
        : Multiset DeferredRetirement)
      = registry.deferred + registry.retainedUnknown := by
  rcases drainCaptureRetirements_cases h with
    ⟨rfl, rfl⟩ | ⟨_, _, retire, deferred, hcons, rfl, rfl⟩
  · simp [afterDrain]
  · simp only [hcons, afterDrain, inHand, Option.toList_some, ← Multiset.cons_coe,
      Multiset.coe_nil, ← Multiset.singleton_add]
    abel

/-- A turn moves the next retirement into the hand, or gives back what is in it. -/
theorem pending_of_turn {registry registry' : StreamCaptureRegistry}
    {reservation : DriverMutationReservation}
    {reservation' : Option DriverMutationReservation} (caller : DrainCaller)
    (hcurrent : reservation.current = none)
    (h : drainTurn registry reservation = (registry', reservation'))
    : (registry'.deferred + registry'.retainedUnknown + inHand (afterDrain caller reservation')
        : Multiset DeferredRetirement)
      = registry.deferred + registry.retainedUnknown
        + inHand (.reservation reservation false caller) := by
  rcases drainTurn_cases h with ⟨retire, deferred, hcons, rfl, rfl⟩ | ⟨hnil, rfl, rfl⟩
  · simp only [hcons, hcurrent, afterDrain, inHand, Option.toList_some, Option.toList_none,
      ← Multiset.cons_coe, Multiset.coe_nil, ← Multiset.singleton_add]
    abel
  · simp only [hnil, afterDrain, inHand_next]
    simp only [inHand, hcurrent, Option.toList_none, Multiset.coe_nil, ← Multiset.coe_add]
    abel

/-- An unwinding drain gives back everything but the one-shot retirement in hand. -/
theorem pending_of_unwind {registry : StreamCaptureRegistry}
    {reservation : DriverMutationReservation} {running : Bool} {caller : DrainCaller}
    : (registry.deferred + registry.retainedUnknown
        + inHand (.reservation reservation running caller) : Multiset DeferredRetirement)
      = droppedBy reservation.current
        + ((reservation.drop registry).deferred + (reservation.drop registry).retainedUnknown) := by
  have hsplit
    : (reservation.current.toList : Multiset DeferredRetirement)
      = droppedBy reservation.current + restored reservation.current := by
    rcases reservation.current with _ | ⟨_ | _⟩ <;> rfl
  simp only [DriverMutationReservation.drop, inHand, hsplit, ← Multiset.coe_add]
  abel

/-- The ledger is accounted for, and a running callback is entered in it. -/
structure Ledgered (world : World CaptureState Activity) : Prop where
  accounted : (ledger world).Accounted
  running
    : ∀ reservation caller,
        .reservation reservation true caller ∈ world.activities
        → ∃ retire, reservation.current = some retire ∧ (ledger world).WasCalled retire.id

/-- A section that only moves pending retirements keeps the ledger. -/
theorem ledgerStep_keep
    (hpending
      : (state'.registry.deferred + state'.registry.retainedUnknown + (next.map inHand).sum
          : Multiset DeferredRetirement)
        = state.registry.deferred + state.registry.retainedUnknown + inHand activity)
    (hledger
      : state'.finished = state.finished ∧ state'.called = state.called
        ∧ state'.enqueued = state.enqueued)
    : LedgerStep (ledger ⟨state, activity ::ₘ others⟩) (ledger ⟨state', next + others⟩) := by
  have heq : ledger ⟨state', next + others⟩ = ledger ⟨state, activity ::ₘ others⟩ := by
    simp only [ledger, total_coe_add, total_cons, ← add_assoc, hpending, hledger.1,
      hledger.2.1, hledger.2.2]
  rw [heq]
  exact .keep

/-- The pending retirements apart from the one in the hand of this drain. -/
def apart (state : CaptureState) (reservation : DriverMutationReservation)
    (others : Multiset Activity) : Multiset DeferredRetirement :=
  state.registry.deferred + state.registry.retainedUnknown
    + (reservation.retry + reservation.retainedUnknown) + total inHand others

theorem ledger_current {reservation : DriverMutationReservation} {running : Bool}
    {caller : DrainCaller} {retire : DeferredRetirement}
    (h : reservation.current = some retire)
    : ledger ⟨state, .reservation reservation running caller ::ₘ others⟩
      = ⟨retire ::ₘ apart state reservation others, state.finished, state.called,
          state.enqueued⟩ := by
  simp only [ledger, apart, total_cons, inHand, h, Option.toList_some,
    Multiset.coe_singleton, RetirementLedger.mk.injEq, and_true]
  rw [← Multiset.singleton_add]
  abel

/-- Settling an attempt finishes the retirement, or puts it back among the pending. -/
theorem ledgerStep_settle {reservation : DriverMutationReservation} {running : Bool}
    {caller : DrainCaller} {retire : DeferredRetirement} (disposition : RetirementDisposition)
    (hcurrent : reservation.current = some retire)
    (hcalled : ∃ earlier ∈ state.called, earlier.id = retire.id)
    : LedgerStep (ledger ⟨state, .reservation reservation running caller ::ₘ others⟩)
        (ledger
          ⟨{ state with finished := completedBy retire disposition ++ state.finished },
            [Activity.reservation (reservation.settle retire disposition) false caller]
              + others⟩) := by
  cases disposition with
  | complete =>
      have hafter
        : ledger
            ⟨{ state with finished := completedBy retire .complete ++ state.finished },
              [Activity.reservation (reservation.settle retire .complete) false caller]
                + others⟩
          = ⟨apart state reservation others, retire.id :: state.finished, state.called,
              state.enqueued⟩ := by
        simp only [ledger, apart, DriverMutationReservation.settle, inHand, completedBy,
          total_coe_add, List.map_cons, List.map_nil, List.sum_cons, List.sum_nil,
          Option.toList_none, Multiset.coe_nil, zero_add, add_zero, add_assoc,
          List.singleton_append]
      rw [ledger_current hcurrent, hafter]
      exact .finish hcalled
  | pending =>
      refine ledgerStep_keep ?_ ⟨rfl, rfl, rfl⟩
      simp only [DriverMutationReservation.settle, List.map_cons, List.map_nil, List.sum_cons,
        List.sum_nil, inHand, hcurrent, Option.toList_none, Option.toList_some,
        Multiset.coe_nil, ← Multiset.coe_add]
      abel
  | retainUnknown =>
      refine ledgerStep_keep ?_ ⟨rfl, rfl, rfl⟩
      simp only [DriverMutationReservation.settle, List.map_cons, List.map_nil, List.sum_cons,
        List.sum_nil, inHand, hcurrent, Option.toList_none, Option.toList_some,
        Multiset.coe_nil, ← Multiset.coe_add]
      abel

/-- A section of a drain makes at most one entry in the ledger. -/
theorem DrainMove.ledgerStep (h : Ledgered ⟨state, activity ::ₘ others⟩)
    (hmove : DrainMove state activity state' next)
    : LedgerStep (ledger ⟨state, activity ::ₘ others⟩) (ledger ⟨state', next + others⟩) := by
  cases hmove with
  | @start caller _ _ hdrain =>
      refine ledgerStep_keep ?_ ⟨rfl, rfl, rfl⟩
      have hpending := pending_of_drain caller hdrain
      simpa [inHand] using hpending
  | @call reservation retire taken caller hcurrent hattempt =>
      have hafter
        : ledger
            ⟨{ state with called := retire :: state.called },
              [Activity.reservation { reservation with current := some taken } true caller]
                + others⟩
          = ⟨taken ::ₘ apart state reservation others, state.finished,
              retire :: state.called, state.enqueued⟩ :=
        ledger_current rfl
      rw [ledger_current hcurrent, hafter]
      exact .call hattempt
  | @skip reservation retire taken caller hcurrent hattempt =>
      have hid : taken.id = retire.id := attempt_id hattempt
      have hcalled : ∃ earlier ∈ state.called, earlier.id = retire.id := by
        cases retire with
        | retry id => simp [DeferredRetirement.attempt] at hattempt
        | once id callable =>
            simp only [DeferredRetirement.attempt, Prod.mk.injEq] at hattempt
            refine h.accounted.taken (.once id callable) ?_ id (by rw [hattempt.2])
            rw [ledger_current hcurrent]
            exact Multiset.mem_cons_self _ _
      exact ledgerStep_settle .complete hcurrent hcalled
  | @report reservation retire disposition caller hcurrent _ =>
      obtain ⟨retire', hcurrent', hcalled⟩ := h.running reservation caller (Multiset.mem_cons_self _ _)
      cases hcurrent.symm.trans hcurrent'
      exact ledgerStep_settle disposition hcurrent hcalled
  | @turn reservation caller _ _ hcurrent hturn =>
      refine ledgerStep_keep ?_ ⟨rfl, rfl, rfl⟩
      have hpending := pending_of_turn caller hcurrent hturn
      simpa using hpending
  | @unwind reservation running caller hunwind =>
      cases hcurrent : reservation.current with
      | none =>
          refine ledgerStep_keep ?_ ⟨by simp [droppedBy], rfl, rfl⟩
          rw [pending_of_unwind, hcurrent]
          simp [droppedBy]
      | some retire =>
          cases retire with
          | retry id =>
              refine ledgerStep_keep ?_ ⟨by simp [droppedBy], rfl, rfl⟩
              rw [pending_of_unwind, hcurrent]
              simp [droppedBy]
          | once id callable =>
              have hrunning : running = true := hunwind.resolve_right (by simp [hcurrent])
              subst hrunning
              obtain ⟨retire', hcurrent', hwas⟩ :=
                h.running reservation caller (Multiset.mem_cons_self _ _)
              cases hcurrent.symm.trans hcurrent'
              have hcalled
                : ∃ earlier ∈ state.called,
                    earlier.id = (DeferredRetirement.once id callable).id := hwas
              have hafter
                : ledger
                    ⟨{ state with
                        registry := reservation.drop state.registry
                        finished := id :: state.finished }, others⟩
                  = ⟨apart state reservation others, id :: state.finished, state.called,
                      state.enqueued⟩ := by
                simp only [ledger, apart, DriverMutationReservation.drop, hcurrent, restored,
                  List.append_nil, ← Multiset.coe_add, RetirementLedger.mk.injEq, and_true]
                abel
              rw [ledger_current hcurrent]
              simp only [droppedBy, List.map_cons, List.map_nil, List.singleton_append,
                DeferredRetirement.id, Multiset.coe_nil, zero_add, hafter]
              exact .finish hcalled

/-- A capture moves no retirement but by the drain that its release starts. -/
theorem CaptureMove.ledgerStep (hmove : CaptureMove state activity state' next)
    : LedgerStep (ledger ⟨state, activity ::ₘ others⟩) (ledger ⟨state', next + others⟩) := by
  cases hmove with
  | acquired h =>
      obtain ⟨_, _, _, rfl, rfl⟩ := tryAcquireStreamCaptureKey_ok h
      exact ledgerStep_keep rfl ⟨rfl, rfl, rfl⟩
  | begin _ h =>
      obtain ⟨hsame, _⟩ := begin_sameRetirement h
      refine ledgerStep_keep ?_ ⟨rfl, rfl, rfl⟩
      simp [hsame.deferred, hsame.retainedUnknown, inHand]
  | finish _ h =>
      have hsame := closeSubmissionAdmission_sameRetirement h
      refine ledgerStep_keep ?_ ⟨rfl, rfl, rfl⟩
      simp [hsame.deferred, hsame.retainedUnknown, inHand]
  | dropActive _ _ h =>
      have hsame := closeSubmissionAdmission_sameRetirement h
      refine ledgerStep_keep ?_ ⟨rfl, rfl, rfl⟩
      simp [hsame.deferred, hsame.retainedUnknown, inHand]
  | release _ _ h =>
      refine ledgerStep_keep ?_ ⟨rfl, rfl, rfl⟩
      have hpending := pending_of_drain .done h
      simpa [inHand] using hpending
  | complete h =>
      obtain ⟨hsame, _⟩ := completeDriverCapture_sameRetirement h
      refine ledgerStep_keep ?_ ⟨rfl, rfl, rfl⟩
      simp [hsame.deferred, hsame.retainedUnknown, inHand]
  | _ => exact ledgerStep_keep rfl ⟨rfl, rfl, rfl⟩

/-- A submission moves no retirement. -/
theorem SubmissionMove.ledgerStep (hmove : SubmissionMove state activity state' next)
    : LedgerStep (ledger ⟨state, activity ::ₘ others⟩) (ledger ⟨state', next + others⟩) := by
  obtain ⟨hsame, _, henqueued, hfinished, hcalled⟩ := hmove.same
  refine ledgerStep_keep ?_ ⟨hfinished, hcalled, henqueued⟩
  have hnext : (next.map inHand).sum = inHand activity := by cases hmove <;> rfl
  rw [hsame.deferred, hsame.retainedUnknown, hnext]

/-- Queueing enters one new retirement, which the same section may take in hand. -/
theorem ledgerStep_enqueue {once : Bool} {registry : StreamCaptureRegistry}
    {reservation : Option DriverMutationReservation}
    (h : enqueueRetirement state.registry (newRetirement state.enqueued once)
      = (registry, reservation))
    : LedgerStep (ledger ⟨state, .enqueue once ::ₘ others⟩)
        (ledger
          ⟨{ state with registry := registry, enqueued := state.enqueued + 1 },
            [afterDrain .done reservation] + others⟩) := by
  have hpending := pending_of_drain .done h
  have hnothing : inHand (.enqueue once) = 0 := rfl
  have hafter
    : ledger
        ⟨{ state with registry := registry, enqueued := state.enqueued + 1 },
          [afterDrain .done reservation] + others⟩
      = { ledger ⟨state, .enqueue once ::ₘ others⟩ with
          pending := newRetirement state.enqueued once
            ::ₘ (ledger ⟨state, .enqueue once ::ₘ others⟩).pending
          enqueued := state.enqueued + 1 } := by
    simp only [ledger, total_coe_add, total_cons, List.map_cons, List.map_nil, List.sum_cons,
      List.sum_nil, add_zero, hnothing, zero_add, RetirementLedger.mk.injEq, and_true]
    rw [← add_assoc, hpending, ← Multiset.singleton_add]
    simp only [← Multiset.coe_add, Multiset.coe_singleton]
    abel
  rw [hafter]
  exact .queue once

theorem Move.ledgerStep (h : Ledgered ⟨state, activity ::ₘ others⟩)
    (hmove : Move state activity state' next)
    : LedgerStep (ledger ⟨state, activity ::ₘ others⟩) (ledger ⟨state', next + others⟩) := by
  cases hmove with
  | drain hmove => exact hmove.ledgerStep h
  | capture hmove => exact hmove.ledgerStep
  | submission hmove => exact hmove.ledgerStep
  | enqueue henqueue => exact ledgerStep_enqueue henqueue

/-- Calls are never forgotten. -/
theorem LedgerStep.wasCalled {ledger ledger' : RetirementLedger} {id : Nat}
    (h : LedgerStep ledger ledger') (hcalled : ledger.WasCalled id)
    : ledger'.WasCalled id := by
  cases h with
  | call =>
      obtain ⟨earlier, hearlier, hid⟩ := hcalled
      exact ⟨earlier, List.mem_cons_of_mem _ hearlier, hid⟩
  | _ => exact hcalled

/-- A callback that runs after a section ran before it, or was called by it. -/
theorem Move.running (hmove : Move state activity state' next)
    {reservation : DriverMutationReservation} {caller : DrainCaller}
    (h : .reservation reservation true caller ∈ next)
    : ∃ retire, reservation.current = some retire ∧ ∃ called ∈ state'.called,
        called.id = retire.id := by
  have hafter {caller' : DrainCaller} {reservation' : Option DriverMutationReservation}
      (heq : Activity.reservation reservation true caller = afterDrain caller' reservation')
      : False := by
    cases reservation' with
    | none => cases caller' <;> cases heq
    | some => cases heq
  cases hmove with
  | drain hmove =>
      cases hmove with
      | call hcurrent hattempt =>
          rw [List.mem_singleton] at h
          cases h
          exact ⟨_, rfl, _, List.mem_cons_self, (attempt_id hattempt).symm⟩
      | start => exact (hafter (List.mem_singleton.mp h)).elim
      | turn => exact (hafter (List.mem_singleton.mp h)).elim
      | _ => simp at h
  | capture hmove =>
      cases hmove with
      | release => exact (hafter (List.mem_singleton.mp h)).elim
      | _ => simp at h
  | submission hmove => cases hmove <;> simp at h
  | enqueue => exact (hafter (List.mem_singleton.mp h)).elim

/-- In every reachable world the ledger is accounted for. -/
theorem Reachable.ledgered {world : World CaptureState Activity} (h : Reachable world)
    : Ledgered world := by
  refine ActivitySystem.Reachable.invariant h ?_ ?_ ?_
  · refine ⟨⟨?_, ?_, ?_, ?_, ?_, ?_⟩, ?_⟩ <;> simp [ledger]
  · intro shared others activity hinv hentry
    have hzero : inHand activity = 0 := by cases hentry <;> rfl
    have hledger : ledger ⟨shared, activity ::ₘ others⟩ = ledger ⟨shared, others⟩ := by
      simp only [ledger, total_start hzero]
    refine ⟨hledger ▸ hinv.accounted, ?_⟩
    intro reservation caller hmem
    rw [hledger]
    rcases Multiset.mem_cons.mp hmem with heq | hmem
    · rw [← heq] at hentry
      cases hentry
    · exact hinv.running reservation caller hmem
  · intro shared others activity shared' next _ hinv hmove
    have hstep : LedgerStep (ledger ⟨shared, activity ::ₘ others⟩)
        (ledger ⟨shared', next + others⟩) := Move.ledgerStep hinv hmove
    refine ⟨hstep.accounted hinv.accounted, ?_⟩
    intro reservation caller hmem
    rcases Multiset.mem_add.mp hmem with hmem | hmem
    · exact Move.running hmove (Multiset.mem_coe.mp hmem)
    · obtain ⟨retire, hcurrent, hcalled⟩ :=
        hinv.running reservation caller (Multiset.mem_cons_of_mem hmem)
      exact ⟨retire, hcurrent, hstep.wasCalled hcalled⟩

end Xlog.Cuda.StreamCapture
