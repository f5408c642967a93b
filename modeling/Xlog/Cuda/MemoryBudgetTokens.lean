import Xlog.Cuda.MemoryBudgetLimits

/-! A token and its promise. The runtime holds back for a token just the bytes that the token
may still spend, also while one of its requests is in flight.
-/

namespace Xlog.Cuda.MemoryBudget

open Xlog.Core Xlog.Foundation

variable {config : ManagerId → ManagerConfig} {system system' : BudgetSystem}
  {activity : Activity} {next : List Activity} {others : Multiset Activity}

-- Backed tokens

/-- A token has a promise if its manager has a runtime, and the promise exceeds what the token
has left by these bytes.
-/
structure GpuMemoryReservation.Backed (config : ManagerId → ManagerConfig)
    (token : GpuMemoryReservation) (bytes : Nat) : Prop where
  runtime : (config token.manager).runtime = token.runtimeReservation.isSome
  remaining
    : ∀ reservation, token.runtimeReservation = some reservation
      → reservation.remainingBytes = token.remainingBytes + bytes

/-- What the promise of an attempt's token exceeds it by: the bytes that the token has given to
the attempt and the promise has not, until the storage is acquired.
-/
def AllocationAttempt.excess (attempt : AllocationAttempt) (acquired : Bool) : Nat :=
  if attempt.promised then 0 else returned attempt.bytes acquired

/-- An attempt of a token through the runtime takes its bytes from the promise. One that goes
around a runtime is empty.
-/
structure AllocationAttempt.Backed (config : ManagerId → ManagerConfig)
    (attempt : AllocationAttempt) (stage : AttemptStage) (acquired : Bool) : Prop where
  token
    : ∀ token, attempt.owner = .token token → token.Backed config (attempt.excess acquired)
  start
    : ∀ token, attempt.owner = .token token → stage = .start
      → Routed (config token.manager) attempt.bytes attempt.viaRuntime
  promised
    : ∀ token, attempt.owner = .token token → stage.guarded = true → attempt.viaRuntime = true
      → attempt.promised = true
  native
    : ∀ token reservation, attempt.owner = .token token
      → token.runtimeReservation = some reservation → stage.guarded = true
      → attempt.viaRuntime = false → attempt.bytes = 0

/-- Every token under way is backed. -/
def Backed (config : ManagerId → ManagerConfig) (system : BudgetSystem) : Activity → Prop
  | .reserveLocal manager bytes reservation =>
      GpuMemoryReservation.Backed config ⟨manager, reservation, bytes, bytes⟩ 0
  | .token token => token.Backed config 0
  | .attempt attempt stage => attempt.Backed config stage (system.acquired attempt.ticket)
  | _ => True

/-- An attempt that keeps its promise and goes on beyond its start. -/
theorem AllocationAttempt.Backed.goOn {attempt : AllocationAttempt}
    {stage stage' : AttemptStage} {acquired : Bool}
    (h : attempt.Backed config stage acquired) (hstart : stage' ≠ .start)
    (hguarded : stage'.guarded = true → stage.guarded = true)
    : attempt.Backed config stage' acquired where
  token := h.token
  start _ _ hstage := absurd hstage hstart
  promised token howner hstage := h.promised token howner (hguarded hstage)
  native token reservation howner hreservation hstage :=
    h.native token reservation howner hreservation (hguarded hstage)

/-- The promise of a token whose manager has a runtime. -/
theorem GpuMemoryReservation.Backed.promise {token : GpuMemoryReservation} {bytes : Nat}
    (h : token.Backed config bytes) (hruntime : (config token.manager).runtime = true)
    : ∃ reservation, token.runtimeReservation = some reservation := by
  rw [h.runtime] at hruntime
  exact Option.isSome_iff_exists.mp hruntime

theorem backed_singleton {activity' : Activity} (h : Backed config system activity')
    : ∀ other ∈ [activity'], Backed config system other := by
  intro other hother
  cases List.mem_singleton.mp hother
  exact h

theorem backed_afterToken (reservation : Option RuntimeMemoryReservation)
    : Backed config system (afterToken reservation) := by
  cases reservation <;> trivial

theorem ReserveMove.backed (h : ReserveMove config system activity system' next)
    (hbacked : Backed config system activity)
    : ∀ activity' ∈ next, Backed config system' activity' := by
  cases h with
  | promised hruntime hfree h =>
      obtain ⟨reserved, -, -, -, hbytes, rfl⟩ := reserveMemory_ok h
      refine backed_singleton ⟨hruntime, ?_⟩
      rintro reservation heq
      cases heq
      exact hbytes
  | unbacked hruntime =>
      refine backed_singleton ⟨hruntime, ?_⟩
      rintro reservation heq
      cases heq
  | reserved h => exact backed_singleton hbacked
  | pressed | drop | dropFailed => exact backed_singleton (backed_afterToken _)
  | @spend token bytes viaRuntime hle hroute =>
      refine backed_singleton ⟨?_, ?_, ?_, ?_⟩
      · rintro _ heq
        cases heq
        refine ⟨hbacked.runtime, ?_⟩
        intro reservation hreservation
        have hremaining := hbacked.remaining reservation hreservation
        simp only [AllocationAttempt.excess, Bool.false_eq_true, if_false, newTicket_acquired,
          returned_false]
        omega
      · rintro _ heq -
        cases heq
        exact hroute
      · rintro _ _ hguarded
        cases hguarded
      · rintro _ _ _ _ hguarded
        cases hguarded
  | overdrawn => exact backed_singleton hbacked
  | allocate | allocateRuntime =>
      refine backed_singleton ⟨?_, ?_, ?_, ?_⟩
      · rintro _ heq
        cases heq
      · rintro _ heq
        cases heq
      · rintro _ heq
        cases heq
      · rintro _ _ heq
        cases heq
  | _ => exact backed_singleton trivial

theorem AttemptMove.backed (h : AttemptMove system activity system' next)
    (hattempting : Attempting system activity) (hbacked : Backed config system activity)
    : ∀ activity' ∈ next, Backed config system' activity' := by
  cases h with
  | fail | overdrawn | retry | reject | unwindReap | enter =>
      exact backed_singleton (hbacked.goOn (by simp) (by simp [AttemptStage.guarded]))
  | native hroute =>
      refine backed_singleton ⟨hbacked.token, ?_, ?_, ?_⟩
      · rintro _ _ hstage
        cases hstage
      · intro token howner _ hvia
        rw [hroute] at hvia
        cases hvia
      · intro token reservation howner hreservation _ _
        have hrouted := hbacked.start token howner rfl
        have hruntime := (hbacked.token token howner).runtime
        rw [hreservation, Option.isSome_some] at hruntime
        simp only [Routed, hroute, hruntime, Bool.false_eq_true, if_false] at hrouted
        exact hrouted.resolve_left (by simp)
  | @take attempt token reservation _ _ hroute howner hreservation hfree h =>
      obtain ⟨⟨hacquired, -, -⟩, hshaped⟩ := hattempting _ _ rfl
      obtain ⟨hle, -, rfl, rfl⟩ := takePromise_ok h
      have htoken := hbacked.token token howner
      have hremaining := htoken.remaining reservation hreservation
      have hpromised : attempt.promised = false := hshaped
      have hnot : system.acquired attempt.ticket = false := hacquired
      simp only [AllocationAttempt.excess, hpromised, hnot, Bool.false_eq_true, if_false,
        returned_false] at hremaining
      refine backed_singleton ⟨?_, ?_, ?_, ?_⟩
      · rintro _ heq
        cases heq
        refine ⟨?_, ?_⟩
        · rw [htoken.runtime, hreservation]
          rfl
        · rintro _ heq
          cases heq
          simp only [AllocationAttempt.excess, if_true]
          omega
      · rintro _ _ hstage
        cases hstage
      · intro _ _ _ _
        rfl
      · intro _ _ _ _ _ hvia
        rw [hroute] at hvia
        cases hvia
  | lock hroute howner hfree =>
      refine backed_singleton ⟨hbacked.token, ?_, ?_, ?_⟩
      · rintro _ _ hstage
        cases hstage
      · intro token howner' _ _
        have hruntime : (config token.manager).runtime = true := by
          have hrouted := hbacked.start token howner' rfl
          simpa [Routed, hroute] using hrouted
        obtain ⟨reservation, hreservation⟩ := (hbacked.token token howner').promise hruntime
        exact absurd hreservation (howner token reservation howner')
      · intro _ _ _ _ _ hvia
        rw [hroute] at hvia
        cases hvia
  | accept hlevel h =>
      exact backed_singleton (hbacked.goOn (by simp) (by simp [AttemptStage.guarded]))
  | @attach attempt _ hroute h =>
      rw [attachResource_ok h]
      refine backed_singleton ?_
      simp only [Backed, setTicket_acquired]
      exact hbacked.goOn (by simp) (by simp [AttemptStage.guarded])
  | refuse hstage =>
      refine backed_singleton (hbacked.goOn (by simp) ?_)
      rcases hstage with rfl | rfl <;> simp [AttemptStage.guarded]
  | @acquire attempt stage hstage =>
      have hbefore : stage.guarded = true := by
        rcases hstage with rfl | ⟨rfl, -⟩ <;> rfl
      refine backed_singleton ?_
      simp only [Backed, setTicket_acquired]
      refine ⟨?_, ?_, ?_, ?_⟩
      · intro token howner
        refine ⟨(hbacked.token token howner).runtime, ?_⟩
        intro reservation hreservation
        have hremaining := (hbacked.token token howner).remaining reservation hreservation
        rw [hremaining]
        cases hvia : attempt.viaRuntime with
        | true =>
            have hpromised := hbacked.promised token howner hbefore hvia
            simp [AllocationAttempt.excess, hpromised]
        | false =>
            have hbytes := hbacked.native token reservation howner hreservation hbefore hvia
            simp [AllocationAttempt.excess, hbytes, returned]
      · rintro _ _ hstage
        cases hstage
      · intro token howner _
        exact hbacked.promised token howner hbefore
      · intro token reservation howner hreservation _
        exact hbacked.native token reservation howner hreservation hbefore
  | publish h =>
      refine backed_singleton ?_
      simp only [Backed, (publish_same h).acquired_eq]
      exact hbacked.goOn (by simp) (by simp [AttemptStage.guarded])
  | refund => exact backed_singleton (hbacked.goOn (by simp) (by simp [AttemptStage.guarded]))
  | @returnPromise attempt token reservation _ _ hpromised howner hreservation h =>
      obtain ⟨rfl, rfl⟩ := returnPromise_ok h
      have htoken := hbacked.token token howner
      have hremaining := htoken.remaining reservation hreservation
      simp only [AllocationAttempt.excess, hpromised, if_true] at hremaining
      refine backed_singleton ⟨?_, ?_, ?_, ?_⟩
      · rintro _ heq
        cases heq
        refine ⟨?_, ?_⟩
        · rw [htoken.runtime, hreservation]
          rfl
        · rintro _ heq
          cases heq
          simp only [AllocationAttempt.excess, Bool.false_eq_true, if_false, hremaining]
          rfl
      · rintro _ _ hstage
        cases hstage
      · rintro _ _ hstage
        cases hstage
      · rintro _ _ _ _ hstage
        cases hstage
  | unlock | leave =>
      exact backed_singleton (hbacked.goOn (by simp) (by simp [AttemptStage.guarded]))
  | @settled attempt hacquired =>
      refine backed_singleton ?_
      cases howner : attempt.owner with
      | token token =>
          have htoken := hbacked.token token howner
          have hnothing : attempt.excess (system.acquired attempt.ticket) = 0 := by
            simp [AllocationAttempt.excess, BudgetSystem.acquired, hacquired]
          rw [hnothing] at htoken
          exact htoken
      | manager | runtime => trivial
  | @restoreToken attempt token hacquired howner =>
      obtain ⟨-, hshaped⟩ := hattempting _ _ rfl
      have htoken := hbacked.token token howner
      have hpromised : attempt.promised = false := hshaped
      refine backed_singleton ⟨htoken.runtime, ?_⟩
      intro reservation hreservation
      have hremaining := htoken.remaining reservation hreservation
      simp only [AllocationAttempt.excess, hpromised, BudgetSystem.acquired, hacquired,
        Bool.false_eq_true, if_false, returned_false] at hremaining
      simpa using hremaining
  | restoreManager | restoreFailed | uncharged => exact backed_singleton trivial

theorem Move.backed (h : Move config system activity system' next)
    (hattempting : Attempting system activity) (hbacked : Backed config system activity)
    : ∀ activity' ∈ next, Backed config system' activity' := by
  cases h with
  | reserve h => exact h.backed hbacked
  | attempt h => exact h.backed hattempting hbacked
  | release h =>
      rcases h.cases.2 with rfl | ⟨id, stage, stage', -, rfl, -⟩
      · exact backed_singleton trivial
      · exact backed_singleton trivial

/-- Only its own ticket tells whether a token is backed. -/
theorem Backed.kept (h : Backed config system activity)
    (hkept : ∀ id ∈ owns activity, system'.acquired id = system.acquired id)
    : Backed config system' activity := by
  cases activity with
  | attempt attempt stage =>
      simp only [Backed, hkept attempt.ticket (Multiset.mem_singleton_self _)] at h ⊢
      exact h
  | _ => exact h

-- Pressure

/-- The pressure is read under the lock, after the attempt's own bytes are taken out. -/
theorem Move.pressed (h : Move config system activity system' next)
    (hpressed : Pressed system activity)
    : ∀ activity' ∈ next, Pressed system' activity' := by
  rintro activity' hmem attempt level retried rfl
  cases h with
  | reserve h =>
      cases h with
      | pressed h | drop h | dropFailed h =>
          have hnone := List.mem_singleton.mp hmem
          have howns := congrArg owns hnone
          rw [owns_afterToken] at howns
          exact absurd howns (Multiset.singleton_ne_zero _)
      | _ => simp at hmem
  | attempt h =>
      cases h with
      | take hroute howner hreservation hfree h =>
          cases List.mem_singleton.mp hmem
          rfl
      | lock =>
          cases List.mem_singleton.mp hmem
          rfl
      | accept | retry =>
          cases List.mem_singleton.mp hmem
          exact hpressed _ _ _ rfl
      | settled =>
          have howns := congrArg owns (List.mem_singleton.mp hmem)
          rw [owns_next] at howns
          exact absurd howns (Multiset.singleton_ne_zero _)
      | _ => simp at hmem
  | release h =>
      rcases h.cases.2 with rfl | ⟨id, stage, stage', -, rfl, -⟩ <;> simp at hmem

end Xlog.Cuda.MemoryBudget
