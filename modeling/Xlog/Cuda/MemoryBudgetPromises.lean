import Xlog.Cuda.MemoryBudgetLedgers

/-! The ledgers of the stacked budgets and of the runtime's promises, and the lock that a materialization keeps
over all its sections. Under the lock no other promise is given, so what the outermost budget and the
promises take together stays within the limit.
-/

namespace Xlog.Cuda.MemoryBudget

open Xlog.Core Xlog.Foundation

variable {config : ManagerId → ManagerConfig} {system system' : BudgetSystem}
  {activity : Activity} {next : List Activity} {others : Multiset Activity} {level : Nat}

-- The ledger of a budget

/-- What the budget has admitted or counts as reclaimed changes by what the section changes for
the activity and for the tickets.
-/
def BudgetMoved (level : Nat) (system : BudgetSystem) (activity : Activity)
    (system' : BudgetSystem) (next : List Activity) : Prop :=
  (system'.budgets level).admittedTotal + (system'.budgets level).baselineReclaimed
      + admitted system.depth level system.acquired activity
      + ticketSum acquiredResource system + system.accounting.totalReclaimed
    = (system.budgets level).admittedTotal + (system.budgets level).baselineReclaimed
      + total (admitted system.depth level system'.acquired) (next : Multiset Activity)
      + ticketSum acquiredResource system' + system'.accounting.totalReclaimed

theorem BudgetMoved.of_same (h : SameLedgers system system')
    (hnext
      : total (admitted system.depth level system.acquired) (next : Multiset Activity)
        = admitted system.depth level system.acquired activity)
    : BudgetMoved level system activity system' next := by
  unfold BudgetMoved
  rw [h.budgets, h.resource_eq, h.acquired_eq, h.totalReclaimed, hnext]

/-- An attempt that has its bytes in the same budgets as before. -/
theorem BudgetMoved.of_attempt {attempt attempt' : AllocationAttempt}
    {stage stage' : AttemptStage}
    (hbudget : system'.budgets level = system.budgets level)
    (htickets : ticketSum acquiredResource system' = ticketSum acquiredResource system)
    (hreclaimed : system'.accounting = system.accounting)
    (hacquired : system'.acquired attempt'.ticket = system.acquired attempt.ticket)
    (hbytes : attempt'.bytes = attempt.bytes)
    (hlevel : attempt'.level system.depth stage' = attempt.level system.depth stage)
    : BudgetMoved level system (.attempt attempt stage) system' [.attempt attempt' stage'] := by
  unfold BudgetMoved
  simp only [Multiset.coe_singleton, total_singleton, admitted, hbudget, htickets, hreclaimed,
    hacquired, hbytes, hlevel]

/-- One budget takes an attempt in or lets it out; the others see no difference. -/
theorem BudgetMoved.of_setBudget {attempt : AllocationAttempt} {stage stage' : AttemptStage}
    {other : Nat} {budget : GlobalDeviceBudget}
    (hbaseline : budget.baselineReclaimed = (system.budgets other).baselineReclaimed)
    (hother
      : level ≠ other
        → (level < attempt.level system.depth stage' ↔ level < attempt.level system.depth stage))
    (hown
      : level = other
        → budget.admittedTotal
            + admitted system.depth other system.acquired (.attempt attempt stage)
          = (system.budgets other).admittedTotal
            + admitted system.depth other system.acquired (.attempt attempt stage'))
    : BudgetMoved level system (.attempt attempt stage) (system.setBudget other budget)
        [.attempt attempt stage'] := by
  unfold BudgetMoved
  rw [Multiset.coe_singleton, total_singleton]
  change _ + ticketSum _ system + system.accounting.totalReclaimed
    = _ + admitted _ _ system.acquired _ + ticketSum _ system
      + system.accounting.totalReclaimed
  rcases eq_or_ne level other with rfl | hne
  · rw [setBudget_self, hbaseline]
    have hmoved := hown rfl
    omega
  · rw [setBudget_of_ne _ _ _ hne]
    simp only [admitted, hother hne]

/-- An activity that has no bytes in a budget, before and after. -/
theorem BudgetMoved.of_outside (hbudget : system'.budgets level = system.budgets level)
    (htickets : ticketSum acquiredResource system' = ticketSum acquiredResource system)
    (hreclaimed : system'.accounting = system.accounting)
    (hbefore : admitted system.depth level system.acquired activity = 0)
    (hafter
      : total (admitted system.depth level system'.acquired) (next : Multiset Activity) = 0)
    : BudgetMoved level system activity system' next := by
  unfold BudgetMoved
  rw [hbudget, htickets, hreclaimed, hbefore, hafter]

theorem admitted_of_owns {acquired : TicketId → Bool} (depth : Nat) (h : owns activity = 0)
    : admitted depth level acquired activity = 0 := by
  cases activity with
  | attempt attempt stage => exact absurd h (Multiset.singleton_ne_zero _)
  | _ => rfl

/-- A single activity without a ticket has no bytes in a budget. -/
theorem admitted_next {acquired : TicketId → Bool} (depth : Nat) (h : owns activity = 0)
    : total (admitted depth level acquired) (([activity] : List Activity) : Multiset Activity)
      = 0 := by
  rw [Multiset.coe_singleton, total_singleton, admitted_of_owns depth h]

@[simp]
theorem owns_afterToken (reservation : Option RuntimeMemoryReservation)
    : owns (afterToken reservation) = 0 := by
  cases reservation <;> rfl

@[simp]
theorem owns_next (owner : AttemptOwner) : owns owner.next = 0 := by
  cases owner <;> rfl

/-- A new attempt starts outside of every budget. -/
theorem admitted_start {acquired : TicketId → Bool} (depth : Nat) (attempt : AllocationAttempt)
    : total (admitted depth level acquired)
        (([Activity.attempt attempt .start] : List Activity) : Multiset Activity) = 0 := by
  simp [admitted, AllocationAttempt.level]

theorem newTicket_resource (charge : Option LocalAllocationCharge)
    : ticketSum acquiredResource (system.newTicket charge)
      = ticketSum acquiredResource system :=
  ticketSum_newTicket rfl

theorem ReserveMove.budgetMoved (h : ReserveMove config system activity system' next)
    : BudgetMoved level system activity system' next := by
  cases h with
  | promised hruntime hfree h =>
      obtain ⟨reserved, -, -, -, -, rfl⟩ := reserveMemory_ok h
      rfl
  | pressed | drop | dropFailed =>
      exact .of_outside rfl rfl rfl rfl (admitted_next _ (owns_afterToken _))
  | spend | allocateRuntime =>
      exact .of_outside rfl (newTicket_resource _) rfl rfl (admitted_start _ _)
  | @allocate manager _ _ _ accounting =>
      exact .of_outside rfl (@newTicket_resource (system.setManager manager accounting) _) rfl
        rfl (admitted_start _ _)
  | _ => exact .of_outside rfl rfl rfl rfl (admitted_next _ rfl)

theorem AttemptMove.budgetMoved (h : AttemptMove system activity system' next)
    (hattempting : Attempting system activity)
    (hlt : ∀ id ∈ owns activity, id < system.ticketCount) (hlevel : level < system.depth)
    (hcovered
      : admitted system.depth level system.acquired activity
        ≤ (system.budgets level).admittedTotal)
    : BudgetMoved level system activity system' next := by
  cases h with
  | native hroute =>
      refine .of_attempt rfl rfl rfl rfl rfl ?_
      simp [AllocationAttempt.level, hroute]
  | take hroute howner hreservation hfree h =>
      obtain ⟨-, -, rfl, -⟩ := takePromise_ok h
      exact .of_attempt rfl rfl rfl rfl rfl rfl
  | @accept attempt passed retried _ _ h =>
      obtain ⟨⟨hacquired, -, -⟩, -⟩ := hattempting _ _ rfl
      obtain ⟨reserved, -, -, rfl⟩ := admit_ok h
      refine .of_setBudget rfl ?_ ?_
      · intro hne
        simp only [AllocationAttempt.level]
        omega
      · rintro -
        simp [admitted, AllocationAttempt.level, BudgetSystem.acquired, hacquired]
  | @enter attempt retried =>
      obtain ⟨-, hshaped⟩ := hattempting _ _ rfl
      refine .of_attempt rfl rfl rfl rfl rfl ?_
      simp [AllocationAttempt.level, hshaped.1]
  | @attach attempt _ hroute h =>
      obtain ⟨⟨hacquired, -, -⟩, -⟩ := hattempting _ _ rfl
      rw [attachResource_ok h]
      have hsum
        := @ticketSum_setTicket acquiredResource system attempt.ticket
          (hlt _ (Multiset.mem_singleton_self _))
          { system.tickets attempt.ticket with resource := some attempt.bytes }
      refine .of_attempt rfl ?_ rfl (setTicket_acquired _ _) rfl rfl
      simpa [acquiredResource, hacquired] using hsum
  | refuse hstage =>
      refine .of_attempt rfl rfl rfl rfl rfl ?_
      rcases hstage with rfl | rfl <;> rfl
  | @acquire attempt stage hstage =>
      have hsum
        := @ticketSum_setTicket acquiredResource system attempt.ticket
          (hlt _ (Multiset.mem_singleton_self _))
          { system.tickets attempt.ticket with acquired := true }
      obtain ⟨hacquired, hresource⟩
        : (system.tickets attempt.ticket).acquired = false
          ∧ (system.tickets attempt.ticket).resource.getD 0
            = admitted system.depth level system.acquired (.attempt attempt stage) := by
        rcases hstage with rfl | ⟨rfl, hroute⟩
        · obtain ⟨⟨hacquired, -, hresource⟩, hshaped⟩ := hattempting _ _ rfl
          refine ⟨hacquired, ?_⟩
          have hroute : attempt.viaRuntime = true := hshaped
          simp [hresource, admitted, AllocationAttempt.level, hroute, hlevel,
            BudgetSystem.acquired, hacquired]
        · obtain ⟨⟨hacquired, -, hresource⟩, -⟩ := hattempting _ _ rfl
          refine ⟨hacquired, ?_⟩
          simp [hresource, admitted, AllocationAttempt.level, hroute]
      have hbefore : acquiredResource (system.tickets attempt.ticket) = 0 := by
        simp [acquiredResource, hacquired]
      have hafter
        : acquiredResource { system.tickets attempt.ticket with acquired := true }
          = (system.tickets attempt.ticket).resource.getD 0 := by
        simp [acquiredResource]
      rw [hbefore] at hsum
      dsimp only at hsum hafter
      rw [hafter, hresource] at hsum
      unfold BudgetMoved
      have hnothing
        : admitted system.depth level
            (system.setTicket attempt.ticket
              { system.tickets attempt.ticket with acquired := true }).acquired
            (.attempt attempt .acquiring) = 0 := by
        simp [admitted]
      rw [Multiset.coe_singleton, total_singleton, hnothing]
      change (system.budgets level).admittedTotal + (system.budgets level).baselineReclaimed
        + _ + _ + system.accounting.totalReclaimed = _ + system.accounting.totalReclaimed
      dsimp only
      omega
  | publish h => exact .of_same (publish_same h) rfl
  | @refund attempt passed =>
      rw [refund_eq]
      refine .of_setBudget rfl ?_ ?_
      · intro hne
        simp only [AllocationAttempt.level]
        omega
      · rintro rfl
        simp only [admitted, AllocationAttempt.level, lt_irrefl, Nat.lt_succ_self, if_true,
          if_false] at hcovered ⊢
        simp only [BudgetSystem.acquired] at hcovered ⊢
        omega
  | returnPromise hpromised howner hreservation h =>
      obtain ⟨rfl, -⟩ := returnPromise_ok h
      exact .of_attempt rfl rfl rfl rfl rfl rfl
  | leave hroute => exact .of_attempt rfl rfl rfl rfl rfl rfl
  | settled => exact .of_outside rfl rfl rfl rfl (admitted_next _ (owns_next _))
  | restoreToken | restoreManager | restoreFailed | uncharged =>
      exact .of_outside rfl rfl rfl rfl (admitted_next _ rfl)
  | _ => exact .of_attempt rfl rfl rfl rfl rfl rfl

theorem ReleaseMove.budgetMoved (h : ReleaseMove system activity system' next)
    (hcompleting : Completing system activity)
    : BudgetMoved level system activity system' next := by
  have hbefore (acquired : TicketId → Bool)
      : admitted system.depth level acquired activity = 0 := by
    cases h <;> rfl
  have hafter (acquired : TicketId → Bool)
      : total (admitted system.depth level acquired) (next : Multiset Activity) = 0 := by
    rcases h.cases.2 with rfl | ⟨id, stage, stage', -, rfl, -⟩ <;> rfl
  rcases h.cases.1 with hsame | ⟨id, rfl, hsettle⟩ | ⟨id, rfl, hsettle⟩
  · exact .of_same hsame ((hafter _).trans (hbefore _).symm)
  · obtain ⟨hlt, hacquired⟩ := hcompleting id _ rfl (by simp)
    rcases settleLocal_ok hsettle with ⟨-, rfl⟩ | ⟨charge, accounting, -, -, -, rfl⟩
    · exact .of_same (.refl _) ((hafter _).trans (hbefore _).symm)
    · refine .of_outside rfl ?_ rfl (hbefore _) (hafter _)
      have hsum
        := @ticketSum_setTicket acquiredResource
          (system.setManager charge.manager accounting) id hlt
          { system.tickets id with charge := none }
      exact Nat.add_right_cancel hsum
  · obtain ⟨hlt, hacquired⟩ := hcompleting id _ rfl (by simp)
    rcases settleResource_ok hsettle with ⟨-, rfl⟩ | ⟨bytes, accounting, hresource, htotal, rfl⟩
    · exact .of_same (.refl _) ((hafter _).trans (hbefore _).symm)
    · have hsum
        := @ticketSum_setTicket acquiredResource system id hlt
          { system.tickets id with resource := none }
      have hheld : acquiredResource (system.tickets id) = bytes := by
        simp [acquiredResource, hacquired, hresource]
      have hnone : acquiredResource { system.tickets id with resource := none } = 0 := by
        simp [acquiredResource]
      dsimp only at hsum hnone
      rw [hheld, hnone] at hsum
      unfold BudgetMoved
      rw [hbefore, hafter]
      change _ + system.accounting.totalReclaimed
        = _ + ticketSum _ (system.setTicket id _) + accounting.totalReclaimed
      rw [htotal]
      change (system.budgets level).admittedTotal + (system.budgets level).baselineReclaimed
        + _ + _ + _ = _
      dsimp only
      omega

/-- A section moves the bytes of a budget without losing any. -/
theorem Move.budgetMoved (h : Move config system activity system' next)
    (hattempting : Attempting system activity) (hcompleting : Completing system activity)
    (hlt : ∀ id ∈ owns activity, id < system.ticketCount) (hlevel : level < system.depth)
    (hcovered
      : admitted system.depth level system.acquired activity
        ≤ (system.budgets level).admittedTotal)
    : BudgetMoved level system activity system' next := by
  cases h with
  | reserve h => exact h.budgetMoved
  | attempt h => exact h.budgetMoved hattempting hlt hlevel hcovered
  | release h => exact h.budgetMoved hcompleting

-- The lock

-- The ledger of the promises

/-- The runtime's total changes by what the section changes for the activity. -/
def PromiseMoved (system : BudgetSystem) (activity : Activity) (system' : BudgetSystem)
    (next : List Activity) : Prop :=
  system'.reservationBytes + promisedBytes activity
    = system.reservationBytes + total promisedBytes (next : Multiset Activity)

theorem promised_afterToken (reservation : Option RuntimeMemoryReservation)
    : promisedBytes (afterToken reservation)
      = reservation.elim 0 RuntimeMemoryReservation.remainingBytes := by
  cases reservation <;> rfl

theorem promised_next (owner : AttemptOwner)
    : promisedBytes owner.next = owner.ofToken GpuMemoryReservation.promise := by
  cases owner <;> rfl

theorem ReserveMove.promiseMoved (h : ReserveMove config system activity system' next)
    (hcovered : promisedBytes activity ≤ system.reservationBytes)
    : PromiseMoved system activity system' next := by
  cases h with
  | promised hruntime hfree h =>
      obtain ⟨reserved, -, -, -, hbytes, rfl⟩ := reserveMemory_ok h
      unfold PromiseMoved
      simp only [Multiset.coe_singleton, total_singleton, promisedBytes,
        Option.elim_some, hbytes]
      rfl
  | pressed | drop | dropFailed =>
      unfold PromiseMoved
      rw [Multiset.coe_singleton, total_singleton, promised_afterToken]
      rfl
  | dropPromise hfree =>
      simp only [PromiseMoved, Multiset.coe_singleton, total_singleton, promisedBytes,
        BudgetSystem.dropPromise] at hcovered ⊢
      omega
  | _ => rfl

theorem AttemptMove.promiseMoved (h : AttemptMove system activity system' next)
    (hcovered : promisedBytes activity ≤ system.reservationBytes)
    : PromiseMoved system activity system' next := by
  cases h with
  | take hroute howner hreservation hfree h =>
      obtain ⟨hremaining, hle, rfl, rfl⟩ := takePromise_ok h
      simp only [PromiseMoved, Multiset.coe_singleton, total_singleton, promisedBytes, howner,
        AttemptOwner.ofToken, GpuMemoryReservation.promise, hreservation, Option.elim_some]
      omega
  | attach hroute h =>
      rw [attachResource_ok h]
      rfl
  | publish h =>
      unfold PromiseMoved
      rw [(publish_same h).reservationBytes]
      rfl
  | returnPromise hpromised howner hreservation h =>
      obtain ⟨rfl, rfl⟩ := returnPromise_ok h
      simp only [PromiseMoved, Multiset.coe_singleton, total_singleton, promisedBytes, howner,
        AttemptOwner.ofToken, GpuMemoryReservation.promise, hreservation, Option.elim_some]
      omega
  | settled =>
      unfold PromiseMoved
      rw [Multiset.coe_singleton, total_singleton, promised_next]
      rfl
  | restoreToken hacquired howner =>
      simp only [PromiseMoved, Multiset.coe_singleton, total_singleton, promisedBytes, howner]
      rfl
  | restoreManager hacquired howner | restoreFailed hacquired howner
  | uncharged hacquired howner =>
      simp only [PromiseMoved, Multiset.coe_singleton, total_singleton, promisedBytes, howner]
      rfl
  | _ => rfl

theorem ReleaseMove.reservationBytes (h : ReleaseMove system activity system' next)
    : system'.reservationBytes = system.reservationBytes := by
  rcases h.cases.1 with hsame | ⟨id, -, hsettle⟩ | ⟨id, -, hsettle⟩
  · exact hsame.reservationBytes
  · rcases settleLocal_ok hsettle with ⟨-, rfl⟩ | ⟨_, _, -, -, -, rfl⟩ <;> rfl
  · rcases settleResource_ok hsettle with ⟨-, rfl⟩ | ⟨_, _, -, -, rfl⟩ <;> rfl

/-- A section moves promised bytes without losing any. -/
theorem Move.promiseMoved (h : Move config system activity system' next)
    (hcovered : promisedBytes activity ≤ system.reservationBytes)
    : PromiseMoved system activity system' next := by
  cases h with
  | reserve h => exact h.promiseMoved hcovered
  | attempt h => exact h.promiseMoved hcovered
  | release h =>
      have hbefore : promisedBytes activity = 0 := by
        cases h <;> rfl
      have hafter : total promisedBytes (next : Multiset Activity) = 0 := by
        rcases h.cases.2 with rfl | ⟨id, stage, stage', -, rfl, -⟩ <;> rfl
      unfold PromiseMoved
      rw [h.reservationBytes, hbefore, hafter]

-- The promise lock

/-- From taking the promise lock to freeing it. -/
def AttemptStage.guarded : AttemptStage → Bool
  | .start | .settling => false
  | _ => true

/-- An attempt through the runtime holds the promise lock. -/
def locking : Activity → Nat
  | .attempt attempt stage => (attempt.viaRuntime && stage.guarded).toNat
  | _ => 0

/-- The lock changes hands with the section. -/
def LockMoved (system : BudgetSystem) (activity : Activity) (system' : BudgetSystem)
    (next : List Activity) : Prop :=
  system'.promiseHeld.toNat + locking activity
    = system.promiseHeld.toNat + total locking (next : Multiset Activity)

theorem locking_of_owns (h : owns activity = 0) : locking activity = 0 := by
  cases activity with
  | attempt attempt stage => exact absurd h (Multiset.singleton_ne_zero _)
  | _ => rfl

theorem LockMoved.of_outside (hheld : system'.promiseHeld = system.promiseHeld)
    {activity' : Activity} (hbefore : locking activity = 0) (hafter : owns activity' = 0)
    : LockMoved system activity system' [activity'] := by
  unfold LockMoved
  rw [Multiset.coe_singleton, total_singleton, locking_of_owns hafter, hheld, hbefore]

theorem ReserveMove.lockMoved (h : ReserveMove config system activity system' next)
    : LockMoved system activity system' next := by
  cases h with
  | promised hruntime hfree h =>
      obtain ⟨reserved, -, -, -, -, rfl⟩ := reserveMemory_ok h
      rfl
  | pressed | drop | dropFailed => exact .of_outside rfl rfl (owns_afterToken _)
  | spend | allocate | allocateRuntime =>
      simp only [LockMoved, Multiset.coe_singleton, total_singleton, locking,
        AttemptStage.guarded, Bool.and_false]
      rfl
  | _ => exact .of_outside rfl rfl rfl

/-- An attempt that neither takes the lock nor frees it. -/
theorem LockMoved.of_attempt {attempt attempt' : AllocationAttempt}
    {stage stage' : AttemptStage} (hheld : system'.promiseHeld = system.promiseHeld)
    (hroute : attempt'.viaRuntime = attempt.viaRuntime)
    (hguarded : attempt.viaRuntime = false ∨ stage'.guarded = stage.guarded)
    : LockMoved system (.attempt attempt stage) system' [.attempt attempt' stage'] := by
  unfold LockMoved
  rw [Multiset.coe_singleton, total_singleton, hheld]
  simp only [locking, hroute]
  rcases hguarded with hnative | hguarded
  · simp [hnative]
  · rw [hguarded]

theorem AttemptMove.lockMoved (h : AttemptMove system activity system' next)
    (hattempting : Attempting system activity)
    (hcovered : locking activity ≤ system.promiseHeld.toNat)
    : LockMoved system activity system' next := by
  cases h with
  | native hroute => exact .of_attempt rfl rfl (.inl hroute)
  | take hroute howner hreservation hfree h =>
      obtain ⟨-, -, rfl, -⟩ := takePromise_ok h
      simp [LockMoved, locking, AttemptStage.guarded, hroute, hfree]
  | lock hroute howner hfree =>
      simp [LockMoved, locking, AttemptStage.guarded, hroute, hfree]
  | attach hroute h =>
      rw [attachResource_ok h]
      exact .of_attempt rfl rfl (.inr rfl)
  | refuse hstage => exact .of_attempt rfl rfl (.inr (by rcases hstage with rfl | rfl <;> rfl))
  | acquire hstage =>
      exact .of_attempt rfl rfl (.inr (by rcases hstage with rfl | ⟨rfl, -⟩ <;> rfl))
  | publish h => exact .of_attempt (publish_same h).promiseHeld rfl (.inr rfl)
  | returnPromise hpromised howner hreservation h =>
      obtain ⟨-, hshaped⟩ := hattempting _ _ rfl
      obtain ⟨rfl, -⟩ := returnPromise_ok h
      have hroute := hshaped.1.resolve_right (by simp [hpromised])
      simp only [locking, hroute, AttemptStage.guarded, Bool.and_self, Bool.toNat_true]
        at hcovered
      simp only [LockMoved, Multiset.coe_singleton, total_singleton, locking, hroute,
        AttemptStage.guarded, Bool.and_self, Bool.and_false, Bool.toNat_true, Bool.toNat_false]
      have hone := Bool.toNat_le system.promiseHeld
      omega
  | unlock hpromised hroute =>
      simp only [locking, hroute, AttemptStage.guarded, Bool.and_self, Bool.toNat_true]
        at hcovered
      simp only [LockMoved, Multiset.coe_singleton, total_singleton, locking, hroute,
        AttemptStage.guarded, Bool.and_self, Bool.and_false, Bool.toNat_true, Bool.toNat_false]
      have hone := Bool.toNat_le system.promiseHeld
      omega
  | leave hroute => exact .of_attempt rfl rfl (.inl hroute)
  | settled => exact .of_outside rfl (by simp [locking, AttemptStage.guarded]) (owns_next _)
  | restoreToken | restoreManager | restoreFailed | uncharged =>
      exact .of_outside rfl (by simp [locking, AttemptStage.guarded]) rfl
  | _ => exact .of_attempt rfl rfl (.inr rfl)

theorem Move.lockMoved (h : Move config system activity system' next)
    (hattempting : Attempting system activity)
    (hcovered : locking activity ≤ system.promiseHeld.toNat)
    : LockMoved system activity system' next := by
  cases h with
  | reserve h => exact h.lockMoved
  | attempt h => exact h.lockMoved hattempting hcovered
  | release h =>
      have hbefore : locking activity = 0 := by
        cases h <;> rfl
      have hheld : system'.promiseHeld = system.promiseHeld := by
        rcases h.cases.1 with hsame | ⟨id, -, hsettle⟩ | ⟨id, -, hsettle⟩
        · exact hsame.promiseHeld
        · rcases settleLocal_ok hsettle with ⟨-, rfl⟩ | ⟨_, _, -, -, -, rfl⟩ <;> rfl
        · rcases settleResource_ok hsettle with ⟨-, rfl⟩ | ⟨_, _, -, -, rfl⟩ <;> rfl
      rcases h.cases.2 with rfl | ⟨id, stage, stage', -, rfl, -⟩
      · exact .of_outside hheld hbefore rfl
      · exact .of_outside hheld hbefore rfl

/-- Promises are given, taken and returned under the lock only. -/
theorem Move.reservationBytes_eq (h : Move config system activity system' next)
    (hattempting : Attempting system activity)
    : system'.reservationBytes = system.reservationBytes
      ∨ system.promiseHeld = false ∨ locking activity = 1 := by
  cases h with
  | reserve h =>
      cases h with
      | promised hruntime hfree h => exact .inr (.inl hfree)
      | dropPromise hfree => exact .inr (.inl hfree)
      | _ => exact .inl rfl
  | attempt h =>
      cases h with
      | take hroute howner hreservation hfree h => exact .inr (.inl hfree)
      | attach hroute h =>
          rw [attachResource_ok h]
          exact .inl rfl
      | publish h => exact .inl (publish_same h).reservationBytes
      | returnPromise hpromised howner hreservation h =>
          obtain ⟨-, hshaped⟩ := hattempting _ _ rfl
          have hroute := hshaped.1.resolve_right (by simp [hpromised])
          exact .inr (.inr (by simp [locking, hroute, AttemptStage.guarded]))
      | _ => exact .inl rfl
  | release h => exact .inl h.reservationBytes

end Xlog.Cuda.MemoryBudget
