import Mathlib.Algebra.BigOperators.Group.Finset.Piecewise
import Mathlib.Algebra.Order.BigOperators.Group.Finset
import Xlog.Cuda.MemoryBudgetTickets

/-! Where the bytes of each ledger are: with a token, with an attempt in flight, or with a ticket
whose storage is acquired. Every section moves bytes between these places only.
-/

namespace Xlog.Cuda.MemoryBudget

open Xlog.Core Xlog.Foundation

-- Sums over the tickets

/-- The sum over all tickets of what each of them accounts for. -/
def ticketSum (held : AllocationReclamation → Nat) (system : BudgetSystem) : Nat :=
  ∑ id ∈ Finset.range system.ticketCount, held (system.tickets id)

variable {held : AllocationReclamation → Nat} {system system' : BudgetSystem}

theorem ticketSum_congr (hcount : system'.ticketCount = system.ticketCount)
    (hheld : ∀ id, held (system'.tickets id) = held (system.tickets id))
    : ticketSum held system' = ticketSum held system := by
  simp only [ticketSum, hcount, hheld]

theorem ticketSum_setTicket {id : TicketId} (h : id < system.ticketCount)
    (ticket : AllocationReclamation)
    : ticketSum held (system.setTicket id ticket) + held (system.tickets id)
      = ticketSum held system + held ticket := by
  have hmem : id ∈ Finset.range system.ticketCount := Finset.mem_range.mpr h
  have hupdate
    : ∀ other, held (Function.update system.tickets id ticket other)
        = Function.update (fun other => held (system.tickets other)) id (held ticket) other := by
    intro other
    rcases eq_or_ne other id with rfl | hne
    · simp
    · simp [hne]
  simp only [ticketSum, BudgetSystem.setTicket, hupdate]
  rw [Finset.sum_update_of_mem hmem, Finset.sdiff_singleton_eq_erase,
    ← Finset.sum_erase_add _ _ hmem]
  omega

/-- A new ticket accounts for nothing as long as it is not acquired. -/
theorem ticketSum_newTicket {charge : Option LocalAllocationCharge}
    (h : held { charge := charge } = 0)
    : ticketSum held (system.newTicket charge) = ticketSum held system := by
  simp only [ticketSum]
  change ∑ id ∈ Finset.range (system.ticketCount + 1), _ = _
  rw [Finset.sum_range_succ, newTicket_self, h, add_zero]
  refine Finset.sum_congr rfl fun id hid => ?_
  rw [newTicket_of_ne _ _ (Finset.mem_range.mp hid).ne]

-- Who holds the bytes

/-- What a charge takes from this manager. -/
def charged (manager : ManagerId) : Option LocalAllocationCharge → Nat
  | none => 0
  | some charge => if charge.manager = manager then charge.bytes else 0

/-- The local charge of acquired storage that is not proven released. -/
def acquiredCharge (manager : ManagerId) (ticket : AllocationReclamation) : Nat :=
  if ticket.acquired then charged manager ticket.charge else 0

/-- The resource bytes of acquired storage that is not proven released. -/
def acquiredResource (ticket : AllocationReclamation) : Nat :=
  if ticket.acquired then ticket.resource.getD 0 else 0

def GpuMemoryReservation.unspent (manager : ManagerId) (token : GpuMemoryReservation) : Nat :=
  if token.manager = manager then token.remainingBytes else 0

def GpuMemoryReservation.promise (token : GpuMemoryReservation) : Nat :=
  token.runtimeReservation.elim 0 RuntimeMemoryReservation.remainingBytes

/-- What a token's owner has left of a quantity while its request is in flight. -/
def AttemptOwner.ofToken (held : GpuMemoryReservation → Nat) : AttemptOwner → Nat
  | .token reservation => held reservation
  | _ => 0

/-- The bytes of this manager that tokens have not spent. -/
def unspent (manager : ManagerId) : Activity → Nat
  | .token token => token.unspent manager
  | .attempt attempt _ => attempt.owner.ofToken (GpuMemoryReservation.unspent manager)
  | _ => 0

/-- The bytes of this manager that an attempt charges and has not acquired. -/
def unacquired (manager : ManagerId) (acquired : TicketId → Bool) : Activity → Nat
  | .attempt attempt _ => returned (charged manager attempt.charge) (acquired attempt.ticket)
  | _ => 0

/-- The bytes that an attempt has in the budget of this level and has not acquired. -/
def admitted (depth level : Nat) (acquired : TicketId → Bool) : Activity → Nat
  | .attempt attempt stage =>
      if level < attempt.level depth stage then
        returned attempt.bytes (acquired attempt.ticket)
      else 0
  | _ => 0

/-- The bytes of the runtime's total that are promised to a token. -/
def promisedBytes : Activity → Nat
  | .reserveLocal _ _ reservation =>
      reservation.elim 0 RuntimeMemoryReservation.remainingBytes
  | .token token => token.promise
  | .promise reservation => reservation.remainingBytes
  | .attempt attempt _ => attempt.owner.ofToken GpuMemoryReservation.promise
  | _ => 0

/-- The bytes that an attempt took from the promises, which the outermost budget has not
admitted, or not any more.
-/
def owed (depth : Nat) (acquired : TicketId → Bool) : Activity → Nat
  | .attempt attempt stage =>
      if attempt.promised = true ∧ attempt.level depth stage = 0 then
        returned attempt.bytes (acquired attempt.ticket)
      else 0
  | _ => 0

/-- Which tickets show their acquisition. -/
def BudgetSystem.acquired (system : BudgetSystem) (id : TicketId) : Bool :=
  (system.tickets id).acquired

@[simp]
theorem returned_false (bytes : Nat) : returned bytes false = bytes := rfl

@[simp]
theorem returned_true (bytes : Nat) : returned bytes true = 0 := rfl

/-- A quantity that reads no ticket but the activity's own. -/
def ReadsOwn (weight : (TicketId → Bool) → Activity → Nat) : Prop :=
  ∀ acquired acquired' activity, (∀ id ∈ owns activity, acquired' id = acquired id)
    → weight acquired' activity = weight acquired activity

theorem unacquired_readsOwn (manager : ManagerId) : ReadsOwn (unacquired manager) := by
  intro acquired acquired' activity h
  cases activity with
  | attempt attempt stage =>
      simp only [unacquired, h attempt.ticket (Multiset.mem_singleton_self _)]
  | _ => rfl

theorem admitted_readsOwn (depth level : Nat) : ReadsOwn (admitted depth level) := by
  intro acquired acquired' activity h
  cases activity with
  | attempt attempt stage =>
      simp only [admitted, h attempt.ticket (Multiset.mem_singleton_self _)]
  | _ => rfl

theorem owed_readsOwn (depth : Nat) : ReadsOwn (owed depth) := by
  intro acquired acquired' activity h
  cases activity with
  | attempt attempt stage =>
      simp only [owed, h attempt.ticket (Multiset.mem_singleton_self _)]
  | _ => rfl

variable {config : ManagerId → ManagerConfig} {activity : Activity} {next : List Activity}
  {others : Multiset Activity}

/-- The other activities hold after a section what they held before it. -/
theorem TicketsHeld.total_eq (h : TicketsHeld ⟨system, activity ::ₘ others⟩)
    (hmove : Move config system activity system' next)
    {weight : (TicketId → Bool) → Activity → Nat} (hweight : ReadsOwn weight)
    : total (weight system'.acquired) others = total (weight system.acquired) others := by
  simp only [total]
  refine congrArg Multiset.sum (Multiset.map_congr rfl fun other hother => ?_)
  refine hweight _ _ _ fun id hid => ?_
  exact (h.kept hmove (mem_total hid hother)).acquired

-- Sections that leave the sums

theorem SameLedgers.acquired_eq (h : SameLedgers system system')
    : system'.acquired = system.acquired :=
  funext h.acquired

theorem SameLedgers.charge_eq (h : SameLedgers system system') (manager : ManagerId)
    : ticketSum (acquiredCharge manager) system' = ticketSum (acquiredCharge manager) system :=
  ticketSum_congr h.ticketCount fun id => by
    simp only [acquiredCharge, h.acquired id, h.charge id]

theorem SameLedgers.resource_eq (h : SameLedgers system system')
    : ticketSum acquiredResource system' = ticketSum acquiredResource system :=
  ticketSum_congr h.ticketCount fun id => by
    simp only [acquiredResource, h.acquired id, h.resource id]

@[simp]
theorem newTicket_acquired (charge : Option LocalAllocationCharge)
    : (system.newTicket charge).acquired system.ticketCount = false := by
  simp [BudgetSystem.acquired]

@[simp]
theorem setTicket_acquired (id : TicketId) (ticket : AllocationReclamation)
    : (system.setTicket id ticket).acquired id = ticket.acquired := by
  simp [BudgetSystem.acquired]

theorem budgetReserved_setManager (manager other : ManagerId) (accounting : GpuMemoryAccounting)
    : ((system.setManager other accounting).managers manager).budgetReserved
      = if other = manager then accounting.budgetReserved
        else (system.managers manager).budgetReserved := by
  split_ifs with h
  · subst h
    simp
  · rw [setManager_of_ne _ _ _ (Ne.symm h)]

-- The ledger of a manager

/-- The manager's reserved bytes change by what the section changes for the activity and for
the tickets.
-/
def LocalMoved (manager : ManagerId) (system : BudgetSystem) (activity : Activity)
    (system' : BudgetSystem) (next : List Activity) : Prop :=
  (system'.managers manager).budgetReserved
      + (unspent manager activity + unacquired manager system.acquired activity)
      + ticketSum (acquiredCharge manager) system
    = (system.managers manager).budgetReserved
      + (total (unspent manager) (next : Multiset Activity)
        + total (unacquired manager system'.acquired) (next : Multiset Activity))
      + ticketSum (acquiredCharge manager) system'

/-- Every manager's reserved bytes cover what the activity holds of them. -/
def LocalCovered (system : BudgetSystem) (activity : Activity) : Prop :=
  ∀ manager,
    unspent manager activity + unacquired manager system.acquired activity
      ≤ (system.managers manager).budgetReserved

theorem LocalMoved.of_same {manager : ManagerId} (h : SameLedgers system system')
    (hnext
      : total (unspent manager) (next : Multiset Activity)
          + total (unacquired manager system.acquired) (next : Multiset Activity)
        = unspent manager activity + unacquired manager system.acquired activity)
    : LocalMoved manager system activity system' next := by
  unfold LocalMoved
  rw [h.budgetReserved, h.charge_eq, h.acquired_eq, hnext]

/-- A manager's accounting takes up what the activity comes to hold, or gives it back. -/
theorem LocalMoved.of_setManager {manager other : ManagerId} {accounting : GpuMemoryAccounting}
    (h
      : (if other = manager then accounting.budgetReserved
          else (system.managers manager).budgetReserved)
          + (unspent manager activity + unacquired manager system.acquired activity)
        = (system.managers manager).budgetReserved
          + (total (unspent manager) (next : Multiset Activity)
            + total (unacquired manager system.acquired) (next : Multiset Activity)))
    : LocalMoved manager system activity (system.setManager other accounting) next := by
  unfold LocalMoved
  rw [budgetReserved_setManager, h]
  rfl

theorem unspent_afterToken (manager : ManagerId)
    (reservation : Option RuntimeMemoryReservation)
    : unspent manager (afterToken reservation) = 0 := by
  cases reservation <;> rfl

theorem unacquired_afterToken (manager : ManagerId) (acquired : TicketId → Bool)
    (reservation : Option RuntimeMemoryReservation)
    : unacquired manager acquired (afterToken reservation) = 0 := by
  cases reservation <;> rfl

theorem ReserveMove.localMoved (h : ReserveMove config system activity system' next)
    (hcovered : LocalCovered system activity) (manager : ManagerId)
    : LocalMoved manager system activity system' next := by
  cases h with
  | promised hruntime hfree h =>
      obtain ⟨reserved, -, -, -, -, rfl⟩ := reserveMemory_ok h
      rfl
  | refused | unbacked | overdrawn | allocatePressed | dropPromise => rfl
  | reserved h =>
      obtain ⟨-, hreserved⟩ := reserveLocalBytes_ok h
      refine .of_setManager ?_
      simp only [Multiset.coe_singleton, total_singleton, unspent, unacquired,
        GpuMemoryReservation.unspent, hreserved]
      split_ifs with hmanager
      · rw [hmanager]
        omega
      · omega
  | pressed h =>
      refine .of_same (.refl _) ?_
      simp only [Multiset.coe_singleton, total_singleton, unspent_afterToken,
        unacquired_afterToken]
      rfl
  | drop h =>
      obtain ⟨hle, hreleased⟩ := releaseReserved_ok h
      refine .of_setManager ?_
      simp only [Multiset.coe_singleton, total_singleton, unspent_afterToken,
        unacquired_afterToken]
      simp only [unspent, unacquired, GpuMemoryReservation.unspent, hreleased]
      split_ifs with hmanager
      · rw [hmanager] at hle ⊢
        omega
      · omega
  | @dropFailed reservation error h =>
      have hheld := hcovered reservation.manager
      simp only [unspent, unacquired, GpuMemoryReservation.unspent, if_true] at hheld
      unfold GpuMemoryAccounting.releaseReserved at h
      dsimp only at h
      rw [if_pos (by omega)] at h
      cases h
  | @spend reservation bytes viaRuntime hle hroute =>
      unfold LocalMoved
      rw [ticketSum_newTicket rfl]
      simp only [Multiset.coe_singleton, total_singleton, unspent, unacquired,
        newTicket_acquired, returned_false, AttemptOwner.ofToken,
        GpuMemoryReservation.unspent, AllocationAttempt.charge, charged]
      change (system.managers manager).budgetReserved + _ + _ = _
      split_ifs with hmanager
      · omega
      · omega
  | @allocate other bytes layer viaRuntime accounting h hroute =>
      obtain ⟨-, hreserved⟩ := reserveLocalBytes_ok h
      unfold LocalMoved
      rw [ticketSum_newTicket rfl]
      have hacquired
        : ((system.setManager other accounting).newTicket (some ⟨other, bytes⟩)).acquired
            system.ticketCount = false :=
        @newTicket_acquired (system.setManager other accounting) _
      simp only [Multiset.coe_singleton, total_singleton, unspent, unacquired, hacquired,
        returned_false, AttemptOwner.ofToken, AllocationAttempt.charge, charged]
      change ((system.setManager other accounting).managers manager).budgetReserved + _
        + ticketSum _ system = _ + ticketSum _ system
      rw [budgetReserved_setManager, hreserved]
      split_ifs with hmanager
      · rw [hmanager]
        omega
      · omega
  | allocateRuntime =>
      unfold LocalMoved
      rw [ticketSum_newTicket rfl]
      simp only [Multiset.coe_singleton, total_singleton, unspent, unacquired,
        newTicket_acquired, returned_false, AttemptOwner.ofToken, AllocationAttempt.charge,
        charged]
      rfl

/-- An attempt whose ticket keeps its charge and whose owner keeps its bytes. -/
theorem LocalMoved.of_attempt {manager : ManagerId} {attempt attempt' : AllocationAttempt}
    {stage stage' : AttemptStage}
    (hreserved
      : (system'.managers manager).budgetReserved = (system.managers manager).budgetReserved)
    (htickets
      : ticketSum (acquiredCharge manager) system' = ticketSum (acquiredCharge manager) system)
    (hacquired : system'.acquired attempt'.ticket = system.acquired attempt.ticket)
    (hcharge : attempt'.charge = attempt.charge)
    (hunspent
      : attempt'.owner.ofToken (GpuMemoryReservation.unspent manager)
        = attempt.owner.ofToken (GpuMemoryReservation.unspent manager))
    : LocalMoved manager system (.attempt attempt stage) system' [.attempt attempt' stage'] := by
  unfold LocalMoved
  simp only [Multiset.coe_singleton, total_singleton, unspent, unacquired, hreserved, htickets,
    hacquired, hcharge, hunspent]

/-- The bytes of an attempt that was not acquired go back to where they came from. -/
theorem settle_localMoved {attempt : AllocationAttempt}
    (h : AttemptMove system (.attempt attempt .settling) system' next)
    (hcovered : LocalCovered system (.attempt attempt .settling)) (manager : ManagerId)
    : LocalMoved manager system (.attempt attempt .settling) system' next := by
  cases h with
  | refuse hstage => rcases hstage with hstage | hstage <;> cases hstage
  | acquire hstage => rcases hstage with hstage | ⟨hstage, -⟩ <;> cases hstage
  | settled hacquired =>
      refine .of_same (.refl _) ?_
      simp only [Multiset.coe_singleton, total_singleton, unspent, unacquired,
        BudgetSystem.acquired, hacquired, returned_true]
      cases attempt.owner <;> rfl
  | restoreToken hacquired howner =>
      refine .of_same (.refl _) ?_
      simp only [Multiset.coe_singleton, total_singleton, unspent, unacquired,
        BudgetSystem.acquired, hacquired, returned_false, howner, AttemptOwner.ofToken,
        AllocationAttempt.charge, charged, GpuMemoryReservation.unspent]
      split_ifs <;> rfl
  | restoreManager hacquired howner h =>
      obtain ⟨hle, hreleased⟩ := releaseReserved_ok h
      refine .of_setManager ?_
      simp only [Multiset.coe_singleton, total_singleton, unspent, unacquired,
        BudgetSystem.acquired, hacquired, returned_false, howner, AttemptOwner.ofToken,
        AllocationAttempt.charge, charged, hreleased]
      split_ifs with hmanager
      · rw [hmanager] at hle ⊢
        omega
      · omega
  | @restoreFailed _ other error hacquired howner h =>
      have hheld := hcovered other
      simp only [unspent, unacquired, BudgetSystem.acquired, hacquired, returned_false, howner,
        AttemptOwner.ofToken, AllocationAttempt.charge, charged, if_true] at hheld
      unfold GpuMemoryAccounting.releaseReserved at h
      dsimp only at h
      rw [if_pos (by omega)] at h
      cases h
  | uncharged hacquired howner =>
      refine .of_same (.refl _) ?_
      simp only [Multiset.coe_singleton, total_singleton, unspent, unacquired, howner,
        AttemptOwner.ofToken, AllocationAttempt.charge, charged]
      cases system.acquired attempt.ticket <;> rfl

theorem AttemptMove.localMoved (h : AttemptMove system activity system' next)
    (hattempting : Attempting system activity)
    (hlt : ∀ id ∈ owns activity, id < system.ticketCount)
    (hcovered : LocalCovered system activity) (manager : ManagerId)
    : LocalMoved manager system activity system' next := by
  cases h with
  | take hroute howner hreservation hfree h =>
      obtain ⟨-, -, rfl, -⟩ := takePromise_ok h
      refine .of_attempt rfl rfl rfl ?_ ?_
      · simp only [AllocationAttempt.charge, howner]
      · simp only [AttemptOwner.ofToken, howner, GpuMemoryReservation.unspent]
  | @attach attempt _ hroute h =>
      obtain ⟨⟨hacquired, -, -⟩, -⟩ := hattempting _ _ rfl
      rw [attachResource_ok h]
      have hsum
        := @ticketSum_setTicket (acquiredCharge manager) system attempt.ticket
          (hlt _ (Multiset.mem_singleton_self _))
          { system.tickets attempt.ticket with resource := some attempt.bytes }
      refine .of_attempt rfl ?_ (setTicket_acquired _ _) rfl rfl
      simpa [acquiredCharge, hacquired] using hsum
  | @acquire attempt stage hstage =>
      have hfilled
        : (system.tickets attempt.ticket).acquired = false
          ∧ (system.tickets attempt.ticket).charge = attempt.charge := by
        rcases hstage with rfl | ⟨rfl, -⟩
        · obtain ⟨⟨hacquired, hcharge, -⟩, -⟩ := hattempting _ _ rfl
          exact ⟨hacquired, hcharge⟩
        · obtain ⟨⟨hacquired, hcharge, -⟩, -⟩ := hattempting _ _ rfl
          exact ⟨hacquired, hcharge⟩
      have hsum
        := @ticketSum_setTicket (acquiredCharge manager) system attempt.ticket
          (hlt _ (Multiset.mem_singleton_self _))
          { system.tickets attempt.ticket with acquired := true }
      have hbefore : acquiredCharge manager (system.tickets attempt.ticket) = 0 := by
        simp [acquiredCharge, hfilled.1]
      have hafter
        : acquiredCharge manager { system.tickets attempt.ticket with acquired := true }
          = charged manager attempt.charge := by
        simp [acquiredCharge, hfilled.2]
      rw [hbefore] at hsum
      dsimp only at hsum hafter
      rw [hafter] at hsum
      unfold LocalMoved
      simp only [Multiset.coe_singleton, total_singleton, unspent, unacquired,
        setTicket_acquired, returned_true]
      change (system.managers manager).budgetReserved + _ + _ = _
      rw [show system.acquired attempt.ticket = false from hfilled.1, returned_false]
      omega
  | publish h => exact .of_same (publish_same h) rfl
  | returnPromise hpromised howner hreservation h =>
      obtain ⟨rfl, -⟩ := returnPromise_ok h
      refine .of_attempt rfl rfl rfl ?_ ?_
      · simp only [AllocationAttempt.charge, howner]
      · simp only [AttemptOwner.ofToken, howner, GpuMemoryReservation.unspent]
  | settled hacquired => exact settle_localMoved (.settled hacquired) hcovered manager
  | restoreToken hacquired howner =>
      exact settle_localMoved (.restoreToken hacquired howner) hcovered manager
  | restoreManager hacquired howner h =>
      exact settle_localMoved (.restoreManager hacquired howner h) hcovered manager
  | restoreFailed hacquired howner h =>
      exact settle_localMoved (.restoreFailed hacquired howner h) hcovered manager
  | uncharged hacquired howner =>
      exact settle_localMoved (.uncharged hacquired howner) hcovered manager
  | _ => exact .of_attempt rfl rfl rfl rfl rfl

theorem unspent_complete {manager : ManagerId} (h : ReleaseMove system activity system' next)
    (acquired acquired' : TicketId → Bool)
    : total (unspent manager) (next : Multiset Activity)
          + total (unacquired manager acquired) (next : Multiset Activity)
        = unspent manager activity + unacquired manager acquired' activity := by
  have hnothing : unspent manager activity = 0 ∧ unacquired manager acquired' activity = 0 := by
    cases h <;> exact ⟨rfl, rfl⟩
  rw [hnothing.1, hnothing.2]
  rcases h.cases.2 with rfl | ⟨id, stage, stage', -, rfl, -⟩ <;> rfl

theorem ReleaseMove.localMoved (h : ReleaseMove system activity system' next)
    (hcompleting : Completing system activity) (manager : ManagerId)
    : LocalMoved manager system activity system' next := by
  have hnext := @unspent_complete _ _ _ _ manager h
  rcases h.cases.1 with hsame | ⟨id, rfl, hsettle⟩ | ⟨id, rfl, hsettle⟩
  · exact .of_same hsame (hnext _ _)
  · obtain ⟨hlt, hacquired⟩ := hcompleting id _ rfl (by simp)
    rcases settleLocal_ok hsettle with ⟨-, rfl⟩ | ⟨charge, accounting, hcharge, hle, hrest, rfl⟩
    · exact .of_same (.refl _) (hnext _ _)
    · have hsum
        := @ticketSum_setTicket (acquiredCharge manager) (system.setManager charge.manager
          accounting) id hlt { system.tickets id with charge := none }
      have hbefore
        : acquiredCharge manager ((system.setManager charge.manager accounting).tickets id)
          = if charge.manager = manager then charge.bytes else 0 := by
        change acquiredCharge manager (system.tickets id) = _
        simp only [acquiredCharge, hacquired, hcharge, charged, if_true]
      have hafter : acquiredCharge manager { system.tickets id with charge := none } = 0 := by
        simp [acquiredCharge, charged]
      rw [hbefore, hafter] at hsum
      unfold LocalMoved
      rw [hnext _ system.acquired]
      change ((system.setManager charge.manager accounting).managers manager).budgetReserved
        + _ + ticketSum _ (system.setManager charge.manager accounting) = _
      rw [budgetReserved_setManager]
      split_ifs at hsum ⊢ with hmanager
      · rw [hmanager] at hle hrest
        omega
      · omega
  · obtain ⟨hlt, hacquired⟩ := hcompleting id _ rfl (by simp)
    rcases settleResource_ok hsettle with ⟨-, rfl⟩ | ⟨bytes, accounting, -, -, rfl⟩
    · exact .of_same (.refl _) (hnext _ _)
    · have hsum
        := @ticketSum_setTicket (acquiredCharge manager) system id hlt
          { system.tickets id with resource := none }
      unfold LocalMoved
      rw [hnext _ system.acquired]
      change (system.managers manager).budgetReserved + _ + _
        = _ + ticketSum _ (system.setTicket id _)
      simp only [acquiredCharge] at hsum ⊢
      omega

end Xlog.Cuda.MemoryBudget
