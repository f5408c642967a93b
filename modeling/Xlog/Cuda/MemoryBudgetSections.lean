import Xlog.Cuda.MemoryBudgetRun
import Xlog.Foundation.Loop

/-! What one section can do to the ledgers. Publication, and whatever concerns the pending
bytes, moves nothing between them; each other section has its one effect.
-/

namespace Xlog.Cuda.MemoryBudget

open Xlog.Core Xlog.Foundation

variable {system system' : BudgetSystem} {id : TicketId} {bytes : Nat}

-- Checked arithmetic

theorem checkedAdd_ok {max a b c : Nat} {error : String}
    : checkedAdd max a b error = .ok c ↔ a + b ≤ max ∧ a + b = c := by
  unfold checkedAdd
  split_ifs with h <;> simp [h]

theorem checkedSub_ok {a b c : Nat} {error : String}
    : checkedSub a b error = .ok c ↔ b ≤ a ∧ a - b = c := by
  unfold checkedSub
  split_ifs with h <;> simp [h]

theorem acquire_ok {accounting accounting' : AllocationAccounting}
    (h : accounting.acquire bytes = .ok accounting')
    : accounting' = { accounting with outstanding := accounting.outstanding + bytes } := by
  obtain ⟨outstanding, hadd, hpure⟩ := bind_eq_ok.mp h
  obtain ⟨-, rfl⟩ := checkedAdd_ok.mp hadd
  cases hpure
  rfl

theorem release_ok {accounting accounting' : AllocationAccounting}
    (h : accounting.release bytes = .ok accounting')
    : bytes ≤ accounting.outstanding
      ∧ accounting'
        = ⟨accounting.outstanding - bytes, accounting.totalReclaimed + bytes⟩ := by
  obtain ⟨outstanding, hsub, hrest⟩ := bind_eq_ok.mp h
  obtain ⟨totalReclaimed, hadd, hpure⟩ := bind_eq_ok.mp hrest
  obtain ⟨hle, rfl⟩ := checkedSub_ok.mp hsub
  obtain ⟨-, rfl⟩ := checkedAdd_ok.mp hadd
  cases hpure
  exact ⟨hle, rfl⟩

-- Field updates

section Updates

variable (system) (ticket : AllocationReclamation) (manager : ManagerId)
  (accounting : GpuMemoryAccounting) (budget : GlobalDeviceBudget) (level : Nat)
  (charge : Option LocalAllocationCharge)

@[simp]
theorem setTicket_self : (system.setTicket id ticket).tickets id = ticket :=
  Function.update_self _ _ _

@[simp]
theorem setTicket_of_ne {other : TicketId} (h : other ≠ id)
    : (system.setTicket id ticket).tickets other = system.tickets other :=
  Function.update_of_ne h _ _

@[simp]
theorem setManager_self
    : (system.setManager manager accounting).managers manager = accounting :=
  Function.update_self _ _ _

@[simp]
theorem setManager_of_ne {other : ManagerId} (h : other ≠ manager)
    : (system.setManager manager accounting).managers other = system.managers other :=
  Function.update_of_ne h _ _

@[simp]
theorem setBudget_self : (system.setBudget level budget).budgets level = budget :=
  Function.update_self _ _ _

@[simp]
theorem setBudget_of_ne {other : Nat} (h : other ≠ level)
    : (system.setBudget level budget).budgets other = system.budgets other :=
  Function.update_of_ne h _ _

@[simp]
theorem setBudget_accounting
    : (system.setBudget level budget).accounting = system.accounting :=
  rfl

@[simp]
theorem setBudget_reservationBytes
    : (system.setBudget level budget).reservationBytes = system.reservationBytes :=
  rfl

@[simp]
theorem newTicket_self
    : (system.newTicket charge).tickets system.ticketCount = { charge := charge } :=
  Function.update_self _ _ _

@[simp]
theorem newTicket_of_ne {other : TicketId} (h : other ≠ system.ticketCount)
    : (system.newTicket charge).tickets other = system.tickets other :=
  Function.update_of_ne h _ _

end Updates

-- Sections that keep every ledger

/-- Neither a budget nor a charge, a promise or a ticket's acquisition differs. -/
structure SameLedgers (system system' : BudgetSystem) : Prop where
  reservationBytes : system'.reservationBytes = system.reservationBytes
  promiseHeld : system'.promiseHeld = system.promiseHeld
  depth : system'.depth = system.depth
  budgets : system'.budgets = system.budgets
  totalReclaimed : system'.accounting.totalReclaimed = system.accounting.totalReclaimed
  ticketCount : system'.ticketCount = system.ticketCount
  budgetReserved
    : ∀ manager, (system'.managers manager).budgetReserved
        = (system.managers manager).budgetReserved
  acquired : ∀ id, (system'.tickets id).acquired = (system.tickets id).acquired
  charge : ∀ id, (system'.tickets id).charge = (system.tickets id).charge
  resource : ∀ id, (system'.tickets id).resource = (system.tickets id).resource

theorem SameLedgers.refl (system : BudgetSystem) : SameLedgers system system :=
  ⟨rfl, rfl, rfl, rfl, rfl, rfl, fun _ => rfl, fun _ => rfl, fun _ => rfl, fun _ => rfl⟩

theorem SameLedgers.trans {middle : BudgetSystem} (h : SameLedgers system middle)
    (h' : SameLedgers middle system')
    : SameLedgers system system' where
  reservationBytes := h'.reservationBytes.trans h.reservationBytes
  promiseHeld := h'.promiseHeld.trans h.promiseHeld
  depth := h'.depth.trans h.depth
  budgets := h'.budgets.trans h.budgets
  totalReclaimed := h'.totalReclaimed.trans h.totalReclaimed
  ticketCount := h'.ticketCount.trans h.ticketCount
  budgetReserved manager := (h'.budgetReserved manager).trans (h.budgetReserved manager)
  acquired id := (h'.acquired id).trans (h.acquired id)
  charge id := (h'.charge id).trans (h.charge id)
  resource id := (h'.resource id).trans (h.resource id)

/-- A ticket that differs in its publications or its pending bytes at most. -/
theorem sameLedgers_setTicket {ticket : AllocationReclamation}
    (hacquired : ticket.acquired = (system.tickets id).acquired)
    (hcharge : ticket.charge = (system.tickets id).charge)
    (hresource : ticket.resource = (system.tickets id).resource)
    : SameLedgers system (system.setTicket id ticket) := by
  refine ⟨rfl, rfl, rfl, rfl, rfl, rfl, fun _ => rfl, ?_, ?_, ?_⟩ <;>
    intro other <;>
    rcases eq_or_ne other id with rfl | hne
  · simpa using hacquired
  · simp [hne]
  · simpa using hcharge
  · simp [hne]
  · simpa using hresource
  · simp [hne]

theorem sameLedgers_setManager {manager : ManagerId} {accounting : GpuMemoryAccounting}
    (h : accounting.budgetReserved = (system.managers manager).budgetReserved)
    : SameLedgers system (system.setManager manager accounting) := by
  refine ⟨rfl, rfl, rfl, rfl, rfl, rfl, ?_, fun _ => rfl, fun _ => rfl, fun _ => rfl⟩
  intro other
  rcases eq_or_ne other manager with rfl | hne
  · simpa using h
  · simp [hne]

theorem publishResource_same (h : system.publishResource id = .ok system')
    : SameLedgers system system' := by
  unfold BudgetSystem.publishResource at h
  dsimp only at h
  split at h
  · obtain ⟨accounting, hacquire, hpure⟩ := bind_eq_ok.mp h
    cases hpure
    rw [acquire_ok hacquire]
    exact { @sameLedgers_setTicket system id
      { system.tickets id with resourcePublished := true } rfl rfl rfl with }
  · cases h
    exact .refl system

theorem publishLocal_same (h : system.publishLocal id = .ok system')
    : SameLedgers system system' := by
  unfold BudgetSystem.publishLocal at h
  dsimp only at h
  split at h
  · obtain ⟨admitted, hadd, hpure⟩ := bind_eq_ok.mp h
    cases hpure
    refine .trans (sameLedgers_setManager ?_) (sameLedgers_setTicket ?_ ?_ ?_) <;> rfl
  · cases h
    exact sameLedgers_setTicket rfl rfl rfl
  · cases h
    exact .refl system

/-- Publication keeps the ledgers, also where it fails halfway. -/
theorem publish_same {result : Except ResourceError Unit}
    (h : system.publish id = (system', result))
    : SameLedgers system system' := by
  unfold BudgetSystem.publish at h
  split at h
  · cases h
    exact .refl system
  · split at h
    · cases h
      exact .refl system
    · rename_i middle hresource
      split at h <;> cases h
      · exact publishResource_same hresource
      · rename_i hlocal
        exact (publishResource_same hresource).trans (publishLocal_same hlocal)

theorem attachPending_same (h : system.attachPending id bytes = .ok system')
    : SameLedgers system system' := by
  unfold BudgetSystem.attachPending at h
  dsimp only at h
  split_ifs at h
  · cases h
  · obtain ⟨pendingBytes, -, hpure⟩ := bind_eq_ok.mp h
    cases hpure
    exact { @sameLedgers_setTicket system id { system.tickets id with pending := some bytes }
      rfl rfl rfl with }

theorem settlePending_same (h : system.settlePending id = .ok system')
    : SameLedgers system system' := by
  obtain ⟨pendingBytes, -, hpure⟩ := bind_eq_ok.mp h
  cases hpure
  exact { @sameLedgers_setTicket system id
    { system.tickets id with pending := none, released := true } rfl rfl rfl with }

-- Sections of a ticket

/-- A settled charge leaves the manager's reserved bytes together with the ticket. -/
theorem settleLocal_ok (h : system.settleLocal id = .ok system')
    : (system.tickets id).charge = none ∧ system' = system
      ∨ ∃ charge accounting,
          (system.tickets id).charge = some charge
          ∧ charge.bytes ≤ (system.managers charge.manager).budgetReserved
          ∧ accounting.budgetReserved
            = (system.managers charge.manager).budgetReserved - charge.bytes
          ∧ system'
            = (system.setManager charge.manager accounting).setTicket id
                { system.tickets id with charge := none } := by
  unfold BudgetSystem.settleLocal at h
  dsimp only at h
  split at h
  · rename_i hcharge
    cases h
    exact .inl ⟨hcharge, rfl⟩
  · rename_i charge hcharge
    split_ifs at h
    · cases h
    · obtain ⟨accounting, hrelease, hpure⟩ := bind_eq_ok.mp h
      cases hpure
      unfold GpuMemoryAccounting.releaseOwnedAllocation at hrelease
      dsimp only at hrelease
      split_ifs at hrelease with hadmitted hreserved
      · cases hrelease
      · cases hrelease
      · cases hrelease
        exact .inr ⟨charge, _, hcharge, by omega, rfl, rfl⟩

/-- A settled resource is reclaimed together with the ticket. -/
theorem settleResource_ok (h : system.settleResource id = .ok system')
    : (system.tickets id).resource = none ∧ system' = system
      ∨ ∃ bytes accounting,
          (system.tickets id).resource = some bytes
          ∧ accounting.totalReclaimed = system.accounting.totalReclaimed + bytes
          ∧ system'
            = { system.setTicket id { system.tickets id with resource := none } with
                accounting := accounting } := by
  unfold BudgetSystem.settleResource at h
  dsimp only at h
  split at h
  · rename_i hresource
    cases h
    exact .inl ⟨hresource, rfl⟩
  · rename_i bytes hresource
    split_ifs at h
    · cases h
    · obtain ⟨accounting, hrelease, hpure⟩ := bind_eq_ok.mp h
      cases hpure
      obtain ⟨-, rfl⟩ := release_ok hrelease
      exact .inr ⟨bytes, _, hresource, rfl, rfl⟩

theorem attachResource_ok (h : system.attachResource id bytes = .ok system')
    : system' = system.setTicket id { system.tickets id with resource := some bytes } := by
  unfold BudgetSystem.attachResource at h
  dsimp only at h
  split_ifs at h <;> cases h
  rfl

-- Sections of a manager and of the promises

section Managers

variable {accounting accounting' : GpuMemoryAccounting} {deviceBytes : Nat} {layer : String}
  {reservation reservation' : RuntimeMemoryReservation}

theorem reserveLocalBytes_ok
    (h : accounting.reserveLocalBytes deviceBytes bytes layer = .ok accounting')
    : accounting.budgetReserved + bytes ≤ deviceBytes
      ∧ accounting'.budgetReserved = accounting.budgetReserved + bytes := by
  unfold GpuMemoryAccounting.reserveLocalBytes at h
  split_ifs at h with hle
  cases h
  exact ⟨by omega, rfl⟩

theorem releaseReserved_ok (h : accounting.releaseReserved bytes = .ok accounting')
    : bytes ≤ accounting.budgetReserved
      ∧ accounting'.budgetReserved = accounting.budgetReserved - bytes := by
  unfold GpuMemoryAccounting.releaseReserved at h
  dsimp only at h
  split_ifs at h with hle
  cases h
  exact ⟨hle, rfl⟩

/-- A promise is given within what the outermost budget and the other promises leave. -/
theorem reserveMemory_ok (h : system.reserveMemory bytes = .ok (system', reservation))
    : ∃ reserved,
        0 < system.depth
        ∧ (system.budgets 0).reserved system.accounting.totalReclaimed = .ok reserved
        ∧ bytes ≤ (system.budgets 0).limit - (reserved + system.reservationBytes)
        ∧ reservation.remainingBytes = bytes
        ∧ system' = { system with reservationBytes := system.reservationBytes + bytes } := by
  unfold BudgetSystem.reserveMemory at h
  split_ifs at h with hdepth
  · cases h
  · obtain ⟨reserved, hreserved, hrest⟩ := bind_eq_ok.mp h
    obtain ⟨current, hcurrent, hrest⟩ := bind_eq_ok.mp hrest
    obtain ⟨-, rfl⟩ := checkedAdd_ok.mp hcurrent
    dsimp only at hrest
    split_ifs at hrest with hremaining
    · cases hrest
    · obtain ⟨reservationBytes, hadd, hpure⟩ := bind_eq_ok.mp hrest
      obtain ⟨-, rfl⟩ := checkedAdd_ok.mp hadd
      cases hpure
      exact ⟨reserved, by omega, hreserved, by omega, rfl, rfl⟩

theorem takePromise_ok (h : system.takePromise reservation bytes = .ok (system', reservation'))
    : bytes ≤ reservation.remainingBytes ∧ bytes ≤ system.reservationBytes
      ∧ system'
        = { system with
            reservationBytes := system.reservationBytes - bytes
            promiseHeld := true }
      ∧ reservation'
        = { reservation with remainingBytes := reservation.remainingBytes - bytes } := by
  unfold BudgetSystem.takePromise at h
  split_ifs at h with hremaining
  · cases h
  · obtain ⟨reservationBytes, hsub, hpure⟩ := bind_eq_ok.mp h
    obtain ⟨hle, rfl⟩ := checkedSub_ok.mp hsub
    cases hpure
    exact ⟨by omega, hle, rfl, rfl⟩

/-- A request within the token's promise takes it. -/
theorem takePromise_of_le (hremaining : bytes ≤ reservation.remainingBytes)
    (hle : bytes ≤ system.reservationBytes)
    : system.takePromise reservation bytes
      = .ok
          ({ system with
              reservationBytes := system.reservationBytes - bytes
              promiseHeld := true },
            { reservation with remainingBytes := reservation.remainingBytes - bytes }) := by
  unfold BudgetSystem.takePromise
  dsimp only
  rw [if_neg (by omega)]
  exact bind_eq_ok.mpr ⟨_, checkedSub_ok.mpr ⟨hle, rfl⟩, rfl⟩

/-- What an attempt that was not acquired gives back to the promise it took. -/
def returned (bytes : Nat) (acquired : Bool) : Nat :=
  if acquired then 0 else bytes

theorem returnPromise_ok {acquired : Bool}
    (h : system.returnPromise reservation bytes acquired = (system', reservation'))
    : system'
        = { system with
            reservationBytes := system.reservationBytes + returned bytes acquired
            promiseHeld := false }
      ∧ reservation'
        = { reservation with
            remainingBytes := reservation.remainingBytes + returned bytes acquired } := by
  unfold BudgetSystem.returnPromise at h
  split_ifs at h with hacquired <;> cases h <;> simp [returned, hacquired]

end Managers

-- Sections of a budget

section Budgets

variable {budget budget' : GlobalDeviceBudget} {totalReclaimed pressure : Nat}
  {retried : Bool}

theorem reserved_ok {reserved : Nat}
    : budget.reserved totalReclaimed = .ok reserved
      ↔ budget.baselineReclaimed ≤ totalReclaimed
        ∧ reserved + totalReclaimed = budget.admittedTotal + budget.baselineReclaimed
        ∧ reserved ≤ usizeMax := by
  unfold GlobalDeviceBudget.reserved
  simp only [bind_eq_ok, checkedSub_ok]
  constructor
  · rintro ⟨reclaimed, ⟨hbaseline, rfl⟩, unclaimed, ⟨hle, rfl⟩, hlast⟩
    split_ifs at hlast with hmax
    · cases hlast
      exact ⟨hbaseline, by omega, hmax⟩
  · rintro ⟨hbaseline, hsum, hmax⟩
    have hreserved
      : budget.admittedTotal - (totalReclaimed - budget.baselineReclaimed) = reserved := by
      omega
    refine ⟨_, ⟨hbaseline, rfl⟩, _, ⟨by omega, rfl⟩, ?_⟩
    rw [hreserved, if_pos hmax]
    rfl

/-- An admission fits into what the limit leaves beside the pressure. -/
theorem admit_ok
    (h : budget.allocateWithPressure totalReclaimed bytes pressure retried = .ok (some budget'))
    : ∃ reserved,
        budget.reserved totalReclaimed = .ok reserved
        ∧ bytes ≤ budget.limit - (reserved + pressure)
        ∧ budget' = { budget with admittedTotal := budget.admittedTotal + bytes } := by
  obtain ⟨reserved, hreserved, hrest⟩ := bind_eq_ok.mp h
  obtain ⟨current, hcurrent, hrest⟩ := bind_eq_ok.mp hrest
  obtain ⟨-, rfl⟩ := checkedAdd_ok.mp hcurrent
  dsimp only at hrest
  split_ifs at hrest with hremaining
  · obtain ⟨admittedTotal, hadd, hpure⟩ := bind_eq_ok.mp hrest
    obtain ⟨-, rfl⟩ := checkedAdd_ok.mp hadd
    cases hpure
    exact ⟨reserved, hreserved, hremaining, rfl⟩
  · cases hrest

/-- What fits beside the pressure is admitted, as long as the total can be counted. -/
theorem admit_of_le {reserved : Nat} (hreserved : budget.reserved totalReclaimed = .ok reserved)
    (hfits : reserved + pressure + bytes ≤ budget.limit) (hlimit : budget.limit ≤ usizeMax)
    (hcounted : budget.admittedTotal + bytes ≤ u128Max)
    : budget.allocateWithPressure totalReclaimed bytes pressure retried
      = .ok (some { budget with admittedTotal := budget.admittedTotal + bytes }) := by
  refine bind_eq_ok.mpr ⟨reserved, hreserved, ?_⟩
  refine bind_eq_ok.mpr ⟨_, checkedAdd_ok.mpr ⟨by omega, rfl⟩, ?_⟩
  dsimp only
  rw [if_pos (by omega)]
  exact bind_eq_ok.mpr ⟨_, checkedAdd_ok.mpr ⟨hcounted, rfl⟩, rfl⟩

theorem refund_eq (acquired : Bool)
    : budget.refund bytes acquired
      = { budget with admittedTotal := budget.admittedTotal - returned bytes acquired } := by
  cases acquired <;> rfl

end Budgets

end Xlog.Cuda.MemoryBudget
