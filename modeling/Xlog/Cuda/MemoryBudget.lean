import Xlog.Core.Error

/-! The three ledgers that a device allocation is charged in: the byte budget of its manager, the
global budgets stacked over the memory resource, and the resource's own accounting. Each
definition is one section of the source under the mutex it names, or a part of one.
-/

namespace Xlog.Cuda.MemoryBudget

open Xlog.Core

-- Machine integers and errors

/-- The largest `usize` and `u64`. -/
def usizeMax : Nat := 2 ^ 64 - 1

/-- The largest `u128`. -/
def u128Max : Nat := 2 ^ 128 - 1

inductive ResourceError where
  | driver (message : String)
  | outOfBudget (requested current remaining limit : Nat)
  deriving DecidableEq, Repr

structure MemoryPressure where
  layer : String
  currentBytes : Nat
  requestedBytes : Nat
  budgetBytes : Nat
  priorPeakBytes : Nat
  deriving DecidableEq, Repr

def checkedAdd (max a b : Nat) (error : String) : Except ResourceError Nat :=
  if a + b ≤ max then .ok (a + b) else .error (.driver error)

def checkedSub (a b : Nat) (error : String) : Except ResourceError Nat :=
  if b ≤ a then .ok (a - b) else .error (.driver error)

-- Accounting of the resource

structure AllocationAccounting where
  outstanding : Nat := 0
  totalReclaimed : Nat := 0
  deriving DecidableEq, Repr

def AllocationAccounting.acquire (accounting : AllocationAccounting) (bytes : Nat)
    : Except ResourceError AllocationAccounting := do
  let outstanding ← checkedAdd usizeMax accounting.outstanding bytes
    "resource allocation accounting overflow"
  return { accounting with outstanding := outstanding }

def AllocationAccounting.release (accounting : AllocationAccounting) (bytes : Nat)
    : Except ResourceError AllocationAccounting := do
  let outstanding ← checkedSub accounting.outstanding bytes
    "resource release exceeds outstanding bytes"
  let totalReclaimed ← checkedAdd u128Max accounting.totalReclaimed bytes
    "resource reclamation accounting overflow"
  return { outstanding := outstanding, totalReclaimed := totalReclaimed }

-- Global budgets

/-- A budget with the state under its mutex. -/
structure GlobalDeviceBudget where
  limit : Nat
  admittedTotal : Nat
  baselineReclaimed : Nat
  deriving DecidableEq, Repr

/-- `GlobalDeviceBudget::new` over a resource with this accounting. -/
def GlobalDeviceBudget.new (accounting : AllocationAccounting) (limit : Nat)
    : GlobalDeviceBudget where
  limit := limit
  admittedTotal := accounting.outstanding
  baselineReclaimed := accounting.totalReclaimed

/-- `BudgetState::reserved`. -/
def GlobalDeviceBudget.reserved (budget : GlobalDeviceBudget) (totalReclaimed : Nat)
    : Except ResourceError Nat := do
  let reclaimed ← checkedSub totalReclaimed budget.baselineReclaimed
    "resource reclamation total precedes budget baseline"
  let reserved ← checkedSub budget.admittedTotal reclaimed
    "resource releases exceed budget admissions"
  if reserved ≤ usizeMax then return reserved
  else throw (.driver "global budget accounting overflow")

/-- One section of `allocate_with_pressure`: the request is admitted, or it may be admitted
after a reap, which `retried` says was done already.
-/
def GlobalDeviceBudget.allocateWithPressure (budget : GlobalDeviceBudget)
    (totalReclaimed bytes pressure : Nat) (retried : Bool)
    : Except ResourceError (Option GlobalDeviceBudget) := do
  let reserved ← budget.reserved totalReclaimed
  let current ← checkedAdd usizeMax reserved pressure
    "global budget reservation accounting overflow"
  let remaining := budget.limit - current
  if bytes ≤ remaining then
    let admittedTotal ← checkedAdd u128Max budget.admittedTotal bytes
      "global budget accounting overflow"
    return some { budget with admittedTotal := admittedTotal }
  else if retried = true ∨ bytes > budget.limit - pressure then
    throw (.outOfBudget bytes current remaining budget.limit)
  else return none

/-- `Drop for BudgetReservation`: an allocation that was not acquired is refunded. -/
def GlobalDeviceBudget.refund (budget : GlobalDeviceBudget) (bytes : Nat) (acquired : Bool)
    : GlobalDeviceBudget :=
  if acquired then budget else { budget with admittedTotal := budget.admittedTotal - bytes }

-- Manager accounting

structure GpuMemoryAccounting where
  budgetReserved : Nat := 0
  allocated : Nat := 0
  peak : Nat := 0
  deriving DecidableEq, Repr

def GpuMemoryAccounting.reserveLocalBytes (accounting : GpuMemoryAccounting)
    (deviceBytes bytes : Nat) (layer : String)
    : Except MemoryPressure GpuMemoryAccounting :=
  if accounting.budgetReserved + bytes > deviceBytes then
    .error ⟨layer, accounting.budgetReserved, bytes, deviceBytes, accounting.peak⟩
  else .ok { accounting with budgetReserved := accounting.budgetReserved + bytes }

def GpuMemoryAccounting.releaseReserved (accounting : GpuMemoryAccounting) (bytes : Nat)
    : Result GpuMemoryAccounting :=
  let previous := accounting.budgetReserved
  if bytes ≤ previous then .ok { accounting with budgetReserved := previous - bytes }
  else
    .error (.kernel (s!"GPU memory reservation release underflow: current_bytes={previous}"
      ++ s!" requested_bytes={bytes}"))

def GpuMemoryAccounting.releaseOwnedAllocation (accounting : GpuMemoryAccounting) (bytes : Nat)
    : Result GpuMemoryAccounting :=
  let admitted := accounting.allocated
  let reserved := accounting.budgetReserved
  if bytes > admitted then
    .error (.kernel (s!"GPU admitted allocation release underflow: current_bytes={admitted}"
      ++ s!" requested_bytes={bytes}"))
  else if bytes > reserved then
    .error (.kernel (s!"GPU local reservation release underflow: current_bytes={reserved}"
      ++ s!" requested_bytes={bytes}"))
  else
    .ok
      { accounting with
        allocated := admitted - bytes
        budgetReserved := reserved - bytes }

/-- What a manager's error shows where the resource reports it. -/
def kernelText : XlogError → String
  | .kernel message => s!"Kernel error: {message}"
  | _ => ""

/-- A manager is known by its number. -/
abbrev ManagerId := Nat

/-- A ticket is shared by reference, known by its address. -/
abbrev TicketId := Nat

-- Reclamation tickets

structure LocalAllocationCharge where
  manager : ManagerId
  bytes : Nat
  deriving DecidableEq, Repr

/-- A ticket with the state under its mutex. There is one resource, so its accounting is not
named in the ticket.
-/
structure AllocationReclamation where
  charge : Option LocalAllocationCharge := none
  localPublished : Bool := false
  resource : Option Nat := none
  resourcePublished : Bool := false
  pending : Option Nat := none
  acquired : Bool := false
  released : Bool := false
  deriving DecidableEq, Repr

/-- What the mutexes of the allocation path guard. The promise lock is held over a whole
materialization; the budgets are stacked from the outermost, number zero, to the innermost.
-/
structure BudgetSystem where
  reservationBytes : Nat := 0
  promiseHeld : Bool := false
  depth : Nat := 0
  budgets : Nat → GlobalDeviceBudget := fun _ => ⟨0, 0, 0⟩
  accounting : AllocationAccounting := {}
  pendingBytes : Nat := 0
  managers : ManagerId → GpuMemoryAccounting := fun _ => {}
  tickets : TicketId → AllocationReclamation := fun _ => {}
  ticketCount : Nat := 0

def BudgetSystem.setTicket (system : BudgetSystem) (id : TicketId)
    (ticket : AllocationReclamation) : BudgetSystem :=
  { system with tickets := Function.update system.tickets id ticket }

def BudgetSystem.setManager (system : BudgetSystem) (id : ManagerId)
    (accounting : GpuMemoryAccounting) : BudgetSystem :=
  { system with managers := Function.update system.managers id accounting }

/-- The first publication of `acquired`, to the accounting of the resource. -/
def BudgetSystem.publishResource (system : BudgetSystem) (id : TicketId)
    : Except ResourceError BudgetSystem := do
  let ticket := system.tickets id
  match ticket.resourcePublished, ticket.resource with
  | false, some bytes =>
      let accounting ← system.accounting.acquire bytes
      return { system.setTicket id { ticket with resourcePublished := true } with
        accounting := accounting }
  | _, _ => return system

/-- The second publication of `acquired`, to the accounting of the manager. -/
def BudgetSystem.publishLocal (system : BudgetSystem) (id : TicketId)
    : Except ResourceError BudgetSystem := do
  let ticket := system.tickets id
  match ticket.localPublished, ticket.charge with
  | false, some charge =>
      let accounting := system.managers charge.manager
      let admitted ← checkedAdd usizeMax accounting.allocated charge.bytes
        "local admitted allocation accounting overflow"
      let published := system.setManager charge.manager
        { accounting with allocated := admitted, peak := max accounting.peak admitted }
      return published.setTicket id { ticket with localPublished := true }
  | false, none => return system.setTicket id { ticket with localPublished := true }
  | true, _ => return system

/-- The section of `acquired` under the ticket's mutex, after its flag is set. What is published
before an error stays published.
-/
def BudgetSystem.publish (system : BudgetSystem) (id : TicketId)
    : BudgetSystem × Except ResourceError Unit :=
  if (system.tickets id).released then
    (system, .error (.driver "cannot acquire released storage"))
  else
    match system.publishResource id with
    | .error error => (system, .error error)
    | .ok system =>
        match system.publishLocal id with
        | .error error => (system, .error error)
        | .ok system => (system, .ok ())

/-- The first obligation of `complete`: the charge is settled and removed. -/
def BudgetSystem.settleLocal (system : BudgetSystem) (id : TicketId)
    : Except ResourceError BudgetSystem := do
  let ticket := system.tickets id
  match ticket.charge with
  | none => return system
  | some charge =>
      if ticket.localPublished = false then
        throw (.driver "local allocation acquisition was not published")
      let accounting ← ((system.managers charge.manager).releaseOwnedAllocation
        charge.bytes).mapError fun error => .driver (kernelText error)
      let settled := system.setManager charge.manager accounting
      return settled.setTicket id { ticket with charge := none }

/-- The second obligation of `complete`: the resource is settled and removed. -/
def BudgetSystem.settleResource (system : BudgetSystem) (id : TicketId)
    : Except ResourceError BudgetSystem := do
  let ticket := system.tickets id
  match ticket.resource with
  | none => return system
  | some bytes =>
      if ticket.resourcePublished = false then
        throw (.driver "resource allocation acquisition was not published")
      let accounting ← system.accounting.release bytes
      return { system.setTicket id { ticket with resource := none } with
        accounting := accounting }

/-- The last obligation of `complete`, after which the ticket is released. -/
def BudgetSystem.settlePending (system : BudgetSystem) (id : TicketId)
    : Except ResourceError BudgetSystem := do
  let ticket := system.tickets id
  let pendingBytes ← checkedSub system.pendingBytes (ticket.pending.getD 0)
    "pending allocation accounting underflow"
  return { system.setTicket id { ticket with pending := none, released := true } with
    pendingBytes := pendingBytes }

/-- `attach_pending`. -/
def BudgetSystem.attachPending (system : BudgetSystem) (id : TicketId) (bytes : Nat)
    : Except ResourceError BudgetSystem := do
  let ticket := system.tickets id
  if ticket.acquired = false ∨ ticket.released = true ∨ ticket.pending.isSome = true then
    throw (.driver "pending charge requires acquired live storage")
  let pendingBytes ← checkedAdd usizeMax system.pendingBytes bytes
    "pending allocation accounting overflow"
  return { system.setTicket id { ticket with pending := some bytes } with
    pendingBytes := pendingBytes }

/-- `attach_resource`. -/
def BudgetSystem.attachResource (system : BudgetSystem) (id : TicketId) (bytes : Nat)
    : Except ResourceError BudgetSystem := do
  let ticket := system.tickets id
  if ticket.acquired = true ∨ ticket.released = true ∨ ticket.resource.isSome = true then
    throw (.driver "resource accounting requires an unacquired, unbound allocation")
  return system.setTicket id { ticket with resource := some bytes }

-- Promises of the runtime

structure RuntimeMemoryReservation where
  totalBytes : Nat
  remainingBytes : Nat
  deriving DecidableEq, Repr

/-- `XlogDeviceRuntime::reserve_memory`, one section under the promise lock. -/
def BudgetSystem.reserveMemory (system : BudgetSystem) (bytes : Nat)
    : Except ResourceError (BudgetSystem × RuntimeMemoryReservation) := do
  if system.depth = 0 then
    throw (.driver "device-runtime resource stack has no reservable global budget")
  let budget := system.budgets 0
  let reserved ← budget.reserved system.accounting.totalReclaimed
  let current ← checkedAdd usizeMax reserved system.reservationBytes
    "device-runtime reservation accounting overflow"
  let remaining := budget.limit - current
  if bytes > remaining then
    throw (.outOfBudget bytes current remaining budget.limit)
  let reservationBytes ← checkedAdd usizeMax system.reservationBytes bytes
    "device-runtime reservation accounting overflow"
  return ({ system with reservationBytes := reservationBytes },
    { totalBytes := bytes, remainingBytes := bytes })

/-- The start of `RuntimeMemoryReservation::materialize`: the promise lock is taken and the
promise moved out of the runtime's total, unless the request exceeds the token.
-/
def BudgetSystem.takePromise (system : BudgetSystem) (reservation : RuntimeMemoryReservation)
    (bytes : Nat) : Except ResourceError (BudgetSystem × RuntimeMemoryReservation) := do
  if bytes > reservation.remainingBytes then
    throw (.outOfBudget bytes (reservation.totalBytes - reservation.remainingBytes)
      reservation.remainingBytes reservation.totalBytes)
  let reservationBytes ← checkedSub system.reservationBytes bytes
    "device-runtime reservation accounting underflow"
  return ({ system with reservationBytes := reservationBytes, promiseHeld := true },
    { reservation with remainingBytes := reservation.remainingBytes - bytes })

/-- `Drop for RuntimeReservationAttempt`, after which the promise lock is free. -/
def BudgetSystem.returnPromise (system : BudgetSystem) (reservation : RuntimeMemoryReservation)
    (bytes : Nat) (acquired : Bool) : BudgetSystem × RuntimeMemoryReservation :=
  if acquired then ({ system with promiseHeld := false }, reservation)
  else
    ({ system with
        reservationBytes := system.reservationBytes + bytes
        promiseHeld := false },
      { reservation with remainingBytes := reservation.remainingBytes + bytes })

/-- `Drop for RuntimeMemoryReservation`. -/
def BudgetSystem.dropPromise (system : BudgetSystem) (reservation : RuntimeMemoryReservation)
    : BudgetSystem :=
  { system with
    reservationBytes := system.reservationBytes - reservation.remainingBytes }

structure GpuMemoryReservation where
  manager : ManagerId
  runtimeReservation : Option RuntimeMemoryReservation
  totalBytes : Nat
  remainingBytes : Nat
  deriving DecidableEq, Repr

end Xlog.Cuda.MemoryBudget
