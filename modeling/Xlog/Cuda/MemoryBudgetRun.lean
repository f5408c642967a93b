import Xlog.Cuda.MemoryBudget
import Xlog.Foundation.Interleaving

/-! Interleavings of reservations, allocations and releases, one mutex section at a time. Only a
materialization through the runtime keeps a mutex over several sections, the promise lock.
-/

namespace Xlog.Cuda.MemoryBudget

open Xlog.Core Xlog.Foundation

-- Activities

/-- The byte limit of a manager, and whether a runtime is attached to it. -/
structure ManagerConfig where
  deviceBytes : Nat
  runtime : Bool
  deriving DecidableEq, Repr

/-- Who asks for an allocation: a manager, the holder of a token, or the runtime itself. -/
inductive AttemptOwner where
  | manager (id : ManagerId)
  | token (reservation : GpuMemoryReservation)
  | runtime
  deriving DecidableEq, Repr

/-- One allocation request in flight. It is promised while the guard exists that returns its
bytes to the token's promise.
-/
structure AllocationAttempt where
  owner : AttemptOwner
  bytes : Nat
  ticket : TicketId
  viaRuntime : Bool
  promised : Bool := false
  pressure : Nat := 0
  deriving DecidableEq, Repr

/-- How far a request has come: through the budgets from the outermost inwards, to the backend,
which binds its accounting before it calls malloc, and back outwards through the guards of the
budgets that admitted it.
-/
inductive AttemptStage where
  | start
  | admitting (level : Nat) (retried : Bool)
  | backend
  | attached
  | acquiring
  | refunding (level : Nat)
  | settling
  deriving DecidableEq, Repr

inductive CompletionStage where
  | confirm
  | charge
  | resource
  | pending
  deriving DecidableEq, Repr

inductive Activity where
  | reserveBytes (manager : ManagerId) (bytes : Nat)
  | reserveLocal (manager : ManagerId) (bytes : Nat)
    (runtimeReservation : Option RuntimeMemoryReservation)
  | token (reservation : GpuMemoryReservation)
  | promise (reservation : RuntimeMemoryReservation)
  | allocate (manager : ManagerId) (bytes : Nat) (layer : String)
  | allocateRuntime (bytes : Nat)
  | attempt (attempt : AllocationAttempt) (stage : AttemptStage)
  | deallocate (ticket : TicketId) (bytes : Nat)
  | complete (ticket : TicketId) (stage : CompletionStage)
  | returned
  deriving DecidableEq, Repr

/-- The entry points, at their first section. -/
inductive Entry : Activity → Prop
  | reserveBytes manager bytes : Entry (.reserveBytes manager bytes)
  | allocate manager bytes layer : Entry (.allocate manager bytes layer)
  | allocateRuntime bytes : Entry (.allocateRuntime bytes)
  | deallocate ticket bytes : Entry (.deallocate ticket bytes)
  | complete ticket : Entry (.complete ticket .confirm)

/-- What is left of a token's promise when the token is gone. -/
def afterToken : Option RuntimeMemoryReservation → Activity
  | none => .returned
  | some reservation => .promise reservation

/-- What an attempt leaves with its caller. -/
def AttemptOwner.next : AttemptOwner → Activity
  | .token reservation => .token reservation
  | _ => .returned

/-- A manager with a runtime goes around it for empty requests at most, one without always. -/
def Routed (config : ManagerConfig) (bytes : Nat) (viaRuntime : Bool) : Prop :=
  if viaRuntime then config.runtime = true else config.runtime = false ∨ bytes = 0

/-- A new ticket, with the local charge that `LocalAllocationAttempt::new` binds to it. -/
def BudgetSystem.newTicket (system : BudgetSystem) (charge : Option LocalAllocationCharge)
    : BudgetSystem :=
  { system.setTicket system.ticketCount { charge := charge } with
    ticketCount := system.ticketCount + 1 }

def BudgetSystem.setBudget (system : BudgetSystem) (level : Nat) (budget : GlobalDeviceBudget)
    : BudgetSystem :=
  { system with budgets := Function.update system.budgets level budget }

/-- The budgets that a materialization passes. -/
def AllocationAttempt.levels (attempt : AllocationAttempt) (system : BudgetSystem) : Nat :=
  if attempt.viaRuntime then system.depth else 0

-- Sections

variable (config : ManagerId → ManagerConfig)

/-- One section of a reservation or of its token, or the local section of an allocation. -/
inductive ReserveMove (system : BudgetSystem) : Activity → BudgetSystem → List Activity → Prop
  | promised {manager bytes system' reservation} (hruntime : (config manager).runtime = true)
      (hfree : system.promiseHeld = false)
      (h : system.reserveMemory bytes = .ok (system', reservation))
    : ReserveMove system (.reserveBytes manager bytes) system'
        [.reserveLocal manager bytes (some reservation)]
  | refused {manager bytes error} (h : system.reserveMemory bytes = .error error)
    : ReserveMove system (.reserveBytes manager bytes) system [.returned]
  | unbacked {manager bytes} (hruntime : (config manager).runtime = false)
    : ReserveMove system (.reserveBytes manager bytes) system [.reserveLocal manager bytes none]
  | reserved {manager bytes reservation accounting}
      (h : (system.managers manager).reserveLocalBytes (config manager).deviceBytes bytes
        "manager_reserve" = .ok accounting)
    : ReserveMove system (.reserveLocal manager bytes reservation)
        (system.setManager manager accounting) [.token ⟨manager, reservation, bytes, bytes⟩]
  | pressed {manager bytes reservation error}
      (h : (system.managers manager).reserveLocalBytes (config manager).deviceBytes bytes
        "manager_reserve" = .error error)
    : ReserveMove system (.reserveLocal manager bytes reservation) system
        [afterToken reservation]
  | drop {reservation accounting}
      (h : (system.managers reservation.manager).releaseReserved reservation.remainingBytes
        = .ok accounting)
    : ReserveMove system (.token reservation)
        (system.setManager reservation.manager accounting)
        [afterToken reservation.runtimeReservation]
  | dropFailed {reservation error}
      (h : (system.managers reservation.manager).releaseReserved reservation.remainingBytes
        = .error error)
    : ReserveMove system (.token reservation) system [afterToken reservation.runtimeReservation]
  | dropPromise {reservation} (hfree : system.promiseHeld = false)
    : ReserveMove system (.promise reservation) (system.dropPromise reservation) [.returned]
  | spend {reservation bytes viaRuntime} (h : bytes ≤ reservation.remainingBytes)
      (hroute : Routed (config reservation.manager) bytes viaRuntime)
    : ReserveMove system (.token reservation)
        (system.newTicket (some ⟨reservation.manager, bytes⟩))
        [.attempt
          { owner := .token
              { reservation with remainingBytes := reservation.remainingBytes - bytes }
            bytes := bytes
            ticket := system.ticketCount
            viaRuntime := viaRuntime } .start]
  | overdrawn {reservation bytes} (h : reservation.remainingBytes < bytes)
    : ReserveMove system (.token reservation) system [.token reservation]
  | allocate {manager bytes layer viaRuntime accounting}
      (h : (system.managers manager).reserveLocalBytes (config manager).deviceBytes bytes layer
        = .ok accounting)
      (hroute : Routed (config manager) bytes viaRuntime)
    : ReserveMove system (.allocate manager bytes layer)
        ((system.setManager manager accounting).newTicket (some ⟨manager, bytes⟩))
        [.attempt
          { owner := .manager manager
            bytes := bytes
            ticket := system.ticketCount
            viaRuntime := viaRuntime } .start]
  | allocatePressed {manager bytes layer error}
      (h : (system.managers manager).reserveLocalBytes (config manager).deviceBytes bytes layer
        = .error error)
    : ReserveMove system (.allocate manager bytes layer) system [.returned]
  | allocateRuntime {bytes}
    : ReserveMove system (.allocateRuntime bytes) (system.newTicket none)
        [.attempt
          { owner := .runtime
            bytes := bytes
            ticket := system.ticketCount
            viaRuntime := true } .start]

/-- One section of an attempt, or its failing or unwinding before the next one. -/
inductive AttemptMove (system : BudgetSystem) : Activity → BudgetSystem → List Activity → Prop
  | fail {attempt}
    : AttemptMove system (.attempt attempt .start) system [.attempt attempt .settling]
  | native {attempt} (hroute : attempt.viaRuntime = false)
    : AttemptMove system (.attempt attempt .start) system [.attempt attempt .backend]
  | overdrawn {attempt token reservation error} (howner : attempt.owner = .token token)
      (hreservation : token.runtimeReservation = some reservation)
      (h : system.takePromise reservation attempt.bytes = .error error)
    : AttemptMove system (.attempt attempt .start) system [.attempt attempt .settling]
  | take {attempt token reservation system' reservation'} (hroute : attempt.viaRuntime = true)
      (howner : attempt.owner = .token token)
      (hreservation : token.runtimeReservation = some reservation)
      (hfree : system.promiseHeld = false)
      (h : system.takePromise reservation attempt.bytes = .ok (system', reservation'))
    : AttemptMove system (.attempt attempt .start) system'
        [.attempt
          { attempt with
            owner := .token { token with runtimeReservation := some reservation' }
            promised := true
            pressure := system'.reservationBytes } (.admitting 0 false)]
  | lock {attempt} (hroute : attempt.viaRuntime = true)
      (howner
        : ∀ token reservation, attempt.owner = .token token
          → token.runtimeReservation ≠ some reservation)
      (hfree : system.promiseHeld = false)
    : AttemptMove system (.attempt attempt .start) { system with promiseHeld := true }
        [.attempt { attempt with pressure := system.reservationBytes } (.admitting 0 false)]
  | accept {attempt level retried budget} (hlevel : level < system.depth)
      (h : (system.budgets level).allocateWithPressure system.accounting.totalReclaimed
        attempt.bytes attempt.pressure retried = .ok (some budget))
    : AttemptMove system (.attempt attempt (.admitting level retried))
        (system.setBudget level budget) [.attempt attempt (.admitting (level + 1) false)]
  -- The reap between the two tries is whatever releases move in between.
  | retry {attempt level} (hlevel : level < system.depth)
      (h : (system.budgets level).allocateWithPressure system.accounting.totalReclaimed
        attempt.bytes attempt.pressure false = .ok none)
    : AttemptMove system (.attempt attempt (.admitting level false)) system
        [.attempt attempt (.admitting level true)]
  | reject {attempt level retried error} (hlevel : level < system.depth)
      (h : (system.budgets level).allocateWithPressure system.accounting.totalReclaimed
        attempt.bytes attempt.pressure retried = .error error)
    : AttemptMove system (.attempt attempt (.admitting level retried)) system
        [.attempt attempt (.refunding level)]
  | unwindReap {attempt level}
    : AttemptMove system (.attempt attempt (.admitting level true)) system
        [.attempt attempt (.refunding level)]
  | enter {attempt retried}
    : AttemptMove system (.attempt attempt (.admitting system.depth retried)) system
        [.attempt attempt .backend]
  | attach {attempt system'} (hroute : attempt.viaRuntime = true)
      (h : system.attachResource attempt.ticket attempt.bytes = .ok system')
    : AttemptMove system (.attempt attempt .backend) system' [.attempt attempt .attached]
  | refuse {attempt stage} (hstage : stage = .backend ∨ stage = .attached)
    : AttemptMove system (.attempt attempt stage) system
        [.attempt attempt (.refunding (attempt.levels system))]
  | acquire {attempt stage}
      (hstage : stage = .attached ∨ stage = .backend ∧ attempt.viaRuntime = false)
    : AttemptMove system (.attempt attempt stage)
        (system.setTicket attempt.ticket
          { system.tickets attempt.ticket with acquired := true })
        [.attempt attempt .acquiring]
  | publish {attempt system' result} (h : system.publish attempt.ticket = (system', result))
    : AttemptMove system (.attempt attempt .acquiring) system'
        [.attempt attempt (.refunding (attempt.levels system))]
  | refund {attempt level}
    : AttemptMove system (.attempt attempt (.refunding (level + 1)))
        (system.setBudget level
          ((system.budgets level).refund attempt.bytes (system.tickets attempt.ticket).acquired))
        [.attempt attempt (.refunding level)]
  | returnPromise {attempt token reservation system' reservation'}
      (hpromised : attempt.promised = true) (howner : attempt.owner = .token token)
      (hreservation : token.runtimeReservation = some reservation)
      (h : system.returnPromise reservation attempt.bytes
        (system.tickets attempt.ticket).acquired = (system', reservation'))
    : AttemptMove system (.attempt attempt (.refunding 0)) system'
        [.attempt
          { attempt with
            owner := .token { token with runtimeReservation := some reservation' }
            promised := false } .settling]
  | unlock {attempt} (hpromised : attempt.promised = false) (hroute : attempt.viaRuntime = true)
    : AttemptMove system (.attempt attempt (.refunding 0)) { system with promiseHeld := false }
        [.attempt attempt .settling]
  | leave {attempt} (hroute : attempt.viaRuntime = false)
    : AttemptMove system (.attempt attempt (.refunding 0)) system [.attempt attempt .settling]
  | settled {attempt} (hacquired : (system.tickets attempt.ticket).acquired = true)
    : AttemptMove system (.attempt attempt .settling) system [attempt.owner.next]
  | restoreToken {attempt token} (hacquired : (system.tickets attempt.ticket).acquired = false)
      (howner : attempt.owner = .token token)
    : AttemptMove system (.attempt attempt .settling) system
        [.token { token with remainingBytes := token.remainingBytes + attempt.bytes }]
  | restoreManager {attempt manager accounting}
      (hacquired : (system.tickets attempt.ticket).acquired = false)
      (howner : attempt.owner = .manager manager)
      (h : (system.managers manager).releaseReserved attempt.bytes = .ok accounting)
    : AttemptMove system (.attempt attempt .settling) (system.setManager manager accounting)
        [.returned]
  | restoreFailed {attempt manager error}
      (hacquired : (system.tickets attempt.ticket).acquired = false)
      (howner : attempt.owner = .manager manager)
      (h : (system.managers manager).releaseReserved attempt.bytes = .error error)
    : AttemptMove system (.attempt attempt .settling) system [.returned]
  | uncharged {attempt} (hacquired : (system.tickets attempt.ticket).acquired = false)
      (howner : attempt.owner = .runtime)
    : AttemptMove system (.attempt attempt .settling) system [.returned]

/-- One section of a logical deallocation or of a proven physical release. A release starts
once the pointer has an armed owner, that is once the ticket's flag is set.
-/
inductive ReleaseMove (system : BudgetSystem) : Activity → BudgetSystem → List Activity → Prop
  | deallocate {ticket bytes system'} (hticket : ticket < system.ticketCount)
      (h : system.attachPending ticket bytes = .ok system')
    : ReleaseMove system (.deallocate ticket bytes) system' [.returned]
  | deallocateFailed {ticket bytes}
    : ReleaseMove system (.deallocate ticket bytes) system [.returned]
  | confirm {ticket system'} (hticket : ticket < system.ticketCount)
      (hacquired : (system.tickets ticket).acquired = true)
      (h : system.publish ticket = (system', .ok ()))
    : ReleaseMove system (.complete ticket .confirm) system' [.complete ticket .charge]
  | unconfirmed {ticket system' error} (hticket : ticket < system.ticketCount)
      (hacquired : (system.tickets ticket).acquired = true)
      (h : system.publish ticket = (system', .error error))
    : ReleaseMove system (.complete ticket .confirm) system' [.returned]
  | charge {ticket system'} (hlive : (system.tickets ticket).released = false)
      (h : system.settleLocal ticket = .ok system')
    : ReleaseMove system (.complete ticket .charge) system' [.complete ticket .resource]
  | resource {ticket system'} (h : system.settleResource ticket = .ok system')
    : ReleaseMove system (.complete ticket .resource) system' [.complete ticket .pending]
  | pending {ticket system'} (h : system.settlePending ticket = .ok system')
    : ReleaseMove system (.complete ticket .pending) system' [.returned]
  | unsettled {ticket stage} : ReleaseMove system (.complete ticket stage) system [.returned]

inductive Move (system : BudgetSystem) : Activity → BudgetSystem → List Activity → Prop
  | reserve {activity system' next} (h : ReserveMove config system activity system' next)
    : Move system activity system' next
  | attempt {activity system' next} (h : AttemptMove system activity system' next)
    : Move system activity system' next
  | release {activity system' next} (h : ReleaseMove system activity system' next)
    : Move system activity system' next

/-- Every entry point at any time, and every section in any order. -/
def allocations : ActivitySystem BudgetSystem Activity where
  entry := Entry
  move := Move config

end Xlog.Cuda.MemoryBudget
