import Xlog.Cuda.MemoryBudgetSections

/-! The tickets of the attempts in flight. An attempt owns its ticket until the ticket shows its
acquisition; from then on the charge and the resource belong to whoever releases the storage.
-/

namespace Xlog.Cuda.MemoryBudget

open Xlog.Core Xlog.Foundation

-- Attempts and their tickets

/-- The ticket of an attempt, from its start until its guards are gone. -/
def owns : Activity → Multiset TicketId
  | .attempt attempt _ => {attempt.ticket}
  | _ => 0

/-- The local charge of an attempt. The runtime's own allocations have none. -/
def AllocationAttempt.charge (attempt : AllocationAttempt) : Option LocalAllocationCharge :=
  match attempt.owner with
  | .manager id => some ⟨id, attempt.bytes⟩
  | .token reservation => some ⟨reservation.manager, attempt.bytes⟩
  | .runtime => none

/-- How many budgets have admitted the attempt and not seen it unwind. -/
def AllocationAttempt.level (attempt : AllocationAttempt) (depth : Nat) : AttemptStage → Nat
  | .start => 0
  | .admitting level _ => level
  | .backend => if attempt.viaRuntime then depth else 0
  | .attached => if attempt.viaRuntime then depth else 0
  | .acquiring => if attempt.viaRuntime then depth else 0
  | .refunding level => level
  | .settling => 0

/-- What the ticket of an attempt shows. The last stages come with any ticket, since storage
that was acquired may be released before its guards are gone.
-/
def AllocationAttempt.Filled (attempt : AllocationAttempt) (ticket : AllocationReclamation)
    : AttemptStage → Prop
  | .start | .admitting _ _ | .backend =>
      ticket.acquired = false ∧ ticket.charge = attempt.charge ∧ ticket.resource = none
  | .attached =>
      ticket.acquired = false ∧ ticket.charge = attempt.charge
      ∧ ticket.resource = some attempt.bytes
  | .acquiring => ticket.acquired = true
  | .refunding _ | .settling => True

/-- Where a promise is out and which budgets are passed, stage by stage. -/
def AllocationAttempt.Shaped (attempt : AllocationAttempt) (depth : Nat)
    : AttemptStage → Prop
  | .start | .settling => attempt.promised = false
  | .admitting level _ => attempt.viaRuntime = true ∧ level ≤ depth
  | .attached => attempt.viaRuntime = true
  | .backend | .acquiring => attempt.viaRuntime = true ∨ attempt.promised = false
  | .refunding level =>
      (attempt.viaRuntime = true ∨ attempt.promised = false)
      ∧ level ≤ if attempt.viaRuntime then depth else 0

/-- A ticket keeps its acquisition, and its charge and resource as long as it has none. -/
structure TicketKept (ticket ticket' : AllocationReclamation) : Prop where
  acquired : ticket'.acquired = ticket.acquired
  charge : ticket.acquired = false → ticket'.charge = ticket.charge
  resource : ticket.acquired = false → ticket'.resource = ticket.resource

theorem TicketKept.refl (ticket : AllocationReclamation) : TicketKept ticket ticket :=
  ⟨rfl, fun _ => rfl, fun _ => rfl⟩

/-- Releases touch the tickets that are acquired, and these keep their acquisition. -/
theorem TicketKept.of_acquired {ticket ticket' : AllocationReclamation}
    (h : ticket.acquired = true) (h' : ticket'.acquired = true)
    : TicketKept ticket ticket' := by
  refine ⟨h'.trans h.symm, ?_, ?_⟩ <;>
    intro hnot <;>
    rw [h] at hnot <;>
    cases hnot

theorem AllocationAttempt.Filled.kept {attempt : AllocationAttempt} {stage : AttemptStage}
    {ticket ticket' : AllocationReclamation} (h : attempt.Filled ticket stage)
    (hkept : TicketKept ticket ticket')
    : attempt.Filled ticket' stage := by
  cases stage with
  | start | admitting | backend | attached =>
      obtain ⟨hacquired, hcharge, hresource⟩ := h
      exact ⟨hkept.acquired.trans hacquired, (hkept.charge hacquired).trans hcharge,
        (hkept.resource hacquired).trans hresource⟩
  | acquiring => exact hkept.acquired.trans h
  | refunding | settling => trivial

theorem SameLedgers.kept {system system' : BudgetSystem} (h : SameLedgers system system')
    (id : TicketId)
    : TicketKept (system.tickets id) (system'.tickets id) :=
  ⟨h.acquired id, fun _ => h.charge id, fun _ => h.resource id⟩

variable {config : ManagerId → ManagerConfig} {system system' : BudgetSystem}
  {activity : Activity} {next : List Activity} {others : Multiset Activity}

-- One section

/-- What a release section does: nothing to the ledgers, or it settles a part of a ticket. -/
theorem ReleaseMove.cases (h : ReleaseMove system activity system' next)
    : (SameLedgers system system'
        ∨ (∃ id, activity = .complete id .charge ∧ system.settleLocal id = .ok system')
        ∨ ∃ id, activity = .complete id .resource ∧ system.settleResource id = .ok system')
      ∧ (next = [.returned]
        ∨ ∃ id stage stage', activity = .complete id stage ∧ next = [.complete id stage']
          ∧ (stage = .confirm
            → id < system.ticketCount ∧ (system.tickets id).acquired = true)) := by
  cases h with
  | deallocate hticket h => exact ⟨.inl (attachPending_same h), .inl rfl⟩
  | deallocateFailed => exact ⟨.inl (.refl _), .inl rfl⟩
  | confirm hticket hacquired h =>
      exact ⟨.inl (publish_same h), .inr ⟨_, _, _, rfl, rfl, fun _ => ⟨hticket, hacquired⟩⟩⟩
  | unconfirmed hticket hacquired h => exact ⟨.inl (publish_same h), .inl rfl⟩
  | charge hlive h =>
      exact ⟨.inr (.inl ⟨_, rfl, h⟩), .inr ⟨_, _, _, rfl, rfl, fun h => by cases h⟩⟩
  | resource h =>
      exact ⟨.inr (.inr ⟨_, rfl, h⟩), .inr ⟨_, _, _, rfl, rfl, fun h => by cases h⟩⟩
  | pending h => exact ⟨.inl (settlePending_same h), .inl rfl⟩
  | unsettled => exact ⟨.inl (.refl _), .inl rfl⟩

/-- A completion beyond its confirmation has an acquired ticket. -/
def Completing (system : BudgetSystem) (activity : Activity) : Prop :=
  ∀ id stage, activity = .complete id stage → stage ≠ .confirm
    → id < system.ticketCount ∧ (system.tickets id).acquired = true

theorem settleLocal_kept {id : TicketId} (h : system.settleLocal id = .ok system')
    (hacquired : (system.tickets id).acquired = true) (other : TicketId)
    : TicketKept (system.tickets other) (system'.tickets other) := by
  rcases settleLocal_ok h with ⟨-, rfl⟩ | ⟨charge, accounting, -, -, -, rfl⟩
  · exact .refl _
  · rcases eq_or_ne other id with rfl | hne
    · exact .of_acquired hacquired (by simpa using hacquired)
    · rw [setTicket_of_ne _ _ hne]
      exact .refl _

theorem settleResource_kept {id : TicketId} (h : system.settleResource id = .ok system')
    (hacquired : (system.tickets id).acquired = true) (other : TicketId)
    : TicketKept (system.tickets other) (system'.tickets other) := by
  rcases settleResource_ok h with ⟨-, rfl⟩ | ⟨bytes, accounting, -, -, rfl⟩
  · exact .refl _
  · rcases eq_or_ne other id with rfl | hne
    · exact .of_acquired hacquired (by simpa using hacquired)
    · change TicketKept _ ((system.setTicket id _).tickets other)
      rw [setTicket_of_ne _ _ hne]
      exact .refl _

theorem newTicket_kept {id : TicketId} (charge : Option LocalAllocationCharge)
    (h : id < system.ticketCount)
    : TicketKept (system.tickets id) ((system.newTicket charge).tickets id) := by
  rw [newTicket_of_ne _ _ h.ne]
  exact .refl _

theorem ReserveMove.kept (h : ReserveMove config system activity system' next)
    {id : TicketId} (hid : id < system.ticketCount)
    : TicketKept (system.tickets id) (system'.tickets id) := by
  cases h with
  | promised hruntime hfree h =>
      obtain ⟨reserved, -, -, -, -, rfl⟩ := reserveMemory_ok h
      exact .refl _
  | spend | allocateRuntime => exact newTicket_kept _ hid
  | allocate h =>
      exact @newTicket_kept (system.setManager _ _) _ _ hid
  | _ => exact .refl _

theorem AttemptMove.kept (h : AttemptMove system activity system' next)
    {id : TicketId} (hid : id ∉ owns activity)
    : TicketKept (system.tickets id) (system'.tickets id) := by
  cases h with
  | take hroute howner hreservation hfree h =>
      obtain ⟨-, -, rfl, -⟩ := takePromise_ok h
      exact .refl _
  | attach hroute h =>
      rw [attachResource_ok h, setTicket_of_ne]
      · exact .refl _
      · simpa [owns] using hid
  | acquire hstage =>
      rw [setTicket_of_ne]
      · exact .refl _
      · simpa [owns] using hid
  | publish h => exact (publish_same h).kept id
  | returnPromise hpromised howner hreservation h =>
      obtain ⟨rfl, -⟩ := returnPromise_ok h
      exact .refl _
  | _ => exact .refl _

theorem ReleaseMove.kept (h : ReleaseMove system activity system' next)
    (hcompleting : Completing system activity) (id : TicketId)
    : TicketKept (system.tickets id) (system'.tickets id) := by
  rcases h.cases.1 with hsame | ⟨other, rfl, hsettle⟩ | ⟨other, rfl, hsettle⟩
  · exact hsame.kept id
  · exact settleLocal_kept hsettle (hcompleting other _ rfl (by simp)).2 id
  · exact settleResource_kept hsettle (hcompleting other _ rfl (by simp)).2 id

/-- A section leaves all tickets that others own. -/
theorem Move.kept (h : Move config system activity system' next)
    (hcompleting : Completing system activity) {id : TicketId} (hid : id < system.ticketCount)
    (howns : id ∉ owns activity)
    : TicketKept (system.tickets id) (system'.tickets id) := by
  cases h with
  | reserve h => exact h.kept hid
  | attempt h => exact h.kept howns
  | release h => exact h.kept hcompleting id

/-- A section hands its ticket on or gives it up, or it makes a new one. -/
theorem Move.owns_cases (h : Move config system activity system' next)
    : system'.ticketCount = system.ticketCount
        ∧ total owns (next : Multiset Activity) ≤ owns activity
      ∨ system'.ticketCount = system.ticketCount + 1 ∧ owns activity = 0
        ∧ total owns (next : Multiset Activity) = {system.ticketCount} := by
  cases h with
  | reserve h =>
      cases h with
      | promised hruntime hfree h =>
          obtain ⟨reserved, -, -, -, -, rfl⟩ := reserveMemory_ok h
          exact .inl ⟨rfl, le_refl _⟩
      | spend | allocate | allocateRuntime => exact .inr ⟨rfl, rfl, rfl⟩
      | @pressed _ _ reservation _ h =>
          cases reservation <;> exact .inl ⟨rfl, le_refl _⟩
      | @drop reservation _ h | @dropFailed reservation _ h =>
          obtain ⟨_, promise, _, _⟩ := reservation
          cases promise <;> exact .inl ⟨rfl, le_refl _⟩
      | _ => exact .inl ⟨rfl, le_refl _⟩
  | attempt h =>
      cases h with
      | take hroute howner hreservation hfree h =>
          obtain ⟨-, -, rfl, -⟩ := takePromise_ok h
          exact .inl ⟨rfl, le_refl _⟩
      | attach hroute h =>
          rw [attachResource_ok h]
          exact .inl ⟨rfl, le_refl _⟩
      | publish h => exact .inl ⟨(publish_same h).ticketCount, le_refl _⟩
      | returnPromise hpromised howner hreservation h =>
          obtain ⟨rfl, -⟩ := returnPromise_ok h
          exact .inl ⟨rfl, le_refl _⟩
      | @settled attempt hacquired =>
          obtain ⟨owner, _, _, _, _, _⟩ := attempt
          cases owner <;> exact .inl ⟨rfl, Multiset.zero_le _⟩
      | restoreToken | restoreManager | restoreFailed | uncharged =>
          exact .inl ⟨rfl, Multiset.zero_le _⟩
      | _ => exact .inl ⟨rfl, le_refl _⟩
  | release h =>
      refine .inl ⟨?_, ?_⟩
      · rcases h.cases.1 with hsame | ⟨id, -, hsettle⟩ | ⟨id, -, hsettle⟩
        · exact hsame.ticketCount
        · rcases settleLocal_ok hsettle with ⟨-, rfl⟩ | ⟨_, _, -, -, -, rfl⟩ <;> rfl
        · rcases settleResource_ok hsettle with ⟨-, rfl⟩ | ⟨_, _, -, -, rfl⟩ <;> rfl
      · rcases h.cases.2 with rfl | ⟨id, stage, stage', rfl, rfl, -⟩
        · exact Multiset.zero_le _
        · exact Multiset.zero_le _

/-- No budget is stacked on the others later. -/
theorem Move.depth (h : Move config system activity system' next)
    : system'.depth = system.depth := by
  cases h with
  | reserve h =>
      cases h with
      | promised hruntime hfree h =>
          obtain ⟨reserved, -, -, -, -, rfl⟩ := reserveMemory_ok h
          rfl
      | _ => rfl
  | attempt h =>
      cases h with
      | take hroute howner hreservation hfree h =>
          obtain ⟨-, -, rfl, -⟩ := takePromise_ok h
          rfl
      | attach hroute h =>
          rw [attachResource_ok h]
          rfl
      | publish h => exact (publish_same h).depth
      | returnPromise hpromised howner hreservation h =>
          obtain ⟨rfl, -⟩ := returnPromise_ok h
          rfl
      | _ => rfl
  | release h =>
      rcases h.cases.1 with hsame | ⟨id, -, hsettle⟩ | ⟨id, -, hsettle⟩
      · exact hsame.depth
      · rcases settleLocal_ok hsettle with ⟨-, rfl⟩ | ⟨_, _, -, -, -, rfl⟩ <;> rfl
      · rcases settleResource_ok hsettle with ⟨-, rfl⟩ | ⟨_, _, -, -, rfl⟩ <;> rfl

/-- An attempt at its stage, with its ticket. -/
def Attempting (system : BudgetSystem) (activity : Activity) : Prop :=
  ∀ attempt stage, activity = .attempt attempt stage
    → attempt.Filled (system.tickets attempt.ticket) stage ∧ attempt.Shaped system.depth stage

theorem attempting_attempt {attempt : AllocationAttempt} {stage : AttemptStage}
    (hfilled : attempt.Filled (system.tickets attempt.ticket) stage)
    (hshaped : attempt.Shaped system.depth stage)
    : ∀ activity ∈ [Activity.attempt attempt stage], Attempting system activity := by
  intro activity hmem attempt' stage' heq
  cases List.mem_singleton.mp hmem
  cases heq
  exact ⟨hfilled, hshaped⟩

theorem attempting_of_owns (h : total owns (next : Multiset Activity) = 0)
    : ∀ activity ∈ next, Attempting system activity := by
  rintro activity hmem attempt stage rfl
  have hown : attempt.ticket ∈ total owns (next : Multiset Activity) :=
    mem_total (Multiset.mem_singleton_self _) (Multiset.mem_coe.mpr hmem)
  rw [h] at hown
  cases hown

theorem ReserveMove.attempting (h : ReserveMove config system activity system' next)
    : ∀ activity' ∈ next, Attempting system' activity' := by
  cases h with
  | spend | allocateRuntime =>
      exact attempting_attempt (by simp [AllocationAttempt.Filled, AllocationAttempt.charge]) rfl
  | allocate h =>
      refine attempting_attempt ?_ rfl
      simp [AllocationAttempt.Filled, AllocationAttempt.charge, BudgetSystem.newTicket,
        BudgetSystem.setManager]
  | @pressed _ _ reservation _ h => cases reservation <;> exact attempting_of_owns rfl
  | @drop reservation _ h | @dropFailed reservation _ h =>
      obtain ⟨_, promise, _, _⟩ := reservation
      cases promise <;> exact attempting_of_owns rfl
  | _ => exact attempting_of_owns rfl

theorem AttemptMove.attempting (h : AttemptMove system activity system' next)
    (hattempting : Attempting system activity)
    : ∀ activity' ∈ next, Attempting system' activity' := by
  cases h with
  | fail =>
      obtain ⟨hfilled, hshaped⟩ := hattempting _ _ rfl
      exact attempting_attempt trivial hshaped
  | native hroute =>
      obtain ⟨hfilled, hshaped⟩ := hattempting _ _ rfl
      exact attempting_attempt hfilled (.inr hshaped)
  | overdrawn =>
      obtain ⟨hfilled, hshaped⟩ := hattempting _ _ rfl
      exact attempting_attempt trivial hshaped
  | take hroute howner hreservation hfree h =>
      obtain ⟨⟨hacquired, hcharge, hresource⟩, hshaped⟩ := hattempting _ _ rfl
      obtain ⟨-, -, rfl, -⟩ := takePromise_ok h
      refine attempting_attempt ⟨hacquired, ?_, hresource⟩ ⟨hroute, Nat.zero_le _⟩
      rw [hcharge]
      simp [AllocationAttempt.charge, howner]
  | lock hroute howner hfree =>
      obtain ⟨hfilled, hshaped⟩ := hattempting _ _ rfl
      exact attempting_attempt hfilled ⟨hroute, Nat.zero_le _⟩
  | accept hlevel h =>
      obtain ⟨hfilled, hshaped⟩ := hattempting _ _ rfl
      exact attempting_attempt hfilled ⟨hshaped.1, hlevel⟩
  | retry hlevel h =>
      obtain ⟨hfilled, hshaped⟩ := hattempting _ _ rfl
      exact attempting_attempt hfilled hshaped
  | reject hlevel h =>
      obtain ⟨hfilled, hshaped⟩ := hattempting _ _ rfl
      refine attempting_attempt trivial ⟨.inl hshaped.1, ?_⟩
      simpa [hshaped.1] using hshaped.2
  | unwindReap =>
      obtain ⟨hfilled, hshaped⟩ := hattempting _ _ rfl
      refine attempting_attempt trivial ⟨.inl hshaped.1, ?_⟩
      simpa [hshaped.1] using hshaped.2
  | enter =>
      obtain ⟨hfilled, hshaped⟩ := hattempting _ _ rfl
      exact attempting_attempt hfilled (.inl hshaped.1)
  | attach hroute h =>
      obtain ⟨⟨hacquired, hcharge, hresource⟩, hshaped⟩ := hattempting _ _ rfl
      rw [attachResource_ok h]
      refine attempting_attempt ?_ hroute
      rw [setTicket_self]
      exact ⟨hacquired, hcharge, rfl⟩
  | @refuse attempt stage hstage =>
      obtain ⟨hfilled, hshaped⟩ := hattempting _ _ rfl
      refine attempting_attempt trivial ⟨?_, le_refl _⟩
      rcases hstage with rfl | rfl
      · exact hshaped
      · exact .inl hshaped
  | @acquire attempt stage hstage =>
      obtain ⟨hfilled, hshaped⟩ := hattempting _ _ rfl
      refine attempting_attempt ?_ ?_
      · rw [setTicket_self]
        exact rfl
      · rcases hstage with rfl | ⟨rfl, -⟩
        · exact .inl hshaped
        · exact hshaped
  | publish h =>
      obtain ⟨hfilled, hshaped⟩ := hattempting _ _ rfl
      refine attempting_attempt trivial ⟨hshaped, ?_⟩
      simp only [AllocationAttempt.levels, (publish_same h).depth]
      exact le_refl _
  | refund =>
      obtain ⟨hfilled, hshaped⟩ := hattempting _ _ rfl
      exact attempting_attempt trivial ⟨hshaped.1, (Nat.le_succ _).trans hshaped.2⟩
  | returnPromise hpromised howner hreservation h => exact attempting_attempt trivial rfl
  | unlock hpromised hroute => exact attempting_attempt trivial hpromised
  | leave hroute =>
      obtain ⟨hfilled, hshaped⟩ := hattempting _ _ rfl
      refine attempting_attempt trivial (hshaped.1.resolve_left ?_)
      simp [hroute]
  | @settled attempt hacquired =>
      obtain ⟨owner, _, _, _, _, _⟩ := attempt
      cases owner <;> exact attempting_of_owns rfl
  | restoreToken | restoreManager | restoreFailed | uncharged => exact attempting_of_owns rfl

-- Every run

/-- The attempts in flight own different tickets, each filled in as far as the attempt has come;
a release works on an acquired ticket.
-/
structure TicketsHeld (world : World BudgetSystem Activity) : Prop where
  nodup : (total owns world.activities).Nodup
  lt : ∀ id ∈ total owns world.activities, id < world.shared.ticketCount
  attempting : ∀ activity ∈ world.activities, Attempting world.shared activity
  completing : ∀ activity ∈ world.activities, Completing world.shared activity

theorem TicketsHeld.zero (system : BudgetSystem) : TicketsHeld ⟨system, 0⟩ := by
  constructor <;> simp

/-- An activity that starts owns nothing yet. -/
theorem Entry.owns_eq (h : Entry activity) : owns activity = 0 := by
  cases h <;> rfl

theorem TicketsHeld.start (h : TicketsHeld ⟨system, others⟩) (hentry : Entry activity)
    : TicketsHeld ⟨system, activity ::ₘ others⟩ := by
  have htotal : total owns (activity ::ₘ others) = total owns others :=
    total_start hentry.owns_eq
  refine ⟨?_, ?_, ?_, ?_⟩
  · rw [htotal]
    exact h.nodup
  · rw [htotal]
    exact h.lt
  · intro other hother
    rcases Multiset.mem_cons.mp hother with rfl | hold
    · rintro attempt stage rfl
      cases hentry
    · exact h.attempting other hold
  · intro other hother
    rcases Multiset.mem_cons.mp hother with rfl | hold
    · rintro id stage rfl hstage
      cases hentry
      exact absurd rfl hstage
    · exact h.completing other hold

/-- The owner of a ticket is alone with it. -/
theorem TicketsHeld.not_mem (h : TicketsHeld ⟨system, activity ::ₘ others⟩) {id : TicketId}
    (hid : id ∈ total owns others)
    : id ∉ owns activity := by
  have hnodup := h.nodup
  rw [total_cons] at hnodup
  intro hmine
  exact Multiset.disjoint_left.mp (Multiset.nodup_add.mp hnodup).2.2 hmine hid

/-- What the others own is kept by a section. -/
theorem TicketsHeld.kept (h : TicketsHeld ⟨system, activity ::ₘ others⟩)
    (hmove : Move config system activity system' next) {id : TicketId}
    (hid : id ∈ total owns others)
    : TicketKept (system.tickets id) (system'.tickets id) := by
  refine hmove.kept (h.completing _ (Multiset.mem_cons_self _ _)) ?_ (h.not_mem hid)
  refine h.lt id ?_
  rw [total_cons]
  exact Multiset.mem_add.mpr (.inr hid)

/-- An acquired ticket stays acquired. -/
theorem TicketsHeld.acquired (h : TicketsHeld ⟨system, activity ::ₘ others⟩)
    (hmove : Move config system activity system' next) {id : TicketId}
    (hid : id < system.ticketCount) (hacquired : (system.tickets id).acquired = true)
    : (system'.tickets id).acquired = true := by
  by_cases howns : id ∈ owns activity
  · have hattempting := h.attempting _ (Multiset.mem_cons_self _ _)
    cases hmove with
    | reserve hmove => cases hmove <;> cases howns
    | release hmove => cases hmove <;> cases howns
    | attempt hmove =>
        cases hmove with
        | take hroute howner hreservation hfree h =>
            obtain ⟨-, -, rfl, -⟩ := takePromise_ok h
            exact hacquired
        | attach hroute h =>
            obtain ⟨⟨hnot, -, -⟩, -⟩ := hattempting _ _ rfl
            cases Multiset.mem_singleton.mp howns
            rw [hnot] at hacquired
            cases hacquired
        | acquire hstage =>
            cases Multiset.mem_singleton.mp howns
            rw [setTicket_self]
        | publish h => exact ((publish_same h).acquired id).trans hacquired
        | returnPromise hpromised howner hreservation h =>
            obtain ⟨rfl, -⟩ := returnPromise_ok h
            exact hacquired
        | _ => exact hacquired
  · have hkept := hmove.kept (h.completing _ (Multiset.mem_cons_self _ _)) hid howns
    exact hkept.acquired.trans hacquired

theorem Move.ticketCount_le (h : Move config system activity system' next)
    : system.ticketCount ≤ system'.ticketCount := by
  rcases h.owns_cases with ⟨heq, -⟩ | ⟨heq, -, -⟩ <;> omega

/-- What a release hands on has the ticket it was given. -/
theorem Move.completing (h : Move config system activity system' next)
    (hcompleting : Completing system activity)
    : ∀ activity' ∈ next, ∀ id stage, activity' = .complete id stage → stage ≠ .confirm
      → id < system.ticketCount ∧ (system.tickets id).acquired = true := by
  rintro activity' hmem id stage rfl hstage
  cases h with
  | reserve h =>
      cases h with
      | @pressed _ _ reservation _ h => cases reservation <;> simp [afterToken] at hmem
      | @drop reservation _ h | @dropFailed reservation _ h =>
          obtain ⟨_, promise, _, _⟩ := reservation
          cases promise <;> simp [afterToken] at hmem
      | _ => simp at hmem
  | attempt h =>
      cases h with
      | @settled attempt hacquired =>
          obtain ⟨owner, _, _, _, _, _⟩ := attempt
          cases owner <;> simp [AttemptOwner.next] at hmem
      | _ => simp at hmem
  | release h =>
      rcases h.cases.2 with rfl | ⟨other, before, after, rfl, rfl, hconfirm⟩
      · simp at hmem
      · cases List.mem_singleton.mp hmem
        by_cases hbefore : before = .confirm
        · exact hconfirm hbefore
        · exact hcompleting _ _ rfl hbefore

theorem Move.attempting (h : Move config system activity system' next)
    (hattempting : Attempting system activity)
    : ∀ activity' ∈ next, Attempting system' activity' := by
  cases h with
  | reserve h => exact h.attempting
  | attempt h => exact h.attempting hattempting
  | release h =>
      refine attempting_of_owns ?_
      rcases h.cases.2 with rfl | ⟨id, stage, stage', -, rfl, -⟩ <;> rfl

theorem TicketsHeld.move (h : TicketsHeld ⟨system, activity ::ₘ others⟩)
    (hmove : Move config system activity system' next)
    : TicketsHeld ⟨system', next + others⟩ := by
  have hnodup : (owns activity + total owns others).Nodup := by
    rw [← total_cons]
    exact h.nodup
  have hlt : ∀ id ∈ owns activity + total owns others, id < system.ticketCount := by
    rw [← total_cons]
    exact h.lt
  refine ⟨?_, ?_, ?_, ?_⟩
  · rw [total_add]
    rcases hmove.owns_cases with ⟨-, hle⟩ | ⟨-, -, hnew⟩
    · exact Multiset.nodup_of_le (by gcongr) hnodup
    · rw [hnew, Multiset.singleton_add, Multiset.nodup_cons]
      refine ⟨?_, (Multiset.nodup_add.mp hnodup).2.1⟩
      intro hmem
      exact lt_irrefl _ (hlt _ (Multiset.mem_add.mpr (.inr hmem)))
  · intro id hid
    rw [total_add] at hid
    rcases hmove.owns_cases with ⟨heq, hle⟩ | ⟨heq, -, hnew⟩
    · refine lt_of_lt_of_eq (hlt id ?_) heq.symm
      exact Multiset.mem_of_le (by gcongr) hid
    · rw [hnew] at hid
      refine lt_of_lt_of_eq (Nat.lt_succ_of_le ?_) heq.symm
      rcases Multiset.mem_add.mp hid with hmine | hrest
      · exact (Multiset.mem_singleton.mp hmine).le
      · exact (hlt id (Multiset.mem_add.mpr (.inr hrest))).le
  · intro other hother
    rcases Multiset.mem_add.mp hother with hnext | hold
    · exact hmove.attempting (h.attempting _ (Multiset.mem_cons_self _ _)) other
        (Multiset.mem_coe.mp hnext)
    · rintro attempt stage rfl
      obtain ⟨hfilled, hshaped⟩
        := h.attempting _ (Multiset.mem_cons_of_mem hold) attempt stage rfl
      have hown : attempt.ticket ∈ total owns others :=
        mem_total (Multiset.mem_singleton_self _) hold
      exact ⟨hfilled.kept (h.kept hmove hown), hmove.depth ▸ hshaped⟩
  · intro other hother id stage heq hstage
    have hbefore : id < system.ticketCount ∧ (system.tickets id).acquired = true := by
      rcases Multiset.mem_add.mp hother with hnext | hold
      · exact hmove.completing (h.completing _ (Multiset.mem_cons_self _ _)) other
          (Multiset.mem_coe.mp hnext) id stage heq hstage
      · exact h.completing other (Multiset.mem_cons_of_mem hold) id stage heq hstage
    exact ⟨lt_of_lt_of_le hbefore.1 hmove.ticketCount_le, h.acquired hmove hbefore.1 hbefore.2⟩

end Xlog.Cuda.MemoryBudget
