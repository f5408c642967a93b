import Xlog.Cuda.MemoryBudgetTokens

/-! In every interleaving the three ledgers count the same bytes in the same places. No byte is
counted twice or left behind, the limits hold, and a token is never refused what it reserved.
-/

namespace Xlog.Cuda.MemoryBudget

open Xlog.Core Xlog.Foundation

variable {config : ManagerId → ManagerConfig} {system system' initial : BudgetSystem}
  {activity : Activity} {next : List Activity} {others : Multiset Activity}
  {world : World BudgetSystem Activity}

-- Construction

/-- A budget counts its attempts in flight, the acquired storage and what was reclaimed. -/
structure Counted (level : Nat) (world : World BudgetSystem Activity) : Prop where
  baseline
    : (world.shared.budgets level).baselineReclaimed ≤ world.shared.accounting.totalReclaimed
  counted
    : (world.shared.budgets level).admittedTotal
          + (world.shared.budgets level).baselineReclaimed
        = total (admitted world.shared.depth level world.shared.acquired) world.activities
          + ticketSum acquiredResource world.shared + world.shared.accounting.totalReclaimed

/-- Before the first request. Storage may be live already: the managers and the resource count
it, and the outermost budget was built over the resource, maybe over other budgets.
-/
structure Constructed (config : ManagerId → ManagerConfig) (system : BudgetSystem) : Prop where
  free : system.promiseHeld = false
  unpromised : system.reservationBytes = 0
  reserved
    : ∀ manager,
        (system.managers manager).budgetReserved = ticketSum (acquiredCharge manager) system
  deviceBytes
    : ∀ manager, (system.managers manager).budgetReserved ≤ (config manager).deviceBytes
  outstanding : system.accounting.outstanding = ticketSum acquiredResource system
  outermost
    : 0 < system.depth
      → system.budgets 0 = .new system.accounting (system.budgets 0).limit
  inner : ∀ level, 0 < level → level < system.depth → Counted level ⟨system, 0⟩

/-- A new budget counts what is live in the resource. -/
theorem counted_new {level : Nat} {limit : Nat}
    (houtstanding : system.accounting.outstanding = ticketSum acquiredResource system)
    (hnew : system.budgets level = .new system.accounting limit)
    : Counted level ⟨system, 0⟩ := by
  refine ⟨?_, ?_⟩
  · simp [hnew, GlobalDeviceBudget.new]
  · simp [hnew, GlobalDeviceBudget.new, houtstanding]

theorem Constructed.counted (h : Constructed config system) {level : Nat}
    (hlevel : level < system.depth)
    : Counted level ⟨system, 0⟩ := by
  rcases Nat.eq_zero_or_pos level with rfl | hpos
  · exact counted_new h.outstanding (h.outermost hlevel)
  · exact h.inner level hpos hlevel

-- The invariant

/-- All ledgers together, over the activities under way. -/
structure Accounted (config : ManagerId → ManagerConfig) (initial : BudgetSystem)
    (world : World BudgetSystem Activity) : Prop where
  tickets : TicketsHeld world
  reserved
    : ∀ manager,
        (world.shared.managers manager).budgetReserved
          = total (unspent manager) world.activities
            + total (unacquired manager world.shared.acquired) world.activities
            + ticketSum (acquiredCharge manager) world.shared
  deviceBytes
    : ∀ manager, (world.shared.managers manager).budgetReserved ≤ (config manager).deviceBytes
  counted : ∀ level < world.shared.depth, Counted level world
  promised : world.shared.reservationBytes = total promisedBytes world.activities
  lock : world.shared.promiseHeld.toNat = total locking world.activities
  backed : ∀ activity ∈ world.activities, Backed config world.shared activity
  pressed : ∀ activity ∈ world.activities, Pressed world.shared activity
  depth : world.shared.depth = initial.depth
  limit : ∀ level, (world.shared.budgets level).limit = (initial.budgets level).limit
  within : ∀ level, Within level initial → Within level world.shared
  outer
    : 0 < world.shared.depth → Within 0 initial
      → world.shared.outerLoad
            + total (owed world.shared.depth world.shared.acquired) world.activities
          ≤ world.shared.outerRoom

theorem Constructed.accounted (h : Constructed config system)
    : Accounted config system ⟨system, 0⟩ where
  tickets := .zero system
  reserved manager := by simpa using h.reserved manager
  deviceBytes := h.deviceBytes
  counted _ hlevel := h.counted hlevel
  promised := h.unpromised
  lock := by simp [h.free]
  backed := by simp
  pressed := by simp
  depth := rfl
  limit _ := rfl
  within _ h := h
  outer _ hwithin := by
    simp only [BudgetSystem.outerLoad, BudgetSystem.outerRoom, h.unpromised, total_zero]
    exact hwithin

/-- What starts has no bytes yet. -/
theorem Accounted.start (h : Accounted config initial ⟨system, others⟩) (hentry : Entry activity)
    : Accounted config initial ⟨system, activity ::ₘ others⟩ := by
  have hown : owns activity = 0 := hentry.owns_eq
  refine ⟨h.tickets.start hentry, ?_, h.deviceBytes, ?_, ?_, ?_, ?_, ?_, h.depth, h.limit,
    h.within, ?_⟩
  · intro manager
    have hunspent : unspent manager activity = 0 := by
      cases hentry <;> rfl
    have hunacquired : unacquired manager system.acquired activity = 0 := by
      cases hentry <;> rfl
    rw [total_start hunspent, total_start hunacquired]
    exact h.reserved manager
  · intro level hlevel
    obtain ⟨hbaseline, hcounted⟩ := h.counted level hlevel
    refine ⟨hbaseline, ?_⟩
    rw [total_start (admitted_of_owns _ hown)]
    exact hcounted
  · have hpromised : promisedBytes activity = 0 := by
      cases hentry <;> rfl
    rw [total_start hpromised]
    exact h.promised
  · rw [total_start (locking_of_owns hown)]
    exact h.lock
  · intro other hother
    rcases Multiset.mem_cons.mp hother with rfl | hold
    · cases hentry <;> trivial
    · exact h.backed other hold
  · intro other hother
    rcases Multiset.mem_cons.mp hother with rfl | hold
    · rintro attempt level retried rfl
      cases hentry
    · exact h.pressed other hold
  · intro hdepth hwithin
    rw [total_start (owed_of_owns _ hown)]
    exact h.outer hdepth hwithin

-- One section

/-- A manager takes up what fits into its device bytes only. -/
theorem Move.deviceBytes (h : Move config system activity system' next)
    (hbefore
      : ∀ manager, (system.managers manager).budgetReserved ≤ (config manager).deviceBytes)
    (manager : ManagerId)
    : (system'.managers manager).budgetReserved ≤ (config manager).deviceBytes := by
  have hset {other : ManagerId} {accounting : GpuMemoryAccounting}
      (hother : accounting.budgetReserved ≤ (config other).deviceBytes)
      : ((system.setManager other accounting).managers manager).budgetReserved
        ≤ (config manager).deviceBytes := by
    rw [budgetReserved_setManager]
    split_ifs with heq
    · exact heq ▸ hother
    · exact hbefore manager
  cases h with
  | reserve h =>
      cases h with
      | promised hruntime hfree h =>
          obtain ⟨reserved, -, -, -, -, rfl⟩ := reserveMemory_ok h
          exact hbefore manager
      | reserved h | allocate h =>
          obtain ⟨hle, heq⟩ := reserveLocalBytes_ok h
          exact hset (heq ▸ hle)
      | drop h =>
          obtain ⟨-, heq⟩ := releaseReserved_ok h
          exact hset (heq ▸ (Nat.sub_le _ _).trans (hbefore _))
      | _ => exact hbefore manager
  | attempt h =>
      cases h with
      | take hroute howner hreservation hfree h =>
          obtain ⟨-, -, rfl, -⟩ := takePromise_ok h
          exact hbefore manager
      | attach hroute h =>
          rw [attachResource_ok h]
          exact hbefore manager
      | publish h =>
          rw [(publish_same h).budgetReserved]
          exact hbefore manager
      | returnPromise hpromised howner hreservation h =>
          obtain ⟨rfl, -⟩ := returnPromise_ok h
          exact hbefore manager
      | restoreManager hacquired howner h =>
          obtain ⟨-, heq⟩ := releaseReserved_ok h
          exact hset (heq ▸ (Nat.sub_le _ _).trans (hbefore _))
      | _ => exact hbefore manager
  | release h =>
      rcases h.cases.1 with hsame | ⟨id, -, hsettle⟩ | ⟨id, -, hsettle⟩
      · rw [hsame.budgetReserved]
        exact hbefore manager
      · rcases settleLocal_ok hsettle with ⟨-, rfl⟩ | ⟨_, _, -, -, heq, rfl⟩
        · exact hbefore manager
        · exact hset (heq ▸ (Nat.sub_le _ _).trans (hbefore _))
      · rcases settleResource_ok hsettle with ⟨-, rfl⟩ | ⟨_, _, -, -, rfl⟩ <;>
          exact hbefore manager

theorem Move.localMoved (h : Move config system activity system' next)
    (hattempting : Attempting system activity) (hcompleting : Completing system activity)
    (hlt : ∀ id ∈ MemoryBudget.owns activity, id < system.ticketCount)
    (hcovered : LocalCovered system activity) (manager : ManagerId)
    : LocalMoved manager system activity system' next := by
  cases h with
  | reserve h => exact h.localMoved hcovered manager
  | attempt h => exact h.localMoved hattempting hlt hcovered manager
  | release h => exact h.localMoved hcompleting manager

/-- The lock leaves at most one attempt under way. -/
theorem Accounted.unlocked (h : Accounted config initial ⟨system, activity ::ₘ others⟩)
    (hlock : system.promiseHeld = false ∨ locking activity = 1)
    : ∀ other ∈ others, locking other = 0 := by
  have htotal := h.lock
  rw [total_cons] at htotal
  have hzero : total locking others = 0 := by
    have hone := Bool.toNat_le system.promiseHeld
    rcases hlock with hfree | hmine
    · simp only [hfree, Bool.toNat_false] at htotal
      omega
    · simp only [hmine] at htotal
      omega
  intro other hother
  exact eq_zero_of_total hzero hother

theorem Accounted.owed_others (h : Accounted config initial ⟨system, activity ::ₘ others⟩)
    (hlock : system.promiseHeld = false ∨ locking activity = 1)
    : total (owed system.depth system.acquired) others = 0 := by
  refine Multiset.sum_eq_zero fun bytes hbytes => ?_
  obtain ⟨other, hother, rfl⟩ := Multiset.mem_map.mp hbytes
  exact owed_of_unlocked (h.tickets.attempting other (Multiset.mem_cons_of_mem hother))
    (h.unlocked hlock other hother) _

/-- An attempt that is being admitted has the lock. -/
theorem locking_admitting {attempt : AllocationAttempt} {level : Nat} {retried : Bool}
    (h : Attempting system (.attempt attempt (.admitting level retried)))
    : locking (.attempt attempt (.admitting level retried)) = 1 := by
  obtain ⟨-, hshaped⟩ := h _ _ rfl
  simp [locking, AttemptStage.guarded, hshaped.1]

theorem Accounted.move (h : Accounted config initial ⟨system, activity ::ₘ others⟩)
    (hmove : Move config system activity system' next)
    : Accounted config initial ⟨system', next + others⟩ := by
  have hmem : activity ∈ activity ::ₘ others := Multiset.mem_cons_self _ _
  have hattempting := h.tickets.attempting activity hmem
  have hcompleting := h.tickets.completing activity hmem
  have hlt : ∀ id ∈ owns activity, id < system.ticketCount := by
    intro id hid
    exact h.tickets.lt id (mem_total hid hmem)
  have hdepth : system'.depth = system.depth := hmove.depth
  have hadmitted {level : Nat} (hlevel : level < system.depth)
      : admitted system.depth level system.acquired activity
        ≤ (system.budgets level).admittedTotal := by
    obtain ⟨hbaseline, hcounted⟩ := h.counted level hlevel
    simp only [total_cons] at hbaseline hcounted
    omega
  refine ⟨h.tickets.move hmove, ?_, hmove.deviceBytes h.deviceBytes, ?_, ?_, ?_, ?_, ?_,
    hdepth.trans h.depth, ?_, ?_, ?_⟩
  · intro manager
    have hcovered : LocalCovered system activity := by
      intro other
      have hreserved := h.reserved other
      simp only [total_cons] at hreserved
      omega
    have hmoved := hmove.localMoved hattempting hcompleting hlt hcovered manager
    have hreserved := h.reserved manager
    have hothers := h.tickets.total_eq hmove (unacquired_readsOwn manager)
    unfold LocalMoved at hmoved
    simp only [total_cons] at hreserved
    simp only [total_add]
    omega
  · intro level hlevel
    rw [hdepth] at hlevel
    obtain ⟨hbaseline, hcounted⟩ := h.counted level hlevel
    have hmoved := hmove.budgetMoved hattempting hcompleting hlt hlevel (hadmitted hlevel)
    have hothers := h.tickets.total_eq hmove (admitted_readsOwn system.depth level)
    have hkept := hmove.budgetKept level
    refine ⟨?_, ?_⟩
    · rw [hkept.baseline]
      exact hbaseline.trans hmove.totalReclaimed_le
    · unfold BudgetMoved at hmoved
      simp only [total_cons] at hcounted
      simp only [total_add, hdepth]
      omega
  · have hpromised := h.promised
    simp only [total_cons] at hpromised
    have hmoved := hmove.promiseMoved (by omega)
    unfold PromiseMoved at hmoved
    simp only [total_add]
    omega
  · have hlock := h.lock
    simp only [total_cons] at hlock
    have hmoved := hmove.lockMoved hattempting (by omega)
    unfold LockMoved at hmoved
    simp only [total_add]
    omega
  · intro other hother
    rcases Multiset.mem_add.mp hother with hnext | hold
    · exact hmove.backed hattempting (h.backed activity hmem) other (Multiset.mem_coe.mp hnext)
    · refine (h.backed other (Multiset.mem_cons_of_mem hold)).kept fun id hid => ?_
      exact (h.tickets.kept hmove (mem_total hid hold)).acquired
  · intro other hother
    rcases Multiset.mem_add.mp hother with hnext | hold
    · exact hmove.pressed (h.pressed activity hmem) other (Multiset.mem_coe.mp hnext)
    · rintro attempt level retried rfl
      have hbefore := h.pressed _ (Multiset.mem_cons_of_mem hold) attempt level retried rfl
      rcases hmove.reservationBytes_eq hattempting with hsame | hlock
      · exact hbefore.trans hsame.symm
      · have hzero := h.unlocked hlock _ hold
        rw [locking_admitting (h.tickets.attempting _ (Multiset.mem_cons_of_mem hold))] at hzero
        cases hzero
  · intro level
    exact (hmove.budgetKept level).limit.trans (h.limit level)
  · intro level hwithin
    exact hmove.within (h.within level hwithin)
  · intro hpos hwithin
    rw [hdepth] at hpos ⊢
    have houter := h.outer hpos hwithin
    simp only [total_cons] at houter
    have hothers := h.tickets.total_eq hmove (owed_readsOwn system.depth)
    rw [total_add, hothers]
    exact hmove.outer_within hattempting (h.pressed activity hmem) h.owed_others
      (hadmitted hpos) houter

/-- Every reachable world is accounted for. -/
theorem accounted_of_reachable (hinitial : Constructed config initial)
    (h : (allocations config).Reachable initial world)
    : Accounted config initial world :=
  h.invariant hinitial.accounted (fun _ _ _ hworld hentry => hworld.start hentry)
    (fun _ _ _ _ _ _ hworld hmove => hworld.move hmove)

-- What the budgets promise

/-- The bytes reserved in a budget: attempts in flight and acquired storage. -/
def reservedIn (level : Nat) (world : World BudgetSystem Activity) : Nat :=
  total (admitted world.shared.depth level world.shared.acquired) world.activities
    + ticketSum acquiredResource world.shared

/-- The attempt was started by a token through the runtime. -/
def Materializes (attempt : AllocationAttempt) : Prop :=
  attempt.viaRuntime = true ∧ ∃ token, attempt.owner = .token token

/-- Where the bytes of a manager, of a budget and of the promises are, the limits they keep,
and what a token may rely on.
-/
structure BudgetsHonoured (config : ManagerId → ManagerConfig) (initial : BudgetSystem)
    (world : World BudgetSystem Activity) : Prop where
  manager
    : ∀ manager,
        (world.shared.managers manager).budgetReserved
          = total (unspent manager) world.activities
            + total (unacquired manager world.shared.acquired) world.activities
            + ticketSum (acquiredCharge manager) world.shared
        ∧ (world.shared.managers manager).budgetReserved ≤ (config manager).deviceBytes
  reserved
    : ∀ level < world.shared.depth,
        (world.shared.budgets level).reserved world.shared.accounting.totalReclaimed
          = if reservedIn level world ≤ usizeMax then .ok (reservedIn level world)
            else .error (.driver "global budget accounting overflow")
  limit
    : ∀ level < world.shared.depth, reservedIn level ⟨initial, 0⟩ ≤ (initial.budgets level).limit
      → reservedIn level world ≤ (initial.budgets level).limit
  promised : world.shared.reservationBytes = total promisedBytes world.activities
  outermost
    : 0 < world.shared.depth → reservedIn 0 ⟨initial, 0⟩ ≤ (initial.budgets 0).limit
      → reservedIn 0 world + world.shared.reservationBytes ≤ (initial.budgets 0).limit
  token
    : ∀ token, .token token ∈ world.activities
      → ∀ reservation, token.runtimeReservation = some reservation
      → reservation.remainingBytes = token.remainingBytes
  taken
    : ∀ attempt, .attempt attempt .start ∈ world.activities → Materializes attempt
      → ∃ token reservation taken,
          attempt.owner = .token token ∧ token.runtimeReservation = some reservation
          ∧ world.shared.takePromise reservation attempt.bytes = .ok taken
  admitted
    : reservedIn 0 ⟨initial, 0⟩ ≤ (initial.budgets 0).limit
      → (initial.budgets 0).limit ≤ usizeMax
      → ∀ attempt retried, .attempt attempt (.admitting 0 retried) ∈ world.activities
      → Materializes attempt → 0 < world.shared.depth
      → (world.shared.budgets 0).admittedTotal + attempt.bytes ≤ u128Max
      → ∃ budget,
          (world.shared.budgets 0).allocateWithPressure world.shared.accounting.totalReclaimed
            attempt.bytes attempt.pressure retried = .ok (some budget)

theorem reserved_eq {budget : GlobalDeviceBudget} {totalReclaimed reserved : Nat}
    (hbaseline : budget.baselineReclaimed ≤ totalReclaimed)
    (hcounted : budget.admittedTotal + budget.baselineReclaimed = reserved + totalReclaimed)
    : budget.reserved totalReclaimed
      = if reserved ≤ usizeMax then .ok reserved
        else .error (.driver "global budget accounting overflow") := by
  split_ifs with hmax
  · exact reserved_ok.mpr ⟨hbaseline, hcounted.symm, hmax⟩
  · unfold GlobalDeviceBudget.reserved
    have hreclaimed {error : String}
        : checkedSub totalReclaimed budget.baselineReclaimed error
          = .ok (totalReclaimed - budget.baselineReclaimed) :=
      checkedSub_ok.mpr ⟨hbaseline, rfl⟩
    have hreserved {error : String}
        : checkedSub budget.admittedTotal (totalReclaimed - budget.baselineReclaimed) error
          = .ok reserved :=
      checkedSub_ok.mpr ⟨by omega, by omega⟩
    rw [hreclaimed, ok_bind, hreserved, ok_bind, if_neg hmax]
    rfl

/-- At construction a budget is within its limit if what it has reserved is. -/
theorem Constructed.within (h : Constructed config initial) {level : Nat}
    (hlevel : level < initial.depth)
    (hlimit : reservedIn level ⟨initial, 0⟩ ≤ (initial.budgets level).limit)
    : Within level initial := by
  obtain ⟨-, hcounted⟩ := h.counted hlevel
  unfold Within
  unfold reservedIn at hlimit
  dsimp only at hcounted hlimit
  omega

theorem Accounted.reserved_le (h : Accounted config initial world) {level : Nat}
    (hlevel : level < world.shared.depth) (hwithin : Within level initial)
    : reservedIn level world ≤ (initial.budgets level).limit := by
  obtain ⟨-, hcounted⟩ := h.counted level hlevel
  have hlimit := h.within level hwithin
  unfold Within at hlimit
  rw [h.limit] at hlimit
  unfold reservedIn
  omega

/-- What is reserved, promised and owed together, in the bytes themselves. -/
theorem Accounted.outer_le (h : Accounted config initial world) (hdepth : 0 < world.shared.depth)
    (hwithin : Within 0 initial)
    : reservedIn 0 world + world.shared.reservationBytes
          + total (owed world.shared.depth world.shared.acquired) world.activities
        ≤ (initial.budgets 0).limit := by
  obtain ⟨-, hcounted⟩ := h.counted 0 hdepth
  have houter := h.outer hdepth hwithin
  simp only [BudgetSystem.outerLoad, BudgetSystem.outerRoom, h.limit] at houter
  unfold reservedIn
  omega

/-- The request of a token has a promise that covers it. -/
theorem Accounted.taken (h : Accounted config initial world) {attempt : AllocationAttempt}
    (hmem : .attempt attempt .start ∈ world.activities) (hmaterializes : Materializes attempt)
    : ∃ token reservation taken,
        attempt.owner = .token token ∧ token.runtimeReservation = some reservation
        ∧ world.shared.takePromise reservation attempt.bytes = .ok taken := by
  obtain ⟨hroute, token, howner⟩ := hmaterializes
  have hbacked : attempt.Backed config .start (world.shared.acquired attempt.ticket) :=
    h.backed _ hmem
  have hruntime : (config token.manager).runtime = true := by
    have hrouted := hbacked.start token howner rfl
    simpa [Routed, hroute] using hrouted
  obtain ⟨reservation, hreservation⟩ := (hbacked.token token howner).promise hruntime
  obtain ⟨⟨hacquired, -, -⟩, hshaped⟩ := h.tickets.attempting _ hmem _ _ rfl
  have hremaining := (hbacked.token token howner).remaining reservation hreservation
  have hpromised : attempt.promised = false := hshaped
  simp only [AllocationAttempt.excess, hpromised, BudgetSystem.acquired, hacquired,
    Bool.false_eq_true, if_false, returned_false] at hremaining
  have hheld : promisedBytes (.attempt attempt .start) ≤ world.shared.reservationBytes := by
    rw [h.promised]
    exact le_total hmem
  simp only [promisedBytes, howner, AttemptOwner.ofToken, GpuMemoryReservation.promise,
    hreservation, Option.elim_some] at hheld
  exact ⟨token, reservation, _, howner, hreservation,
    takePromise_of_le (by omega) (by omega)⟩

/-- The outermost budget has room for the request of a token. -/
theorem Accounted.admitted (h : Accounted config initial world) (hwithin : Within 0 initial)
    (hmax : (initial.budgets 0).limit ≤ usizeMax) {attempt : AllocationAttempt} {retried : Bool}
    (hmem : .attempt attempt (.admitting 0 retried) ∈ world.activities)
    (hmaterializes : Materializes attempt) (hdepth : 0 < world.shared.depth)
    (hcounted : (world.shared.budgets 0).admittedTotal + attempt.bytes ≤ u128Max)
    : ∃ budget,
        (world.shared.budgets 0).allocateWithPressure world.shared.accounting.totalReclaimed
          attempt.bytes attempt.pressure retried = .ok (some budget) := by
  obtain ⟨hroute, token, howner⟩ := hmaterializes
  have hbacked
    : attempt.Backed config (.admitting 0 retried) (world.shared.acquired attempt.ticket) :=
    h.backed _ hmem
  have hpromised := hbacked.promised token howner rfl hroute
  obtain ⟨⟨hacquired, -, -⟩, -⟩ := h.tickets.attempting _ hmem _ _ rfl
  have howed
    : owed world.shared.depth world.shared.acquired (.attempt attempt (.admitting 0 retried))
      = attempt.bytes := by
    simp [owed, hpromised, AllocationAttempt.level, BudgetSystem.acquired, hacquired]
  have hmine
    : attempt.bytes
      ≤ total (owed world.shared.depth world.shared.acquired) world.activities :=
    howed.symm.trans_le (le_total hmem)
  have hbound := h.outer_le hdepth hwithin
  obtain ⟨hbaseline, hsum⟩ := h.counted 0 hdepth
  have hreserved
    : (world.shared.budgets 0).reserved world.shared.accounting.totalReclaimed
      = .ok (reservedIn 0 world) :=
    reserved_ok.mpr ⟨hbaseline, hsum.symm, by omega⟩
  have hpressure := h.pressed _ hmem _ _ _ rfl
  have hlimit := h.limit 0
  exact ⟨_, admit_of_le hreserved (by omega) (by omega) hcounted⟩

/-- The budgets are honoured in every world that some interleaving reaches. -/
theorem budgetsHonoured_of_reachable (hinitial : Constructed config initial)
    (h : (allocations config).Reachable initial world)
    : BudgetsHonoured config initial world := by
  have hworld := accounted_of_reachable hinitial h
  have hwithin {level : Nat} (hlevel : level < world.shared.depth)
      (hlimit : reservedIn level ⟨initial, 0⟩ ≤ (initial.budgets level).limit)
      : Within level initial :=
    hinitial.within (hworld.depth ▸ hlevel) hlimit
  refine ⟨?_, ?_, ?_, hworld.promised, ?_, ?_, ?_, ?_⟩
  · intro manager
    exact ⟨hworld.reserved manager, hworld.deviceBytes manager⟩
  · intro level hlevel
    obtain ⟨hbaseline, hcounted⟩ := hworld.counted level hlevel
    exact reserved_eq hbaseline hcounted
  · intro level hlevel hlimit
    exact hworld.reserved_le hlevel (hwithin hlevel hlimit)
  · intro hdepth hlimit
    exact (Nat.le_add_right _ _).trans (hworld.outer_le hdepth (hwithin hdepth hlimit))
  · intro token hmem reservation hreservation
    have hbacked : token.Backed config 0 := hworld.backed _ hmem
    exact hbacked.remaining reservation hreservation
  · intro attempt hmem hmaterializes
    exact hworld.taken hmem hmaterializes
  · intro hlimit hmax attempt retried hmem hmaterializes hdepth hcounted
    exact hworld.admitted (hwithin hdepth hlimit) hmax hmem hmaterializes hdepth hcounted

/-- A manager with a runtime under a new budget, and a token of it on its way through. -/
theorem budgetsHonoured_materializing
    : ∃ world : World BudgetSystem Activity,
        (∃ attempt, .attempt attempt (.admitting 0 false) ∈ world.activities
          ∧ Materializes attempt ∧ attempt.bytes = 8 ∧ world.shared.reservationBytes = 2)
        ∧ BudgetsHonoured (fun _ => ⟨100, true⟩)
            { depth := 1, budgets := fun _ => .new {} 100 } world := by
  have hinitial
    : Constructed (fun _ => ⟨100, true⟩)
        { depth := 1, budgets := fun _ => .new {} 100 } := by
    refine ⟨rfl, rfl, fun _ => rfl, fun _ => Nat.zero_le _, rfl, fun _ => rfl, ?_⟩
    intro level hpos hlevel
    exact absurd hlevel (Nat.not_lt.mpr hpos)
  have hcalled
    : (allocations (fun _ => ⟨100, true⟩)).Reachable
        { depth := 1, budgets := fun _ => .new {} 100 } ⟨_, .reserveBytes 0 10 ::ₘ 0⟩ :=
    ActivitySystem.Reachable.start .refl (.reserveBytes 0 10)
  have hpromised := hcalled.goOn (.reserve (.promised rfl rfl rfl))
  have hreserved := hpromised.goOn (.reserve (.reserved rfl))
  have hspent
    := hreserved.goOn (.reserve (@ReserveMove.spend _ _ _ 8 true (by decide) rfl))
  have htaken := hspent.goOn (.attempt (.take rfl rfl rfl rfl rfl))
  refine ⟨_, ?_, budgetsHonoured_of_reachable hinitial htaken⟩
  dsimp only
  exact ⟨_, Multiset.mem_cons_self _ _, ⟨rfl, _, rfl⟩, rfl, rfl⟩

/-- The promise lock is held by one guarded attempt or free. Once all activities are over, also
those that failed or unwound, nothing is locked, promised or charged but for what is allocated.
-/
structure PromiseLocked (world : World BudgetSystem Activity) : Prop where
  lock : total locking world.activities = world.shared.promiseHeld.toNat
  rest
    : (∀ activity ∈ world.activities, activity = .returned)
      → world.shared.promiseHeld = false ∧ world.shared.reservationBytes = 0
        ∧ ∀ manager, (world.shared.managers manager).budgetReserved
          = ticketSum (acquiredCharge manager) world.shared

theorem promiseLocked_of_reachable (hinitial : Constructed config initial)
    (h : (allocations config).Reachable initial world)
    : PromiseLocked world := by
  have hworld := accounted_of_reachable hinitial h
  refine ⟨hworld.lock.symm, fun hrest => ?_⟩
  refine ⟨?_, hworld.promised.trans (total_of_ended hrest rfl), fun manager => ?_⟩
  · exact Bool.toNat_eq_zero.mp (hworld.lock.trans (total_of_ended hrest rfl))
  · have hreserved := hworld.reserved manager
    rwa [total_of_ended hrest rfl, total_of_ended hrest rfl, Nat.zero_add, Nat.zero_add] at hreserved

/-- The runtime's own allocation under the lock. -/
theorem promiseLocked_of_reachable_allocating
    : ∃ world : World BudgetSystem Activity,
        world.shared.promiseHeld = true ∧ PromiseLocked world := by
  have hinitial : Constructed (fun _ => ⟨100, true⟩) {} :=
    ⟨rfl, rfl, fun _ => rfl, fun _ => Nat.zero_le _, rfl, fun _ => rfl,
      fun level _ hlevel => absurd hlevel (Nat.not_lt_zero level)⟩
  have hcalled : (allocations (fun _ => ⟨100, true⟩)).Reachable {} ⟨_, .allocateRuntime 10 ::ₘ 0⟩ :=
    ActivitySystem.Reachable.start .refl (.allocateRuntime 10)
  have hallocated := hcalled.goOn (.reserve .allocateRuntime)
  have hlocked := hallocated.goOn (.attempt (.lock rfl (fun _ _ howner => by cases howner) rfl))
  exact ⟨_, rfl, promiseLocked_of_reachable hinitial hlocked⟩

end Xlog.Cuda.MemoryBudget
