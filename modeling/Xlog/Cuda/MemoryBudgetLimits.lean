import Xlog.Cuda.MemoryBudgetPromises

/-! The limits of the budgets. A budget admits what fits beside its reserved bytes and the
pressure; for the outermost one the pressure is what the runtime has promised to others.
-/

namespace Xlog.Cuda.MemoryBudget

open Xlog.Core Xlog.Foundation

variable {config : ManagerId → ManagerConfig} {system system' : BudgetSystem}
  {activity : Activity} {next : List Activity} {others : Multiset Activity} {level : Nat}

-- One budget

/-- Only an admission or a refund touches a budget, each one budget at a time. -/
theorem Move.budgets_cases (h : Move config system activity system' next)
    : system'.budgets = system.budgets
      ∨ (∃ attempt other retried budget,
          activity = .attempt attempt (.admitting other retried) ∧ other < system.depth
          ∧ (system.budgets other).allocateWithPressure system.accounting.totalReclaimed
              attempt.bytes attempt.pressure retried = .ok (some budget)
          ∧ system' = system.setBudget other budget
          ∧ next = [.attempt attempt (.admitting (other + 1) false)])
      ∨ ∃ attempt other,
          activity = .attempt attempt (.refunding (other + 1))
          ∧ system'
            = system.setBudget other
                ((system.budgets other).refund attempt.bytes (system.acquired attempt.ticket))
          ∧ next = [.attempt attempt (.refunding other)] := by
  cases h with
  | reserve h =>
      cases h with
      | promised hruntime hfree h =>
          obtain ⟨reserved, -, -, -, -, rfl⟩ := reserveMemory_ok h
          exact .inl rfl
      | _ => exact .inl rfl
  | attempt h =>
      cases h with
      | take hroute howner hreservation hfree h =>
          obtain ⟨-, -, rfl, -⟩ := takePromise_ok h
          exact .inl rfl
      | accept hlevel h => exact .inr (.inl ⟨_, _, _, _, rfl, hlevel, h, rfl, rfl⟩)
      | attach hroute h =>
          rw [attachResource_ok h]
          exact .inl rfl
      | publish h => exact .inl (publish_same h).budgets
      | refund => exact .inr (.inr ⟨_, _, rfl, rfl, rfl⟩)
      | returnPromise hpromised howner hreservation h =>
          obtain ⟨rfl, -⟩ := returnPromise_ok h
          exact .inl rfl
      | _ => exact .inl rfl
  | release h =>
      refine .inl ?_
      rcases h.cases.1 with hsame | ⟨id, -, hsettle⟩ | ⟨id, -, hsettle⟩
      · exact hsame.budgets
      · rcases settleLocal_ok hsettle with ⟨-, rfl⟩ | ⟨_, _, -, -, -, rfl⟩ <;> rfl
      · rcases settleResource_ok hsettle with ⟨-, rfl⟩ | ⟨_, _, -, -, rfl⟩ <;> rfl

/-- Nothing reclaimed is taken back. -/
theorem Move.totalReclaimed_le (h : Move config system activity system' next)
    : system.accounting.totalReclaimed ≤ system'.accounting.totalReclaimed := by
  cases h with
  | reserve h =>
      cases h with
      | promised hruntime hfree h =>
          obtain ⟨reserved, -, -, -, -, rfl⟩ := reserveMemory_ok h
          exact le_refl _
      | _ => exact le_refl _
  | attempt h =>
      cases h with
      | take hroute howner hreservation hfree h =>
          obtain ⟨-, -, rfl, -⟩ := takePromise_ok h
          exact le_refl _
      | attach hroute h =>
          rw [attachResource_ok h]
          exact le_refl _
      | publish h => exact (publish_same h).totalReclaimed.ge
      | returnPromise hpromised howner hreservation h =>
          obtain ⟨rfl, -⟩ := returnPromise_ok h
          exact le_refl _
      | _ => exact le_refl _
  | release h =>
      rcases h.cases.1 with hsame | ⟨id, -, hsettle⟩ | ⟨id, -, hsettle⟩
      · exact hsame.totalReclaimed.ge
      · rcases settleLocal_ok hsettle with ⟨-, rfl⟩ | ⟨_, _, -, -, -, rfl⟩ <;> exact le_refl _
      · rcases settleResource_ok hsettle with ⟨-, rfl⟩ | ⟨_, accounting, -, htotal, rfl⟩
        · exact le_refl _
        · exact htotal.ge.trans' (Nat.le_add_right _ _)

/-- A budget keeps its limit and its baseline. -/
structure BudgetKept (level : Nat) (system system' : BudgetSystem) : Prop where
  limit : (system'.budgets level).limit = (system.budgets level).limit
  baseline
    : (system'.budgets level).baselineReclaimed = (system.budgets level).baselineReclaimed

theorem BudgetKept.of_setBudget {other : Nat} {budget : GlobalDeviceBudget}
    (hlimit : budget.limit = (system.budgets other).limit)
    (hbaseline : budget.baselineReclaimed = (system.budgets other).baselineReclaimed)
    : BudgetKept level system (system.setBudget other budget) := by
  rcases eq_or_ne level other with rfl | hne
  · refine ⟨?_, ?_⟩
    · rw [setBudget_self, hlimit]
    · rw [setBudget_self, hbaseline]
  · refine ⟨?_, ?_⟩ <;> rw [setBudget_of_ne _ _ _ hne]

theorem Move.budgetKept (h : Move config system activity system' next) (level : Nat)
    : BudgetKept level system system' := by
  rcases h.budgets_cases with
    hbudgets | ⟨attempt, other, retried, budget, -, -, hadmit, rfl, -⟩
      | ⟨attempt, other, -, rfl, -⟩
  · exact ⟨by rw [hbudgets], by rw [hbudgets]⟩
  · obtain ⟨reserved, -, -, rfl⟩ := admit_ok hadmit
    exact .of_setBudget rfl rfl
  · rw [refund_eq]
    exact .of_setBudget rfl rfl

/-- What is admitted beside the pressure fits, unless it is empty. -/
theorem admit_within {budget budget' : GlobalDeviceBudget}
    {totalReclaimed bytes pressure : Nat} {retried : Bool}
    (h : budget.allocateWithPressure totalReclaimed bytes pressure retried = .ok (some budget'))
    : budget' = { budget with admittedTotal := budget.admittedTotal + bytes }
      ∧ (bytes = 0
        ∨ budget.admittedTotal + budget.baselineReclaimed + pressure + bytes
          ≤ budget.limit + totalReclaimed) := by
  obtain ⟨reserved, hreserved, hremaining, rfl⟩ := admit_ok h
  obtain ⟨-, hsum, -⟩ := reserved_ok.mp hreserved
  exact ⟨rfl, by omega⟩

/-- The bytes reserved in a budget are at most its limit. -/
def Within (level : Nat) (system : BudgetSystem) : Prop :=
  (system.budgets level).admittedTotal + (system.budgets level).baselineReclaimed
    ≤ (system.budgets level).limit + system.accounting.totalReclaimed

/-- A section admits what fits, and keeps or refunds what is admitted. -/
theorem Move.within (h : Move config system activity system' next)
    (hwithin : Within level system)
    : Within level system' := by
  have hreclaimed := h.totalReclaimed_le
  unfold Within at hwithin ⊢
  rcases h.budgets_cases with
    hbudgets | ⟨attempt, other, retried, budget, -, -, hadmit, rfl, -⟩
      | ⟨attempt, other, -, rfl, -⟩
  · rw [hbudgets]
    omega
  · obtain ⟨rfl, hfits⟩ := admit_within hadmit
    rcases eq_or_ne level other with rfl | hne
    · rw [setBudget_self]
      dsimp only
      omega
    · rw [setBudget_of_ne _ _ _ hne]
      omega
  · rw [refund_eq] at hreclaimed ⊢
    rcases eq_or_ne level other with rfl | hne
    · rw [setBudget_self]
      dsimp only
      omega
    · rw [setBudget_of_ne _ _ _ hne]
      omega

-- The outermost budget and the promises

/-- The pressure of an attempt is what the runtime has promised to others. -/
def Pressed (system : BudgetSystem) (activity : Activity) : Prop :=
  ∀ attempt level retried, activity = .attempt attempt (.admitting level retried)
    → attempt.pressure = system.reservationBytes

/-- What the outermost budget and the promises take, in the terms of its counters. -/
def BudgetSystem.outerLoad (system : BudgetSystem) : Nat :=
  (system.budgets 0).admittedTotal + (system.budgets 0).baselineReclaimed
    + system.reservationBytes

def BudgetSystem.outerRoom (system : BudgetSystem) : Nat :=
  (system.budgets 0).limit + system.accounting.totalReclaimed

/-- Bytes are owed under the lock only. -/
theorem owed_of_unlocked (hattempting : Attempting system activity)
    (hunlocked : locking activity = 0) (acquired : TicketId → Bool)
    : owed system.depth acquired activity = 0 := by
  cases activity with
  | attempt attempt stage =>
      obtain ⟨-, hshaped⟩ := hattempting attempt stage rfl
      have hpromised : attempt.promised = false := by
        by_contra hpromised
        have htrue : attempt.promised = true := by simpa using hpromised
        cases stage <;>
          simp_all [AllocationAttempt.Shaped, locking, AttemptStage.guarded]
      simp [owed, hpromised]
  | _ => rfl

/-- Whatever moves no bytes between the promises and the attempt owes at most what it owed. -/
theorem owed_attempt_le {attempt attempt' : AllocationAttempt} {stage stage' : AttemptStage}
    {depth : Nat} {acquired acquired' : TicketId → Bool}
    (hpromised : attempt'.promised = attempt.promised)
    (hlevel : attempt'.level depth stage' = attempt.level depth stage)
    (hbytes : attempt'.bytes = attempt.bytes)
    (hacquired
      : acquired' attempt'.ticket = true
        ∨ acquired' attempt'.ticket = acquired attempt.ticket)
    : owed depth acquired' (.attempt attempt' stage')
      ≤ owed depth acquired (.attempt attempt stage) := by
  simp only [owed, hpromised, hlevel, hbytes]
  split_ifs with howed
  · rcases hacquired with hacquired | hacquired
    · rw [hacquired]
      exact Nat.zero_le _
    · rw [hacquired]
  · exact le_refl _

theorem owed_of_owns {acquired : TicketId → Bool} (depth : Nat) (h : owns activity = 0)
    : owed depth acquired activity = 0 := by
  cases activity with
  | attempt attempt stage => exact absurd h (Multiset.singleton_ne_zero _)
  | _ => rfl

/-- What a section does to the promises and to what is owed: it does not raise both together,
or it gives a promise that fits into the outermost budget.
-/
inductive PromiseStep (system : BudgetSystem) (activity : Activity) (system' : BudgetSystem)
    (next : List Activity) : Prop
  | keep
      (h
        : system'.reservationBytes
            + total (owed system.depth system'.acquired) (next : Multiset Activity)
          ≤ system.reservationBytes + owed system.depth system.acquired activity)
  | promise (hfree : system.promiseHeld = false)
      (hnext : total (owed system.depth system'.acquired) (next : Multiset Activity) = 0)
      (hfits : system'.outerLoad ≤ system'.outerRoom)

/-- An activity without a ticket owes nothing. -/
theorem PromiseStep.of_owns {activity' : Activity}
    (hbytes : system'.reservationBytes ≤ system.reservationBytes) (h : owns activity' = 0)
    : PromiseStep system activity system' [activity'] := by
  refine .keep ?_
  rw [Multiset.coe_singleton, total_singleton, owed_of_owns _ h]
  omega

theorem PromiseStep.of_attempt {attempt attempt' : AllocationAttempt}
    {stage stage' : AttemptStage}
    (hbytes : system'.reservationBytes = system.reservationBytes)
    (h
      : owed system.depth system'.acquired (.attempt attempt' stage')
        ≤ owed system.depth system.acquired (.attempt attempt stage))
    : PromiseStep system (.attempt attempt stage) system' [.attempt attempt' stage'] := by
  refine .keep ?_
  rw [Multiset.coe_singleton, total_singleton, hbytes]
  omega

theorem ReserveMove.promiseStep (h : ReserveMove config system activity system' next)
    : PromiseStep system activity system' next := by
  cases h with
  | @promised _ bytes _ reservation hruntime hfree h =>
      obtain ⟨reserved, -, hreserved, hfits, -, rfl⟩ := reserveMemory_ok h
      obtain ⟨-, hsum, -⟩ := reserved_ok.mp hreserved
      rcases Nat.eq_zero_or_pos bytes with rfl | hpos
      · exact .of_owns (le_refl _) rfl
      · refine .promise hfree rfl ?_
        simp only [BudgetSystem.outerLoad, BudgetSystem.outerRoom]
        omega
  | pressed | drop | dropFailed => exact .of_owns (le_refl _) (owns_afterToken _)
  | dropPromise => exact .of_owns (Nat.sub_le _ _) rfl
  | spend | allocate | allocateRuntime =>
      refine .keep (Nat.add_le_add (le_refl _) ?_)
      simp [owed]
  | _ => exact .of_owns (le_refl _) rfl

theorem AttemptMove.promiseStep (h : AttemptMove system activity system' next)
    (hattempting : Attempting system activity) (hbudgets : system'.budgets = system.budgets)
    (hcovered
      : admitted system.depth 0 system.acquired activity ≤ (system.budgets 0).admittedTotal)
    : PromiseStep system activity system' next := by
  cases h with
  | fail | overdrawn =>
      obtain ⟨-, hshaped⟩ := hattempting _ _ rfl
      exact .of_attempt rfl (owed_attempt_le rfl rfl rfl (.inr rfl))
  | native hroute =>
      refine .of_attempt rfl (owed_attempt_le rfl ?_ rfl (.inr rfl))
      simp [AllocationAttempt.level, hroute]
  | @take attempt _ _ _ _ hroute howner hreservation hfree h =>
      obtain ⟨-, hle, rfl, -⟩ := takePromise_ok h
      obtain ⟨⟨hacquired, -, -⟩, hshaped⟩ := hattempting _ _ rfl
      have hnot : system.acquired attempt.ticket = false := hacquired
      refine .keep ?_
      simp only [Multiset.coe_singleton, total_singleton, owed, AllocationAttempt.level]
      change system.reservationBytes - attempt.bytes
        + returned attempt.bytes (system.acquired attempt.ticket) ≤ _
      rw [hnot, returned_false]
      omega
  | lock | retry | reject | unwindReap =>
      exact .of_attempt rfl (owed_attempt_le rfl rfl rfl (.inr rfl))
  | @accept attempt other retried budget hlevel h =>
      obtain ⟨⟨hacquired, -, -⟩, hshaped⟩ := hattempting _ _ rfl
      refine .of_attempt rfl ?_
      have hnothing
        : owed system.depth (system.setBudget other budget).acquired
            (.attempt attempt (.admitting (other + 1) false)) = 0 := by
        simp [owed, AllocationAttempt.level]
      rw [hnothing]
      exact Nat.zero_le _
  | enter =>
      obtain ⟨-, hshaped⟩ := hattempting _ _ rfl
      refine .of_attempt rfl (owed_attempt_le rfl ?_ rfl (.inr rfl))
      simp [AllocationAttempt.level, hshaped.1]
  | attach hroute h =>
      rw [attachResource_ok h]
      exact .of_attempt rfl (owed_attempt_le rfl rfl rfl (.inr (setTicket_acquired _ _)))
  | refuse hstage =>
      refine .of_attempt rfl (owed_attempt_le rfl ?_ rfl (.inr rfl))
      rcases hstage with rfl | rfl <;> rfl
  | acquire hstage =>
      refine .of_attempt rfl (owed_attempt_le rfl ?_ rfl (.inl (setTicket_acquired _ _)))
      rcases hstage with rfl | ⟨rfl, -⟩ <;> rfl
  | publish h =>
      have hsame := publish_same h
      refine .of_attempt hsame.reservationBytes (owed_attempt_le rfl rfl rfl (.inr ?_))
      rw [hsame.acquired_eq]
  | @refund attempt other =>
      refine .of_attempt rfl ?_
      have hnothing
        : owed system.depth system.acquired (.attempt attempt (.refunding other)) = 0 := by
        by_cases howed : attempt.promised = true ∧ other = 0
        · obtain ⟨hpromised, rfl⟩ := howed
          have hsame := congrArg GlobalDeviceBudget.admittedTotal (congrFun hbudgets 0)
          rw [refund_eq, setBudget_self] at hsame
          dsimp only at hsame
          simp only [admitted, AllocationAttempt.level, Nat.lt_succ_self, if_true] at hcovered
          simp only [owed, AllocationAttempt.level, hpromised, and_self, if_true]
          simp only [BudgetSystem.acquired] at hcovered ⊢
          omega
        · exact if_neg howed
      exact hnothing.trans_le (Nat.zero_le _)
  | @returnPromise attempt _ _ _ _ hpromised howner hreservation h =>
      obtain ⟨rfl, -⟩ := returnPromise_ok h
      refine .keep ?_
      simp only [Multiset.coe_singleton, total_singleton, owed, AllocationAttempt.level,
        hpromised, Bool.false_eq_true, false_and, if_false, and_self, if_true]
      exact le_refl _
  | unlock | leave =>
      exact .of_attempt rfl (owed_attempt_le rfl rfl rfl (.inr rfl))
  | settled => exact .of_owns (le_refl _) (owns_next _)
  | restoreToken | restoreManager | restoreFailed | uncharged => exact .of_owns (le_refl _) rfl

theorem Move.promiseStep (h : Move config system activity system' next)
    (hattempting : Attempting system activity) (hbudgets : system'.budgets = system.budgets)
    (hcovered
      : admitted system.depth 0 system.acquired activity ≤ (system.budgets 0).admittedTotal)
    : PromiseStep system activity system' next := by
  cases h with
  | reserve h => exact h.promiseStep
  | attempt h => exact h.promiseStep hattempting hbudgets hcovered
  | release h =>
      rcases h.cases.2 with rfl | ⟨id, stage, stage', -, rfl, -⟩
      · exact .of_owns h.reservationBytes.le rfl
      · exact .of_owns h.reservationBytes.le rfl

/-- What the outermost budget has reserved, what is promised and what is owed stay together
within its limit. The others owe nothing while the lock is free or with this activity.
-/
theorem Move.outer_within {rest : Nat} (h : Move config system activity system' next)
    (hattempting : Attempting system activity) (hpressed : Pressed system activity)
    (hrest : system.promiseHeld = false ∨ locking activity = 1 → rest = 0)
    (hcovered
      : admitted system.depth 0 system.acquired activity ≤ (system.budgets 0).admittedTotal)
    (hwithin
      : system.outerLoad + (owed system.depth system.acquired activity + rest)
        ≤ system.outerRoom)
    : system'.outerLoad
          + (total (owed system.depth system'.acquired) (next : Multiset Activity) + rest)
        ≤ system'.outerRoom := by
  have hreclaimed := h.totalReclaimed_le
  simp only [BudgetSystem.outerLoad, BudgetSystem.outerRoom] at hwithin ⊢
  rcases h.budgets_cases with
    hbudgets | ⟨attempt, other, retried, budget, rfl, hlevel, hadmit, rfl, rfl⟩
      | ⟨attempt, other, rfl, rfl, rfl⟩
  · rw [hbudgets]
    rcases h.promiseStep hattempting hbudgets hcovered with hkeep | ⟨hfree, hnext, hfits⟩
    · omega
    · have hzero := hrest (.inl hfree)
      simp only [BudgetSystem.outerLoad, BudgetSystem.outerRoom, hbudgets] at hfits
      omega
  · obtain ⟨⟨hacquired, -, -⟩, hshaped⟩ := hattempting _ _ rfl
    have hpressure := hpressed _ _ _ rfl
    obtain ⟨rfl, hfits⟩ := admit_within hadmit
    have hzero : rest = 0 := hrest (.inr (by simp [locking, hshaped.1, AttemptStage.guarded]))
    have hnot : system.acquired attempt.ticket = false := hacquired
    have hnext (acquired : TicketId → Bool)
        : owed system.depth acquired (.attempt attempt (.admitting (other + 1) false)) = 0 := by
      simp [owed, AllocationAttempt.level]
    rw [Multiset.coe_singleton, total_singleton, hnext, setBudget_accounting,
      setBudget_reservationBytes]
    simp only [owed, AllocationAttempt.level, hnot, returned_false] at hwithin
    rcases Nat.eq_zero_or_pos other with rfl | hpos
    · rw [setBudget_self]
      dsimp only
      split_ifs at hwithin <;> omega
    · rw [setBudget_of_ne _ _ _ hpos.ne]
      omega
  · have hbefore
      : owed system.depth system.acquired (.attempt attempt (.refunding (other + 1))) = 0 := by
      simp [owed, AllocationAttempt.level]
    rw [hbefore] at hwithin
    rw [Multiset.coe_singleton, total_singleton, refund_eq, setBudget_accounting,
      setBudget_reservationBytes]
    change _ + _ + _ + (owed system.depth system.acquired _ + _) ≤ _
    rcases Nat.eq_zero_or_pos other with rfl | hpos
    · have hafter
        : owed system.depth system.acquired (.attempt attempt (.refunding 0))
          ≤ returned attempt.bytes (system.acquired attempt.ticket) := by
        simp only [owed]
        split_ifs
        · exact le_refl _
        · exact Nat.zero_le _
      simp only [admitted, AllocationAttempt.level, Nat.lt_succ_self, if_true] at hcovered
      rw [setBudget_self]
      dsimp only
      omega
    · have hafter
        : owed system.depth system.acquired (.attempt attempt (.refunding other)) = 0 := by
        simp [owed, AllocationAttempt.level, hpos.ne']
      rw [setBudget_of_ne _ _ _ hpos.ne, hafter]
      omega

end Xlog.Cuda.MemoryBudget
