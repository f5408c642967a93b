import Xlog.Solve.ServiceCorrectness

/-! Runs of several solver services that hand learned clauses to each other, and the answers that they
give.
-/

namespace Xlog.Solve.Service

namespace SolverService

-- What a service is asked

/-- An assignment of the instance's variables that meets its clauses, unless they are soft. -/
structure Models (problem : SolveInstance) (assignment : List Bool) : Prop where
  length_eq : assignment.length = problem.numVars
  clauses_hold : problem.objective ≠ .maxSat →
    ∀ clause ∈ problem.clauses, clause.holds assignment

/-- An assignment that meets the active assumptions too. -/
structure Meets (service : SolverService) (assignment : List Bool) : Prop where
  models : Models service.solveInstance assignment
  assumptions_hold : ∀ literal ∈ service.activeAssumptions, literal.holds assignment

/-- What a right answer says of the service's own clauses and its active assumptions. -/
structure Right (service : SolverService) (result : SolverServiceResult) : Prop where
  sat : result.status = .sat →
    ∃ assignment,
      result.assignment = some assignment
      ∧ service.Meets assignment
      ∧ ∀ clause ∈ service.solveInstance.clauses, clause.holds assignment
  unsat : result.status = .unsat → ∀ assignment, ¬ service.Meets assignment
  optimal : ∀ score, result.status = .optimal score →
    ∃ assignment,
      result.assignment = some assignment
      ∧ service.Meets assignment
      ∧ service.solveInstance.exactWeight assignment = score
      ∧ ∀ other, service.Meets other → service.solveInstance.exactWeight other ≤ score

/-- A learned clause follows from the instance's own clauses within its scope. -/
def Entails (problem : SolveInstance) (learned : ScopedLearnedClause) : Prop :=
  ∀ assignment, Models problem assignment →
    (∀ literal ∈ learned.assumptionScope, literal.holds assignment) →
    learned.clause.holds assignment

def Sound (service : SolverService) : Prop :=
  ∀ learned ∈ service.learnedClauses, Entails service.solveInstance learned

/-- Whether the enumeration of a solve looks at every mask that it counts. -/
def Exhausts (service : SolverService) (limit : Option Nat) : Prop :=
  service.timedOut limit = false
  ∧ (service.solveInstance.objective = .maxSat
    ∨ ∀ mask < service.searchMax limit,
        service.hardClauses.all
          (·.holds (assignmentFromMask service.solveInstance.numVars mask)) = false)

/-- The solves whose masks are wide enough for the variables, where they look at all of them, and whose
scores are exact.
-/
structure Faithful (service : SolverService) (limit : Option Nat) : Prop where
  wide : service.Exhausts limit → service.solveInstance.numVars < 64
  exact : service.Exhausts limit → service.solveInstance.objective = .maxSat →
    service.solveInstance.SumsExactly

def FaithfulBudget (service : SolverService) : SolverServiceBudget → Prop
  | .noSearch => True
  | .assignmentLimit 0 => True
  | .assignmentLimit limit => service.Faithful (some limit)
  | .exhaustive => service.Faithful none

-- Solving

/-- Learned clauses that are entailed in their scopes change nothing about the hard clauses. -/
theorem Sound.hardClauses_iff {service : SolverService} (sound : service.Sound)
    {assignment : List Bool} (length : assignment.length = service.solveInstance.numVars)
    : service.hardClauses.all (·.holds assignment) ↔ service.Meets assignment := by
  simp only [hardClauses, List.all_append, Bool.and_eq_true, List.all_eq_true]
  constructor
  · rintro ⟨⟨own, assumed⟩, _⟩
    refine ⟨⟨length, fun hard clause member => own clause ?_⟩, fun literal active => ?_⟩
    · rwa [if_neg hard]
    · rw [← Clause.holds_unit]
      exact assumed _ (List.mem_map_of_mem active)
  · intro meets
    refine ⟨⟨?_, ?_⟩, ?_⟩
    · intro clause member
      split at member
      · cases member
      · next hard => exact meets.models.clauses_hold hard clause member
    · intro clause member
      obtain ⟨literal, active, rfl⟩ := List.mem_map.mp member
      rw [Clause.holds_unit]
      exact meets.assumptions_hold literal active
    · intro clause member
      obtain ⟨learned, inScope, rfl⟩ := List.mem_map.mp member
      obtain ⟨stored, scope⟩ := List.mem_filter.mp inScope
      refine sound learned stored assignment meets.models fun literal member => ?_
      have active := List.all_eq_true.mp scope literal member
      exact meets.assumptions_hold literal (of_decide_eq_true active)

theorem searchMax_eq_of_not_timedOut {service : SolverService} {limit : Option Nat}
    (complete : service.timedOut limit = false)
    : service.searchMax limit = service.maskCount := by
  cases limit with
  | none => rfl
  | some limit =>
      have within : ¬ min service.maskCount limit < service.maskCount := by
        simpa [timedOut, searchMax] using complete
      show min service.maskCount limit = service.maskCount
      omega

/-- An enumeration over few enough variables looks at every assignment. -/
theorem exists_mask_of_exhausts {service : SolverService} {limit : Option Nat}
    (complete : service.timedOut limit = false) (wide : service.solveInstance.numVars < 64)
    {assignment : List Bool} (length : assignment.length = service.solveInstance.numVars)
    : ∃ mask < service.searchMax limit,
        assignmentFromMask service.solveInstance.numVars mask = assignment := by
  rw [searchMax_eq_of_not_timedOut complete, maskCount, if_pos wide]
  exact exists_mask wide.le length

/-- A service that a solve leaves sound, with its instance. -/
structure Kept (service next : SolverService) : Prop where
  instance_eq : next.solveInstance = service.solveInstance
  sound : next.Sound

theorem Sound.solveMaxsat {service next : SolverService} {limit : Option Nat}
    {result : SolverServiceResult} (sound : service.Sound) (faithful : service.Faithful limit)
    (maxSat : service.solveInstance.objective = .maxSat)
    (answer : service.solveMaxsat limit = some (next, result))
    : service.Right result ∧ service.Kept next := by
  simp only [SolverService.solveMaxsat, Option.bind_eq_bind, Option.bind_eq_some_iff] at answer
  obtain ⟨best, searched, answer⟩ := answer
  obtain ⟨found, _, complete⟩ := bestSatisfying_spec searched
  split at answer
  · cases answer
    exact ⟨⟨by simp, by simp, by simp⟩, rfl, sound⟩
  next noTimeout =>
  have exhausts : service.Exhausts limit := ⟨by simpa using noTimeout, .inl maxSat⟩
  have covered : ∀ assignment, service.Meets assignment →
      ∃ score, ∃ winner ∈ best,
        service.solveInstance.weightedSatisfaction assignment = some score
        ∧ score ≤ winner.1 := by
    intro assignment meets
    obtain ⟨mask, counted, rfl⟩ :=
      exists_mask_of_exhausts exhausts.1 (faithful.wide exhausts) meets.models.length_eq
    exact complete mask (Nat.zero_le _) (by omega)
      ((sound.hardClauses_iff length_assignmentFromMask).mpr meets)
  split at answer
  · next score assignment _ =>
      cases answer
      refine ⟨⟨by simp, by simp, ?_⟩, rfl, sound⟩
      rintro _ ⟨⟩
      rcases found (score, assignment) rfl with none | ⟨mask, ⟨satisfied, scored⟩, rfl⟩
      · cases none
      have exactly := faithful.exact exhausts maxSat
      obtain ⟨weight, within⟩ := exactly _ _ scored
      rw [Nat.min_eq_left within]
      refine ⟨_, rfl, (sound.hardClauses_iff length_assignmentFromMask).mp satisfied,
        weight.symm, fun other meets => ?_⟩
      obtain ⟨otherScore, winner, isBest, otherScored, least⟩ := covered other meets
      cases isBest
      rw [← (exactly _ _ otherScored).1]
      exact least
  · cases answer
    refine ⟨⟨by simp, fun _ assignment meets => ?_, by simp⟩, rfl, sound⟩
    obtain ⟨_, winner, isBest, _⟩ := covered assignment meets
    cases isBest

/-- A solve of a sound service answers rightly and leaves the service sound. -/
theorem Sound.solveAssignments {service next : SolverService} {limit : Option Nat}
    {result : SolverServiceResult} (sound : service.Sound) (faithful : service.Faithful limit)
    (answer : service.solveAssignments limit = some (next, result))
    : service.Right result ∧ service.Kept next := by
  unfold SolverService.solveAssignments at answer
  split at answer
  · next maxSat => exact sound.solveMaxsat faithful maxSat answer
  next hard =>
  simp only [Option.bind_eq_bind, Option.bind_eq_some_iff] at answer
  obtain ⟨found, searched, answer⟩ := answer
  obtain ⟨satisfies, complete⟩ := firstSatisfying_spec searched
  split at answer
  · cases answer
    obtain ⟨mask, _, _, equal, satisfied⟩ := satisfies _ rfl
    cases equal
    have meets := (sound.hardClauses_iff length_assignmentFromMask).mp satisfied
    exact ⟨⟨fun _ => ⟨_, rfl, meets, meets.models.clauses_hold hard⟩, by simp, by simp⟩,
      rfl, sound⟩
  have missed : ∀ mask < service.searchMax limit,
      service.hardClauses.all
        (·.holds (assignmentFromMask service.solveInstance.numVars mask)) = false :=
    fun mask counted => complete rfl mask (Nat.zero_le _) (by omega)
  split at answer
  · cases answer
    exact ⟨⟨by simp, by simp, by simp⟩, rfl, sound⟩
  next noTimeout =>
  have exhausts : service.Exhausts limit := ⟨by simpa using noTimeout, .inr missed⟩
  have none_meets : ∀ assignment, ¬ service.Meets assignment := by
    intro assignment meets
    obtain ⟨mask, counted, rfl⟩ :=
      exists_mask_of_exhausts exhausts.1 (faithful.wide exhausts) meets.models.length_eq
    have satisfied := (sound.hardClauses_iff length_assignmentFromMask).mpr meets
    rw [missed mask counted] at satisfied
    cases satisfied
  cases answer
  refine ⟨⟨by simp, fun _ => none_meets, by simp⟩, ?_, ?_⟩
  · unfold recordUnsatLearning
    split <;> rfl
  · unfold recordUnsatLearning
    split
    · intro learned member
      rcases List.mem_append.mp member with stored | fresh
      · exact sound learned stored
      · -- The empty clause holds nowhere in the scope that has just been refuted.
        obtain rfl := List.mem_singleton.mp fresh
        intro assignment models assumed
        exact absurd ⟨models, assumed⟩ (none_meets assignment)
    · exact sound

theorem Sound.solveWithBudget {service next : SolverService} {budget : SolverServiceBudget}
    {result : SolverServiceResult} (sound : service.Sound)
    (faithful : service.FaithfulBudget budget)
    (answer : service.solveWithBudget budget = some (next, result))
    : service.Right result ∧ service.Kept next := by
  unfold SolverService.solveWithBudget at answer
  split at answer
  · cases answer
    exact ⟨⟨by simp, by simp, by simp⟩, rfl, sound⟩
  · cases answer
    exact ⟨⟨by simp, by simp, by simp⟩, rfl, sound⟩
  · next limit nonzero =>
      refine sound.solveAssignments ?_ answer
      cases limit with
      | zero => exact absurd rfl nonzero
      | succ limit => exact faithful
  · exact sound.solveAssignments faithful answer

theorem Sound.assume {service : SolverService} (sound : service.Sound) (literal : Literal)
    : (service.assume literal).1.Sound :=
  sound

theorem Sound.retractAssumption {service : SolverService} (sound : service.Sound) (token : Nat)
    : (service.retractAssumption token).1.Sound := by
  unfold SolverService.retractAssumption
  split
  · exact sound
  · exact sound

theorem Sound.transfer {source target : SolverService} (sound : target.Sound)
    (entailed : ∀ learned ∈ source.learnedClauses, Entails target.solveInstance learned)
    : (source.transferLearnedClausesTo target).Sound := by
  intro learned member
  rcases List.mem_append.mp member with stored | handed
  · exact sound learned stored
  · exact entailed learned handed

-- Runs

/-- The calls on a family of services whose transfers hand over only clauses that the target's own
clauses entail in their scopes, and whose solves are faithful.
-/
inductive Run {ι : Type} [DecidableEq ι] (start : ι → SolverService)
    : (ι → SolverService) → Prop
  | start : Run start start
  | assume {services} (run : Run start services) (i : ι) (literal : Literal)
      : Run start (Function.update services i ((services i).assume literal).1)
  | retract {services} (run : Run start services) (i : ι) (token : Nat)
      : Run start (Function.update services i ((services i).retractAssumption token).1)
  | solve {services next result} (run : Run start services) (i : ι)
      (budget : SolverServiceBudget) (faithful : (services i).FaithfulBudget budget)
      (answer : (services i).solveWithBudget budget = some (next, result))
      : Run start (Function.update services i next)
  | transfer {services} (run : Run start services) (i j : ι) (distinct : i ≠ j)
      (entailed : ∀ learned ∈ (services i).learnedClauses,
        Entails (services j).solveInstance learned)
      : Run start (Function.update services j ((services i).transferLearnedClausesTo (services j)))

/-- Every service stays sound along every run, by induction on the run. -/
theorem Run.sound {ι : Type} [DecidableEq ι] {start services : ι → SolverService}
    (sound : ∀ i, (start i).Sound) (run : Run start services)
    : ∀ i, (services i).Sound := by
  have update : ∀ {services : ι → SolverService} {changed : ι} {next : SolverService},
      (∀ i, (services i).Sound) → next.Sound →
      ∀ i, (Function.update services changed next i).Sound := by
    intro services changed next all kept i
    by_cases same : i = changed
    · subst same
      rwa [Function.update_self]
    · rw [Function.update_of_ne same]
      exact all i
  induction run with
  | start => exact sound
  | assume run i literal ih => exact update ih ((ih i).assume literal)
  | retract run i token ih => exact update ih ((ih i).retractAssumption token)
  | solve run i budget faithful answer ih =>
      exact update ih ((ih i).solveWithBudget faithful answer).2.sound
  | transfer run i j distinct entailed ih => exact update ih ((ih j).transfer entailed)

/-- Every answer in such a run is right. -/
theorem solve_right {ι : Type} [DecidableEq ι] {instances : ι → SolveInstance}
    {services : ι → SolverService} (run : Run (fun i => new (instances i)) services) (i : ι)
    {budget : SolverServiceBudget} {next : SolverService} {result : SolverServiceResult}
    (faithful : (services i).FaithfulBudget budget)
    (answer : (services i).solveWithBudget budget = some (next, result))
    : (services i).Right result :=
  ((run.sound (fun _ _ member => by cases member) i).solveWithBudget faithful answer).1

/-- One variable that has to be true and false. -/
def contradiction : SolveInstance := ⟨1, [⟨[⟨0, false⟩]⟩, ⟨[⟨0, true⟩]⟩], none, .satisfaction⟩

/-- The service of the contradiction after its solve, which has learned the empty clause. -/
def refuted : SolverService := ⟨contradiction, [], [⟨⟨[]⟩, []⟩], ⟨0, 2, 0⟩⟩

theorem solve_contradiction
    : (new contradiction).solveWithBudget .exhaustive = some (refuted, ⟨.unsat, none⟩) := by
  decide +kernel

theorem faithful_of_hard {service : SolverService} {limit : Option Nat}
    (wide : service.solveInstance.numVars < 64)
    (hard : service.solveInstance.objective ≠ .maxSat)
    : service.Faithful limit :=
  ⟨fun _ => wide, fun _ maxSat => absurd maxSat hard⟩

/-- Two services of the contradiction: the second is handed the clause that the first has learned. -/
theorem solve_right_contradiction
    : (refuted.transferLearnedClausesTo (new contradiction)).Right ⟨.unsat, none⟩ := by
  have faithful : (new contradiction).FaithfulBudget .exhaustive :=
    faithful_of_hard (by decide) (by decide)
  have solved : Run (fun _ : Bool => new contradiction)
      (Function.update (fun _ : Bool => new contradiction) false refuted) :=
    .solve .start false .exhaustive faithful solve_contradiction
  have sound : refuted.Sound :=
    (Sound.solveWithBudget (fun _ member => by cases member) faithful
      solve_contradiction).2.sound
  have handed := Run.transfer solved false true (by decide) sound
  have answer : (refuted.transferLearnedClausesTo (new contradiction)).solveWithBudget .exhaustive
      = some (⟨contradiction, [], [⟨⟨[]⟩, []⟩], ⟨1, 2, 0⟩⟩, ⟨.unsat, none⟩) := by
    decide +kernel
  have again : (refuted.transferLearnedClausesTo (new contradiction)).FaithfulBudget .exhaustive :=
    faithful_of_hard (by decide) (by decide)
  exact solve_right handed true again answer

/-- The empty clause that the contradiction has taught its service makes a service without clauses
answer that it is unsatisfiable.
-/
theorem transferred_refutation_misleads
    : (new contradiction).solveWithBudget .exhaustive = some (refuted, ⟨.unsat, none⟩)
      ∧ ((refuted.transferLearnedClausesTo (new ⟨1, [], none, .satisfaction⟩)).solveWithBudget
          .exhaustive).map (·.2) = some ⟨.unsat, none⟩
      ∧ (refuted.transferLearnedClausesTo (new ⟨1, [], none, .satisfaction⟩)).Meets [true] := by
  refine ⟨by decide +kernel, by decide +kernel, ⟨⟨rfl, ?_⟩, ?_⟩⟩
  · intro _ clause member
    cases member
  · intro literal member
    cases member

end SolverService

end Xlog.Solve.Service
