import Xlog.Foundation.Assoc
import Xlog.Runtime.AdaptivePlan
import Xlog.Runtime.StratumExecutionCorrectness

/-! When an adaptive run answers what its baseline answers. An adopted candidate answers with its own last
head, and was compared with rows that it may not have computed: those that the baseline had left.
-/

namespace Xlog.Runtime

open Xlog.Core Xlog.Foundation Xlog.Ir Xlog.Logic

section

variable {V : Type} {env : AdaptiveEnvironment V}

/-- The names of a store are those of its relations. -/
def AdaptiveEnvironment.Lists (env : AdaptiveEnvironment V) (state : ExecutorState V) : Prop :=
  ∀ name, name ∈ env.storedNames state ↔ (state.store name).isSome = true

/-- What the executor relies on, with the stores that the baseline and the candidate leave. -/
structure AdaptiveEnvironment.Faithful (env : AdaptiveEnvironment V) (candidatePlan : ExecutionPlan)
    (filled : ExecutorState V) : Prop where
  filledNames : env.Lists filled
  candidateNames : env.Lists (executePlan env .candidate candidatePlan filled).1
  diffFullRow : ∀ left right : Buffer V, left.schema = right.schema
    → ∀ row, row ∈ (env.diffFullRow left right).rows ↔ row ∈ left.rows ∧ row ∉ right.rows

-- Answers

/-- The relation of a plan's last head; a plan without heads answers with nothing. -/
def planAnswer (plan : ExecutionPlan) (contents : Contents V) : Option (Extension V) :=
  match (planHeadNames plan).getLast? with
  | some name => contents name
  | none => some (Buffer.empty ⟨[]⟩ : Buffer V).extension

def ExecutorState.tuples (state : ExecutorState V) (name : String) : Option (Set (Row V)) :=
  (state.contents name).map Extension.rows

/-- What an adaptive run owes to its baseline, which leaves the state `filled`. -/
structure AnswersUnchanged (env : AdaptiveEnvironment V) (baselinePlan candidatePlan : ExecutionPlan)
    (input filled : ExecutorState V) (outcome : AdaptiveOutcome V) : Prop where
  answer : ∃ buffer, outcome.answer = .ok buffer
    ∧ planAnswer baselinePlan filled.contents = some buffer.extension
  heads : ∀ head ∈ planHeadNames baselinePlan, outcome.state.contents head = filled.contents head
  adopted : outcome.action = some .adopted
    → ∃ unmasked, runPlan env candidatePlan input = (unmasked, .ok ())
      ∧ ∀ head ∈ planHeadNames baselinePlan, unmasked.tuples head = filled.tuples head

def AdaptiveEnvironment.Attempts (env : AdaptiveEnvironment V) : Prop :=
  env.enabled = .ok true ∧ env.observed = true ∧ env.misplanned = true

/-- The candidate runs through on the filled store and leaves the state `after`. -/
def RunsThrough (env : AdaptiveEnvironment V) (candidatePlan : ExecutionPlan)
    (filled after : ExecutorState V) : Prop :=
  env.Attempts ∧ executePlan env .candidate candidatePlan filled = (after, .ok ())

/-- The last head of a matching candidate holds what the last head of the baseline holds, its rows do not
come from the baseline's, and no step that is made fails.
-/
structure AnswerSafe (env : AdaptiveEnvironment V) (baselinePlan candidatePlan : ExecutionPlan)
    (input filled : ExecutorState V) : Prop where
  output : env.faults .output = none
  stored : (planAnswer baselinePlan filled.contents).isSome = true
  decided : ∃ enabled, env.enabled = .ok enabled
  copied : env.Attempts → ∀ name, (filled.store name).isSome = true
    → env.faults (.snapshot name) = none
  compared : ∀ after, RunsThrough env candidatePlan filled after
    → ∃ verdict, planOutputsMatch env filled.store after (planHeadNames baselinePlan) = .ok verdict
  lastHead : ∀ after, RunsThrough env candidatePlan filled after
    → planOutputsMatch env filled.store after (planHeadNames baselinePlan) = .ok true
    → planAnswer candidatePlan after.contents = planAnswer baselinePlan filled.contents
  unmasked : ∀ after, RunsThrough env candidatePlan filled after
    → planOutputsMatch env filled.store after (planHeadNames baselinePlan) = .ok true
    → ∃ unmasked, runPlan env candidatePlan input = (unmasked, .ok ())
      ∧ ∀ head ∈ planHeadNames baselinePlan, unmasked.tuples head = after.tuples head

-- Steps

theorem call_ok_iff {site : DeviceCall} : env.call site = .ok () ↔ env.faults site = none := by
  unfold AdaptiveEnvironment.call
  cases env.faults site <;> simp

theorem cloneFinalPlanOutput_iff {plan : ExecutionPlan} {state : ExecutorState V}
    {expected : Option (Extension V)}
    : (∃ buffer, cloneFinalPlanOutput env plan state = .ok buffer ∧ expected = some buffer.extension)
      ↔ env.faults .output = none ∧ expected.isSome = true
        ∧ planAnswer plan state.contents = expected := by
  have hcopy (output : Buffer V)
      : (∃ buffer, (do env.call .output; .ok output : Result (Buffer V)) = .ok buffer
          ∧ expected = some buffer.extension)
        ↔ env.faults .output = none ∧ expected.isSome = true
          ∧ some output.extension = expected := by
    cases hcall : env.call .output with
    | error error =>
      have hfault : env.faults .output ≠ none := fun h => by simp [call_ok_iff.mpr h] at hcall
      simp [hfault]
    | ok =>
      simp only [ok_bind, Except.ok.injEq, exists_eq_left', call_ok_iff.mp hcall, true_and]
      constructor
      · rintro rfl
        exact ⟨rfl, rfl⟩
      · rintro ⟨-, h⟩
        exact h.symm
  unfold cloneFinalPlanOutput planAnswer
  cases (planHeadNames plan).getLast? with
  | none => exact hcopy _
  | some name =>
    cases hstore : state.store name with
    | some output => simpa [ExecutorState.contents, hstore] using hcopy output
    | none =>
      have hnone : state.contents name = none := by simp [ExecutorState.contents, hstore]
      simp only [hnone]
      constructor
      · rintro ⟨buffer, h, -⟩
        simp [hstore] at h
      · rintro ⟨-, hsome, rfl⟩
        simp at hsome

theorem copyStored_iff {state : ExecutorState V} {name : String} {copies : List (String × Buffer V)}
    : copyStored env state name = .ok copies
      ↔ copies = (state.store name).toList.map (fun buffer => (name, buffer))
        ∧ ((state.store name).isSome = true → env.faults (.snapshot name) = none) := by
  unfold copyStored
  cases hstore : state.store name with
  | none => simp [eq_comm]
  | some buffer =>
    cases hcall : env.call (.snapshot name) with
    | error error =>
      have hfault : env.faults (.snapshot name) ≠ none := fun h => by
        simp [call_ok_iff.mpr h] at hcall
      simp [hfault]
    | ok => simp [call_ok_iff.mp hcall, eq_comm]

/-- A snapshot holds what is stored. -/
theorem mem_cloneStoreSnapshot {state : ExecutorState V} (hnames : env.Lists state)
    {snapshot : List (String × Buffer V)} (h : cloneStoreSnapshot env state = .ok snapshot)
    (name : String) (buffer : Buffer V)
    : (name, buffer) ∈ snapshot ↔ state.store name = some buffer := by
  obtain ⟨copies, hcopies, hflatten⟩ := bind_eq_ok.mp h
  cases Except.ok.inj hflatten
  rw [List.mem_flatten]
  constructor
  · rintro ⟨copy, hcopy, hmem⟩
    obtain ⟨other, -, hother⟩ := exists_of_mem_mapM hcopies hcopy
    obtain ⟨rfl, -⟩ := copyStored_iff.mp hother
    obtain ⟨stored, hstored, heq⟩ := List.mem_map.mp hmem
    cases heq
    simpa using hstored
  · intro hstore
    have hname : name ∈ env.storedNames state := (hnames name).mpr (by simp [hstore])
    obtain ⟨copy, hcopy, hcopied⟩ := exists_result_of_mapM hcopies hname
    obtain ⟨rfl, -⟩ := copyStored_iff.mp hcopied
    exact ⟨_, hcopy, by simp [hstore]⟩

theorem exists_cloneStoreSnapshot_iff {state : ExecutorState V} (hnames : env.Lists state)
    : (∃ snapshot, cloneStoreSnapshot env state = .ok snapshot)
      ↔ ∀ name, (state.store name).isSome = true → env.faults (.snapshot name) = none := by
  have hcopies : (∃ snapshot, cloneStoreSnapshot env state = .ok snapshot)
      ↔ ∃ copies, (env.storedNames state).mapM (copyStored env state) = .ok copies := by
    constructor
    · rintro ⟨snapshot, h⟩
      obtain ⟨copies, hcopies, -⟩ := bind_eq_ok.mp h
      exact ⟨copies, hcopies⟩
    · rintro ⟨copies, h⟩
      exact ⟨copies.flatten, by simp [cloneStoreSnapshot, h]⟩
  rw [hcopies, exists_mapM_ok_iff]
  constructor
  · intro h name hstored
    obtain ⟨copies, hcopy⟩ := h name ((hnames name).mpr hstored)
    exact (copyStored_iff.mp hcopy).2 hstored
  · intro h name _
    exact ⟨_, copyStored_iff.mpr ⟨rfl, h name⟩⟩

theorem lookup_snapshot {state : ExecutorState V} {snapshot : List (String × Buffer V)}
    (h : ∀ name buffer, (name, buffer) ∈ snapshot ↔ state.store name = some buffer)
    : (fun name => snapshot.lookup name) = state.store := by
  funext name
  cases hlookup : snapshot.lookup name with
  | some buffer =>
    exact ((h name buffer).mp (mem_of_lookup hlookup)).symm
  | none =>
    cases hstore : state.store name with
    | none => rfl
    | some buffer =>
      have hmem := (h name buffer).mpr hstore
      exact absurd (List.lookup_eq_none_iff.mp hlookup _ hmem) (by simp)

-- Rollback

theorem foldl_storePut (snapshot : List (String × Buffer V)) (state : ExecutorState V)
    (store : String → Option (Buffer V))
    (h : ∀ copy ∈ snapshot, store copy.1 = some copy.2) (name : String)
    : (snapshot.foldl (fun state copy => state.storePut copy.1 copy.2) state).store name
      = if name ∈ snapshot.map Prod.fst then store name else state.store name := by
  induction snapshot generalizing state with
  | nil => simp
  | cons copy snapshot ih =>
    obtain ⟨hcopy, hrest⟩ := List.forall_mem_cons.mp h
    rw [List.foldl_cons, ih _ hrest]
    by_cases hmem : name ∈ snapshot.map Prod.fst
    · simp [hmem]
    · by_cases hsame : name = copy.1
      · subst hsame
        simp [hmem, ExecutorState.storePut, hcopy]
      · simp [hmem, hsame, ExecutorState.storePut]

theorem foldl_storeRemove (kept : List String) (names : List String) (state : ExecutorState V)
    (name : String)
    : (names.foldl (fun state name => if name ∈ kept then state else state.storeRemove name)
        state).store name
      = if name ∈ names ∧ name ∉ kept then none else state.store name := by
  induction names generalizing state with
  | nil => simp
  | cons first names ih =>
    rw [List.foldl_cons, ih]
    by_cases hkept : first ∈ kept
    · by_cases hsame : name = first
      · subst hsame
        simp [hkept]
      · simp [hkept, hsame]
    · by_cases hsame : name = first
      · subst hsame
        simp [hkept, ExecutorState.storeRemove]
      · simp [hkept, hsame, ExecutorState.storeRemove]

/-- A rollback brings back the store of the snapshot, whatever the candidate has left. -/
theorem restoreStoreSnapshot_store {filled after : ExecutorState V} (hnames : env.Lists after)
    {snapshot : List (String × Buffer V)}
    (h : ∀ name buffer, (name, buffer) ∈ snapshot ↔ filled.store name = some buffer)
    : (restoreStoreSnapshot env after snapshot).store = filled.store := by
  funext name
  have hcopies : ∀ copy ∈ snapshot, filled.store copy.1 = some copy.2 :=
    fun copy hcopy => (h copy.1 copy.2).mp hcopy
  rw [restoreStoreSnapshot, foldl_storePut snapshot _ filled.store hcopies, foldl_storeRemove]
  by_cases hmem : name ∈ snapshot.map Prod.fst
  · simp [hmem]
  · have hnone : filled.store name = none := by
      cases hstore : filled.store name with
      | none => rfl
      | some buffer => exact absurd (List.mem_map_of_mem ((h name buffer).mpr hstore)) hmem
    by_cases hafter : name ∈ env.storedNames after
    · simp [hmem, hafter, hnone]
    · have hmissing : after.store name = none := by
        simpa using mt (hnames name).mpr hafter
      simp [hmem, hafter, hnone, hmissing]

-- Comparison

theorem buffersGpuSetEquivalent_true {candidatePlan : ExecutionPlan} {filled : ExecutorState V}
    (hfaithful : env.Faithful candidatePlan filled) {head : String}
    {left right : Buffer V} (h : buffersGpuSetEquivalent env head left right = .ok true)
    : left.extension = right.extension := by
  unfold buffersGpuSetEquivalent at h
  split at h
  · simp at h
  next hschema =>
  rw [not_ne_iff] at hschema
  obtain ⟨-, -, h⟩ := bind_eq_ok.mp h
  obtain ⟨-, -, h⟩ := bind_eq_ok.mp h
  split at h
  · simp at h
  obtain ⟨-, -, h⟩ := bind_eq_ok.mp h
  obtain ⟨-, -, h⟩ := bind_eq_ok.mp h
  split at h
  · simp at h
  next hleft =>
  obtain ⟨-, -, h⟩ := bind_eq_ok.mp h
  obtain ⟨-, -, h⟩ := bind_eq_ok.mp h
  have hleft : (env.diffFullRow left right).rows = [] := by simpa using hleft
  have hright : (env.diffFullRow right left).rows = [] := by simpa using h
  refine Extension.ext (congrArg (fun schema : Schema => schema.columns.map Prod.snd) hschema)
    (Set.ext fun row => ⟨fun hrow => ?_, fun hrow => ?_⟩)
  · by_contra hother
    have hdiff := (hfaithful.diffFullRow left right hschema row).mpr ⟨hrow, hother⟩
    simp [hleft] at hdiff
  · by_contra hother
    have hdiff := (hfaithful.diffFullRow right left hschema.symm row).mpr ⟨hrow, hother⟩
    simp [hright] at hdiff

/-- A candidate that matches leaves the heads of the baseline as they were. -/
theorem planOutputsMatch_true {candidatePlan : ExecutionPlan} {filled after : ExecutorState V}
    (hfaithful : env.Faithful candidatePlan filled) {names : List String} (h : planOutputsMatch env filled.store after names = .ok true)
    : ∀ name ∈ names, after.contents name = filled.contents name := by
  induction names with
  | nil => simp
  | cons name names ih =>
    unfold planOutputsMatch at h
    split at h
    · simp at h
    · simp at h
    next baseline candidate hbaseline hcandidate =>
    obtain ⟨equivalent, hequivalent, h⟩ := bind_eq_ok.mp h
    cases equivalent with
    | false => simp at h
    | true =>
      refine List.forall_mem_cons.mpr ⟨?_, ih h⟩
      simp [ExecutorState.contents, hbaseline, hcandidate,
        buffersGpuSetEquivalent_true hfaithful hequivalent]

-- Outcomes

variable {baselinePlan candidatePlan : ExecutionPlan} {input filled after : ExecutorState V}

theorem not_answersUnchanged_of_error {outcome : AdaptiveOutcome V} {error : XlogError}
    (h : outcome.answer = .error error)
    : ¬ AnswersUnchanged env baselinePlan candidatePlan input filled outcome := by
  rintro ⟨⟨buffer, hanswer, -⟩, -, -⟩
  rw [h] at hanswer
  cases hanswer

/-- The baseline's answer over the baseline's relations. -/
theorem answersUnchanged_kept_iff {outcome : AdaptiveOutcome V}
    (hcontents : outcome.state.contents = filled.contents)
    (hanswer : outcome.answer = cloneFinalPlanOutput env baselinePlan outcome.state)
    (haction : outcome.action ≠ some .adopted)
    : AnswersUnchanged env baselinePlan candidatePlan input filled outcome
      ↔ env.faults .output = none ∧ (planAnswer baselinePlan filled.contents).isSome = true := by
  have hclone := @cloneFinalPlanOutput_iff V env baselinePlan outcome.state
    (planAnswer baselinePlan filled.contents)
  rw [← hanswer, hcontents] at hclone
  constructor
  · intro h
    obtain ⟨houtput, hstored, -⟩ := hclone.mp h.answer
    exact ⟨houtput, hstored⟩
  · rintro ⟨houtput, hstored⟩
    exact ⟨hclone.mpr ⟨houtput, hstored, rfl⟩, fun head _ => congrFun hcontents head,
      fun hadopted => absurd hadopted haction⟩

/-- The candidate's answer over relations that match those of the baseline. -/
theorem answersUnchanged_adopted_iff
    (hmatch : ∀ head ∈ planHeadNames baselinePlan, after.contents head = filled.contents head)
    : AnswersUnchanged env baselinePlan candidatePlan input filled
        ⟨after, some .adopted, cloneFinalPlanOutput env candidatePlan after⟩
      ↔ (env.faults .output = none ∧ (planAnswer baselinePlan filled.contents).isSome = true
          ∧ planAnswer candidatePlan after.contents = planAnswer baselinePlan filled.contents)
        ∧ ∃ unmasked, runPlan env candidatePlan input = (unmasked, .ok ())
          ∧ ∀ head ∈ planHeadNames baselinePlan, unmasked.tuples head = after.tuples head := by
  have hclone := @cloneFinalPlanOutput_iff V env candidatePlan after
    (planAnswer baselinePlan filled.contents)
  have htuples (unmasked : ExecutorState V)
      : (∀ head ∈ planHeadNames baselinePlan, unmasked.tuples head = after.tuples head)
        ↔ ∀ head ∈ planHeadNames baselinePlan, unmasked.tuples head = filled.tuples head := by
    refine forall₂_congr fun head hhead => ?_
    simp only [ExecutorState.tuples, hmatch head hhead]
  simp only [htuples]
  constructor
  · intro h
    exact ⟨hclone.mp h.answer, h.adopted rfl⟩
  · rintro ⟨hanswer, hadopted⟩
    exact ⟨hclone.mpr hanswer, hmatch, fun _ => hadopted⟩

theorem rollBack_kept (hnames : env.Lists after) {snapshot : List (String × Buffer V)}
    (h : ∀ name buffer, (name, buffer) ∈ snapshot ↔ filled.store name = some buffer)
    : AnswersUnchanged env baselinePlan candidatePlan input filled
        (rollBack env baselinePlan snapshot filled.cardinalities after)
      ↔ env.faults .output = none ∧ (planAnswer baselinePlan filled.contents).isSome = true := by
  refine answersUnchanged_kept_iff ?_ rfl (by simp [rollBack])
  have hstore := restoreStoreSnapshot_store hnames h
  simp only [rollBack, restoreStatsSnapshot]
  unfold ExecutorState.contents
  simp only [hstore]

/-- A candidate that is not adopted asks for nothing but the baseline's answer. -/
theorem answerSafe_iff_of_not_matching (hdecided : ∃ enabled, env.enabled = .ok enabled)
    (hcopied : env.Attempts → ∀ name, (filled.store name).isSome = true
      → env.faults (.snapshot name) = none)
    (hcompared : ∀ after, RunsThrough env candidatePlan filled after
      → planOutputsMatch env filled.store after (planHeadNames baselinePlan) = .ok false)
    : AnswerSafe env baselinePlan candidatePlan input filled
      ↔ env.faults .output = none ∧ (planAnswer baselinePlan filled.contents).isSome = true := by
  have hdiffers (after : ExecutorState V) (hruns : RunsThrough env candidatePlan filled after)
      : planOutputsMatch env filled.store after (planHeadNames baselinePlan) ≠ .ok true := by
    simp [hcompared after hruns]
  constructor
  · intro h
    exact ⟨h.output, h.stored⟩
  · rintro ⟨houtput, hstored⟩
    exact {
      output := houtput
      stored := hstored
      decided := hdecided
      copied := hcopied
      compared := fun after hruns => ⟨false, hcompared after hruns⟩
      lastHead := fun after hruns hmatch => absurd hmatch (hdiffers after hruns)
      unmasked := fun after hruns hmatch => absurd hmatch (hdiffers after hruns) }

theorem attemptCandidate_iff (hfaithful : env.Faithful candidatePlan filled)
    (hattempts : env.Attempts)
    : AnswersUnchanged env baselinePlan candidatePlan input filled
        (attemptCandidate env baselinePlan candidatePlan filled)
      ↔ AnswerSafe env baselinePlan candidatePlan input filled := by
  have hdecided : ∃ enabled, env.enabled = .ok enabled := ⟨true, hattempts.1⟩
  have hsnapshots := exists_cloneStoreSnapshot_iff hfaithful.filledNames
  unfold attemptCandidate
  cases hsnapshot : cloneStoreSnapshot env filled with
  | error error =>
    refine iff_of_false (not_answersUnchanged_of_error rfl) fun h => ?_
    obtain ⟨snapshot, hcopy⟩ := hsnapshots.mpr (h.copied hattempts)
    simp [hsnapshot] at hcopy
  | ok snapshot =>
    have hcopied := hsnapshots.mp ⟨snapshot, hsnapshot⟩
    have hmem := mem_cloneStoreSnapshot hfaithful.filledNames hsnapshot
    have hnames := hfaithful.candidateNames
    rcases hrun : executePlan env .candidate candidatePlan filled with ⟨after, result⟩
    rw [hrun] at hnames
    have hafter {other : ExecutorState V} (hruns : RunsThrough env candidatePlan filled other)
        : other = after := by
      have hother := hruns.2
      rw [hrun] at hother
      exact (congrArg Prod.fst hother).symm
    cases result with
    | error error =>
      refine (rollBack_kept hnames hmem).trans
        (answerSafe_iff_of_not_matching hdecided (fun _ => hcopied) fun other hruns => ?_).symm
      have hother := hruns.2
      rw [hrun] at hother
      cases congrArg Prod.snd hother
    | ok =>
      have hruns : RunsThrough env candidatePlan filled after := ⟨hattempts, hrun⟩
      simp only [lookup_snapshot hmem]
      cases hmatch : planOutputsMatch env filled.store after (planHeadNames baselinePlan) with
      | error error =>
        refine iff_of_false (not_answersUnchanged_of_error rfl) fun h => ?_
        obtain ⟨verdict, hverdict⟩ := h.compared after hruns
        simp [hmatch] at hverdict
      | ok verdict =>
        cases verdict with
        | false =>
          refine (rollBack_kept hnames hmem).trans
            (answerSafe_iff_of_not_matching hdecided (fun _ => hcopied) fun other hother => ?_).symm
          rw [hafter hother, hmatch]
        | true =>
          rw [answersUnchanged_adopted_iff (planOutputsMatch_true hfaithful hmatch)]
          constructor
          · rintro ⟨⟨houtput, hstored, hlast⟩, hunmasked⟩
            exact {
              output := houtput
              stored := hstored
              decided := hdecided
              copied := fun _ => hcopied
              compared := fun other hother => ⟨true, by rw [hafter hother, hmatch]⟩
              lastHead := fun other hother _ => by rw [hafter hother, hlast]
              unmasked := fun other hother _ => by rw [hafter hother]; exact hunmasked }
          · intro h
            exact ⟨⟨h.output, h.stored, h.lastHead after hruns hmatch⟩, h.unmasked after hruns hmatch⟩

end

-- Two copies

def copiedNames : List String := ["p", "q", "s", "t"]

/-- All joins were observed to be misplanned, and no device step fails. -/
def copyEnvironment : AdaptiveEnvironment Nat where
  routes := scanRoutes
  executeRecursiveScc := fun state _ => (state, .ok ())
  storedNames := fun state => copiedNames.filter fun name => (state.store name).isSome
  diffFullRow := fun left right => {
    schema := left.schema
    rows := left.rows.filter (· ∉ right.rows)
    width := fun row hrow => left.width row (List.mem_filter.mp hrow).1 }
  enabled := .ok true
  observed := true
  misplanned := true
  faults := fun _ => none

def copyState : ExecutorState Nat where
  store := Function.update (Function.update (fun _ => none) "q" (some (unitRelation [1]))) "t"
    (some (unitRelation [2]))
  relNames := [(0, "p"), (1, "q"), (2, "s"), (3, "t")]
  nameToRel := fun _ => none
  cardinalities := fun _ => none

/-- One stratum and one component for each rule, in the given order. -/
def planOf (rules : List CompiledRule) : ExecutionPlan where
  sccs := (List.range rules.length).map fun id => ⟨id, false⟩
  strata := (List.range rules.length).map fun id => ⟨id, [id]⟩
  rulesByScc := rules.map fun rule => [rule]

/-- `p :- q. s :- t.` -/
def copyPlan : ExecutionPlan := planOf [scanRule "p" 1, scanRule "s" 3]

/-- `s :- t. p :- q.` -/
def reorderedPlan : ExecutionPlan := planOf [scanRule "s" 3, scanRule "p" 1]

/-- `s :- t.` -/
def partialPlan : ExecutionPlan := planOf [scanRule "s" 3]

def copiedState : ExecutorState Nat := (executePlan copyEnvironment .baseline copyPlan copyState).1

theorem executePlan_copyPlan
    : executePlan copyEnvironment .baseline copyPlan copyState = (copiedState, .ok ()) :=
  rfl

theorem copyEnvironment_lists {state : ExecutorState Nat}
    (h : ∀ name, name ∉ copiedNames → state.store name = none)
    : copyEnvironment.Lists state := by
  intro name
  by_cases hname : name ∈ copiedNames
  · simp [copyEnvironment, hname]
  · simp [copyEnvironment, hname, h name hname]

theorem copyEnvironment_faithful : copyEnvironment.Faithful reorderedPlan copiedState where
  filledNames := by
    refine copyEnvironment_lists fun name hname => ?_
    simp only [copiedNames, List.mem_cons, List.not_mem_nil, or_false, not_or] at hname
    have hstore : copiedState.store = Function.update (Function.update copyState.store "p"
        (some (unionRows (unitRelation [1]) []))) "s" (some (unionRows (unitRelation [2]) [])) := rfl
    simp [hstore, copyState, hname]
  candidateNames := by
    refine copyEnvironment_lists fun name hname => ?_
    simp only [copiedNames, List.mem_cons, List.not_mem_nil, or_false, not_or] at hname
    have hstore : (executePlan copyEnvironment .candidate reorderedPlan copiedState).1.store
        = Function.update (Function.update copiedState.store "s"
            (some (unionRows (unionRows (unitRelation [2]) []) [unitRelation [2]]))) "p"
            (some (unionRows (unionRows (unitRelation [1]) []) [unitRelation [1]])) := rfl
    have hfilled : copiedState.store = Function.update (Function.update copyState.store "p"
        (some (unionRows (unitRelation [1]) []))) "s" (some (unionRows (unitRelation [2]) [])) := rfl
    simp [hstore, hfilled, copyState, hname]
  diffFullRow := fun left right _ row => by simp [copyEnvironment]

end Xlog.Runtime
