import Xlog.Foundation.Loop
import Xlog.Runtime.StratumExecution

/-! Batched components against the evaluation of one rule after the other. A rule that only carries its
head's rows is not made to wait for them: it fails when the head's first rows still wait in its batch.
-/

namespace Xlog.Runtime

open Xlog.Core Xlog.Foundation Xlog.Ir Xlog.Logic

-- Rules in turn

/-- The column types and the tuples of a relation. -/
@[ext] structure Extension (V : Type) where
  types : List ScalarType
  rows : Set (Row V)

abbrev Contents (V : Type) := String → Option (Extension V)

section

variable {V : Type}

def Buffer.types (buffer : Buffer V) : List ScalarType := buffer.schema.columns.map Prod.snd

def Buffer.extension (buffer : Buffer V) : Extension V := ⟨buffer.types, {row | row ∈ buffer.rows}⟩

def ExecutorState.contents (state : ExecutorState V) : Contents V :=
  fun name => (state.store name).map Buffer.extension

/-- A head with the tuples of a result; the column types have to agree. -/
def unionInto (contents : Contents V) (head : String) (result : Extension V)
    : Option (Contents V) :=
  match contents head with
  | none => some (Function.update contents head (some result))
  | some existing =>
      if existing.types = result.types then
        some (Function.update contents head (some ⟨existing.types, existing.rows ∪ result.rows⟩))
      else none

/-- One rule after the other, each result going into its head before the next rule is read. -/
def evaluateInTurn (yield : Contents V → RirNode → Option (Extension V)) (contents : Contents V)
    : List CompiledRule → Option (Contents V)
  | [] => some contents
  | rule :: rules => do
      let result ← yield contents rule.body
      let contents ← unionInto contents rule.head result
      evaluateInTurn yield contents rules

theorem storePut_contents (state : ExecutorState V) (name : String) (buffer : Buffer V)
    : (state.storePut name buffer).contents
      = Function.update state.contents name (some buffer.extension) := by
  funext other
  by_cases h : other = name
  · subst h
    simp [ExecutorState.contents, ExecutorState.storePut]
  · simp [ExecutorState.contents, ExecutorState.storePut, h]

-- Promises

/-- What a rule body yields, as far as the executor computes it. -/
structure Arm.Yields (arm : Arm V) (names : RelId → Option String)
    (yield : Contents V → RirNode → Option (Extension V)) : Prop where
  evaluates : ∀ (state : ExecutorState V) (rule : CompiledRule), state.getRelName = names
    → (arm.evaluate state rule).toOption.map (fun result => result.1.extension)
      = yield state.contents rule.body
  /-- Only the scanned relations are read. -/
  reads : ∀ (contents contents' : Contents V) (body : RirNode),
    (∀ rel ∈ collectScanRels body, ∀ name, names rel = some name → contents name = contents' name)
    → yield contents body = yield contents' body
  scan : ∀ (contents : Contents V) (rel : RelId), yield contents (.scan rel) = (names rel).bind contents

/-- Unions of compatible buffers go through and hold the rows of their inputs. -/
structure RuleRoutes.Unions (routes : RuleRoutes V) : Prop where
  union : ∀ (first : Buffer V) (rest : List (Buffer V)), (∀ other ∈ rest, other.types = first.types)
    → ∃ merged, routes.unionManyGpu (first :: rest) = .ok merged
      ∧ merged.extension = ⟨first.types, {row | ∃ buffer ∈ first :: rest, row ∈ buffer.rows}⟩
  rowCap : ∀ buffer : Buffer V, buffer.rows.length ≤ routes.rowCap buffer

-- Installation

/-- The tuples of a head with those of its results. -/
def mergedRows (state : ExecutorState V) (head : String) (results : List (Buffer V × Bool))
    : Set (Row V) :=
  {row | (∃ existing, state.store head = some existing ∧ row ∈ existing.rows)
    ∨ ∃ result ∈ results, row ∈ result.1.rows}

/-- Results that can be merged into their head. -/
structure Mergeable (state : ExecutorState V) (head : String) (types : List ScalarType)
    (results : List (Buffer V × Bool)) : Prop where
  nonempty : results ≠ []
  typed : ∀ result ∈ results, result.1.types = types
  existing : ∀ buffer, state.store head = some buffer → buffer.types = types

/-- An installed batch leaves its head with the tuples it had and those of the results. -/
def Arm.Installs (arm : Arm V) : Prop :=
  ∀ (state : ExecutorState V) (head : String) (types : List ScalarType)
    (results : List (Buffer V × Bool)), Mergeable state head types results
    → ∃ after, arm.install state head results = .ok after ∧ after.getRelName = state.getRelName
      ∧ after.contents
        = Function.update state.contents head (some ⟨types, mergedRows state head results⟩)

variable {routes : RuleRoutes V}

theorem RuleRoutes.Unions.rows_eq_nil (h : routes.Unions) {buffer : Buffer V}
    (hempty : routes.isEmpty buffer = true)
    : buffer.rows = [] := by
  have hcap : routes.rowCap buffer = 0 := of_decide_eq_true hempty
  have hlength := h.rowCap buffer
  rw [hcap] at hlength
  exact List.length_eq_zero_iff.mp (Nat.le_zero.mp hlength)

/-- The union of the inputs is put under the head. -/
theorem RuleRoutes.Unions.put (h : routes.Unions) (state : ExecutorState V) (head : String)
    {types : List ScalarType} {inputs : List (Buffer V)} (hinputs : inputs ≠ [])
    (htyped : ∀ buffer ∈ inputs, buffer.types = types) {rows : Set (Row V)}
    (hrows : ∀ row, (∃ buffer ∈ inputs, row ∈ buffer.rows) ↔ row ∈ rows)
    : ∃ merged, routes.unionManyGpu inputs = .ok merged
      ∧ (state.storePut head merged).contents
        = Function.update state.contents head (some ⟨types, rows⟩) := by
  obtain ⟨first, rest, rfl⟩ := List.exists_cons_of_ne_nil hinputs
  obtain ⟨hfirst, hrest⟩ := List.forall_mem_cons.mp htyped
  obtain ⟨merged, hmerged, hextension⟩ :=
    h.union first rest fun other hother => (hrest other hother).trans hfirst.symm
  have hsame : {row | ∃ buffer ∈ first :: rest, row ∈ buffer.rows} = rows := Set.ext hrows
  refine ⟨merged, hmerged, ?_⟩
  rw [storePut_contents, hextension, hfirst, hsame]

theorem contents_eq_update {state : ExecutorState V} {head : String} {existing : Buffer V}
    (hstore : state.store head = some existing) {extension : Extension V}
    (h : existing.extension = extension)
    : state.contents = Function.update state.contents head (some extension) := by
  refine (Function.update_eq_self_iff.mpr ?_).symm
  simp [ExecutorState.contents, hstore, h]

theorem existingRows_eq_some {state : ExecutorState V} {head : String} {existing : Buffer V}
    (h : existingRows routes state head = some existing)
    : state.store head = some existing :=
  (Option.filter_eq_some_iff.mp h).1

theorem RuleRoutes.Unions.rows_of_existingRows_none (h : routes.Unions) {state : ExecutorState V}
    {head : String} (hnone : existingRows routes state head = none) {existing : Buffer V}
    (hstore : state.store head = some existing)
    : existing.rows = [] := by
  refine h.rows_eq_nil ?_
  simpa [existingRows, hstore] using hnone

/-- The buffers without room add no rows to a batch. -/
theorem RuleRoutes.Unions.exists_nonEmpty_iff (h : routes.Unions)
    {results : List (Buffer V × Bool)} {row : Row V}
    : (∃ buffer ∈ (results.map Prod.fst).filter fun buffer => !routes.isEmpty buffer,
        row ∈ buffer.rows)
      ↔ ∃ result ∈ results, row ∈ result.1.rows := by
  constructor
  · rintro ⟨buffer, hbuffer, hrow⟩
    obtain ⟨result, hresult, rfl⟩ := List.mem_map.mp (List.mem_filter.mp hbuffer).1
    exact ⟨result, hresult, hrow⟩
  · rintro ⟨result, hresult, hrow⟩
    refine ⟨result.1, List.mem_filter.mpr ⟨List.mem_map_of_mem hresult, ?_⟩, hrow⟩
    by_contra hempty
    rw [h.rows_eq_nil (by simpa using hempty)] at hrow
    exact List.not_mem_nil hrow

theorem plainArm_installs (h : routes.Unions) : (plainArm routes).Installs := by
  intro state head types results hmerge
  have htyped : ∀ buffer ∈ (results.map Prod.fst).filter fun buffer => !routes.isEmpty buffer,
      buffer.types = types := by
    intro buffer hbuffer
    obtain ⟨result, hresult, rfl⟩ := List.mem_map.mp (List.mem_filter.mp hbuffer).1
    exact hmerge.typed result hresult
  have hrows (row : Row V)
      : (∃ buffer ∈ (results.map Prod.fst).filter fun buffer => !routes.isEmpty buffer,
          row ∈ buffer.rows)
        ↔ ∃ result ∈ results, row ∈ result.1.rows := h.exists_nonEmpty_iff
  generalize hnonEmpty : ((results.map Prod.fst).filter fun buffer => !routes.isEmpty buffer)
    = nonEmpty at htyped hrows
  simp only [plainArm, installPlainHeadBatch, hnonEmpty]
  cases hexisting : existingRows routes state head with
  | some existing =>
    have hstore := existingRows_eq_some hexisting
    cases nonEmpty with
    | nil =>
      -- no result has rows, and the relation stays as it is
      refine ⟨state, by simp, rfl, contents_eq_update hstore ?_⟩
      refine Extension.ext (hmerge.existing existing hstore) (Set.ext fun row => ?_)
      simp [mergedRows, Buffer.extension, hstore, ← hrows]
    | cons first rest =>
      have hmerged (row : Row V)
          : (∃ buffer ∈ existing :: first :: rest, row ∈ buffer.rows)
            ↔ row ∈ mergedRows state head results := by
        rw [List.exists_mem_cons_iff, hrows]
        simp [mergedRows, hstore]
      obtain ⟨merged, hmerged, hcontents⟩ := h.put state head (List.cons_ne_nil existing _)
        (List.forall_mem_cons.mpr ⟨hmerge.existing existing hstore, htyped⟩) hmerged
      exact ⟨state.storePut head merged, by simp [hmerged], rfl, hcontents⟩
  | none =>
    have hexisting' (existing : Buffer V) (hstore : state.store head = some existing)
        : existing.rows = [] := h.rows_of_existingRows_none hexisting hstore
    have hmerged' (row : Row V)
        : (∃ buffer ∈ nonEmpty, row ∈ buffer.rows) ↔ row ∈ mergedRows state head results := by
      rw [hrows]
      refine (or_iff_right ?_).symm
      rintro ⟨existing, hstore, hrow⟩
      simp [hexisting' existing hstore] at hrow
    cases nonEmpty with
    | nil =>
      cases hstore : state.store head with
      | some existing =>
        refine ⟨state, by simp, rfl, contents_eq_update hstore ?_⟩
        refine Extension.ext (hmerge.existing existing hstore) (Set.ext fun row => ?_)
        simp [Buffer.extension, hexisting' existing hstore, ← hmerged']
      | none =>
        obtain ⟨first, rest, rfl⟩ := List.exists_cons_of_ne_nil hmerge.nonempty
        refine ⟨state.storePut head first.1, by simp, rfl, ?_⟩
        rw [storePut_contents]
        congr 2
        refine Extension.ext (hmerge.typed first (by simp)) (Set.ext fun row => ?_)
        have hfirst : row ∉ first.1.rows := fun hrow => by
          simpa using (hrows row).mpr ⟨first, by simp, hrow⟩
        simp [Buffer.extension, hfirst, ← hmerged']
    | cons first rest =>
      obtain ⟨merged, hmerged, hcontents⟩ := h.put state head (List.cons_ne_nil first rest)
        htyped hmerged'
      exact ⟨state.storePut head merged, by simp [hmerged], rfl, hcontents⟩

theorem dispatchedArm_installs (h : routes.Unions) : (dispatchedArm routes).Installs := by
  intro state head types results hmerge
  have htyped : ∀ buffer ∈ results.map Prod.fst, buffer.types = types := by
    intro buffer hbuffer
    obtain ⟨result, hresult, rfl⟩ := List.mem_map.mp hbuffer
    exact hmerge.typed result hresult
  simp only [dispatchedArm]
  cases hexisting : existingRows routes state head with
  | some existing =>
    have hstore := existingRows_eq_some hexisting
    have hrows (row : Row V)
        : (∃ buffer ∈ existing :: results.map Prod.fst, row ∈ buffer.rows)
          ↔ row ∈ mergedRows state head results := by
      simp [mergedRows, hstore]
    obtain ⟨merged, hmerged, hcontents⟩ := h.put state head (List.cons_ne_nil existing _)
      (List.forall_mem_cons.mpr ⟨hmerge.existing existing hstore, htyped⟩) hrows
    exact ⟨state.storePut head merged, by simp [installDispatchedHeadBatch, hexisting, hmerged], rfl,
      hcontents⟩
  | none =>
    have hrows (row : Row V)
        : (∃ result ∈ results, row ∈ result.1.rows) ↔ row ∈ mergedRows state head results := by
      refine (or_iff_right ?_).symm
      rintro ⟨existing, hstore, hrow⟩
      simp [h.rows_of_existingRows_none hexisting hstore] at hrow
    have hmerged (row : Row V)
        : (∃ buffer ∈ results.map Prod.fst, row ∈ buffer.rows)
          ↔ row ∈ mergedRows state head results := by
      simp [← hrows]
    obtain ⟨merged, hmerged, hcontents⟩ := h.put state head (by simpa using hmerge.nonempty) htyped
      hmerged
    match results with
    | [] => exact absurd rfl hmerge.nonempty
    | [(result, alreadyDeduped)] =>
      by_cases hkeep : (alreadyDeduped || routes.isEmpty result) = true
      · -- a result that is kept as it is
        refine ⟨state.storePut head result, by simp [installDispatchedHeadBatch, hexisting, hkeep],
          rfl, ?_⟩
        rw [storePut_contents]
        congr 2
        refine Extension.ext (hmerge.typed (result, alreadyDeduped) (by simp)) (Set.ext fun row => ?_)
        simp [Buffer.extension, ← hrows]
      · simp only [List.map_cons, List.map_nil] at hmerged
        exact ⟨state.storePut head merged,
          by simp [installDispatchedHeadBatch, hexisting, hkeep, hmerged], rfl, hcontents⟩
    | first :: second :: rest =>
      simp only [List.map_cons] at hmerged
      exact ⟨state.storePut head merged, by simp [installDispatchedHeadBatch, hexisting, hmerged], rfl,
        hcontents⟩

-- Waiting results

/-- What the rules so far come to: the store with the waiting results in their head. -/
inductive Tracks (state : ExecutorState V) (contents : Contents V)
    : Option String → List (Buffer V × Bool) → Prop where
  | idle (same : state.contents = contents) : Tracks state contents none []
  | waiting {head : String} {types : List ScalarType} {pending : List (Buffer V × Bool)}
    (mergeable : Mergeable state head types pending)
    (merged : contents
      = Function.update state.contents head (some ⟨types, mergedRows state head pending⟩))
    : Tracks state contents (some head) pending

def presentIn (contents : Contents V) (name : String) : Bool := (contents name).isSome

/-- A result added to its head in turn is the first of a new batch. -/
theorem Tracks.first {state : ExecutorState V} {contents : Contents V} {head : String}
    {result : Buffer V × Bool} (h : unionInto state.contents head result.1.extension = some contents)
    : Tracks state contents (some head) [result] := by
  unfold unionInto at h
  cases hstore : state.store head with
  | none =>
    have hnone : state.contents head = none := by simp [ExecutorState.contents, hstore]
    rw [hnone] at h
    cases Option.some.inj h
    have hmerge : Mergeable state head result.1.types [result] := ⟨by simp, by simp, by simp [hstore]⟩
    refine .waiting hmerge ?_
    congr 2
    refine Extension.ext rfl (Set.ext fun row => ?_)
    simp [mergedRows, hstore, Buffer.extension]
  | some existing =>
    have hsome : state.contents head = some existing.extension := by
      simp [ExecutorState.contents, hstore]
    rw [hsome] at h
    simp only at h
    split at h
    · next htypes =>
      cases Option.some.inj h
      have hmerge : Mergeable state head result.1.types [result] := by
        refine ⟨by simp, by simp, fun other hother => ?_⟩
        cases Option.some.inj (hstore.symm.trans hother)
        exact htypes
      refine .waiting hmerge ?_
      congr 2
      refine Extension.ext htypes (Set.ext fun row => ?_)
      simp [mergedRows, hstore, Buffer.extension]
    · simp at h

/-- A result added to its head in turn is the next of the waiting ones. -/
theorem Tracks.next {state : ExecutorState V} {contents contents' : Contents V} {head : String}
    {pending : List (Buffer V × Bool)} {result : Buffer V × Bool}
    (h : Tracks state contents (some head) pending)
    (hunion : unionInto contents head result.1.extension = some contents')
    : Tracks state contents' (some head) (pending ++ [result]) := by
  obtain - | @⟨_, types, _, hmerge, hmerged⟩ := h
  subst hmerged
  unfold unionInto at hunion
  simp only [Function.update_self] at hunion
  split at hunion
  · next htypes =>
    cases Option.some.inj hunion
    have hnext : Mergeable state head types (pending ++ [result]) := by
      refine ⟨by simp, ?_, hmerge.existing⟩
      exact List.forall_mem_append.mpr ⟨hmerge.typed, by simpa [Buffer.extension] using htypes.symm⟩
    refine .waiting hnext ?_
    rw [Function.update_idem]
    congr 2
    refine Extension.ext rfl (Set.ext fun row => ?_)
    simp [mergedRows, Buffer.extension, or_and_right, exists_or, or_assoc]
  · simp at hunion

-- One rule

/-- Which relations are there once what waits has been merged. -/
def installed (present : String → Bool) : Option String → String → Bool
  | none => present
  | some head => Function.update present head true

/-- Whether the results that wait for the head keep waiting while the rule is evaluated. -/
def keepsWaiting (names : RelId → Option String) (pendingHead : Option String)
    (rule : CompiledRule) : Bool :=
  pendingHead = some rule.head && !bodyReadsOwnHead names rule

/-- No rule carries its head's rows while the first of them still wait. -/
def carriesInstalled (names : RelId → Option String)
    : (String → Bool) → Option String → List CompiledRule → Bool
  | _, _, [] => true
  | present, pendingHead, rule :: rules =>
      let waits := keepsWaiting names pendingHead rule
      let present := if waits then present else installed present pendingHead
      (!(waits && carriesHead names rule) || present rule.head)
        && carriesInstalled names present (some rule.head) rules

variable {arm : Arm V} {names : RelId → Option String}
variable {yield : Contents V → RirNode → Option (Extension V)}

theorem Tracks.present {state : ExecutorState V} {contents : Contents V}
    {pendingHead : Option String} {pending : List (Buffer V × Bool)}
    (h : Tracks state contents pendingHead pending)
    : presentIn contents = installed (presentIn state.contents) pendingHead := by
  cases h with
  | idle same => rw [← same]; rfl
  | @waiting head types pending mergeable merged =>
    funext name
    by_cases hname : name = head
    · subst hname
      simp [presentIn, installed, merged]
    · simp [presentIn, installed, merged, hname]

/-- Before a rule, either everything waiting is merged or the rule can do without it. -/
theorem flushBefore_spec (hinstalls : arm.Installs) {state : ExecutorState V}
    {contents : Contents V} {pendingHead : Option String} {pending : List (Buffer V × Bool)}
    (h : Tracks state contents pendingHead pending) (rule : CompiledRule)
    : if keepsWaiting state.getRelName pendingHead rule then
        arm.flushBefore state pendingHead pending rule = .ok (state, pending)
      else
        ∃ after, arm.flushBefore state pendingHead pending rule = .ok (after, [])
          ∧ after.getRelName = state.getRelName ∧ after.contents = contents := by
  cases h with
  | idle same => simp [keepsWaiting, Arm.flushBefore, same]
  | @waiting head types pending mergeable merged =>
    obtain ⟨after, hinstall, hnames, hcontents⟩ := hinstalls state head types pending mergeable
    by_cases hsame : head = rule.head
    · cases hreads : bodyReadsOwnHead state.getRelName rule with
      | false => simp [keepsWaiting, Arm.flushBefore, hsame, hreads]
      | true =>
        simp [keepsWaiting, Arm.flushBefore, hreads, mergeable.nonempty, hinstall, hnames, hcontents,
          merged]
    · simp [keepsWaiting, Arm.flushBefore, hsame, hinstall, hnames, hcontents, merged]

theorem Arm.Yields.evaluate_ok (h : arm.Yields names yield) {state : ExecutorState V}
    (hnames : state.getRelName = names) {rule : CompiledRule} {extension : Extension V}
    (hyield : yield state.contents rule.body = some extension)
    : ∃ result, arm.evaluate state rule = .ok result ∧ result.1.extension = extension := by
  have hevaluates := h.evaluates state rule hnames
  rw [hyield] at hevaluates
  cases hresult : arm.evaluate state rule with
  | error error => simp [hresult, Except.toOption] at hevaluates
  | ok result => exact ⟨result, rfl, by simpa [hresult, Except.toOption] using hevaluates⟩

theorem Arm.Yields.evaluate_error (h : arm.Yields names yield) {state : ExecutorState V}
    (hnames : state.getRelName = names) {rule : CompiledRule}
    (hyield : yield state.contents rule.body = none)
    : ∃ error, arm.evaluate state rule = .error error := by
  have hevaluates := h.evaluates state rule hnames
  rw [hyield] at hevaluates
  cases hresult : arm.evaluate state rule with
  | error error => exact ⟨error, rfl⟩
  | ok result => simp [hresult, Except.toOption] at hevaluates

theorem carriesHead_true {rule : CompiledRule} (h : carriesHead names rule = true)
    : ∃ rel, rule.body = .scan rel ∧ names rel = some rule.head := by
  unfold carriesHead at h
  split at h
  · next rel hbody => exact ⟨rel, hbody, of_decide_eq_true h⟩
  · simp at h

/-- A rule that neither reads nor carries its head yields the same while results for it wait. -/
theorem Arm.Yields.yield_of_waiting (h : arm.Yields names yield) {contents contents' : Contents V}
    {rule : CompiledRule} (hreads : bodyReadsOwnHead names rule = false)
    (hcarries : carriesHead names rule = false)
    (hsame : ∀ name, name ≠ rule.head → contents name = contents' name)
    : yield contents rule.body = yield contents' rule.body := by
  refine h.reads contents contents' rule.body fun rel hrel name hname => hsame name ?_
  rintro rfl
  simp only [bodyReadsOwnHead, hcarries, Bool.not_false, Bool.true_and, List.any_eq_false] at hreads
  exact hreads rel hrel (decide_eq_true hname)

-- All rules

theorem unionInto_of_subset {contents : Contents V} {head : String} {existing result : Extension V}
    (hexisting : contents head = some existing) (htypes : result.types = existing.types)
    (hrows : result.rows ⊆ existing.rows)
    : unionInto contents head result = some contents := by
  unfold unionInto
  rw [hexisting]
  simp only [htypes, if_true, Option.some.injEq, Set.union_eq_left.mpr hrows]
  exact Function.update_eq_self_iff.mpr hexisting.symm

/-- What a waiting rule yields from the store leads where it leads in turn, if it yields at all. -/
theorem Tracks.yield_waiting (hyields : arm.Yields names yield) {state : ExecutorState V}
    {contents contents' : Contents V} {rule : CompiledRule} {pending : List (Buffer V × Bool)}
    (h : Tracks state contents (some rule.head) pending)
    (hreads : bodyReadsOwnHead names rule = false) {extension : Extension V}
    (hyield : yield contents rule.body = some extension)
    (hunion : unionInto contents rule.head extension = some contents')
    : if !carriesHead names rule || presentIn state.contents rule.head then
        ∃ found, yield state.contents rule.body = some found
          ∧ unionInto contents rule.head found = some contents'
      else yield state.contents rule.body = none := by
  obtain - | @⟨_, types, _, hmerge, hmerged⟩ := h
  cases hcarries : carriesHead names rule with
  | false =>
    have hsame : yield state.contents rule.body = yield contents rule.body :=
      hyields.yield_of_waiting hreads hcarries fun name hname => by simp [hmerged, hname]
    simpa [hsame] using ⟨extension, hyield, hunion⟩
  | true =>
    obtain ⟨rel, hbody, hrel⟩ := carriesHead_true hcarries
    have hscan (contents : Contents V) : yield contents rule.body = contents rule.head := by
      rw [hbody, hyields.scan, hrel]
      rfl
    have hhead : contents rule.head
        = some ⟨types, mergedRows state rule.head pending⟩ := by
      rw [hmerged, Function.update_self]
    -- in turn the rule adds the rows that its head has
    obtain rfl : contents = contents' := by
      rw [hscan] at hyield
      exact Option.some.inj ((unionInto_of_subset hyield rfl subset_rfl).symm.trans hunion)
    cases hstore : state.store rule.head with
    | none =>
      have hnone : state.contents rule.head = none := by simp [ExecutorState.contents, hstore]
      simp [presentIn, hscan, hnone]
    | some existing =>
      have hsome : state.contents rule.head = some existing.extension := by
        simp [ExecutorState.contents, hstore]
      have hsubset : existing.extension.rows ⊆ mergedRows state rule.head pending :=
        fun row hrow => .inl ⟨existing, hstore, hrow⟩
      simpa [presentIn, hscan, hsome]
        using unionInto_of_subset hhead (hmerge.existing existing hstore) hsubset

theorem executeRules_spec (hyields : arm.Yields names yield) (hinstalls : arm.Installs)
    {state : ExecutorState V} {contents final : Contents V} {pendingHead : Option String}
    {pending : List (Buffer V × Bool)} (h : Tracks state contents pendingHead pending)
    (hnames : state.getRelName = names) {rules : List CompiledRule}
    (hturn : evaluateInTurn yield contents rules = some final)
    : if carriesInstalled names (presentIn state.contents) pendingHead rules then
        ∃ after, arm.executeRules state pendingHead pending rules = (after, .ok ())
          ∧ after.contents = final
      else ∃ after error, arm.executeRules state pendingHead pending rules = (after, .error error) := by
  induction rules generalizing state contents pendingHead pending with
  | nil =>
    cases Option.some.inj hturn
    cases h with
    | idle same => simpa [carriesInstalled, Arm.executeRules] using same
    | @waiting head types pending mergeable merged =>
      obtain ⟨after, hinstall, -, hcontents⟩ := hinstalls state head types pending mergeable
      simp [carriesInstalled, Arm.executeRules, hinstall, hcontents, merged]
  | cons rule rules ih =>
    obtain ⟨extension, hyield, contents', hunion, hturn⟩ :
        ∃ extension, yield contents rule.body = some extension ∧ ∃ contents',
          unionInto contents rule.head extension = some contents'
          ∧ evaluateInTurn yield contents' rules = some final := by
      simpa [evaluateInTurn, Option.bind_eq_some_iff] using hturn
    have hflush := flushBefore_spec hinstalls h rule
    rw [hnames] at hflush
    cases hwaits : keepsWaiting names pendingHead rule with
    | true =>
      obtain ⟨hhead, hreads⟩ := (Bool.and_eq_true _ _).mp hwaits
      obtain rfl : pendingHead = some rule.head := of_decide_eq_true hhead
      simp only [hwaits, if_true] at hflush
      have hfound := h.yield_waiting hyields (by simpa using hreads) hyield hunion
      split at hfound
      · next hpresent =>
        obtain ⟨found, hfound, hunion⟩ := hfound
        obtain ⟨result, hresult, rfl⟩ := hyields.evaluate_ok hnames hfound
        have hrest := ih (h.next hunion) hnames hturn
        simpa [carriesInstalled, Arm.executeRules, hwaits, hflush, hresult, hpresent] using hrest
      · next habsent =>
        obtain ⟨error, herror⟩ := hyields.evaluate_error hnames hfound
        simp only [Bool.or_eq_true, not_or, Bool.not_eq_true] at habsent
        simp [carriesInstalled, Arm.executeRules, hwaits, hflush, herror, habsent]
    | false =>
      rw [hwaits] at hflush
      obtain ⟨after, hflush, hafter, hcontents⟩ := hflush
      rw [← hcontents] at hyield hunion
      obtain ⟨result, hresult, rfl⟩ := hyields.evaluate_ok hafter hyield
      have hrest := ih (Tracks.first hunion) hafter hturn
      rw [hcontents, h.present] at hrest
      simpa [carriesInstalled, Arm.executeRules, hwaits, hflush, hresult] using hrest

-- Failures

theorem flushBefore_ok {state after : ExecutorState V} {pendingHead : Option String}
    {pending rest : List (Buffer V × Bool)} {rule : CompiledRule}
    (h : arm.flushBefore state pendingHead pending rule = .ok (after, rest))
    : after = state ∨ arm.executeRules state pendingHead pending [] = (after, .ok ()) := by
  unfold Arm.flushBefore at h
  split at h
  · cases Except.ok.inj h
    exact .inl rfl
  · split at h
    · obtain ⟨merged, hinstall, hafter⟩ := bind_eq_ok.mp h
      cases Except.ok.inj hafter
      exact .inr (by simp [Arm.executeRules, hinstall])
    · cases Except.ok.inj h
      exact .inl rfl

/-- A failure leaves the store as the batches before it have left it. -/
theorem executeRules_error {state after : ExecutorState V} {pendingHead : Option String}
    {pending : List (Buffer V × Bool)} {rules : List CompiledRule} {error : XlogError}
    (h : arm.executeRules state pendingHead pending rules = (after, .error error))
    : after = state ∨ ∃ done rest, rules = done ++ rest
      ∧ arm.executeRules state pendingHead pending done = (after, .ok ()) := by
  induction rules generalizing state pendingHead pending with
  | nil =>
    simp only [Arm.executeRules] at h
    split at h
    · simp at h
    · split at h
      · exact .inl (Prod.mk.inj h).1.symm
      · simp at h
  | cons rule rules ih =>
    simp only [Arm.executeRules] at h
    split at h
    · exact .inl (Prod.mk.inj h).1.symm
    · next mid rest hflush =>
      have hmid : after = mid → after = state ∨ ∃ done rest, rule :: rules = done ++ rest
          ∧ arm.executeRules state pendingHead pending done = (after, .ok ()) := by
        rintro rfl
        exact (flushBefore_ok hflush).imp_right fun hdone => ⟨[], rule :: rules, rfl, hdone⟩
      split at h
      · exact hmid (Prod.mk.inj h).1.symm
      · next result hresult =>
        rcases ih h with hsame | ⟨done, rest, rfl, hdone⟩
        · exact hmid hsame
        · exact .inr ⟨rule :: done, rest, rfl, by simpa [Arm.executeRules, hflush, hresult] using hdone⟩

-- Both arms

/-- The rules leave every relation as one after the other they would, whenever that succeeds. -/
def RunsInTurn (run : List CompiledRule → ExecutorState V × Result Unit)
    (yield : Contents V → RirNode → Option (Extension V)) (state : ExecutorState V)
    (rules : List CompiledRule) : Prop :=
  ∀ final, evaluateInTurn yield state.contents rules = some final
    → ∃ after, run rules = (after, .ok ()) ∧ after.contents = final

/-- A failure leaves the store as a successful run of the first rules does. -/
def FailsBetweenBatches (run : List CompiledRule → ExecutorState V × Result Unit)
    (rules : List CompiledRule) : Prop :=
  ∀ after error, run rules = (after, .error error)
    → ∃ done rest, rules = done ++ rest ∧ run done = (after, .ok ())

/-- Where the rules succeed in turn, none carries its head's rows while the first of them wait. -/
def CarriesInstalled (yield : Contents V → RirNode → Option (Extension V))
    (state : ExecutorState V) (rules : List CompiledRule) : Prop :=
  (evaluateInTurn yield state.contents rules).isSome
    → carriesInstalled state.getRelName (presentIn state.contents) none rules = true

theorem Arm.failsBetweenBatches (arm : Arm V) (state : ExecutorState V) (rules : List CompiledRule)
    : FailsBetweenBatches (arm.executeRules state none []) rules := by
  intro after error h
  rcases executeRules_error h with rfl | hdone
  · exact ⟨[], rules, rfl, rfl⟩
  · exact hdone

theorem Arm.runsInTurn_iff {state : ExecutorState V} (hyields : arm.Yields state.getRelName yield)
    (hinstalls : arm.Installs) (rules : List CompiledRule)
    : RunsInTurn (arm.executeRules state none []) yield state rules
      ↔ CarriesInstalled yield state rules := by
  constructor
  · intro h hsome
    obtain ⟨final, hfinal⟩ := Option.isSome_iff_exists.mp hsome
    obtain ⟨after, hrun, -⟩ := h final hfinal
    have hspec := executeRules_spec hyields hinstalls (.idle rfl) rfl hfinal
    by_contra hcarries
    rw [if_neg hcarries] at hspec
    obtain ⟨after', error, hrun'⟩ := hspec
    simp [hrun] at hrun'
  · intro h final hfinal
    have hspec := executeRules_spec hyields hinstalls (.idle rfl) rfl hfinal
    rwa [if_pos (h (Option.isSome_iff_exists.mpr ⟨final, hfinal⟩))] at hspec

end

-- Rules that only scan

def scanNode (state : ExecutorState Nat) : RirNode → Result (Buffer Nat)
  | .scan rel =>
      match state.getRelName rel with
      | none => .error (.execution "Unknown relation")
      | some name =>
          match state.store name with
          | some buffer => .ok buffer
          | none => .error (.execution ("Relation not found: " ++ name))
  | _ => .error (.execution "only scans")

/-- The dispatchers leave a scan to the executor. -/
def declineScans : RirNode → Result (Option (Buffer Nat))
  | .scan _ => .ok none
  | _ => .error (.execution "only scans")

def unionRows (first : Buffer Nat) (rest : List (Buffer Nat)) : Buffer Nat where
  schema := first.schema
  rows := (((first :: rest).flatMap Buffer.rows).filter fun row =>
    row.length = first.schema.arity).dedup
  width := by
    intro row hrow
    simpa using (List.mem_filter.mp (List.mem_dedup.mp hrow)).2

def scanRoutes : RuleRoutes Nat where
  unionManyGpu := fun inputs =>
    match inputs with
    | [] => .error (.kernel "union_many_gpu requires at least one input")
    | first :: rest =>
        if rest.all fun other => other.types = first.types then .ok (unionRows first rest)
        else .error (.kernel "Union requires compatible schemas")
  rowCap := fun buffer => buffer.rows.length
  executeNode := scanNode
  dispatchChain := fun _ => declineScans
  dispatchWcoj := []
  dispatchFreeJoin := fun _ => declineScans

def scanYield (names : RelId → Option String) (contents : Contents Nat) : RirNode → Option (Extension Nat)
  | .scan rel => (names rel).bind contents
  | _ => none

theorem width_eq_of_types {first other : Buffer Nat} (h : other.types = first.types) {row : Row Nat}
    (hrow : row ∈ other.rows)
    : row.length = first.schema.arity := by
  rw [other.width row hrow]
  simpa [Buffer.types, Schema.arity] using congrArg List.length h

theorem scanRoutes_unions : scanRoutes.Unions where
  union := by
    intro first rest htyped
    refine ⟨unionRows first rest, by simpa [scanRoutes] using htyped, ?_⟩
    refine Extension.ext rfl (Set.ext fun row => ?_)
    simp only [Buffer.extension, unionRows, Set.mem_ofPred_eq, List.mem_dedup, List.mem_filter,
      List.mem_flatMap, decide_eq_true_eq, and_iff_left_iff_imp]
    rintro ⟨other, hother, hrow⟩
    rcases List.mem_cons.mp hother with rfl | hrest
    · exact other.width row hrow
    · exact width_eq_of_types (htyped other hrest) hrow
  rowCap := fun _ => le_rfl

theorem scanNode_extension (state : ExecutorState Nat) (body : RirNode)
    : (scanNode state body).toOption.map Buffer.extension
      = scanYield state.getRelName state.contents body := by
  cases body with
  | scan rel =>
    simp only [scanNode, scanYield, ExecutorState.contents]
    cases state.getRelName rel with
    | none => rfl
    | some name => cases hstore : state.store name <;> simp [hstore, Except.toOption, ExecutorState.contents]
  | _ => rfl

theorem scanYield_reads {names : RelId → Option String} (contents contents' : Contents Nat)
    (body : RirNode)
    (h : ∀ rel ∈ collectScanRels body, ∀ name, names rel = some name
      → contents name = contents' name)
    : scanYield names contents body = scanYield names contents' body := by
  cases body with
  | scan rel =>
    cases hname : names rel with
    | none => simp [scanYield, hname]
    | some name => simpa [scanYield, hname] using h rel (by simp [collectScanRels]) name hname
  | _ => rfl

theorem plainArm_scanYields (names : RelId → Option String)
    : (plainArm scanRoutes).Yields names (scanYield names) where
  evaluates := by
    rintro state rule rfl
    rw [← scanNode_extension]
    simp only [plainArm, scanRoutes]
    cases scanNode state rule.body <;> rfl
  reads := scanYield_reads
  scan := fun _ _ => rfl

theorem dispatchedArm_scanYields (names : RelId → Option String)
    : (dispatchedArm scanRoutes).Yields names (scanYield names) where
  evaluates := by
    rintro state rule rfl
    rw [← scanNode_extension]
    cases hbody : rule.body with
    | scan rel =>
      simp only [dispatchedArm, dispatchRule, scanRoutes, hbody, declineScans, firstDispatch,
        bodyToExecute, ok_bind]
      cases scanNode state (.scan rel) <;> rfl
    | _ => simp [dispatchedArm, dispatchRule, scanRoutes, hbody, declineScans, scanNode,
        Except.toOption]
  reads := scanYield_reads
  scan := fun _ _ => rfl

def unitRelation (values : List Nat) : Buffer Nat where
  schema := ⟨[("x", .u32)]⟩
  rows := values.map fun value => [value]
  width := by
    intro row hrow
    obtain ⟨value, -, rfl⟩ := List.mem_map.mp hrow
    rfl

/-- `q` holds 1 and `p` is not stored. -/
def scanState : ExecutorState Nat where
  store := Function.update (fun _ => none) "q" (some (unitRelation [1]))
  relNames := [(0, "p"), (1, "q"), (2, "r")]
  nameToRel := fun _ => none
  cardinalities := fun _ => none

def scanRule (head : String) (rel : RelId) : CompiledRule where
  head := head
  body := .scan rel
  info := ⟨⟨[("x", .u32)]⟩⟩

theorem scanState_contents
    : scanState.contents
      = Function.update (fun _ => none) "q" (some (unitRelation [1]).extension) := by
  funext name
  by_cases h : name = "q" <;> simp [ExecutorState.contents, scanState, h]

theorem scanYield_p (contents : Contents Nat)
    : scanYield scanState.getRelName contents (.scan 0) = contents "p" :=
  rfl

theorem scanYield_q (contents : Contents Nat)
    : scanYield scanState.getRelName contents (.scan 1) = contents "q" :=
  rfl

end Xlog.Runtime
