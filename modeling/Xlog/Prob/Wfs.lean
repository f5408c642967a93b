import Xlog.Foundation.WellFoundedModel
import Xlog.Prob.Canonical
import Xlog.Prob.Pir

/-! The well-founded evaluation of a component with cycles through negation: sets of true and false atoms, with
a provenance formula for every true atom merged on the side. Hash sets and maps are lists here: no result
depends on the order of their entries, except the numbers of the pushed nodes. The sets are compared with
the stages of the alternating iteration.
-/

namespace Xlog.Prob

open Xlog.Core

structure WfsAtom where
  predicate : String
  args : List Value
  deriving DecidableEq, Repr

inductive TruthValue where
  | true
  | false
  | undefined
  deriving DecidableEq, Repr

inductive WfsLiteral where
  | positive (atom : WfsAtom)
  | negative (atom : WfsAtom)
  deriving DecidableEq, Repr

/-- A ground rule; the provenance covers the literals outside the component. -/
structure WfsRule where
  head : WfsAtom
  body : List WfsLiteral
  provenance : PirNodeId
  deriving DecidableEq, Repr

/-- Whether the literals hold: `none` at the first one that is still open. -/
def literalsSatisfied (trueSet falseSet sccAtoms : List WfsAtom)
    : List WfsLiteral → Option Bool
  | [] => some true
  | .positive atom :: rest =>
      if atom ∈ falseSet then some false
      else if atom ∈ trueSet then literalsSatisfied trueSet falseSet sccAtoms rest
      else if atom ∈ sccAtoms then none
      else some false
  | .negative atom :: rest =>
      if atom ∈ trueSet then some false
      else if atom ∈ falseSet then literalsSatisfied trueSet falseSet sccAtoms rest
      else if atom ∈ sccAtoms then none
      -- an external atom that is not true is false
      else literalsSatisfied trueSet falseSet sccAtoms rest

def WfsRule.isSatisfied (rule : WfsRule) (trueSet falseSet sccAtoms : List WfsAtom)
    : Option Bool :=
  literalsSatisfied trueSet falseSet sccAtoms rule.body

structure WfsResult where
  trueSet : List (WfsAtom × PirNodeId)
  falseSet : List WfsAtom
  deriving DecidableEq, Repr

def WfsResult.new : WfsResult := ⟨[], []⟩

def WfsResult.truthValue (result : WfsResult) (atom : WfsAtom) : TruthValue :=
  if (result.trueSet.lookup atom).isSome then .true
  else if atom ∈ result.falseSet then .false
  else .undefined

def WfsResult.provenance (result : WfsResult) (atom : WfsAtom) : Option PirNodeId :=
  result.trueSet.lookup atom

structure WfsConfig where
  maxIterations : Nat
  deriving DecidableEq, Repr

def WfsConfig.default : WfsConfig := ⟨1000⟩

/-- The rules under evaluation and the atoms they derive. The rules of one head are found
by filtering, where the source keeps an index.
-/
structure WfsContext where
  rules : List WfsRule
  sccAtoms : List WfsAtom
  deriving DecidableEq, Repr

def WfsContext.new (rules : List WfsRule) : WfsContext :=
  ⟨rules, (rules.map WfsRule.head).dedup⟩

def WfsContext.rulesByHead (ctx : WfsContext) (atom : WfsAtom) : List WfsRule :=
  ctx.rules.filter (·.head = atom)

-- Unfounded sets

/-- Whether all literals may still come to hold. -/
def ruleIsPotentiallySupporting (rule : WfsRule)
    (trueSet falseSet unfounded sccAtoms : List WfsAtom) : Bool :=
  rule.body.all fun
    | .positive atom =>
        if atom ∈ falseSet then false
        else if atom ∈ trueSet then true
        else if atom ∈ sccAtoms then atom ∉ unfounded
        else false
    | .negative atom => atom ∉ trueSet

/-- The atoms that no rule can support while these are unfounded. -/
def unsupported (ctx : WfsContext) (trueSet falseSet unfounded : List WfsAtom)
    : List WfsAtom :=
  unfounded.filter fun atom =>
    !(ctx.rulesByHead atom).any fun rule =>
      ruleIsPotentiallySupporting rule trueSet falseSet unfounded ctx.sccAtoms

/-- Drop the supported atoms, all at once, until none is supported. -/
def removeSupported (ctx : WfsContext) (trueSet falseSet unfounded : List WfsAtom)
    : List WfsAtom :=
  let remaining := unsupported ctx trueSet falseSet unfounded
  if remaining.length < unfounded.length then removeSupported ctx trueSet falseSet remaining
  else remaining
termination_by unfounded.length

def computeUnfoundedSet (ctx : WfsContext) (trueSet falseSet : List WfsAtom)
    : List WfsAtom :=
  removeSupported ctx trueSet falseSet (ctx.sccAtoms.filter (· ∉ trueSet))

-- Consequences

/-- `map.entry(key).or_insert_with(..)` followed by an assignment to the entry. -/
def insertEntry (atom : WfsAtom) (id : PirNodeId) (entries : List (WfsAtom × PirNodeId))
    : List (WfsAtom × PirNodeId) :=
  entries.filter (·.1 ≠ atom) ++ [(atom, id)]

/-- Merge a proof into the entry of an atom: a fresh entry starts as false. -/
def orEntry (atom : WfsAtom) (proof : PirNodeId)
    (state : List (WfsAtom × PirNodeId) × PirGraph)
    : List (WfsAtom × PirNodeId) × PirGraph :=
  let (entry, pir) :=
    match state.1.lookup atom with
    | some entry => (entry, state.2)
    | none => state.2.constFalse
  let (id, pir) := pir.or [entry, proof]
  (insertEntry atom id state.1, pir)

/-- The rule's own provenance and those of its positive body atoms; atoms outside the
component have theirs folded into the rule's.
-/
def provParts (rule : WfsRule) (existing : List (WfsAtom × PirNodeId)) : List PirNodeId :=
  rule.provenance :: rule.body.filterMap fun
    | .positive atom => existing.lookup atom
    | .negative _ => none

/-- The proof that one rule gives. -/
def ruleProof (rule : WfsRule) (existing : List (WfsAtom × PirNodeId)) (pir : PirGraph)
    : PirNodeId × PirGraph :=
  match provParts rule existing with
  | [only] => (only, pir)
  | parts => pir.and parts

def deriveRule (ctx : WfsContext) (trueSet falseSet : List WfsAtom)
    (existing : List (WfsAtom × PirNodeId))
    (state : List (WfsAtom × PirNodeId) × PirGraph) (rule : WfsRule)
    : List (WfsAtom × PirNodeId) × PirGraph :=
  if rule.head ∈ trueSet ∨ rule.head ∈ falseSet then state
  else if rule.isSatisfied trueSet falseSet ctx.sccAtoms = some true then
    let (proof, pir) := ruleProof rule existing state.2
    orEntry rule.head proof (state.1, pir)
  else state

def deriveConsequences (ctx : WfsContext) (trueSet falseSet : List WfsAtom)
    (existing : List (WfsAtom × PirNodeId)) (pir : PirGraph)
    : List (WfsAtom × PirNodeId) × PirGraph :=
  ctx.rules.foldl (deriveRule ctx trueSet falseSet existing) ([], pir)

-- The alternating fixpoint

structure WfsState where
  trueSet : List WfsAtom
  trueProvenance : List (WfsAtom × PirNodeId)
  falseSet : List WfsAtom
  pir : PirGraph
  deriving DecidableEq, Repr

/-- Take over one new true atom. -/
def WfsState.addTrue (state : WfsState) (entry : WfsAtom × PirNodeId) : WfsState :=
  if entry.1 ∈ state.trueSet then state
  else
    let (provenance, pir) := orEntry entry.1 entry.2 (state.trueProvenance, state.pir)
    { state with
      trueSet := state.trueSet ++ [entry.1]
      trueProvenance := provenance
      pir := pir }

/-- One iteration, with the numbers of new false and new true atoms. -/
def wfsIteration (ctx : WfsContext) (state : WfsState) : WfsState × Nat × Nat :=
  let newFalse := (computeUnfoundedSet ctx state.trueSet state.falseSet).filter
    (· ∉ state.falseSet)
  let falseSet := state.falseSet ++ newFalse
  let (newTrue, pir) :=
    deriveConsequences ctx state.trueSet falseSet state.trueProvenance state.pir
  (newTrue.foldl WfsState.addTrue { state with falseSet := falseSet, pir := pir },
    newFalse.length, newTrue.length)

/-- The iterations that are left; the last one must be a fixed point. -/
def wfsLoop (ctx : WfsContext) (config : WfsConfig) : Nat → WfsState → Result WfsState
  | 0, state => .ok state
  | remaining + 1, state =>
      let (next, newFalseCount, newTrueCount) := wfsIteration ctx state
      if newFalseCount = 0 ∧ newTrueCount = 0 then .ok next
      else if remaining = 0 then
        .error (.execution
          s!"WFS evaluation did not converge after {config.maxIterations} iterations")
      else wfsLoop ctx config remaining next

def evaluateWfsRules (rules : List WfsRule) (pir : PirGraph) (config : WfsConfig)
    : Result (WfsResult × PirGraph) :=
  if rules.isEmpty then .ok (WfsResult.new, pir)
  else do
    let final ← wfsLoop (WfsContext.new rules) config config.maxIterations ⟨[], [], [], pir⟩
    .ok (⟨final.trueProvenance, final.falseSet⟩, final.pir)

-- Stages

open Xlog.Foundation

/-- A ground rule without its provenance. -/
def WfsRule.normal (rule : WfsRule) : NormalRule WfsAtom where
  head := rule.head
  pos := { atom | .positive atom ∈ rule.body }
  neg := { atom | .negative atom ∈ rule.body }

/-- The meaning of a list of ground rules. -/
def groundProgram (rules : List WfsRule) : Set (NormalRule WfsAtom) :=
  { normal | ∃ rule ∈ rules, rule.normal = normal }

theorem mem_groundProgram {rules : List WfsRule} {rule : WfsRule} (h : rule ∈ rules)
    : rule.normal ∈ groundProgram rules :=
  ⟨rule, h, rfl⟩

theorem groundProgram_mono {rules more : List WfsRule} (h : rules ⊆ more)
    : groundProgram rules ⊆ groundProgram more := by
  intro normal hn
  obtain ⟨rule, hr, he⟩ := hn
  exact ⟨rule, h hr, he⟩

theorem WfsContext.mem_sccAtoms {rules : List WfsRule} {atom : WfsAtom}
    : atom ∈ (WfsContext.new rules).sccAtoms ↔ ∃ rule ∈ rules, rule.head = atom := by
  simp [WfsContext.new]

theorem WfsContext.mem_rulesByHead {rules : List WfsRule} {atom : WfsAtom} {rule : WfsRule}
    : rule ∈ (WfsContext.new rules).rulesByHead atom ↔ rule ∈ rules ∧ rule.head = atom := by
  simp [WfsContext.rulesByHead, WfsContext.new]

/-- Atoms that no rule derives are unfounded from the start. -/
theorem external_mem_unfounded {rules : List WfsRule} {atom : WfsAtom}
    (h : atom ∉ (WfsContext.new rules).sccAtoms) (I : Set WfsAtom × Set WfsAtom)
    : atom ∈ unfounded (groundProgram rules) I := by
  refine mem_unfounded_of_no_rule fun normal hn he => h ?_
  obtain ⟨rule, hr, rfl⟩ := hn
  exact WfsContext.mem_sccAtoms.mpr ⟨rule, hr, he⟩

-- Literals

/-- All literals hold, by induction on the body. -/
theorem literalsSatisfied_eq_true {trueSet falseSet sccAtoms : List WfsAtom}
    {body : List WfsLiteral}
    : literalsSatisfied trueSet falseSet sccAtoms body = some true
      ↔ (∀ atom, .positive atom ∈ body → atom ∈ trueSet ∧ atom ∉ falseSet)
        ∧ ∀ atom, .negative atom ∈ body
            → atom ∉ trueSet ∧ (atom ∈ falseSet ∨ atom ∉ sccAtoms) := by
  induction body with
  | nil => simp [literalsSatisfied]
  | cons literal rest ih =>
      cases literal with
      | positive atom =>
          simp only [literalsSatisfied, List.mem_cons, WfsLiteral.positive.injEq,
            reduceCtorEq, false_or, forall_eq_or_imp]
          by_cases hf : atom ∈ falseSet
          · simp [hf]
          · by_cases ht : atom ∈ trueSet
            · simp [hf, ht, ih]
            · by_cases hs : atom ∈ sccAtoms <;> simp [hf, ht, hs]
      | negative atom =>
          simp only [literalsSatisfied, List.mem_cons, WfsLiteral.negative.injEq,
            reduceCtorEq, false_or, forall_eq_or_imp]
          by_cases ht : atom ∈ trueSet
          · simp [ht]
          · by_cases hf : atom ∈ falseSet
            · simp [hf, ht, ih]
            · by_cases hs : atom ∈ sccAtoms <;> simp [hf, ht, hs, ih]

theorem ruleIsPotentiallySupporting_eq_true {rule : WfsRule}
    {trueSet falseSet atoms sccAtoms : List WfsAtom}
    : ruleIsPotentiallySupporting rule trueSet falseSet atoms sccAtoms = true
      ↔ (∀ atom, .positive atom ∈ rule.body →
          atom ∉ falseSet ∧ (atom ∈ trueSet ∨ atom ∈ sccAtoms ∧ atom ∉ atoms))
        ∧ ∀ atom, .negative atom ∈ rule.body → atom ∉ trueSet := by
  simp only [ruleIsPotentiallySupporting, List.all_eq_true]
  constructor
  · intro h
    refine ⟨fun atom ha => ?_, fun atom ha => by simpa using h _ ha⟩
    have := h _ ha
    by_cases hf : atom ∈ falseSet
    · simp [hf] at this
    · by_cases ht : atom ∈ trueSet
      · exact ⟨hf, .inl ht⟩
      · by_cases hs : atom ∈ sccAtoms <;> simp_all
  · intro h literal hl
    cases literal with
    | positive atom =>
        obtain ⟨hf, ht | ⟨hs, hu⟩⟩ := h.1 atom hl
        · simp [hf, ht]
        · simp [hf, hs, hu]
    | negative atom => simpa using h.2 atom hl

-- Unfounded sets

/-- The lists hold the true atoms, and the false ones that some rule derives. -/
structure Represents (sccAtoms trueSet falseSet : List WfsAtom)
    (I : Set WfsAtom × Set WfsAtom) : Prop where
  trues : ∀ atom, atom ∈ trueSet ↔ atom ∈ I.1
  falses : ∀ atom, atom ∈ falseSet ↔ atom ∈ I.2 ∧ atom ∈ sccAtoms

/-- Removal stops at a fixed point below its start, and keeps every set that no round may
drop from, by induction along the rounds.
-/
theorem removeSupported_spec (ctx : WfsContext) (trueSet falseSet start : List WfsAtom)
    (keep : Set WfsAtom)
    (step : ∀ atoms : List WfsAtom, (∀ a ∈ keep, a ∈ atoms)
      → ∀ a ∈ keep, a ∈ unsupported ctx trueSet falseSet atoms)
    (hkeep : ∀ a ∈ keep, a ∈ start)
    : removeSupported ctx trueSet falseSet start ⊆ start
      ∧ (∀ a ∈ keep, a ∈ removeSupported ctx trueSet falseSet start)
      ∧ removeSupported ctx trueSet falseSet start
          ⊆ unsupported ctx trueSet falseSet (removeSupported ctx trueSet falseSet start) := by
  induction start using removeSupported.induct ctx trueSet falseSet with
  | case1 start remaining hlt ih =>
      obtain ⟨hsub, hk, hfixed⟩ := ih (step start hkeep)
      have hstep : removeSupported ctx trueSet falseSet start
          = removeSupported ctx trueSet falseSet remaining := by
        rw [removeSupported]
        exact if_pos hlt
      rw [hstep]
      exact ⟨List.Subset.trans hsub (List.filter_subset_self _), hk, hfixed⟩
  | case2 start remaining hge =>
      have hall : unsupported ctx trueSet falseSet start = start :=
        List.filter_eq_self.mpr (List.length_filter_eq_length_iff.mp
          (le_antisymm (List.length_filter_le _ _) (not_lt.mp hge)))
      have hstop : removeSupported ctx trueSet falseSet start = start := by
        rw [removeSupported]
        exact (if_neg hge).trans hall
      rw [hstop, hall]
      exact ⟨List.Subset.refl _, hkeep, List.Subset.refl _⟩

theorem mem_unsupported {rules : List WfsRule} {trueSet falseSet atoms : List WfsAtom}
    {atom : WfsAtom}
    : atom ∈ unsupported (WfsContext.new rules) trueSet falseSet atoms
      ↔ atom ∈ atoms ∧ ∀ rule ∈ rules, rule.head = atom
          → ruleIsPotentiallySupporting rule trueSet falseSet atoms
              (WfsContext.new rules).sccAtoms = false := by
  simp [unsupported, WfsContext.mem_rulesByHead]

/-- The unfounded set of the code is the greatest unfounded set, among the atoms that some
rule derives.
-/
theorem mem_computeUnfoundedSet {rules : List WfsRule} {trueSet falseSet : List WfsAtom}
    {I : Set WfsAtom × Set WfsAtom}
    (rep : Represents (WfsContext.new rules).sccAtoms trueSet falseSet I)
    (derives : ∀ atom ∈ I.1, atom ∈ (WfsContext.new rules).sccAtoms)
    (disjoint : Disjoint I.1 (unfounded (groundProgram rules) I)) {atom : WfsAtom}
    : atom ∈ computeUnfoundedSet (WfsContext.new rules) trueSet falseSet
      ↔ atom ∈ unfounded (groundProgram rules) I
        ∧ atom ∈ (WfsContext.new rules).sccAtoms := by
  let scc := (WfsContext.new rules).sccAtoms
  let keep : Set WfsAtom := { a | a ∈ unfounded (groundProgram rules) I ∧ a ∈ scc }
  have hnot : ∀ a ∈ unfounded (groundProgram rules) I, a ∉ trueSet :=
    fun a ha ht => Set.disjoint_left.mp disjoint ((rep.trues a).mp ht) ha
  have hexternal : ∀ a ∈ trueSet, a ∈ scc := fun a ha => derives a ((rep.trues a).mp ha)
  have hstep : ∀ atoms : List WfsAtom, (∀ a ∈ keep, a ∈ atoms)
      → ∀ a ∈ keep, a ∈ unsupported (WfsContext.new rules) trueSet falseSet atoms := by
    intro atoms hatoms a ha
    refine mem_unsupported.mpr ⟨hatoms a ha, fun rule hr he => ?_⟩
    rw [Bool.eq_false_iff, ne_eq, ruleIsPotentiallySupporting_eq_true, not_and_or]
    subst he
    obtain ⟨b, ⟨hp, hf⟩ | ⟨hn, ht⟩ | ⟨hp, hu⟩⟩ :=
      isUnfounded_unfounded _ I rule.normal (mem_groundProgram hr) ha.1
    · refine .inl fun hall => ?_
      obtain ⟨hnf, ht | hs⟩ := hall b hp
      · exact hnf ((rep.falses b).mpr ⟨hf, hexternal b ht⟩)
      · exact hnf ((rep.falses b).mpr ⟨hf, hs.1⟩)
    · exact .inr fun hall => hall b hn ((rep.trues b).mpr ht)
    · refine .inl fun hall => ?_
      obtain ⟨_, ht | hs⟩ := hall b hp
      · exact hnot b hu ht
      · exact hs.2 (hatoms b ⟨hu, hs.1⟩)
  obtain ⟨hsub, hkeep, hfixed⟩ := removeSupported_spec (WfsContext.new rules) trueSet falseSet
    (scc.filter (· ∉ trueSet)) keep hstep
    (fun a ha => List.mem_filter.mpr ⟨ha.2, by simpa using hnot a ha.1⟩)
  constructor
  · intro ha
    refine ⟨?_, (List.mem_filter.mp (hsub ha)).1⟩
    -- the computed atoms and the underivable ones form an unfounded set
    let all : Set WfsAtom :=
      { a | a ∈ computeUnfoundedSet (WfsContext.new rules) trueSet falseSet ∨ a ∉ scc }
    suffices hall : IsUnfounded (groundProgram rules) I all from hall.subset (.inl ha)
    intro normal hn hin
    obtain ⟨rule, hr, rfl⟩ := hn
    have hin : rule.head ∈ computeUnfoundedSet (WfsContext.new rules) trueSet falseSet :=
      hin.resolve_right fun hs => hs (WfsContext.mem_sccAtoms.mpr ⟨rule, hr, rfl⟩)
    have hno := (mem_unsupported.mp (hfixed hin)).2 rule hr rfl
    rw [Bool.eq_false_iff, ne_eq, ruleIsPotentiallySupporting_eq_true, not_and_or] at hno
    rcases hno with hpos | hneg
    · push Not at hpos
      obtain ⟨b, hb, hcase⟩ := hpos
      by_cases hf : b ∈ falseSet
      · exact ⟨b, .inl ⟨hb, ((rep.falses b).mp hf).1⟩⟩
      · refine ⟨b, .inr (.inr ⟨hb, ?_⟩)⟩
        by_cases hs : b ∈ scc
        · exact .inl ((hcase hf).2 hs)
        · exact .inr hs
    · push Not at hneg
      obtain ⟨b, hb, ht⟩ := hneg
      exact ⟨b, .inr (.inl ⟨hb, (rep.trues b).mp ht⟩)⟩
  · exact fun ha => hkeep atom ha

-- One iteration

/-- The lists of an iteration's start hold the stage of the same number. -/
def RepresentsStage (rules : List WfsRule) (n : Nat) (trueSet falseSet : List WfsAtom)
    : Prop :=
  Represents (WfsContext.new rules).sccAtoms trueSet falseSet
    (stage (groundProgram rules) n)

/-- Only heads of rules are ever true. -/
theorem stage_derives {rules : List WfsRule} {n : Nat} {atom : WfsAtom}
    (h : atom ∈ (stage (groundProgram rules) n).1)
    : atom ∈ (WfsContext.new rules).sccAtoms := by
  by_contra hs
  have hmore := (stage_le_succ (groundProgram rules) n).1 h
  have hfalse : atom ∈ (stage (groundProgram rules) (n + 1)).2 := by
    rw [stage_succ_snd]
    exact external_mem_unfounded hs _
  exact Set.disjoint_left.mp (stage_consistent _ (n + 1)) hmore hfalse

/-- Step 1 of an iteration reaches the false atoms of the next stage. -/
theorem RepresentsStage.falses_next {rules : List WfsRule} {n : Nat}
    {trueSet falseSet : List WfsAtom} (h : RepresentsStage rules n trueSet falseSet)
    {atom : WfsAtom}
    : atom ∈ falseSet ++ (computeUnfoundedSet (WfsContext.new rules) trueSet falseSet).filter
          (· ∉ falseSet)
      ↔ atom ∈ (stage (groundProgram rules) (n + 1)).2
        ∧ atom ∈ (WfsContext.new rules).sccAtoms := by
  have hdisjoint := disjoint_stage_succ_right (stage_consistent (groundProgram rules) n)
  rw [stage_succ_snd] at hdisjoint
  have hcompute : atom ∈ computeUnfoundedSet (WfsContext.new rules) trueSet falseSet
      ↔ atom ∈ unfounded (groundProgram rules) (stage (groundProgram rules) n)
        ∧ atom ∈ (WfsContext.new rules).sccAtoms :=
    mem_computeUnfoundedSet h (fun _ => stage_derives) hdisjoint
  rw [List.mem_append, List.mem_filter, hcompute, stage_succ_snd]
  by_cases hin : atom ∈ falseSet
  · obtain ⟨hold, hs⟩ := (h.falses atom).mp hin
    have hnew := (stage_le_succ (groundProgram rules) n).2 hold
    rw [stage_succ_snd] at hnew
    exact ⟨fun _ => ⟨hnew, hs⟩, fun _ => .inl hin⟩
  · simp [hin]

/-- A rule fires after step 1 exactly when it is prompt at this round. -/
theorem RepresentsStage.fires {rules : List WfsRule} {n : Nat}
    {trueSet falseSet nextFalse : List WfsAtom}
    (h : RepresentsStage rules n trueSet falseSet)
    (hnext : ∀ atom, atom ∈ nextFalse ↔ atom ∈ (stage (groundProgram rules) (n + 1)).2
      ∧ atom ∈ (WfsContext.new rules).sccAtoms)
    {rule : WfsRule} (hr : rule ∈ rules)
    : ¬ (rule.head ∈ trueSet ∨ rule.head ∈ nextFalse)
        ∧ rule.isSatisfied trueSet nextFalse (WfsContext.new rules).sccAtoms = some true
      ↔ PromptAt (groundProgram rules) n rule.normal := by
  have hdisjoint := disjoint_stage_succ_right (stage_consistent (groundProgram rules) n)
  have hnot : ∀ atom ∈ trueSet, atom ∉ nextFalse := fun atom ht hf =>
    Set.disjoint_left.mp hdisjoint ((h.trues atom).mp ht) ((hnext atom).mp hf).1
  have hneg : ∀ atom, (atom ∉ trueSet
        ∧ (atom ∈ nextFalse ∨ atom ∉ (WfsContext.new rules).sccAtoms))
      ↔ atom ∈ (stage (groundProgram rules) (n + 1)).2 := by
    intro atom
    constructor
    · intro ha
      rcases ha.2 with hf | hs
      · exact ((hnext atom).mp hf).1
      · rw [stage_succ_snd]
        exact external_mem_unfounded hs _
    · intro ha
      refine ⟨fun ht => Set.disjoint_left.mp hdisjoint ((h.trues atom).mp ht) ha, ?_⟩
      by_cases hs : atom ∈ (WfsContext.new rules).sccAtoms
      · exact .inl ((hnext atom).mpr ⟨ha, hs⟩)
      · exact .inr hs
  rw [WfsRule.isSatisfied, literalsSatisfied_eq_true]
  constructor
  · intro ⟨hhead, hpos, hbody⟩
    refine ⟨fun ht => hhead (.inl ((h.trues _).mpr ht)), fun atom ha => ?_, fun atom ha => ?_⟩
    · exact (h.trues atom).mp (hpos atom ha).1
    · exact (hneg atom).mp (hbody atom ha)
  · intro hprompt
    refine ⟨fun hhead => ?_, fun atom ha => ?_, fun atom ha => (hneg atom).mpr (hprompt.2.2 ha)⟩
    · rcases hhead with ht | hf
      · exact hprompt.1 ((h.trues _).mp ht)
      · exact Set.disjoint_left.mp (stage_consistent _ (n + 1))
          (hprompt.head_mem (mem_groundProgram hr)) ((hnext _).mp hf).1
    · have ht := (h.trues atom).mpr (hprompt.2.1 ha)
      exact ⟨ht, hnot atom ht⟩

/-- The next stage's true atoms: the old ones and the heads of the prompt rules. -/
theorem mem_stage_succ_fst {rules : List WfsRule} {n : Nat} {atom : WfsAtom}
    : atom ∈ (stage (groundProgram rules) (n + 1)).1
      ↔ atom ∈ (stage (groundProgram rules) n).1
        ∨ ∃ rule ∈ rules, rule.head = atom
            ∧ PromptAt (groundProgram rules) n rule.normal := by
  constructor
  · intro h
    by_cases hold : atom ∈ (stage (groundProgram rules) n).1
    · exact .inl hold
    · obtain ⟨normal, ⟨rule, hr, rfl⟩, rfl, hp, hn⟩ := h.resolve_left hold
      exact .inr ⟨rule, hr, rfl, hold, hp, hn⟩
  · intro h
    rcases h with h | ⟨rule, hr, rfl, hprompt⟩
    · exact (stage_le_succ _ n).1 h
    · exact hprompt.head_mem (mem_groundProgram hr)

end Xlog.Prob
