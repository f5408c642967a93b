import Xlog.Prob.AnnotatedDisjunctionCorrectness
import Xlog.Prob.SamplingPlan

/-! A sampled disjunction chooses the outcome whose compiled formula its decisions make true.
-/

namespace Xlog.Prob.Disjunction

open Xlog.Core Xlog.Foundation
open Xlog.Logic (Schema)

variable {display : ℚ → String}

-- The plan

/-- A chain on masses that fit runs, by induction on the masses. -/
theorem exists_sampleSteps {ps : List ℚ} {chain : SampleChain} (fits : FitsInto chain.remaining ps)
    : ∃ last, ps.foldlM (sampleStep display) chain = .ok last := by
  induction ps generalizing chain with
  | nil => exact ⟨chain, rfl⟩
  | cons p ps ih =>
      have hvalid : validateProb display (share chain.remaining p)
          "annotated disjunction conditional" = .ok () :=
        validateProb_ok.mpr (share_mem_unit fits.head.1 fits.head.2)
      rw [List.foldlM_cons]
      simp only [sampleStep, hvalid, ok_bind]
      exact ih fits.tail

/-- A chain adds one variable for each mass, by induction on them. -/
theorem sampleSteps_vars {ps : List ℚ} {chain last : SampleChain}
    (h : ps.foldlM (sampleStep display) chain = .ok last)
    : last.decisionVars = chain.decisionVars ++ List.range' chain.probs.length ps.length := by
  induction ps generalizing chain with
  | nil =>
      obtain rfl : chain = last := by simpa using h
      simp
  | cons p ps ih =>
      rw [List.foldlM_cons] at h
      obtain ⟨next, hnext, hrest⟩ := bind_eq_ok.mp h
      obtain ⟨_, _, heq⟩ := bind_eq_ok.mp hnext
      obtain rfl := Except.ok.inj heq
      rw [ih hrest]
      simp [List.range'_succ]

/-- How a plan samples a disjunction: keys for the choices, and a variable for each outcome
with a decision.
-/
structure SpecOf (ad : AnnotatedDisjunction) (spec : AdSpec) : Prop where
  nonempty : ad.choices ≠ []
  hasNone : spec.hasNone = decide ad.HasNone
  decisions : spec.decisionVars.length = ad.decided.length
  distinct : spec.decisionVars.Nodup
  keys : List.Forall₂ (fun pf atom => atomKeyFromGroundAtom pf.atom = .ok atom) ad.choices
    spec.choices

theorem choiceAtom_ok {pf : ProbFact} {atom : GroundAtom}
    : choiceAtom display pf = .ok atom
      ↔ (0 ≤ pf.prob ∧ pf.prob ≤ 1) ∧ atomKeyFromGroundAtom pf.atom = .ok atom := by
  rw [choiceAtom, bind_eq_ok, ← @validateProb_ok display pf.prob "annotated disjunction choice"]
  constructor
  · rintro ⟨_, hvalid, hkey⟩
    exact ⟨hvalid, hkey⟩
  · rintro ⟨hvalid, hkey⟩
    exact ⟨(), hvalid, hkey⟩

/-- The chain runs over the outcomes with a decision; a single outcome has none. -/
theorem sampleChain_eq (ad : AnnotatedDisjunction) (start : SampleChain) {full : List ℚ}
    (hfull : full = if decide (eps < 1 - ad.sum) = true then ad.probs ++ [max (1 - ad.sum) 0]
      else ad.probs)
    : sampleChain display full start = ad.decided.foldlM (sampleStep display) start := by
  have hdecided : full.take (full.length - 1) = ad.decided := by
    have hiff : eps < 1 - ad.sum ↔ ad.HasNone := Iff.rfl
    rw [hfull, AnnotatedDisjunction.decided]
    by_cases hnone : ad.HasNone
    · simp [hiff, hnone]
    · simp [hiff, hnone, List.dropLast_eq_take]
  rw [← hdecided, sampleChain]
  split
  · rfl
  · next hshort =>
      have hzero : full.length - 1 = 0 := by omega
      rw [hzero]
      rfl

/-- A disjunction that is added gets its specification at the end of the plan. -/
theorem addDisjunction_spec {plan next : SamplingPlan} {ad : AnnotatedDisjunction}
    (h : addDisjunction display plan ad = .ok next)
    : next.factSpecs = plan.factSpecs
      ∧ ∃ spec, next.adSpecs = plan.adSpecs ++ [spec] ∧ SpecOf ad spec := by
  unfold addDisjunction at h
  split at h
  · cases h
  · next hne =>
      obtain ⟨choiceAtoms, hatoms, h⟩ := bind_eq_ok.mp h
      split at h
      · cases h
      · obtain ⟨chain, hchain, h⟩ := bind_eq_ok.mp h
        obtain rfl := Except.ok.inj h
        rw [sampleChain_eq ad _ rfl] at hchain
        have hvars := sampleSteps_vars hchain
        rw [List.nil_append] at hvars
        refine ⟨rfl, _, rfl, hne, rfl, ?_, ?_, ?_⟩
        · simp only [hvars, List.length_range']
        · simp only [hvars]
          exact List.nodup_range'
        · exact (forall₂_of_mapM hatoms).imp fun _ _ hone => (choiceAtom_ok.mp hone).2

/-- A valid disjunction is added when its atoms are ground. -/
theorem exists_addDisjunction {plan : SamplingPlan} {ad : AnnotatedDisjunction} (valid : ad.Valid)
    (ground : ∀ pf ∈ ad.choices, ∃ key, atomKeyFromGroundAtom pf.atom = .ok key)
    : ∃ next, addDisjunction display plan ad = .ok next := by
  have hsum : ¬ 1 + eps < ad.sum := by
    have := valid.sum_le
    unfold eps
    linarith
  have hatoms : ∃ choiceAtoms, ad.choices.mapM (choiceAtom display) = .ok choiceAtoms := by
    rw [exists_mapM_ok_iff]
    intro pf hpf
    obtain ⟨key, hkey⟩ := ground pf hpf
    exact ⟨key, choiceAtom_ok.mpr ⟨valid.unit pf hpf, hkey⟩⟩
  obtain ⟨choiceAtoms, hatoms⟩ := hatoms
  obtain ⟨chain, hchain⟩ := @exists_sampleSteps display ad.decided ⟨plan.probs, [], 1⟩
    (fits_decided valid)
  rw [← sampleChain_eq ad _ rfl] at hchain
  rw [addDisjunction, if_neg valid.nonempty, hatoms, ok_bind, if_neg hsum]
  simp only [hchain, ok_bind]
  exact ⟨_, rfl⟩

/-- Every disjunction of a compiled plan has its specification, in order. -/
theorem compileSamplingPlan_specs {probFacts : List ProbFact} {ads : List AnnotatedDisjunction}
    {plan : SamplingPlan} (h : compileSamplingPlan display probFacts ads = .ok plan)
    : List.Forall₂ SpecOf ads plan.adSpecs := by
  obtain ⟨facts, hfacts, hads⟩ := bind_eq_ok.mp h
  have hnone : facts.adSpecs = [] := by
    refine foldlM_inv (addProbFact display) (fun _ state => state.adSpecs = []) probFacts rfl ?_ hfacts
    intro _ pf state state' _ hstate hone
    obtain ⟨_, _, hone⟩ := bind_eq_ok.mp hone
    obtain ⟨_, _, hone⟩ := bind_eq_ok.mp hone
    obtain rfl := Except.ok.inj hone
    exact hstate
  refine foldlM_inv (addDisjunction display)
    (fun done state => List.Forall₂ SpecOf done state.adSpecs) ads ?_ ?_ hads
  · rw [hnone]
    exact .nil
  · intro done ad state state' _ hstate hone
    obtain ⟨_, spec, hspec, hof⟩ := addDisjunction_spec hone
    rw [hspec]
    exact List.rel_append hstate (.cons hof .nil)

-- Samples

theorem holds_insertTuple {store : SampleStore} {atom other : GroundAtom}
    : Holds (insertTuple store atom) other ↔ other = atom ∨ Holds store other := by
  unfold Holds insertTuple
  rw [lookup_filter_ne_append]
  by_cases hpred : other.predicate = atom.predicate
  · rw [if_pos hpred, hpred]
    have hatom : other = atom ↔ other.args = atom.args := by
      constructor
      · exact fun h => h ▸ rfl
      · intro h
        cases other
        cases atom
        simp_all
    rw [hatom]
    cases hl : store.lookup atom.predicate with
    | none => simp
    | some tuples =>
        by_cases hmem : atom.args ∈ tuples
        · simp only [Option.getD_some, hmem, if_true, Option.some.injEq, exists_eq_left']
          constructor
          · exact Or.inr
          · rintro (heq | hother)
            · rwa [heq]
            · exact hother
        · simp [hmem, or_comm]
  · have hne : other ≠ atom := fun h => hpred (h ▸ rfl)
    simp [hpred, hne]

theorem holds_applyProbFact {bits : List UInt8} {store : SampleStore} {pf : ProbFactSpec}
    {atom : GroundAtom}
    : Holds (applyProbFact bits store pf) atom
      ↔ (bit bits pf.varIdx = true ∧ pf.atom = atom) ∨ Holds store atom := by
  unfold applyProbFact
  by_cases hbit : bit bits pf.varIdx = true
  · rw [if_pos hbit, holds_insertTuple, eq_comm]
    simp [hbit]
  · simp [hbit]

/-- The chosen outcome of a specification is one of its choices. -/
theorem SpecOf.selectedOutcome_lt {ad : AnnotatedDisjunction} {spec : AdSpec} (h : SpecOf ad spec)
    {bits : List UInt8} {i : Nat} (hi : selectedOutcome bits spec = some i)
    : i < spec.choices.length := by
  have hlen := h.keys.length_eq
  have hpos := List.length_pos_iff.mpr h.nonempty
  have hdecisions := h.decisions
  rw [length_decided] at hdecisions
  rw [selectedOutcome] at hi
  cases hfind : spec.decisionVars.findIdx? (bit bits) with
  | some j =>
      have hj : j < spec.decisionVars.length := (List.findIdx?_eq_some_iff_getElem.mp hfind).1
      simp only [hfind, Option.some.injEq] at hi
      split at hdecisions <;> omega
  | none =>
      simp only [hfind] at hi
      split at hi
      · cases hi
      · obtain rfl := Option.some.inj hi
        omega

/-- The facts of one disjunction: the atom of its outcome, if it has one. -/
theorem applyDisjunction_spec {ad : AnnotatedDisjunction} {spec : AdSpec} (h : SpecOf ad spec)
    (bits : List UInt8) (store : SampleStore)
    : ∃ next, applyDisjunction bits store spec = .ok next
        ∧ ∀ atom, Holds next atom
          ↔ (∃ i, selectedOutcome bits spec = some i ∧ spec.choices[i]? = some atom)
            ∨ Holds store atom := by
  unfold applyDisjunction
  cases hselected : selectedOutcome bits spec with
  | none => exact ⟨store, rfl, by simp⟩
  | some i =>
      have hi := h.selectedOutcome_lt hselected
      simp only [List.getElem?_eq_getElem hi]
      refine ⟨_, rfl, fun atom => ?_⟩
      rw [holds_insertTuple]
      simp [hi, eq_comm]

/-- A sample of a compiled plan adds its true facts and the outcomes of its disjunctions. -/
theorem applySampleFacts_spec {probFacts : List ProbFact} {ads : List AnnotatedDisjunction}
    {plan : SamplingPlan} (h : compileSamplingPlan display probFacts ads = .ok plan)
    (store : SampleStore) (bits : List UInt8)
    : ∃ sampled, applySampleFacts plan store bits = .ok sampled
        ∧ ∀ atom, Holds sampled atom
          ↔ (∃ pf ∈ plan.factSpecs, bit bits pf.varIdx = true ∧ pf.atom = atom)
            ∨ (∃ spec ∈ plan.adSpecs, ∃ i,
                selectedOutcome bits spec = some i ∧ spec.choices[i]? = some atom)
            ∨ Holds store atom := by
  have hspecs := compileSamplingPlan_specs h
  have hfacts (facts : List ProbFactSpec) (start : SampleStore) (atom : GroundAtom)
      : Holds (facts.foldl (applyProbFact bits) start) atom
        ↔ (∃ pf ∈ facts, bit bits pf.varIdx = true ∧ pf.atom = atom) ∨ Holds start atom := by
    induction facts generalizing start with
    | nil => simp
    | cons pf facts ih =>
        rw [List.foldl_cons, ih, holds_applyProbFact]
        simp only [List.exists_mem_cons_iff]
        exact or_left_comm.trans or_assoc.symm
  obtain ⟨sampled, hrun, hsampled⟩ := foldlM_ok (applyDisjunction bits)
    (fun done state => ∀ atom, Holds state atom
      ↔ (∃ spec ∈ done, ∃ i, selectedOutcome bits spec = some i ∧ spec.choices[i]? = some atom)
        ∨ Holds (plan.factSpecs.foldl (applyProbFact bits) store) atom)
    plan.adSpecs (plan.factSpecs.foldl (applyProbFact bits) store) (by simp) (by
      intro done spec state hspec hstate
      obtain ⟨i, hi, rfl⟩ := List.getElem_of_mem hspec
      have hof := hspecs.get (hspecs.length_eq ▸ hi) hi
      obtain ⟨next, hnext, hholds⟩ := applyDisjunction_spec hof bits state
      refine ⟨next, hnext, fun atom => ?_⟩
      rw [hholds, hstate]
      simp only [List.get_eq_getElem, List.mem_append, List.mem_singleton, or_and_right, exists_or,
        exists_eq_left]
      exact or_left_comm.trans or_assoc.symm)
  refine ⟨sampled, hrun, fun atom => ?_⟩
  rw [hsampled, hfacts]
  exact or_left_comm

-- Both compilations

/-- A sampled disjunction has as many decisions as the compiled one, and the same assignments of
them choose an outcome and make its formula true.
-/
structure SamplesAlike (compiled : Compiled) (spec : AdSpec) : Prop where
  decisions : spec.decisionVars.length = compiled.vars.length
  distinct : spec.decisionVars.Nodup ∧ compiled.vars.Nodup
  selects : ∀ (bits : List UInt8) (w : World),
    compiled.vars.map w.choice = spec.decisionVars.map (bit bits) →
    ∀ (i : Nat) (id : PirNodeId), compiled.outcomeFormulas[i]? = some id →
      (selectedOutcome bits spec = some i ↔ compiled.builder.pir.eval w id = true)

theorem SpecOf.selectedOutcome_eq {ad : AnnotatedDisjunction} {spec : AdSpec} (h : SpecOf ad spec)
    {bits : List UInt8} {vars : List ChoiceVarId} {value : ChoiceVarId → Bool}
    (same : vars.map value = spec.decisionVars.map (bit bits))
    : selectedOutcome bits spec = outcomeOf ad vars value := by
  have hfind : spec.decisionVars.findIdx? (bit bits) = vars.findIdx? value := by
    have hmap := congrArg (List.findIdx? id) same
    rw [List.findIdx?_map, List.findIdx?_map] at hmap
    exact hmap.symm
  rw [selectedOutcome, outcomeOf, hfind, h.keys.length_eq]
  cases vars.findIdx? value with
  | some _ => rfl
  | none => simp [h.hasNone]

theorem SpecOf.samplesAlike {ad : AnnotatedDisjunction} {spec : AdSpec} (h : SpecOf ad spec)
    {tables : ChoiceTables} {b : PirBuilder} {compiled : Compiled}
    (hcompiled : CompiledBy ad tables b compiled)
    : SamplesAlike compiled spec where
  decisions := by rw [h.decisions, hcompiled.vars, List.length_range']
  distinct := by
    refine ⟨h.distinct, ?_⟩
    rw [hcompiled.vars]
    exact List.nodup_range'
  selects := by
    intro bits w same i id hid
    rw [h.selectedOutcome_eq same, hcompiled.eval_iff hid w]

/-- Every plan with the disjunction samples it alike, and every sample of the plan adds exactly
its true facts and the chosen outcomes.
-/
def SampledAlike (display : ℚ → String) (ad : AnnotatedDisjunction) (compiled : Compiled) : Prop :=
  ∀ (probFacts : List ProbFact) (ads : List AnnotatedDisjunction) (plan : SamplingPlan) (n : Nat),
    compileSamplingPlan display probFacts ads = .ok plan → ads[n]? = some ad →
    (∃ spec, plan.adSpecs[n]? = some spec ∧ SamplesAlike compiled spec)
    ∧ ∀ store bits, ∃ sampled, applySampleFacts plan store bits = .ok sampled
        ∧ ∀ atom, Holds sampled atom
          ↔ (∃ pf ∈ plan.factSpecs, bit bits pf.varIdx = true ∧ pf.atom = atom)
            ∨ (∃ spec ∈ plan.adSpecs, ∃ i,
                selectedOutcome bits spec = some i ∧ spec.choices[i]? = some atom)
            ∨ Holds store atom

theorem CompiledBy.sampledAlike {ad : AnnotatedDisjunction} {tables : ChoiceTables}
    {b : PirBuilder} {compiled : Compiled} (h : CompiledBy ad tables b compiled)
    : SampledAlike display ad compiled := by
  intro probFacts ads plan n hplan hn
  obtain ⟨hlt, rfl⟩ := List.getElem?_eq_some_iff.mp hn
  have hspecs := compileSamplingPlan_specs hplan
  have hlt' : n < plan.adSpecs.length := hspecs.length_eq ▸ hlt
  have hof := hspecs.get hlt hlt'
  exact ⟨⟨_, List.getElem?_eq_getElem hlt', hof.samplesAlike h⟩, applySampleFacts_spec hplan⟩

/-- A plan for a valid disjunction compiles exactly when its atoms are ground. -/
theorem exists_compileSamplingPlan {ad : AnnotatedDisjunction} (valid : ad.Valid)
    : (∃ plan, compileSamplingPlan display [] [ad] = .ok plan)
      ↔ ∀ pf ∈ ad.choices, ∃ key, atomKeyFromGroundAtom pf.atom = .ok key := by
  constructor
  · rintro ⟨plan, hplan⟩ pf hpf
    obtain ⟨spec, _, hspec, _, _⟩ := List.forall₂_cons_left_iff.mp (compileSamplingPlan_specs hplan)
    obtain ⟨i, hi, rfl⟩ := List.getElem_of_mem hpf
    exact ⟨_, hspec.keys.get hi (hspec.keys.length_eq ▸ hi)⟩
  · intro ground
    obtain ⟨next, hnext⟩ := @exists_addDisjunction display ⟨[], [], []⟩ ad valid ground
    refine ⟨next, ?_⟩
    simp only [compileSamplingPlan, List.foldlM_nil, List.foldlM_cons, pure_eq_ok, ok_bind, hnext]

section Distribution

variable {ad sourceAd : AnnotatedDisjunction} {schemas : List (String × Schema)}
  {tables : ChoiceTables} {b : PirBuilder}

/-- Annotated disjunctions compile to the declared distribution, and the sampling plan chooses
their outcomes for the same assignments of the decisions.
-/
theorem compileAnnotatedDisjunction_distributes (valid : ad.Valid) (h : b.Reachable)
    (typed : tables.nextChoice < u32Bound)
    : ((∃ compiled, compileAnnotatedDisjunction display ad sourceAd schemas tables b = .ok compiled)
        ↔ (∀ pf ∈ ad.choices, ∃ key, atomKeyFromGroundAtom pf.atom = .ok key)
          ∧ (∀ pair ∈ ad.choices.zip sourceAd.choices, ∃ atom,
              presentationAtomFromCanonical pair.2.atom pair.1.atom schemas = .ok atom)
          ∧ tables.nextChoice + ad.decided.length < u32Bound)
      ∧ ((∃ plan, compileSamplingPlan display [] [ad] = .ok plan)
        ↔ ∀ pf ∈ ad.choices, ∃ key, atomKeyFromGroundAtom pf.atom = .ok key)
      ∧ ∀ compiled,
          compileAnnotatedDisjunction display ad sourceAd schemas tables b = .ok compiled →
          Distributes ad compiled ∧ SampledAlike display ad compiled := by
  obtain ⟨hsucceeds, hcompiled⟩ := @compileAnnotatedDisjunction_spec display ad sourceAd schemas
    tables b valid h.ok typed
  refine ⟨hsucceeds, exists_compileSamplingPlan valid, ?_⟩
  intro compiled hrun
  have hby := hcompiled compiled hrun
  exact ⟨hby.distributes valid, hby.sampledAlike⟩

end Distribution

/-- One choice `a` with the given probability. -/
def oneChoice (p : ℚ) : AnnotatedDisjunction := ⟨[⟨p, ⟨"a", []⟩⟩]⟩

def freshTables : ChoiceTables := ⟨0, .ofList [] compare, .ofList [] compare⟩

/-- A schema for `a`. -/
def schemaOfA : List (String × Schema) := [("a", ⟨[]⟩)]

theorem oneChoice_valid {p : ℚ} (unit : 0 ≤ p ∧ p ≤ 1) : (oneChoice p).Valid where
  nonempty := by simp [oneChoice]
  unit := by simpa [oneChoice] using unit
  sum_le := by simpa [oneChoice, AnnotatedDisjunction.sum, AnnotatedDisjunction.probs] using unit.2

theorem exists_compile_oneChoice {p : ℚ} (unit : 0 ≤ p ∧ p ≤ 1)
    : ∃ compiled, compileAnnotatedDisjunction (fun _ => "") (oneChoice p) (oneChoice p) schemaOfA
        freshTables PirBuilder.new = .ok compiled := by
  refine (compileAnnotatedDisjunction_spec (oneChoice_valid unit) PirBuilder.ok_new (by decide)).1.mpr
    ⟨?_, ?_, ?_⟩
  · intro pf hpf
    obtain rfl : pf = ⟨p, ⟨"a", []⟩⟩ := by simpa [oneChoice] using hpf
    exact ⟨⟨"a", []⟩, rfl⟩
  · intro pair hpair
    obtain rfl : pair = (⟨p, ⟨"a", []⟩⟩, ⟨p, ⟨"a", []⟩⟩) := by simpa [oneChoice] using hpair
    exact ⟨⟨"a", []⟩, rfl⟩
  · rw [length_decided]
    by_cases hnone : (oneChoice p).HasNone
    · rw [if_pos hnone]
      exact (by decide : 0 + 1 < u32Bound)
    · rw [if_neg hnone]
      exact (by decide : 0 + 0 < u32Bound)

theorem compileAnnotatedDisjunction_distributes_half
    : (oneChoice (1 / 2)).Valid ∧ PirBuilder.new.Reachable ∧ freshTables.nextChoice < u32Bound
      ∧ ∃ compiled,
          compileAnnotatedDisjunction (fun _ => "") (oneChoice (1 / 2)) (oneChoice (1 / 2)) schemaOfA
            freshTables PirBuilder.new = .ok compiled
          ∧ Distributes (oneChoice (1 / 2)) compiled := by
  have unit : (0 : ℚ) ≤ 1 / 2 ∧ (1 : ℚ) / 2 ≤ 1 := by norm_num
  obtain ⟨compiled, hrun⟩ := exists_compile_oneChoice unit
  have hall := @compileAnnotatedDisjunction_distributes (fun _ => "") _ (oneChoice (1 / 2))
    schemaOfA freshTables PirBuilder.new (oneChoice_valid unit) .refl (by decide)
  exact ⟨oneChoice_valid unit, .refl, by decide, compiled, hrun, (hall.2.2 compiled hrun).1⟩

/-- What is missing to one is within the tolerance, so that the only choice is certain. -/
theorem compileAnnotatedDisjunction_nearly_certain
    : (oneChoice (1 - 1 / (2 * 10 ^ 12))).Valid
      ∧ ∃ compiled id,
          compileAnnotatedDisjunction (fun _ => "") (oneChoice (1 - 1 / (2 * 10 ^ 12)))
            (oneChoice (1 - 1 / (2 * 10 ^ 12))) schemaOfA freshTables PirBuilder.new = .ok compiled
          ∧ compiled.outcomeFormulas[0]? = some id
          ∧ (∀ leaf, compiled.weight leaf (fun w => compiled.builder.pir.eval w id) = 1)
          ∧ (1 : ℚ) ≠ 1 - 1 / (2 * 10 ^ 12) := by
  have unit : (0 : ℚ) ≤ 1 - 1 / (2 * 10 ^ 12) ∧ (1 : ℚ) - 1 / (2 * 10 ^ 12) ≤ 1 := by norm_num
  have valid := oneChoice_valid unit
  obtain ⟨compiled, hrun⟩ := exists_compile_oneChoice unit
  have hby := (compileAnnotatedDisjunction_spec valid PirBuilder.ok_new (by decide)).2 compiled hrun
  have hdist := hby.distributes valid
  have hnone : ¬ (oneChoice (1 - 1 / (2 * 10 ^ 12))).HasNone := by
    simp only [AnnotatedDisjunction.HasNone, AnnotatedDisjunction.sum, AnnotatedDisjunction.probs,
      oneChoice, eps, List.map_cons, List.map_nil, List.sum_singleton]
    norm_num
  have hlt : 0 < compiled.outcomeFormulas.length := by
    rw [hdist.length]
    exact Nat.zero_lt_one
  refine ⟨valid, compiled, _, hrun, List.getElem?_eq_getElem hlt, fun leaf => ?_, by norm_num⟩
  rw [hdist.weight leaf 0 _ _ (List.getElem?_eq_getElem hlt) rfl, if_pos ⟨rfl, hnone⟩]
  simp [oneChoice, AnnotatedDisjunction.sum, AnnotatedDisjunction.probs]

end Xlog.Prob.Disjunction
