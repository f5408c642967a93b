import Xlog.Prob.AnnotatedDisjunction

/-! Compiled disjunctions: the formula of an outcome is true when the first true decision is
its own, and the decisions carry the declared distribution.
-/

namespace Xlog.Prob.Disjunction

open Xlog.Core Xlog.Foundation
open Xlog.Logic (Schema)
open Xlog.Prob.DecisionOrder (ChoiceSource)
open Xlog.Prob.PirBuilder (Grows Made)

-- Formulas

/-- The nodes have the given values, in order. -/
structure MadeList (b : PirBuilder) (values : List (World → Bool))
    (made : List PirNodeId × PirBuilder) : Prop where
  grows : Grows b made.2
  nodes : List.Forall₂ (fun value id => id < made.2.pir.len
    ∧ ∀ w, made.2.pir.eval w id = value w) values made.1

theorem MadeList.nil {b : PirBuilder} (h : b.Ok)
    : MadeList b [] ([], b) :=
  ⟨.refl h, .nil⟩

/-- One more node before the others. -/
theorem MadeList.cons {b : PirBuilder} {value : World → Bool} {values : List (World → Bool)}
    {first : PirNodeId × PirBuilder} {rest : List PirNodeId × PirBuilder}
    (hfirst : Made b value first) (hrest : MadeList first.2 values rest)
    : MadeList b (value :: values) (first.1 :: rest.1, rest.2) := by
  refine ⟨hfirst.grows.trans hrest.grows, .cons ⟨hrest.grows.lt hfirst.lt, fun w => ?_⟩ hrest.nodes⟩
  rw [hrest.grows.eval_eq hfirst.lt w, hfirst.eval w]

theorem MadeList.lt {b : PirBuilder} {values : List (World → Bool)}
    {made : List PirNodeId × PirBuilder} (h : MadeList b values made)
    : ∀ id ∈ made.1, id < made.2.pir.len := by
  intro id hid
  obtain ⟨i, hi, rfl⟩ := List.getElem_of_mem hid
  exact (h.nodes.get (h.nodes.length_eq ▸ hi) hi).1

theorem MadeList.all {b : PirBuilder} {values : List (World → Bool)}
    {made : List PirNodeId × PirBuilder} (h : MadeList b values made) (w : World)
    : made.1.all (made.2.pir.eval w) = values.all (· w) := by
  obtain ⟨-, hn⟩ := h
  generalize made.1 = ids at hn ⊢
  induction hn with
  | nil => rfl
  | cons hone _ ih => rw [List.all_cons, List.all_cons, hone.2 w, ih]

/-- The values of the literals of an outcome. -/
def condValues : List ChoiceVarId → Nat → List (World → Bool)
  | [], _ => []
  | var :: _, 0 => [fun w => w.choice var == true]
  | var :: vars, i + 1 => (fun w => w.choice var == false) :: condValues vars i

theorem outcomeConds_spec {b : PirBuilder} (h : b.Ok) (vars : List ChoiceVarId) (i : Nat)
    : MadeList b (condValues vars i) (outcomeConds b vars i) := by
  induction vars generalizing b i with
  | nil => exact .nil h
  | cons var vars ih =>
      cases i with
      | zero =>
          have hfirst := PirBuilder.choiceLit_spec h var true
          exact .cons hfirst (.nil hfirst.grows.ok)
      | succ i =>
          have hfirst := PirBuilder.choiceLit_spec h var false
          exact .cons hfirst (ih hfirst.grows.ok i)

/-- The literals of an outcome hold when the first true decision is its own, or, behind the
last decision, when there is none.
-/
theorem all_condValues (vars : List ChoiceVarId) (i : Nat) (w : World)
    : (condValues vars i).all (· w)
      = decide (vars.findIdx? w.choice = if i < vars.length then some i else none) := by
  induction vars generalizing i with
  | nil => simp [condValues]
  | cons var vars ih =>
      rw [List.findIdx?_cons]
      cases i with
      | zero =>
          cases hvar : w.choice var <;> simp [condValues, hvar]
      | succ i =>
          rw [condValues, List.all_cons, ih]
          cases hvar : w.choice var with
          | true => split <;> simp [hvar]
          | false => by_cases hi : i < vars.length <;> simp [hvar, hi]

theorem outcomeFormulas_spec {b : PirBuilder} (h : b.Ok) (vars : List ChoiceVarId)
    (outcomes : List Nat)
    : MadeList b
        (outcomes.map fun i w =>
          decide (vars.findIdx? w.choice = if i < vars.length then some i else none))
        (outcomeFormulas vars b outcomes) := by
  induction outcomes generalizing b with
  | nil => exact .nil h
  | cons i outcomes ih =>
      have hconds := outcomeConds_spec h vars i
      have hand := PirBuilder.and_spec hconds.grows.ok hconds.lt
      have hfirst := (Made.of_grows hconds.grows hand).congr fun w =>
        (hconds.all w).trans (all_condValues vars i w)
      exact .cons hfirst (ih hand.grows.ok)

-- The chain

theorem validateProb_ok {display : ℚ → String} {p : ℚ} {what : String}
    : validateProb display p what = .ok () ↔ 0 ≤ p ∧ p ≤ 1 := by
  unfold validateProb
  split <;> simp_all

@[simp] theorem nextChoice_extend (chain : Chain) (explicitChoices : List (GroundAtom × ℚ))
    (entry : ℚ × Nat) (condTrue : ℚ)
    : (chain.extend explicitChoices entry condTrue).tables.nextChoice
      = chain.tables.nextChoice + 1 :=
  rfl

/-- What a chain of decisions leaves: the new variables in order, each with its share. -/
structure ChainRan (chain : Chain) (ps : List ℚ) (last : Chain) : Prop where
  vars : last.vars = chain.vars ++ List.range' chain.tables.nextChoice ps.length
  nextChoice : last.tables.nextChoice = chain.tables.nextChoice + ps.length
  old : ∀ var < chain.tables.nextChoice,
    last.tables.choiceProbs[var]? = chain.tables.choiceProbs[var]?
  new : ∀ i c, (shares chain.remaining ps)[i]? = some c →
    last.tables.choiceProbs[chain.tables.nextChoice + i]? = some (c, 1 - c)

/-- One decision on masses that fit succeeds exactly when a variable is left. -/
theorem decisionStep_eq {display : ℚ → String} {explicitChoices : List (GroundAtom × ℚ)}
    {chain : Chain} {entry : ℚ × Nat} (nonneg : 0 ≤ entry.1) (le : entry.1 ≤ chain.remaining)
    : decisionStep display explicitChoices chain entry
      = if u32Bound ≤ chain.tables.nextChoice + 1 then
          .error (.compilation "annotated disjunction choice id overflow")
        else .ok (chain.extend explicitChoices entry (share chain.remaining entry.1)) := by
  have hvalid : validateProb display (share chain.remaining entry.1)
      "annotated disjunction conditional" = .ok () :=
    validateProb_ok.mpr (share_mem_unit nonneg le)
  simp only [decisionStep, hvalid, ok_bind]

/-- The chain of masses that fit runs while variables are left, by induction on the masses. -/
theorem decisionSteps_spec {display : ℚ → String} {explicitChoices : List (GroundAtom × ℚ)}
    {entries : List (ℚ × Nat)} {chain : Chain}
    (fits : FitsInto chain.remaining (entries.map Prod.fst))
    (typed : chain.tables.nextChoice < u32Bound)
    : ((∃ last, entries.foldlM (decisionStep display explicitChoices) chain = .ok last)
        ↔ chain.tables.nextChoice + entries.length < u32Bound)
      ∧ ∀ last, entries.foldlM (decisionStep display explicitChoices) chain = .ok last →
          ChainRan chain (entries.map Prod.fst) last := by
  induction entries generalizing chain with
  | nil =>
      refine ⟨⟨fun _ => typed, fun _ => ⟨chain, rfl⟩⟩, ?_⟩
      intro last h
      obtain rfl : chain = last := by simpa using h
      exact ⟨by simp, by simp, fun _ _ => rfl, by simp [shares]⟩
  | cons entry entries ih =>
      rw [List.map_cons] at fits
      rw [List.foldlM_cons, decisionStep_eq fits.head.1 fits.head.2]
      by_cases hroom : u32Bound ≤ chain.tables.nextChoice + 1
      · rw [if_pos hroom, error_bind]
        refine ⟨⟨?_, fun h => ?_⟩, ?_⟩
        · rintro ⟨last, h⟩
          cases h
        · rw [List.length_cons] at h
          omega
        · rintro last h
          cases h
      · rw [if_neg hroom, ok_bind]
        obtain ⟨hruns, hran⟩ := @ih (chain.extend explicitChoices entry
          (share chain.remaining entry.1)) fits.tail (Nat.lt_of_not_le hroom)
        constructor
        · rw [hruns, List.length_cons, nextChoice_extend]
          omega
        · intro last h
          obtain ⟨hvars, hnext, hold, hnew⟩ := hran last h
          refine ⟨?_, ?_, ?_, ?_⟩
          · rw [hvars]
            simp [Chain.extend, List.range'_succ]
          · rw [hnext, nextChoice_extend, List.map_cons, List.length_cons]
            omega
          · intro var hvar
            have hne : chain.tables.nextChoice ≠ var := by omega
            rw [hold var (Nat.lt_succ_of_lt hvar), Chain.extend, Std.TreeMap.getElem?_insert]
            simp [hne]
          · intro i c hc
            rw [List.map_cons, shares] at hc
            cases i with
            | zero =>
                obtain rfl := Option.some.inj hc
                rw [Nat.add_zero, hold _ (Nat.lt_succ_self _), Chain.extend]
                simp
            | succ i =>
                have hlater := hnew i c hc
                rwa [Chain.extend, Nat.add_assoc, Nat.add_comm 1 i] at hlater

-- Compiled disjunctions

/-- At least one choice, each with a probability, and together no more than one. -/
structure AnnotatedDisjunction.Valid (ad : AnnotatedDisjunction) : Prop where
  nonempty : ad.choices ≠ []
  unit : ∀ pf ∈ ad.choices, 0 ≤ pf.prob ∧ pf.prob ≤ 1
  sum_le : ad.sum ≤ 1

/-- What is left over is more than the tolerance and gets a branch of its own. -/
def AnnotatedDisjunction.HasNone (ad : AnnotatedDisjunction) : Prop := eps < 1 - ad.sum

instance (ad : AnnotatedDisjunction) : Decidable ad.HasNone := by
  unfold AnnotatedDisjunction.HasNone; infer_instance

/-- The outcomes with a decision of their own: all explicit ones before a none branch, else all
but the last.
-/
def AnnotatedDisjunction.decided (ad : AnnotatedDisjunction) : List ℚ :=
  if ad.HasNone then ad.probs else ad.probs.dropLast

theorem fullProbs_eq {ad : AnnotatedDisjunction} (valid : ad.Valid)
    : fullProbs ad.probs = if ad.HasNone then ad.probs ++ [1 - ad.sum] else ad.probs := by
  have hmax : max (1 - ad.probs.sum) 0 = 1 - ad.sum :=
    max_eq_left (sub_nonneg.mpr valid.sum_le)
  simp only [fullProbs, hmax, AnnotatedDisjunction.HasNone]

theorem take_fullProbs {ad : AnnotatedDisjunction} (valid : ad.Valid)
    : (fullProbs ad.probs).take ((fullProbs ad.probs).length - 1) = ad.decided := by
  rw [fullProbs_eq valid, AnnotatedDisjunction.decided]
  by_cases hnone : ad.HasNone
  · simp [hnone]
  · simp [hnone, List.dropLast_eq_take]

theorem AnnotatedDisjunction.Valid.fits {ad : AnnotatedDisjunction} (valid : ad.Valid)
    : FitsInto 1 ad.probs := by
  refine ⟨fun p hp => ?_, valid.sum_le⟩
  obtain ⟨pf, hpf, rfl⟩ := List.mem_map.mp hp
  exact (valid.unit pf hpf).1

theorem AnnotatedDisjunction.Valid.exists_append {ad : AnnotatedDisjunction} (valid : ad.Valid)
    : ∃ init last, ad.probs = init ++ [last] := by
  have hne : ad.probs ≠ [] := by simpa [AnnotatedDisjunction.probs] using valid.nonempty
  exact ⟨_, _, (List.dropLast_append_getLast hne).symm⟩

theorem fits_decided {ad : AnnotatedDisjunction} (valid : ad.Valid)
    : FitsInto 1 ad.decided := by
  unfold AnnotatedDisjunction.decided
  split
  · exact valid.fits
  · obtain ⟨init, last, heq⟩ := valid.exists_append
    have hfits := valid.fits
    rw [heq] at hfits ⊢
    rw [List.dropLast_concat]
    have hlast := hfits.nonneg last (by simp)
    have hle := hfits.le
    rw [List.sum_append, List.sum_singleton] at hle
    exact ⟨fun p hp => hfits.nonneg p (by simp [hp]), by linarith⟩

/-- What a compilation leaves: a variable with its share for each decided outcome, and a formula
for each choice.
-/
structure CompiledBy (ad : AnnotatedDisjunction) (tables : ChoiceTables) (b : PirBuilder)
    (compiled : Compiled) : Prop where
  vars : compiled.vars = List.range' tables.nextChoice ad.decided.length
  shares : ∀ i c, (Foundation.shares 1 ad.decided)[i]? = some c →
    compiled.tables.choiceProbs[tables.nextChoice + i]? = some (c, 1 - c)
  formulas : MadeList b
    ((List.range ad.choices.length).map fun i w =>
      decide (compiled.vars.findIdx? w.choice
        = if i < compiled.vars.length then some i else none))
    (compiled.outcomeFormulas, compiled.builder)

/-- One outcome of mass one needs no decision, and its formula is an empty conjunction. -/
theorem outcomeFormulas_single (b : PirBuilder)
    : outcomeFormulas [] b [0] = ([b.constTrue], b) := by
  simp [outcomeFormulas, outcomeConds, PirBuilder.and, PirBuilder.normalize, PirBuilder.flatten]

theorem checkChoice_ok {display : ℚ → String} {pf : ProbFact}
    (unit : 0 ≤ pf.prob ∧ pf.prob ≤ 1)
    : checkChoice display pf = .ok () ↔ ∃ key, atomKeyFromGroundAtom pf.atom = .ok key := by
  have hvalid : validateProb display pf.prob "annotated disjunction choice" = .ok () :=
    validateProb_ok.mpr unit
  simp only [checkChoice, hvalid, ok_bind, bind_eq_ok, and_true]

theorem explicitChoice_ok {schemas : List (String × Schema)} {pair : ProbFact × ProbFact}
    : (∃ choice, explicitChoice schemas pair = .ok choice)
      ↔ ∃ atom, presentationAtomFromCanonical pair.2.atom pair.1.atom schemas = .ok atom := by
  simp only [explicitChoice, bind_eq_ok]
  constructor
  · rintro ⟨_, atom, hatom, _⟩
    exact ⟨atom, hatom⟩
  · rintro ⟨atom, hatom⟩
    exact ⟨_, atom, hatom, rfl⟩

section Compile

variable {display : ℚ → String} {ad sourceAd : AnnotatedDisjunction}
  {schemas : List (String × Schema)} {tables : ChoiceTables} {b : PirBuilder}

/-- The compilation of a valid disjunction, without the shortcut for a single outcome. -/
theorem compileAnnotatedDisjunction_eq (valid : ad.Valid)
    : compileAnnotatedDisjunction display ad sourceAd schemas tables b = (do
        ad.choices.forM (checkChoice display)
        let explicitChoices ← (ad.choices.zip sourceAd.choices).mapM (explicitChoice schemas)
        let chain ← ((fullProbs ad.probs).zipIdx.take ((fullProbs ad.probs).length - 1)).foldlM
          (decisionStep display explicitChoices) ⟨tables, [], 1⟩
        .ok ⟨chain.vars, (outcomeFormulas chain.vars b (List.range ad.choices.length)).1,
          chain.tables, (outcomeFormulas chain.vars b (List.range ad.choices.length)).2⟩) := by
  have hsum : ¬ 1 + eps < ad.sum := by
    have := valid.sum_le
    unfold eps
    linarith
  simp only [compileAnnotatedDisjunction, if_neg hsum]
  by_cases hone : (fullProbs ad.probs).length = 1
  · have hchoices : ad.choices.length = 1 := by
      have hpos := List.length_pos_iff.mpr valid.nonempty
      have hlen : ad.choices.length ≤ (fullProbs ad.probs).length := by
        rw [fullProbs_eq valid]
        split <;> simp [AnnotatedDisjunction.probs]
      omega
    simp only [hone, if_true, hchoices]
    simp [outcomeFormulas_single]
  · simp only [hone, if_false]

/-- A valid disjunction compiles exactly when its atoms are ground, the source presents them
and variables are left for its decisions.
-/
theorem compileAnnotatedDisjunction_spec (valid : ad.Valid) (h : b.Ok)
    (typed : tables.nextChoice < u32Bound)
    : ((∃ compiled, compileAnnotatedDisjunction display ad sourceAd schemas tables b = .ok compiled)
        ↔ (∀ pf ∈ ad.choices, ∃ key, atomKeyFromGroundAtom pf.atom = .ok key)
          ∧ (∀ pair ∈ ad.choices.zip sourceAd.choices, ∃ atom,
              presentationAtomFromCanonical pair.2.atom pair.1.atom schemas = .ok atom)
          ∧ tables.nextChoice + ad.decided.length < u32Bound)
      ∧ ∀ compiled, compileAnnotatedDisjunction display ad sourceAd schemas tables b = .ok compiled →
          CompiledBy ad tables b compiled := by
  have hentries : ((fullProbs ad.probs).zipIdx.take ((fullProbs ad.probs).length - 1)).map Prod.fst
      = ad.decided := by
    rw [List.map_take, List.zipIdx_map_fst, take_fullProbs valid]
  have hlen := congrArg List.length hentries
  rw [List.length_map] at hlen
  have hchain (explicitChoices : List (GroundAtom × ℚ)) := @decisionSteps_spec display
    explicitChoices ((fullProbs ad.probs).zipIdx.take ((fullProbs ad.probs).length - 1))
    ⟨tables, [], 1⟩ (hentries ▸ fits_decided valid) typed
  simp only [hentries, hlen] at hchain
  have hcheck : ad.choices.forM (checkChoice display) = .ok ()
      ↔ ∀ pf ∈ ad.choices, ∃ key, atomKeyFromGroundAtom pf.atom = .ok key := by
    rw [forM_eq_ok]
    exact forall₂_congr fun pf hpf => checkChoice_ok (valid.unit pf hpf)
  have hpresent : (∃ explicitChoices,
        (ad.choices.zip sourceAd.choices).mapM (explicitChoice schemas) = .ok explicitChoices)
      ↔ ∀ pair ∈ ad.choices.zip sourceAd.choices, ∃ atom,
          presentationAtomFromCanonical pair.2.atom pair.1.atom schemas = .ok atom := by
    rw [exists_mapM_ok_iff]
    exact forall₂_congr fun pair _ => explicitChoice_ok
  rw [compileAnnotatedDisjunction_eq valid, ← hcheck, ← hpresent]
  simp only [bind_eq_ok]
  constructor
  · constructor
    · rintro ⟨_, _, hforM, explicitChoices, hmapM, last, hlast, _⟩
      exact ⟨hforM, ⟨explicitChoices, hmapM⟩, (hchain explicitChoices).1.mp ⟨last, hlast⟩⟩
    · rintro ⟨hforM, ⟨explicitChoices, hmapM⟩, hroom⟩
      obtain ⟨last, hlast⟩ := (hchain explicitChoices).1.mpr hroom
      exact ⟨_, (), hforM, explicitChoices, hmapM, last, hlast, rfl⟩
  · rintro compiled ⟨_, hforM, explicitChoices, hmapM, last, hlast, heq⟩
    obtain rfl := Except.ok.inj heq
    have hran := (hchain explicitChoices).2 last hlast
    exact
      { vars := by simpa using hran.vars
        shares := hran.new
        formulas := outcomeFormulas_spec h last.vars _ }

end Compile

-- Distribution

/-- The outcome of an assignment: the first true decision, else what is left over. -/
def outcomeOf (ad : AnnotatedDisjunction) (vars : List ChoiceVarId) (value : ChoiceVarId → Bool)
    : Option Nat :=
  match vars.findIdx? value with
  | some i => some i
  | none => if ad.HasNone then none else some (ad.choices.length - 1)

theorem length_decided {ad : AnnotatedDisjunction}
    : ad.decided.length = if ad.HasNone then ad.choices.length else ad.choices.length - 1 := by
  unfold AnnotatedDisjunction.decided
  split <;> simp [AnnotatedDisjunction.probs]

/-- The probabilities of a decision; a variable without an entry weighs nothing. -/
def Compiled.condTrue (compiled : Compiled) (var : ChoiceVarId) : ℚ :=
  (compiled.tables.choiceProbs[var]?.getD (0, 0)).1

def Compiled.condFalse (compiled : Compiled) (var : ChoiceVarId) : ℚ :=
  (compiled.tables.choiceProbs[var]?.getD (0, 0)).2

/-- The product weight of the assignments of the decisions under which an event is true. -/
def Compiled.weight (compiled : Compiled) (leaf : LeafId → Bool) (event : World → Bool) : ℚ :=
  marginal compiled.condTrue compiled.condFalse compiled.vars.toFinset
    fun trues => if event ⟨leaf, fun var => var ∈ trues⟩ then 1 else 0

section Distribution

variable {ad : AnnotatedDisjunction} {tables : ChoiceTables} {b : PirBuilder}
  {compiled : Compiled}

theorem CompiledBy.length_vars (h : CompiledBy ad tables b compiled)
    : compiled.vars.length = if ad.HasNone then ad.choices.length else ad.choices.length - 1 := by
  rw [h.vars, List.length_range', length_decided]

theorem CompiledBy.length_formulas (h : CompiledBy ad tables b compiled)
    : compiled.outcomeFormulas.length = ad.choices.length := by
  have hlen := h.formulas.nodes.length_eq
  rw [List.length_map, List.length_range] at hlen
  exact hlen.symm

/-- An outcome with a decision is the one of the first true variable; the last one without a
none branch is what no variable chooses.
-/
theorem CompiledBy.outcomeOf_eq_some (h : CompiledBy ad tables b compiled)
    (value : ChoiceVarId → Bool) {i : Nat} (hi : i < ad.choices.length)
    : outcomeOf ad compiled.vars value = some i
      ↔ compiled.vars.findIdx? value = if i < compiled.vars.length then some i else none := by
  have hvars := h.length_vars
  rw [outcomeOf]
  cases hfind : compiled.vars.findIdx? value with
  | some j =>
      have hj : j < compiled.vars.length := (List.findIdx?_eq_some_iff_getElem.mp hfind).1
      by_cases hdecided : i < compiled.vars.length
      · simp [hdecided]
      · have hne : j ≠ i := by omega
        simp [hdecided, hne]
  | none =>
      by_cases hnone : ad.HasNone
      · rw [if_pos hnone] at hvars
        simp [hnone, hvars, hi]
      · rw [if_neg hnone] at hvars
        by_cases hdecided : i < compiled.vars.length
        · have hne : ad.choices.length - 1 ≠ i := by omega
          simp [hnone, hdecided, hne]
        · have heq : ad.choices.length - 1 = i := by omega
          simp [hnone, hdecided, heq]

/-- The formula of an outcome is true exactly under the assignments that choose it. -/
theorem CompiledBy.eval_iff (h : CompiledBy ad tables b compiled) {i : Nat} {id : PirNodeId}
    (hid : compiled.outcomeFormulas[i]? = some id) (w : World)
    : compiled.builder.pir.eval w id = true ↔ outcomeOf ad compiled.vars w.choice = some i := by
  obtain ⟨hi, rfl⟩ := List.getElem?_eq_some_iff.mp hid
  have hi' : i < ad.choices.length := h.length_formulas ▸ hi
  have hget := (h.formulas.nodes.get (by simpa using hi') hi).2 w
  simp only [List.get_eq_getElem, List.getElem_map, List.getElem_range] at hget
  rw [hget, decide_eq_true_iff, h.outcomeOf_eq_some w.choice hi']

theorem CompiledBy.drives (h : CompiledBy ad tables b compiled)
    : Drives compiled.condTrue compiled.condFalse compiled.vars
        (Foundation.shares 1 ad.decided) := by
  rw [Drives, List.forall₂_iff_get, h.vars]
  refine ⟨by simp, fun i hi hi' => ?_⟩
  have hshare := h.shares i _ (List.getElem?_eq_getElem hi')
  simp [Compiled.condTrue, Compiled.condFalse, hshare]

/-- The weight of an event that reads the first true decision. -/
theorem Compiled.weight_eq {event : World → Bool} {position : Option Nat}
    (reads : ∀ w, event w = true ↔ compiled.vars.findIdx? w.choice = position)
    (leaf : LeafId → Bool)
    : compiled.weight leaf event
      = chainWeight compiled.condTrue compiled.condFalse compiled.vars position := by
  apply marginal_congr
  intro trues _
  exact if_congr (reads _) rfl rfl

/-- The masses of the chain: each decided outcome has its own, the rest is left over. -/
theorem CompiledBy.mul_chainWeight (h : CompiledBy ad tables b compiled) (valid : ad.Valid)
    : (∀ i p, ad.decided[i]? = some p →
        chainWeight compiled.condTrue compiled.condFalse compiled.vars (some i) = p)
      ∧ chainWeight compiled.condTrue compiled.condFalse compiled.vars none
        = 1 - ad.decided.sum := by
  have hdistinct : compiled.vars.Nodup := by
    rw [h.vars]
    exact List.nodup_range'
  obtain ⟨hsome, hnone⟩ := Foundation.mul_chainWeight hdistinct (fits_decided valid) h.drives
  constructor
  · intro i p hp
    obtain ⟨hi, rfl⟩ := List.getElem?_eq_some_iff.mp hp
    simpa using hsome i hi
  · simpa using hnone

/-- The distribution of a compiled disjunction: what a sum of at most the tolerance below one
leaves over belongs to the last outcome, any other rest to no outcome.
-/
structure Distributes (ad : AnnotatedDisjunction) (compiled : Compiled) : Prop where
  conditionals : ∀ var ∈ compiled.vars, ∃ c,
    compiled.tables.choiceProbs[var]? = some (c, 1 - c) ∧ 0 ≤ c ∧ c ≤ 1
  length : compiled.outcomeFormulas.length = ad.choices.length
  exclusive : ∀ (w : World) (i j : Nat) (one two : PirNodeId),
    compiled.outcomeFormulas[i]? = some one → compiled.outcomeFormulas[j]? = some two →
    compiled.builder.pir.eval w one = true → compiled.builder.pir.eval w two = true → i = j
  weight : ∀ (leaf : LeafId → Bool) (i : Nat) (id : PirNodeId) (pf : ProbFact),
    compiled.outcomeFormulas[i]? = some id → ad.choices[i]? = some pf →
    compiled.weight leaf (fun w => compiled.builder.pir.eval w id)
      = pf.prob + if i + 1 = ad.choices.length ∧ ¬ ad.HasNone then 1 - ad.sum else 0
  noneWeight : ∀ leaf : LeafId → Bool,
    compiled.weight leaf
        (fun w => !compiled.outcomeFormulas.any (compiled.builder.pir.eval w))
      = if ad.HasNone then 1 - ad.sum else 0

/-- The chosen outcome is one of the choices. -/
theorem CompiledBy.outcomeOf_lt (h : CompiledBy ad tables b compiled) (valid : ad.Valid)
    {value : ChoiceVarId → Bool} {i : Nat} (hi : outcomeOf ad compiled.vars value = some i)
    : i < ad.choices.length := by
  have hvars := h.length_vars
  have hpos := List.length_pos_iff.mpr valid.nonempty
  rw [outcomeOf] at hi
  cases hfind : compiled.vars.findIdx? value with
  | some j =>
      have hj : j < compiled.vars.length := (List.findIdx?_eq_some_iff_getElem.mp hfind).1
      simp only [hfind, Option.some.injEq] at hi
      split at hvars <;> omega
  | none =>
      simp only [hfind] at hi
      split at hi
      · cases hi
      · obtain rfl := Option.some.inj hi
        omega

/-- Some formula is true exactly when some outcome is chosen. -/
theorem CompiledBy.any_formulas (h : CompiledBy ad tables b compiled) (valid : ad.Valid)
    (w : World)
    : compiled.outcomeFormulas.any (compiled.builder.pir.eval w) = true
      ↔ outcomeOf ad compiled.vars w.choice ≠ none := by
  rw [List.any_eq_true]
  constructor
  · rintro ⟨id, hid, heval⟩
    obtain ⟨i, hi, rfl⟩ := List.getElem_of_mem hid
    rw [(h.eval_iff (List.getElem?_eq_getElem hi) w).mp heval]
    exact Option.some_ne_none i
  · intro hne
    obtain ⟨i, hi⟩ := Option.ne_none_iff_exists'.mp hne
    have hlt : i < compiled.outcomeFormulas.length := h.length_formulas ▸ h.outcomeOf_lt valid hi
    exact ⟨_, List.getElem_mem hlt, (h.eval_iff (List.getElem?_eq_getElem hlt) w).mpr hi⟩

theorem sum_decided_of_not_hasNone {last : ProbFact} {init : List ProbFact}
    (choices : ad.choices = init ++ [last]) (rest : ¬ ad.HasNone)
    : 1 - ad.decided.sum = last.prob + (1 - ad.sum) := by
  have hprobs : ad.probs = init.map ProbFact.prob ++ [last.prob] := by
    rw [AnnotatedDisjunction.probs, choices, List.map_append, List.map_singleton]
  rw [AnnotatedDisjunction.decided, if_neg rest, AnnotatedDisjunction.sum, hprobs,
    List.dropLast_concat, List.sum_append, List.sum_singleton]
  ring

theorem getElem?_decided {i : Nat} {pf : ProbFact} (hpf : ad.choices[i]? = some pf)
    (hi : i < ad.decided.length)
    : ad.decided[i]? = some pf.prob := by
  have hprob : ad.probs[i]? = some pf.prob := by
    rw [AnnotatedDisjunction.probs, List.getElem?_map, hpf, Option.map_some]
  unfold AnnotatedDisjunction.decided at hi ⊢
  split
  · exact hprob
  · next hnone =>
      rw [if_neg hnone, List.length_dropLast] at hi
      rw [List.getElem?_dropLast, if_pos hi, hprob]

/-- A compiled disjunction has its distribution. -/
theorem CompiledBy.distributes (h : CompiledBy ad tables b compiled) (valid : ad.Valid)
    : Distributes ad compiled := by
  obtain ⟨hsome, hrest⟩ := h.mul_chainWeight valid
  have hvars := h.length_vars
  refine ⟨?_, h.length_formulas, ?_, ?_, ?_⟩
  · intro var hvar
    rw [h.vars, List.mem_range'_1] at hvar
    have hi : var - tables.nextChoice < (Foundation.shares 1 ad.decided).length := by
      rw [length_shares]
      exact Nat.sub_lt_left_of_lt_add hvar.1 hvar.2
    have hshare := h.shares _ _ (List.getElem?_eq_getElem hi)
    rw [Nat.add_sub_cancel' hvar.1] at hshare
    exact ⟨_, hshare, (fits_decided valid).shares_mem_unit _ (List.getElem_mem hi)⟩
  · intro w i j one two hone htwo hevalOne hevalTwo
    have hi := (h.eval_iff hone w).mp hevalOne
    have hj := (h.eval_iff htwo w).mp hevalTwo
    exact Option.some.inj (hi.symm.trans hj)
  · intro leaf i id pf hid hpf
    have hi : i < ad.choices.length := (List.getElem?_eq_some_iff.mp hpf).1
    have hreads (w : World) := (h.eval_iff hid w).trans (h.outcomeOf_eq_some w.choice hi)
    rw [Compiled.weight_eq hreads]
    by_cases hdecided : i < compiled.vars.length
    · have hlast : ¬ (i + 1 = ad.choices.length ∧ ¬ ad.HasNone) := by
        rintro ⟨heq, hnone⟩
        rw [if_neg hnone] at hvars
        omega
      rw [if_pos hdecided, if_neg hlast, add_zero]
      apply hsome
      exact getElem?_decided hpf (by rwa [h.vars, List.length_range'] at hdecided)
    · have hnone : ¬ ad.HasNone := fun hnone => by
        rw [if_pos hnone] at hvars
        omega
      rw [if_neg hnone] at hvars
      have hlast : i + 1 = ad.choices.length := by omega
      rw [if_neg hdecided, if_pos ⟨hlast, hnone⟩, hrest]
      have hsplit : ad.choices = ad.choices.dropLast ++ [pf] := by
        have hget : ad.choices.getLast valid.nonempty = pf := by
          have hlen : ad.choices.length - 1 = i := by omega
          rw [← Option.some.injEq, ← List.getLast?_eq_some_getLast, List.getLast?_eq_getElem?,
            hlen, hpf]
        rw [← hget, List.dropLast_append_getLast]
      exact sum_decided_of_not_hasNone hsplit hnone
  · intro leaf
    by_cases hnone : ad.HasNone
    · have hreads (w : World)
          : (!compiled.outcomeFormulas.any (compiled.builder.pir.eval w)) = true
            ↔ compiled.vars.findIdx? w.choice = none := by
        rw [Bool.not_eq_true', ← Bool.not_eq_true, h.any_formulas valid w, not_not, outcomeOf]
        cases compiled.vars.findIdx? w.choice <;> simp [hnone]
      rw [Compiled.weight_eq hreads, hrest, if_pos hnone, AnnotatedDisjunction.decided,
        if_pos hnone, AnnotatedDisjunction.sum]
    · have hnever (w : World)
          : (!compiled.outcomeFormulas.any (compiled.builder.pir.eval w)) = false := by
        rw [Bool.not_eq_false', h.any_formulas valid w, outcomeOf]
        cases compiled.vars.findIdx? w.choice <;> simp [hnone]
      simp only [Compiled.weight, hnever, if_neg hnone]
      simp [marginal_zero]

end Distribution

end Xlog.Prob.Disjunction
