import Xlog.Prob.WfsProvenance

/-! What the returned formulas say in a world, against the well-founded model of the rules that are on there.
The fixpoint is run once on all rules, so the formulas record the proofs of that run only: rules that fire
in the round that first makes their head true. The true and the false set are the well-founded model
whatever the provenance of the rules.
-/

namespace Xlog.Prob

open Xlog.Core
open Xlog.Foundation

-- The run

/-- One iteration goes from one stage to the next. Without new true atoms the next stage has
no more of them.
-/
theorem StageInv.iterate {rules : List WfsRule} {g : PirGraph} {n : Nat} {state : WfsState}
    (hprov : ∀ rule ∈ rules, rule.provenance < g.len) (h : StageInv rules g n state)
    : StageInv rules g (n + 1) (wfsIteration (WfsContext.new rules) state).1
      ∧ ((wfsIteration (WfsContext.new rules) state).2.2 = 0
          → (stage (groundProgram rules) (n + 1)).1 ⊆ (stage (groundProgram rules) n).1) := by
  let ctx := WfsContext.new rules
  let nextFalse := state.falseSet
    ++ (computeUnfoundedSet ctx state.trueSet state.falseSet).filter (· ∉ state.falseSet)
  have hnext : ∀ atom, atom ∈ nextFalse
      ↔ atom ∈ (stage (groundProgram rules) (n + 1)).2 ∧ atom ∈ ctx.sccAtoms :=
    fun atom => h.represents.falses_next
  have hfires : ∀ rule ∈ rules, Fires ctx state.trueSet nextFalse rule
      ↔ PromptAt (groundProgram rules) n rule.normal :=
    fun rule hr => h.represents.fires hnext hr
  let newTrue := deriveConsequences ctx state.trueSet nextFalse state.trueProvenance state.pir
  have hderived : Covers (fun rule => rule ∈ rules ∧ Fires ctx state.trueSet nextFalse rule)
      state.trueProvenance state.pir newTrue :=
    deriveConsequences_spec h.grows.sound h.inside fun rule hr => h.grows.lt (hprov rule hr)
  have hkeys : ∀ atom, atom ∈ newTrue.1.map Prod.fst
      ↔ ∃ rule ∈ rules, rule.head = atom
          ∧ PromptAt (groundProgram rules) n rule.normal := by
    intro atom
    rw [← not_iff_not, ← lookup_eq_none_iff_not_mem, ← Option.not_isSome_iff_eq_none,
      hderived.keys atom, not_iff_not]
    refine exists_congr fun rule => ?_
    constructor
    · intro hr
      exact ⟨hr.1.1, hr.2, (hfires rule hr.1.1).mp hr.1.2⟩
    · intro hr
      exact ⟨⟨hr.1, (hfires rule hr.1).mpr hr.2.2⟩, hr.2.1⟩
  have hopen : ∀ entry ∈ newTrue.1, entry.1 ∉ state.trueSet ∧ entry.2 < newTrue.2.len := by
    intro entry he
    obtain ⟨rule, _, hhead, hprompt⟩ := (hkeys entry.1).mp (List.mem_map_of_mem he)
    refine ⟨fun ht => hprompt.1 ?_, ?_⟩
    · rw [← hhead] at ht
      exact (h.represents.trues rule.head).mp ht
    · exact hderived.inside entry.1 entry.2 (lookup_of_mem hderived.distinct he)
  let opened : WfsState := { state with falseSet := nextFalse, pir := newTrue.2 }
  have hadopt : Adopted newTrue.1 opened (newTrue.1.foldl WfsState.addTrue opened) :=
    addTrue_spec hderived.grows.sound (h.inside.extends hderived.grows) hderived.distinct
      hopen
  have hiteration : wfsIteration ctx state
      = (newTrue.1.foldl WfsState.addTrue opened,
        ((computeUnfoundedSet ctx state.trueSet state.falseSet).filter
          (· ∉ state.falseSet)).length, newTrue.1.length) := rfl
  rw [hiteration]
  refine ⟨⟨⟨fun atom => ?_, fun atom => ?_⟩, h.grows.trans (hderived.grows.trans hadopt.grows),
    hadopt.inside, fun atom => ?_, fun w => ?_⟩, fun hnone => ?_⟩
  · rw [hadopt.trues, hkeys, mem_stage_succ_fst, h.represents.trues]
  · rw [hadopt.falses]
    exact hnext atom
  · rw [hadopt.keys, hadopt.trues, h.keys]
  · -- the formulas of the new atoms are those of the prompt rules that are on
    convert (h.supported w).next using 1
    ext atom
    rw [hadopt.proved, proved_extends h.inside hderived.grows]
    refine or_congr Iff.rfl ?_
    rw [hderived.exists_entry]
    constructor
    · intro hrule
      obtain ⟨rule, ⟨hr, hf⟩, hhead, hrule⟩ := hrule
      have hprompt := (hfires rule hr).mp hf
      obtain ⟨hon, hpos⟩ := (h.ruleHolds (hprov rule hr) hprompt w).mp hrule
      have hin : rule ∈ onRules rules g w := List.mem_filter.mpr ⟨hr, hon⟩
      exact ⟨rule.normal, mem_groundProgram hin, hhead, hpos, hprompt⟩
    · intro hrule
      obtain ⟨_, ⟨rule, hin, rfl⟩, hhead, hpos, hprompt⟩ := hrule
      obtain ⟨hr, hon⟩ := List.mem_filter.mp hin
      exact ⟨rule, ⟨hr, (hfires rule hr).mpr hprompt⟩, hhead,
        (h.ruleHolds (hprov rule hr) hprompt w).mpr ⟨hon, hpos⟩⟩
  · intro atom ha
    rcases mem_stage_succ_fst.mp ha with hold | hrule
    · exact hold
    · have hmem := (hkeys atom).mpr hrule
      rw [List.length_eq_zero_iff.mp hnone] at hmem
      simp at hmem

/-- A loop that returns has run to a stage that is the model, or had no round left, by
induction on the rounds. Any invariant of the iterations holds at its end.
-/
theorem wfsLoop_reaches {rules : List WfsRule} {config : WfsConfig}
    {invariant : Nat → WfsState → Prop}
    (step
      : ∀ n state, invariant n state
        → invariant (n + 1) (wfsIteration (WfsContext.new rules) state).1
          ∧ ((wfsIteration (WfsContext.new rules) state).2.2 = 0
            → (stage (groundProgram rules) (n + 1)).1 ⊆ (stage (groundProgram rules) n).1))
    {remaining n : Nat} {state final : WfsState} (h : invariant n state)
    (run : wfsLoop (WfsContext.new rules) config remaining state = .ok final)
    : ∃ m ≤ n + remaining, invariant m final
        ∧ (remaining = 0 ∧ m = n
          ∨ stage (groundProgram rules) m = wellFoundedModel (groundProgram rules)) := by
  induction remaining generalizing n state with
  | zero =>
      obtain rfl : state = final := Except.ok.inj run
      exact ⟨n, le_rfl, h, .inl ⟨rfl, rfl⟩⟩
  | succ remaining ih =>
      obtain ⟨hnext, hfixed⟩ := step n state h
      simp only [wfsLoop] at run
      split at run
      · next hcount =>
          obtain rfl := Except.ok.inj run
          exact ⟨n + 1, by omega, hnext, .inr (stage_succ_eq_model (hfixed hcount.2))⟩
      · split at run
        · exact absurd run (by simp)
        · next hleft =>
            obtain ⟨m, hm, hinv, hreached⟩ := ih hnext run
            exact ⟨m, by omega, hinv, .inr (hreached.resolve_left fun hz => hleft hz.1)⟩

theorem wfsLoop_spec {rules : List WfsRule} {g : PirGraph} {config : WfsConfig}
    (hprov : ∀ rule ∈ rules, rule.provenance < g.len) {remaining n : Nat}
    {state final : WfsState} (h : StageInv rules g n state)
    (run : wfsLoop (WfsContext.new rules) config remaining state = .ok final)
    : ∃ m ≤ n + remaining, StageInv rules g m final
        ∧ (remaining = 0 ∧ m = n
          ∨ stage (groundProgram rules) m = wellFoundedModel (groundProgram rules)) :=
  wfsLoop_reaches (fun _ _ h => h.iterate hprov) h run

/-- The returned formulas hold exactly what the prompt rules that are on derive. -/
theorem evaluateWfsRules_promptlySupported {rules : List WfsRule} {g later : PirGraph}
    {config : WfsConfig} {result : WfsResult} (hs : g.Sound)
    (hprov : ∀ rule ∈ rules, rule.provenance < g.len)
    (run : evaluateWfsRules rules g config = .ok (result, later)) (w : World)
    : PromptlySupported (groundProgram rules) config.maxIterations
        (groundProgram (onRules rules g w)) (proved later w result.trueSet) := by
  rw [evaluateWfsRules] at run
  split at run
  · next hempty =>
      obtain rfl := List.isEmpty_iff.mp hempty
      obtain ⟨rfl, rfl⟩ := Prod.mk.inj (Except.ok.inj run)
      intro atom
      simp [proved, WfsResult.new, onRules, groundProgram]
  · obtain ⟨final, hloop, hresult⟩ := bind_eq_ok.mp run
    obtain ⟨rfl, rfl⟩ := Prod.mk.inj (Except.ok.inj hresult)
    obtain ⟨m, hm, hinv, hend⟩ := wfsLoop_spec hprov (StageInv.start hs) hloop
    rcases hend with ⟨hzero, rfl⟩ | hreached
    · rw [hzero]
      exact hinv.supported w
    · exact (hinv.supported w).later (groundProgram_mono (List.filter_subset_self _))
        hreached (by omega)

-- World by world

/-- The true atoms of the well-founded model of the rules that are on in the world. -/
def trueInWorld (rules : List WfsRule) (g : PirGraph) (w : World) : Set WfsAtom :=
  (wellFoundedModel (groundProgram (onRules rules g w))).1

/-- Each returned formula is true in the world exactly when its atom is true in the
well-founded model of the rules that are on there; atoms without a formula never are.
-/
def FollowsWellFoundedModel (rules : List WfsRule) (g : PirGraph) (w : World)
    (result : WfsResult) (later : PirGraph) : Prop :=
  ∀ atom, (∃ id, result.provenance atom = some id ∧ later.eval w id = true)
    ↔ atom ∈ trueInWorld rules g w

/-- The formulas follow the well-founded model of a world exactly when its true atoms are
the heads of the rules that are on there, have true positive atoms there, and are prompt in
the iteration on all rules.
-/
theorem followsWellFoundedModel_iff {rules : List WfsRule} {g later : PirGraph}
    {config : WfsConfig} {result : WfsResult} (hs : g.Sound)
    (hprov : ∀ rule ∈ rules, rule.provenance < g.len)
    (run : evaluateWfsRules rules g config = .ok (result, later)) (w : World)
    : FollowsWellFoundedModel rules g w result later
      ↔ PromptlySupported (groundProgram rules) config.maxIterations
          (groundProgram (onRules rules g w)) (trueInWorld rules g w) := by
  have hsupported := evaluateWfsRules_promptlySupported hs hprov run w
  have hset : FollowsWellFoundedModel rules g w result later
      ↔ proved later w result.trueSet = trueInWorld rules g w := Set.ext_iff.symm
  rw [hset]
  constructor
  · intro he
    exact he ▸ hsupported
  · intro hworld
    exact hsupported.unique (groundProgram_mono (List.filter_subset_self _)) hworld

/-- In a world with every rule on the model is that of all rules, whose true atoms are
promptly supported.
-/
theorem promptlySupported_of_all_on {rules : List WfsRule} {g later : PirGraph}
    {config : WfsConfig} {result : WfsResult} (hs : g.Sound)
    (hprov : ∀ rule ∈ rules, rule.provenance < g.len)
    (run : evaluateWfsRules rules g config = .ok (result, later))
    (hrounds : config.maxIterations ≠ 0) {w : World}
    (hon : ∀ rule ∈ rules, g.eval w rule.provenance = true)
    : PromptlySupported (groundProgram rules) config.maxIterations
        (groundProgram (onRules rules g w)) (trueInWorld rules g w) := by
  have hall : onRules rules g w = rules := List.filter_eq_self.mpr hon
  obtain ⟨m, hm, hreached⟩ : ∃ m ≤ config.maxIterations,
      stage (groundProgram rules) m = wellFoundedModel (groundProgram rules) := by
    rw [evaluateWfsRules] at run
    split at run
    · next hempty =>
        obtain rfl := List.isEmpty_iff.mp hempty
        refine ⟨1, by omega, stage_succ_eq_model fun atom ha => ?_⟩
        obtain h | ⟨_, hr, _⟩ := mem_stage_succ_fst.mp ha
        · exact h
        · simp at hr
    · obtain ⟨final, hloop, _⟩ := bind_eq_ok.mp run
      obtain ⟨m, hm, _, hend⟩ := wfsLoop_spec hprov (StageInv.start hs) hloop
      exact ⟨m, by omega, hend.resolve_left fun hz => hrounds hz.1⟩
  rw [trueInWorld, hall, ← hreached]
  exact (promptlySupported_stage _ m).later subset_rfl hreached hm

def queryAtom : WfsAtom := ⟨"q", []⟩
def negatingAtom : WfsAtom := ⟨"p", []⟩

/-- `q` under a leaf, and `p :- not q`. -/
def negatingRules : List WfsRule :=
  [⟨queryAtom, [], 0⟩, ⟨negatingAtom, [.negative queryAtom], 1⟩]

def negatingGraph : PirGraph := ⟨[.lit 0, .const true]⟩

/-- What the run returns: `q` is true under its leaf, `p` is false. -/
def negatingResult : WfsResult := ⟨[(queryAtom, 5)], [negatingAtom]⟩

def negatingResultGraph : PirGraph :=
  ⟨[.lit 0, .const true, .const false, .or [2, 0], .const false, .or [4, 3]]⟩

theorem evaluateWfsRules_negatingRules
    : evaluateWfsRules negatingRules negatingGraph WfsConfig.default
      = .ok (negatingResult, negatingResultGraph) := by
  decide +kernel

/-- With the leaf on, the formulas follow the model. -/
theorem followsWellFoundedModel_iff_negatingRules
    : FollowsWellFoundedModel negatingRules negatingGraph ⟨fun _ => true, fun _ => true⟩
        negatingResult negatingResultGraph :=
  have sound : negatingGraph.Sound :=
    PirGraph.Backward.sound (by decide)
  (followsWellFoundedModel_iff sound (by decide) evaluateWfsRules_negatingRules _).mpr
    (promptlySupported_of_all_on sound (by decide) evaluateWfsRules_negatingRules (by decide)
      (by decide))

/-- With the leaf off `p` is true, but the run on all rules took `q` for true, and so `p` for
false.
-/
theorem negatingRules_not_follows
    : evaluateWfsRules negatingRules negatingGraph WfsConfig.default
        = .ok (negatingResult, negatingResultGraph)
      ∧ ¬ FollowsWellFoundedModel negatingRules negatingGraph
          ⟨fun _ => false, fun _ => false⟩ negatingResult negatingResultGraph := by
  refine ⟨evaluateWfsRules_negatingRules, fun h => ?_⟩
  have hon : onRules negatingRules negatingGraph ⟨fun _ => false, fun _ => false⟩
      = [⟨negatingAtom, [.negative queryAtom], 1⟩] := by
    decide
  have hfalse : queryAtom ∈ (stage (groundProgram
      [⟨negatingAtom, [.negative queryAtom], 1⟩]) 1).2 := by
    rw [stage_succ_snd]
    exact external_mem_unfounded (by decide) _
  have htrue : negatingAtom ∈ (stage (groundProgram
      [⟨negatingAtom, [.negative queryAtom], 1⟩]) 1).1 := by
    refine mem_stage_succ_fst.mpr (.inr ⟨_, List.mem_singleton_self _, rfl, ?_, ?_, ?_⟩)
    · simp [stage]
    · intro atom ha
      simp [WfsRule.normal] at ha
    · intro atom ha
      obtain rfl : atom = queryAtom := by simpa [WfsRule.normal] using ha
      exact hfalse
  have hworld := (h negatingAtom).mpr (by
    rw [trueInWorld, hon]
    exact (stage_le_model _ 1).1 htrue)
  obtain ⟨id, hl, _⟩ := hworld
  have hnone : negatingResult.provenance negatingAtom = none := by decide
  simp [hnone] at hl

-- Keys of the provenance maps

/-- The atoms that have an entry. -/
def keysOf (entries : List (WfsAtom × PirNodeId)) : List WfsAtom := entries.map Prod.fst

theorem mem_keysOf_orEntry {atom other : WfsAtom} {proof : PirNodeId}
    {state : List (WfsAtom × PirNodeId) × PirGraph}
    : other ∈ keysOf (orEntry atom proof state).1 ↔ other = atom ∨ other ∈ keysOf state.1 := by
  have hinsert (id : PirNodeId)
      : other ∈ keysOf (insertEntry atom id state.1) ↔ other = atom ∨ other ∈ keysOf state.1 := by
    simp only [keysOf, insertEntry, List.map_append, List.mem_append, List.mem_map,
      List.mem_filter, List.map_cons, List.map_nil, List.mem_singleton]
    constructor
    · rintro (⟨entry, ⟨hmem, _⟩, rfl⟩ | rfl)
      · exact .inr ⟨entry, hmem, rfl⟩
      · exact .inl rfl
    · rintro (rfl | ⟨entry, hmem, rfl⟩)
      · exact .inr rfl
      · by_cases hsame : entry.1 = atom
        · exact .inr hsame
        · exact .inl ⟨entry, ⟨hmem, by simpa using hsame⟩, rfl⟩
  exact hinsert _

/-- The consequences are the heads of the rules that fire, by induction along the rules. -/
theorem mem_keysOf_deriveConsequences {rules : List WfsRule} {trueSet falseSet : List WfsAtom}
    {existing : List (WfsAtom × PirNodeId)} {g : PirGraph} {atom : WfsAtom}
    : atom ∈ keysOf (deriveConsequences (WfsContext.new rules) trueSet falseSet existing g).1
      ↔ ∃ rule ∈ rules, rule.head = atom
        ∧ Fires (WfsContext.new rules) trueSet falseSet rule := by
  refine foldl_inv (deriveRule (WfsContext.new rules) trueSet falseSet existing)
    (fun done state => atom ∈ keysOf state.1 ↔ ∃ rule ∈ done, rule.head = atom
      ∧ Fires (WfsContext.new rules) trueSet falseSet rule) rules ([], g) (by simp [keysOf]) ?_
  intro done rule state _ h
  have hlast : (∃ other ∈ done ++ [rule], other.head = atom
        ∧ Fires (WfsContext.new rules) trueSet falseSet other)
      ↔ (rule.head = atom ∧ Fires (WfsContext.new rules) trueSet falseSet rule)
        ∨ ∃ other ∈ done, other.head = atom
          ∧ Fires (WfsContext.new rules) trueSet falseSet other := by
    simp only [List.mem_append, List.mem_singleton, or_and_right, exists_or, exists_eq_left]
    exact or_comm
  rw [hlast, ← h, deriveRule]
  split
  · next hhead => simp [Fires, hhead]
  · next hhead =>
      split
      · next hbody =>
          rw [mem_keysOf_orEntry]
          refine or_congr_left ⟨fun he => ⟨he.symm, hhead, hbody⟩, fun he => he.1.symm⟩
      · next hbody => simp [Fires, hbody]

/-- Taking over entries adds their atoms to the true ones, by induction along them. -/
theorem addTrue_sets (entries : List (WfsAtom × PirNodeId)) (state : WfsState)
    (hkeys : ∀ atom, atom ∈ keysOf state.trueProvenance ↔ atom ∈ state.trueSet)
    : (entries.foldl WfsState.addTrue state).falseSet = state.falseSet
      ∧ (∀ atom, atom ∈ (entries.foldl WfsState.addTrue state).trueSet
        ↔ atom ∈ state.trueSet ∨ atom ∈ keysOf entries)
      ∧ ∀ atom, atom ∈ keysOf (entries.foldl WfsState.addTrue state).trueProvenance
        ↔ atom ∈ (entries.foldl WfsState.addTrue state).trueSet := by
  induction entries generalizing state with
  | nil => exact ⟨rfl, by simp [keysOf], hkeys⟩
  | cons entry entries ih =>
      rw [List.foldl_cons]
      have hstep : (state.addTrue entry).falseSet = state.falseSet
          ∧ (∀ atom, atom ∈ (state.addTrue entry).trueSet
            ↔ atom ∈ state.trueSet ∨ atom = entry.1)
          ∧ ∀ atom, atom ∈ keysOf (state.addTrue entry).trueProvenance
            ↔ atom ∈ (state.addTrue entry).trueSet := by
        rw [WfsState.addTrue]
        split
        · next hold =>
            refine ⟨rfl, fun atom => ⟨.inl, ?_⟩, hkeys⟩
            rintro (h | rfl)
            · exact h
            · exact hold
        · refine ⟨rfl, fun atom => by simp, fun atom => ?_⟩
          rw [mem_keysOf_orEntry, hkeys, List.mem_append, List.mem_singleton, or_comm]
      obtain ⟨hfalse, htrue, hsame⟩ := hstep
      obtain ⟨ihfalse, ihtrue, ihkeys⟩ := ih (state.addTrue entry) hsame
      refine ⟨ihfalse.trans hfalse, fun atom => ?_, ihkeys⟩
      rw [ihtrue, htrue, or_assoc]
      simp [keysOf]

-- The run

/-- The sets at the start of an iteration are the stage of the same number. -/
structure SetsStage (rules : List WfsRule) (n : Nat) (state : WfsState) : Prop where
  represents : RepresentsStage rules n state.trueSet state.falseSet
  keys : ∀ atom, atom ∈ keysOf state.trueProvenance ↔ atom ∈ state.trueSet

theorem SetsStage.iterate {rules : List WfsRule} {n : Nat} {state : WfsState}
    (h : SetsStage rules n state)
    : SetsStage rules (n + 1) (wfsIteration (WfsContext.new rules) state).1
      ∧ ((wfsIteration (WfsContext.new rules) state).2.2 = 0
          → (stage (groundProgram rules) (n + 1)).1 ⊆ (stage (groundProgram rules) n).1) := by
  let ctx := WfsContext.new rules
  let nextFalse := state.falseSet
    ++ (computeUnfoundedSet ctx state.trueSet state.falseSet).filter (· ∉ state.falseSet)
  have hnext : ∀ atom, atom ∈ nextFalse
      ↔ atom ∈ (stage (groundProgram rules) (n + 1)).2 ∧ atom ∈ ctx.sccAtoms :=
    fun atom => h.represents.falses_next
  let newTrue := deriveConsequences ctx state.trueSet nextFalse state.trueProvenance state.pir
  have hkeys : ∀ atom, atom ∈ keysOf newTrue.1
      ↔ ∃ rule ∈ rules, rule.head = atom
        ∧ PromptAt (groundProgram rules) n rule.normal := by
    intro atom
    rw [mem_keysOf_deriveConsequences]
    refine exists_congr fun rule => and_congr_right fun hr => and_congr_right fun _ => ?_
    exact h.represents.fires hnext hr
  let opened : WfsState := { state with falseSet := nextFalse, pir := newTrue.2 }
  obtain ⟨hfalse, htrue, hsame⟩ := addTrue_sets newTrue.1 opened h.keys
  have hiteration : wfsIteration ctx state
      = (newTrue.1.foldl WfsState.addTrue opened,
        ((computeUnfoundedSet ctx state.trueSet state.falseSet).filter
          (· ∉ state.falseSet)).length, newTrue.1.length) := rfl
  rw [hiteration]
  refine ⟨⟨⟨fun atom => ?_, fun atom => ?_⟩, hsame⟩, fun hnone => ?_⟩
  · rw [htrue, hkeys, mem_stage_succ_fst, h.represents.trues]
  · rw [hfalse]
    exact hnext atom
  · intro atom ha
    rcases mem_stage_succ_fst.mp ha with hold | hrule
    · exact hold
    · have hmem := (hkeys atom).mpr hrule
      rw [List.length_eq_zero_iff.mp hnone] at hmem
      simp [keysOf] at hmem

/-- The result is the well-founded model of the rules: no atom is both true and false, heads have
their truth value, and all other atoms are false in the model and not true in the result.
-/
structure ComputesModel (rules : List WfsRule) (result : WfsResult) : Prop where
  disjoint : ∀ atom ∈ result.falseSet, result.provenance atom = none
  trues
    : ∀ rule ∈ rules, result.truthValue rule.head = .true
      ↔ rule.head ∈ (wellFoundedModel (groundProgram rules)).1
  falses
    : ∀ rule ∈ rules, result.truthValue rule.head = .false
      ↔ rule.head ∈ (wellFoundedModel (groundProgram rules)).2
  undefined
    : ∀ rule ∈ rules, result.truthValue rule.head = .undefined
      ↔ rule.head ∉ (wellFoundedModel (groundProgram rules)).1
        ∧ rule.head ∉ (wellFoundedModel (groundProgram rules)).2
  others
    : ∀ atom, (∀ rule ∈ rules, rule.head ≠ atom)
      → atom ∈ (wellFoundedModel (groundProgram rules)).2 ∧ result.provenance atom = none

theorem isSome_lookup_iff_mem_keysOf {entries : List (WfsAtom × PirNodeId)} {atom : WfsAtom}
    : (entries.lookup atom).isSome = true ↔ atom ∈ keysOf entries := by
  rw [← not_iff_not, keysOf, ← lookup_eq_none_iff_not_mem, Option.not_isSome_iff_eq_none]

theorem WfsResult.truthValue_eq_true {result : WfsResult} {atom : WfsAtom}
    : result.truthValue atom = .true ↔ atom ∈ keysOf result.trueSet := by
  simp only [truthValue, isSome_lookup_iff_mem_keysOf]
  split
  · next h => simp [h]
  · next h => split <;> simp [h]

/-- Without an atom that is both true and false the false ones are those of the false set. -/
theorem WfsResult.truthValue_eq_false {result : WfsResult}
    (disjoint : ∀ atom ∈ result.falseSet, atom ∉ keysOf result.trueSet) {atom : WfsAtom}
    : result.truthValue atom = .false ↔ atom ∈ result.falseSet := by
  simp only [truthValue, isSome_lookup_iff_mem_keysOf]
  split
  · next h =>
      have hnot : atom ∉ result.falseSet := fun hf => disjoint atom hf h
      simp [hnot]
  · split <;> simp [*]

/-- Sets that are a stage of the iteration, which agrees with the model on the heads. -/
theorem SetsStage.computesModel {rules : List WfsRule} {n : Nat} {state : WfsState}
    (h : SetsStage rules n state)
    (reached
      : ∀ rule ∈ rules,
        (rule.head ∈ (stage (groundProgram rules) n).1
          ↔ rule.head ∈ (wellFoundedModel (groundProgram rules)).1)
        ∧ (rule.head ∈ (stage (groundProgram rules) n).2
          ↔ rule.head ∈ (wellFoundedModel (groundProgram rules)).2))
    : ComputesModel rules ⟨state.trueProvenance, state.falseSet⟩ := by
  have htrue (atom : WfsAtom)
      : atom ∈ keysOf state.trueProvenance ↔ atom ∈ (stage (groundProgram rules) n).1 := by
    rw [h.keys, h.represents.trues]
  have hdisjoint : ∀ atom ∈ state.falseSet, atom ∉ keysOf state.trueProvenance := by
    intro atom hf ht
    exact Set.disjoint_left.mp (stage_consistent (groundProgram rules) n) ((htrue atom).mp ht)
      ((h.represents.falses atom).mp hf).1
  have hnone {atom : WfsAtom} (hout : atom ∉ keysOf state.trueProvenance)
      : state.trueProvenance.lookup atom = none :=
    lookup_eq_none_iff_not_mem.mpr hout
  have htrues : ∀ rule ∈ rules,
      (⟨state.trueProvenance, state.falseSet⟩ : WfsResult).truthValue rule.head = .true
        ↔ rule.head ∈ (wellFoundedModel (groundProgram rules)).1 := by
    intro rule hr
    rw [WfsResult.truthValue_eq_true, htrue, (reached rule hr).1]
  have hfalses : ∀ rule ∈ rules,
      (⟨state.trueProvenance, state.falseSet⟩ : WfsResult).truthValue rule.head = .false
        ↔ rule.head ∈ (wellFoundedModel (groundProgram rules)).2 := by
    intro rule hr
    rw [WfsResult.truthValue_eq_false hdisjoint, h.represents.falses, (reached rule hr).2]
    exact and_iff_left (WfsContext.mem_sccAtoms.mpr ⟨rule, hr, rfl⟩)
  refine ⟨fun atom hf => hnone (hdisjoint atom hf), htrues, hfalses, ?_, ?_⟩
  · intro rule hr
    rw [← htrues rule hr, ← hfalses rule hr]
    cases (⟨state.trueProvenance, state.falseSet⟩ : WfsResult).truthValue rule.head <;> simp
  · intro atom hout
    have hexternal : atom ∉ (WfsContext.new rules).sccAtoms := by
      intro hmem
      obtain ⟨rule, hr, he⟩ := WfsContext.mem_sccAtoms.mp hmem
      exact hout rule hr he
    refine ⟨?_, hnone fun ht => hexternal (stage_derives ((htrue atom).mp ht))⟩
    rw [← wellFoundedModel_eq]
    exact external_mem_unfounded hexternal _

/-- A run that may iterate computes the model. One without any iteration leaves every atom
undefined, which is right only when the model does.
-/
theorem computesModel_iff {rules : List WfsRule} {g later : PirGraph} {config : WfsConfig}
    {result : WfsResult} (run : evaluateWfsRules rules g config = .ok (result, later))
    : ComputesModel rules result
      ↔ config.maxIterations ≠ 0
        ∨ ∀ rule ∈ rules, rule.head ∉ (wellFoundedModel (groundProgram rules)).1
          ∧ rule.head ∉ (wellFoundedModel (groundProgram rules)).2 := by
  have hstart : SetsStage rules 0 ⟨[], [], [], g⟩ := by
    refine ⟨?_, by simp [keysOf]⟩
    constructor <;> simp [stage]
  rw [evaluateWfsRules] at run
  split at run
  · next hempty =>
      obtain rfl := List.isEmpty_iff.mp hempty
      obtain ⟨rfl, rfl⟩ := Prod.mk.inj (Except.ok.inj run)
      exact ⟨fun _ => .inr (by simp), fun _ => hstart.computesModel (by simp)⟩
  · obtain ⟨final, hloop, hresult⟩ := bind_eq_ok.mp run
    obtain ⟨rfl, rfl⟩ := Prod.mk.inj (Except.ok.inj hresult)
    by_cases hrounds : config.maxIterations = 0
    · rw [hrounds] at hloop
      obtain rfl := Except.ok.inj hloop
      constructor
      · intro h
        refine .inr fun rule hr => (h.undefined rule hr).mp ?_
        simp [WfsResult.truthValue]
      · intro h
        have hopen := h.resolve_left fun hne => hne hrounds
        refine hstart.computesModel fun rule hr => ?_
        simp [stage, hopen rule hr]
    · refine ⟨fun _ => .inl hrounds, fun _ => ?_⟩
      obtain ⟨m, _, hinv, hend⟩ := wfsLoop_reaches (fun _ _ h => h.iterate) hstart hloop
      have hreached := hend.resolve_left fun hz => hrounds hz.1
      refine hinv.computesModel fun rule hr => ?_
      rw [hreached]
      exact ⟨Iff.rfl, Iff.rfl⟩

theorem computesModel_iff_negatingRules : ComputesModel negatingRules negatingResult :=
  (computesModel_iff evaluateWfsRules_negatingRules).mpr (.inl (by decide))

/-- One fact. -/
def factRules : List WfsRule := [⟨queryAtom, [], 0⟩]

/-- Without an iteration the run returns nothing, not even the fact. -/
theorem not_computesModel_factRules
    : ¬ ∀ (rules : List WfsRule) (g later : PirGraph) (config : WfsConfig) (result : WfsResult),
      evaluateWfsRules rules g config = .ok (result, later) → ComputesModel rules result := by
  intro hall
  have hmodel := hall factRules negatingGraph negatingGraph ⟨0⟩ WfsResult.new rfl
  have htrue : queryAtom ∈ (stage (groundProgram factRules) 1).1 := by
    refine mem_stage_succ_fst.mpr (.inr ⟨_, List.mem_singleton_self _, rfl, ?_, ?_, ?_⟩)
    · simp [stage]
    · intro atom ha
      simp [WfsRule.normal] at ha
    · intro atom ha
      simp [WfsRule.normal] at ha
  have hvalue := (hmodel.trues _ (List.mem_singleton_self _)).mpr
    ((stage_le_model (groundProgram factRules) 1).1 htrue)
  exact absurd hvalue (by decide)

end Xlog.Prob
