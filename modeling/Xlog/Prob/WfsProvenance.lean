import Xlog.Foundation.Assoc
import Xlog.Foundation.Loop
import Xlog.Prob.PirGrowth
import Xlog.Prob.Wfs

/-! The formulas that the evaluation merges on the side: what each one says in a world, one
iteration after the other.
-/

namespace Xlog.Prob

open Xlog.Foundation

/-- Entries of the provenance maps refer to nodes of the graph. -/
def Inside (g : PirGraph) (entries : List (WfsAtom × PirNodeId)) : Prop :=
  ∀ atom id, entries.lookup atom = some id → id < g.len

/-- The atoms whose formula is true in the world. -/
def proved (g : PirGraph) (w : World) (entries : List (WfsAtom × PirNodeId)) : Set WfsAtom :=
  { atom | ∃ id, entries.lookup atom = some id ∧ g.eval w id = true }

theorem Inside.extends {g later : PirGraph} {entries : List (WfsAtom × PirNodeId)}
    (h : Inside g entries) (hext : g.Extends later)
    : Inside later entries :=
  fun atom id hl => hext.lt (h atom id hl)

/-- A grown graph proves the same atoms. -/
theorem proved_extends {g later : PirGraph} {entries : List (WfsAtom × PirNodeId)}
    (h : Inside g entries) (hext : g.Extends later) (w : World)
    : proved later w entries = proved g w entries := by
  ext atom
  refine exists_congr fun id => and_congr_right fun hl => ?_
  rw [hext.eval_eq id (h atom id hl) w]

-- Entries

/-- Lookup in the map after an assignment. -/
theorem lookup_insertEntry (atom other : WfsAtom) (id : PirNodeId)
    (entries : List (WfsAtom × PirNodeId))
    : (insertEntry atom id entries).lookup other
      = if other = atom then some id else entries.lookup other :=
  lookup_filter_ne_append entries atom other id

theorem nodup_insertEntry (atom : WfsAtom) (id : PirNodeId)
    {entries : List (WfsAtom × PirNodeId)} (h : (entries.map Prod.fst).Nodup)
    : ((insertEntry atom id entries).map Prod.fst).Nodup := by
  have hsub : ((entries.filter (·.1 ≠ atom)).map Prod.fst).Nodup :=
    h.sublist (List.filter_sublist.map _)
  rw [insertEntry, List.map_append, List.nodup_append]
  refine ⟨hsub, by simp, fun key hk other ho => ?_⟩
  obtain ⟨entry, he, rfl⟩ := List.mem_map.mp hk
  obtain rfl : other = atom := by simpa using ho
  simpa using (List.mem_filter.mp he).2

/-- What a merge into the entry of an atom leaves behind. -/
structure Merged (atom : WfsAtom) (proof : PirNodeId) (before : PirGraph)
    (entries : List (WfsAtom × PirNodeId)) (after : List (WfsAtom × PirNodeId) × PirGraph)
    : Prop where
  grows : before.Extends after.2
  inside : Inside after.2 after.1
  keys : ∀ other, (after.1.lookup other).isSome = true
    ↔ (entries.lookup other).isSome = true ∨ other = atom
  proved : ∀ w other, other ∈ proved after.2 w after.1
    ↔ other ∈ proved before w entries ∨ other = atom ∧ before.eval w proof = true

/-- The disjunction of an entry and a proof, once the entry is there. -/
theorem orEntry_spec (atom : WfsAtom) {proof : PirNodeId}
    (state : List (WfsAtom × PirNodeId) × PirGraph) (hs : state.2.Sound)
    (hin : Inside state.2 state.1) (hp : proof < state.2.len)
    : Merged atom proof state.2 state.1 (orEntry atom proof state) := by
  -- the entry that is merged into, in the graph that holds it
  obtain ⟨entry, pir, hext, hlt, hentry, heq⟩ : ∃ entry pir, state.2.Extends pir
      ∧ entry < pir.len
      ∧ (∀ w, pir.eval w entry = true ↔ atom ∈ proved state.2 w state.1)
      ∧ orEntry atom proof state
          = (insertEntry atom (pir.or [entry, proof]).1 state.1, (pir.or [entry, proof]).2) := by
    cases hl : state.1.lookup atom with
    | some entry =>
        refine ⟨entry, state.2, .refl hs, hin atom entry hl, fun w => ?_, by simp [orEntry, hl]⟩
        simp [proved, hl]
    | none =>
        have hno : ∀ child ∈ (PirNode.const false).children, child < state.2.len := by
          simp [PirNode.children]
        refine ⟨state.2.len, state.2.constFalse.2, hs.extends_pushNode hno, ?_, fun w => ?_,
          by simp [orEntry, hl, PirGraph.constFalse]⟩
        · simp [PirGraph.constFalse]
        · have hfalse := hs.eval_pushNode hno w
          have hno : atom ∉ proved state.2 w state.1 := by simp [proved, hl]
          simp only [PirGraph.constFalse, hfalse, PirNode.value, hno, Bool.false_eq_true]
  have hchildren : ∀ child ∈ (PirNode.or [entry, proof]).children, child < pir.len := by
    intro child hc
    simp only [PirNode.children, List.mem_cons, List.not_mem_nil, or_false] at hc
    rcases hc with rfl | rfl
    · exact hlt
    · exact hext.lt hp
  have hpush := hext.sound.extends_pushNode hchildren
  have hlookup : ∀ other, (orEntry atom proof state).1.lookup other
      = if other = atom then some pir.len else state.1.lookup other := by
    intro other
    rw [heq]
    exact lookup_insertEntry atom other _ state.1
  have hgraph : (orEntry atom proof state).2 = (pir.pushNode (.or [entry, proof])).2 := by
    rw [heq]
    rfl
  have hall := hext.trans hpush
  refine ⟨hgraph ▸ hall, fun other id hl => ?_, fun other => ?_, fun w other => ?_⟩
  · rw [hlookup] at hl
    rw [hgraph]
    split at hl
    · obtain rfl := Option.some.inj hl
      simp
    · exact hall.lt (hin other id hl)
  · rw [hlookup]
    by_cases h : other = atom <;> simp [h]
  · simp only [proved, Set.mem_ofPred_eq, hlookup, hgraph]
    by_cases h : other = atom
    · subst h
      have hvalue := hext.sound.eval_pushNode hchildren w
      have hold := hentry w
      simp only [proved, Set.mem_ofPred_eq] at hold
      simp [hvalue, PirNode.value, ← hold, hext.eval_eq proof hp w]
    · simp only [h, if_false, false_and, or_false]
      exact exists_congr fun id => and_congr_right fun hl => by
        rw [hall.eval_eq id (hin other id hl) w]

-- The proof of one rule

/-- A rule's own provenance and its positive body atoms' formulas are true. -/
def RuleHolds (g : PirGraph) (w : World) (existing : List (WfsAtom × PirNodeId))
    (rule : WfsRule) : Prop :=
  g.eval w rule.provenance = true
    ∧ ∀ atom id, .positive atom ∈ rule.body → existing.lookup atom = some id
        → g.eval w id = true

theorem mem_provParts {rule : WfsRule} {existing : List (WfsAtom × PirNodeId)}
    {id : PirNodeId}
    : id ∈ provParts rule existing
      ↔ id = rule.provenance
        ∨ ∃ atom, .positive atom ∈ rule.body ∧ existing.lookup atom = some id := by
  rw [provParts, List.mem_cons, List.mem_filterMap]
  refine or_congr Iff.rfl ⟨fun h => ?_, fun h => ?_⟩
  · obtain ⟨literal, hl, hid⟩ := h
    cases literal with
    | positive atom => exact ⟨atom, hl, hid⟩
    | negative atom => simp at hid
  · obtain ⟨atom, ha, hid⟩ := h
    exact ⟨.positive atom, ha, hid⟩

/-- The proof that a rule gives says that the rule holds. -/
theorem ruleProof_spec {rule : WfsRule} {existing : List (WfsAtom × PirNodeId)}
    {g : PirGraph} (hs : g.Sound) (hin : Inside g existing) (hr : rule.provenance < g.len)
    : g.Extends (ruleProof rule existing g).2
      ∧ (ruleProof rule existing g).1 < (ruleProof rule existing g).2.len
      ∧ ∀ w, (ruleProof rule existing g).2.eval w (ruleProof rule existing g).1 = true
          ↔ RuleHolds g w existing rule := by
  have hparts : ∀ id ∈ provParts rule existing, id < g.len := by
    intro id hid
    rcases mem_provParts.mp hid with rfl | ⟨atom, _, hl⟩
    · exact hr
    · exact hin atom id hl
  have hholds : ∀ w, RuleHolds g w existing rule
      ↔ ∀ id ∈ provParts rule existing, g.eval w id = true := by
    intro w
    simp only [mem_provParts]
    constructor
    · intro h id hid
      rcases hid with rfl | ⟨atom, ha, hl⟩
      · exact h.1
      · exact h.2 atom id ha hl
    · intro h
      exact ⟨h _ (.inl rfl), fun atom id ha hl => h id (.inr ⟨atom, ha, hl⟩)⟩
  unfold ruleProof
  split
  · next only honly =>
      rw [honly] at hparts hholds
      refine ⟨.refl hs, hparts only (by simp), fun w => ?_⟩
      simp [hholds w]
  · have hchildren : ∀ child ∈ (PirNode.and (provParts rule existing)).children,
        child < g.len := hparts
    refine ⟨hs.extends_pushNode hchildren, by simp [PirGraph.and], fun w => ?_⟩
    have hvalue := hs.eval_pushNode hchildren w
    rw [hholds w, PirGraph.and, PirGraph.pushNode_fst, hvalue, PirNode.value,
      List.all_eq_true]

-- Consequences

/-- A rule is used in an iteration: its head is open and its body holds. -/
def Fires (ctx : WfsContext) (trueSet falseSet : List WfsAtom) (rule : WfsRule) : Prop :=
  ¬ (rule.head ∈ trueSet ∨ rule.head ∈ falseSet)
    ∧ rule.isSatisfied trueSet falseSet ctx.sccAtoms = some true

/-- A map that covers the heads of some rules, with what their formulas say: one of the
rules holds.
-/
structure Covers (rules : WfsRule → Prop) (existing : List (WfsAtom × PirNodeId))
    (before : PirGraph) (after : List (WfsAtom × PirNodeId) × PirGraph) : Prop where
  grows : before.Extends after.2
  inside : Inside after.2 after.1
  distinct : (after.1.map Prod.fst).Nodup
  keys : ∀ atom, (after.1.lookup atom).isSome = true ↔ ∃ rule, rules rule ∧ rule.head = atom
  proved : ∀ w atom, atom ∈ proved after.2 w after.1
    ↔ ∃ rule, rules rule ∧ rule.head = atom ∧ RuleHolds before w existing rule

/-- A grown graph does not change whether a rule holds. -/
theorem ruleHolds_extends {g later : PirGraph} {existing : List (WfsAtom × PirNodeId)}
    (hin : Inside g existing) (hext : g.Extends later) {rule : WfsRule}
    (hr : rule.provenance < g.len) (w : World)
    : RuleHolds later w existing rule ↔ RuleHolds g w existing rule := by
  rw [RuleHolds, RuleHolds, hext.eval_eq _ hr w]
  refine and_congr_right fun _ => ?_
  refine forall₃_congr fun atom id _ => forall_congr' fun hl => ?_
  rw [hext.eval_eq id (hin atom id hl) w]

/-- The consequences cover the rules that fire, by induction along the rules. -/
theorem deriveConsequences_spec {rules : List WfsRule} {trueSet falseSet : List WfsAtom}
    {existing : List (WfsAtom × PirNodeId)} {g : PirGraph} (hs : g.Sound)
    (hin : Inside g existing) (hprov : ∀ rule ∈ rules, rule.provenance < g.len)
    : Covers (fun rule => rule ∈ rules ∧ Fires (WfsContext.new rules) trueSet falseSet rule)
        existing g
        (deriveConsequences (WfsContext.new rules) trueSet falseSet existing g) := by
  refine foldl_inv (deriveRule (WfsContext.new rules) trueSet falseSet existing)
    (fun done state => Covers
      (fun rule => rule ∈ done ∧ Fires (WfsContext.new rules) trueSet falseSet rule)
      existing g state) rules ([], g) ?_ ?_
  · refine ⟨.refl hs, ?_, .nil, ?_, ?_⟩ <;> simp [Inside, proved]
  · intro done rule state hr h
    by_cases hfires : Fires (WfsContext.new rules) trueSet falseSet rule
    · have hbefore := h.grows.lt (hprov rule hr)
      obtain ⟨hgrow, hlt, hproof⟩ :=
        ruleProof_spec h.grows.sound (hin.extends h.grows) hbefore
      have hmerged := orEntry_spec rule.head (state.1, (ruleProof rule existing state.2).2)
        hgrow.sound (h.inside.extends hgrow) hlt
      have hstep : deriveRule (WfsContext.new rules) trueSet falseSet existing state rule
          = orEntry rule.head (ruleProof rule existing state.2).1
              (state.1, (ruleProof rule existing state.2).2) := by
        rw [deriveRule, if_neg hfires.1, if_pos hfires.2]
      rw [hstep]
      refine ⟨(h.grows.trans hgrow).trans hmerged.grows, hmerged.inside,
        nodup_insertEntry _ _ h.distinct, fun atom => ?_, fun w atom => ?_⟩
      · rw [hmerged.keys, h.keys]
        simp only [List.mem_append, List.mem_singleton, or_and_right, exists_or]
        refine or_congr_right ⟨fun he => ⟨rule, ⟨rfl, hfires⟩, he.symm⟩, fun he => ?_⟩
        obtain ⟨_, ⟨rfl, _⟩, he⟩ := he
        exact he.symm
      · rw [hmerged.proved, proved_extends h.inside hgrow, h.proved, hproof,
          ruleHolds_extends hin h.grows (hprov rule hr)]
        simp only [List.mem_append, List.mem_singleton, or_and_right, exists_or]
        refine or_congr_right ⟨fun he => ⟨rule, ⟨rfl, hfires⟩, he.1.symm, he.2⟩, fun he => ?_⟩
        obtain ⟨_, ⟨rfl, _⟩, he, hholds⟩ := he
        exact ⟨he.symm, hholds⟩
    · have hskip : deriveRule (WfsContext.new rules) trueSet falseSet existing state rule
          = state := by
        rw [deriveRule]
        by_cases hhead : rule.head ∈ trueSet ∨ rule.head ∈ falseSet
        · exact if_pos hhead
        · rw [if_neg hhead, if_neg fun hbody => hfires ⟨hhead, hbody⟩]
      have hsame : (fun other => other ∈ done ++ [rule]
            ∧ Fires (WfsContext.new rules) trueSet falseSet other)
          = fun other => other ∈ done
            ∧ Fires (WfsContext.new rules) trueSet falseSet other := by
        funext other
        refine propext (and_congr_left fun ho => ?_)
        simp only [List.mem_append, List.mem_singleton, or_iff_left_iff_imp]
        intro he
        exact absurd (he ▸ ho) hfires
      rw [hskip, hsame]
      exact h

-- One iteration

/-- The rules that are on in a world. -/
def onRules (rules : List WfsRule) (g : PirGraph) (w : World) : List WfsRule :=
  rules.filter fun rule => g.eval w rule.provenance

/-- What holds at the start of an iteration: the sets are a stage, and the formulas hold
exactly what the prompt rules that are on derive.
-/
structure StageInv (rules : List WfsRule) (g : PirGraph) (n : Nat) (state : WfsState)
    : Prop where
  represents : RepresentsStage rules n state.trueSet state.falseSet
  grows : g.Extends state.pir
  inside : Inside state.pir state.trueProvenance
  keys : ∀ atom, (state.trueProvenance.lookup atom).isSome = true ↔ atom ∈ state.trueSet
  supported : ∀ w, PromptlySupported (groundProgram rules) n
    (groundProgram (onRules rules g w)) (proved state.pir w state.trueProvenance)

theorem StageInv.start {rules : List WfsRule} {g : PirGraph} (hs : g.Sound)
    : StageInv rules g 0 ⟨[], [], [], g⟩ where
  represents := by constructor <;> simp [stage]
  grows := .refl hs
  inside := by simp [Inside]
  keys := by simp
  supported w := by
    intro atom
    simp [proved]

/-- What taking over new true atoms does to the state. -/
structure Adopted (entries : List (WfsAtom × PirNodeId)) (before after : WfsState)
    : Prop where
  grows : before.pir.Extends after.pir
  inside : Inside after.pir after.trueProvenance
  falses : after.falseSet = before.falseSet
  trues : ∀ atom, atom ∈ after.trueSet ↔ atom ∈ before.trueSet ∨ atom ∈ entries.map Prod.fst
  keys : ∀ atom, (after.trueProvenance.lookup atom).isSome = true
    ↔ (before.trueProvenance.lookup atom).isSome = true ∨ atom ∈ entries.map Prod.fst
  proved : ∀ w atom, atom ∈ proved after.pir w after.trueProvenance
    ↔ atom ∈ proved before.pir w before.trueProvenance
      ∨ ∃ entry ∈ entries, entry.1 = atom ∧ before.pir.eval w entry.2 = true

/-- New atoms with distinct names are all taken over, by induction along them. -/
theorem addTrue_spec {entries : List (WfsAtom × PirNodeId)} {state : WfsState}
    (hs : state.pir.Sound) (hin : Inside state.pir state.trueProvenance)
    (distinct : (entries.map Prod.fst).Nodup)
    (hnew : ∀ entry ∈ entries, entry.1 ∉ state.trueSet ∧ entry.2 < state.pir.len)
    : Adopted entries state (entries.foldl WfsState.addTrue state) := by
  suffices hfrom : ∀ (rest done : List (WfsAtom × PirNodeId)) (mid : WfsState),
      done ++ rest = entries → Adopted done state mid
      → Adopted entries state (rest.foldl WfsState.addTrue mid) by
    refine hfrom entries [] state rfl ⟨.refl hs, hin, rfl, ?_, ?_, ?_⟩ <;> simp
  intro rest
  induction rest with
  | nil =>
      intro done mid he h
      obtain rfl : done = entries := by simpa using he
      exact h
  | cons entry rest ih =>
      intro done mid he h
      refine ih (done ++ [entry]) _ (by simpa using he) ?_
      have hmem : entry ∈ entries := by simp [← he]
      have hfresh : entry.1 ∉ done.map Prod.fst := by
        rw [← he, List.map_append, List.map_cons, List.nodup_append] at distinct
        exact fun hd => distinct.2.2 _ hd entry.1 (by simp) rfl
      have hopen : entry.1 ∉ mid.trueSet := by
        rw [h.trues]
        exact not_or.mpr ⟨(hnew entry hmem).1, hfresh⟩
      have hmerged := orEntry_spec entry.1 (mid.trueProvenance, mid.pir) h.grows.sound
        h.inside (h.grows.lt (hnew entry hmem).2)
      have hstep : mid.addTrue entry = { mid with
          trueSet := mid.trueSet ++ [entry.1]
          trueProvenance := (orEntry entry.1 entry.2 (mid.trueProvenance, mid.pir)).1
          pir := (orEntry entry.1 entry.2 (mid.trueProvenance, mid.pir)).2 } := by
        rw [WfsState.addTrue, if_neg hopen]
      rw [hstep]
      refine ⟨h.grows.trans hmerged.grows, hmerged.inside, h.falses, fun atom => ?_,
        fun atom => ?_, fun w atom => ?_⟩
      · simp only [List.mem_append, List.mem_singleton, h.trues, List.map_append,
          List.map_cons, List.map_nil, or_assoc]
      · rw [hmerged.keys, h.keys]
        simp only [List.map_append, List.mem_append, List.map_cons, List.map_nil,
          List.mem_singleton, or_assoc]
      · rw [hmerged.proved, h.proved, h.grows.eval_eq _ (hnew entry hmem).2 w]
        simp only [List.mem_append, List.mem_singleton, or_and_right, exists_or,
          exists_eq_left, or_assoc, eq_comm (a := atom)]

/-- A formula of the map is true exactly when some entry's node is. -/
theorem Covers.exists_entry {rules : WfsRule → Prop} {existing : List (WfsAtom × PirNodeId)}
    {before : PirGraph} {after : List (WfsAtom × PirNodeId) × PirGraph}
    (h : Covers rules existing before after) {w : World} {atom : WfsAtom}
    : (∃ entry ∈ after.1, entry.1 = atom ∧ after.2.eval w entry.2 = true)
      ↔ ∃ rule, rules rule ∧ rule.head = atom ∧ RuleHolds before w existing rule := by
  rw [← h.proved w atom]
  constructor
  · intro he
    obtain ⟨entry, he, rfl, hvalue⟩ := he
    exact ⟨entry.2, lookup_of_mem h.distinct he, hvalue⟩
  · intro he
    obtain ⟨id, hl, hvalue⟩ := he
    exact ⟨(atom, id), mem_of_lookup hl, rfl, hvalue⟩

/-- A prompt rule holds when it is on and its positive atoms are proved: all of them have
formulas already.
-/
theorem StageInv.ruleHolds {rules : List WfsRule} {g : PirGraph} {n : Nat} {state : WfsState}
    (h : StageInv rules g n state) {rule : WfsRule} (hr : rule.provenance < g.len)
    (hprompt : PromptAt (groundProgram rules) n rule.normal) (w : World)
    : RuleHolds state.pir w state.trueProvenance rule
      ↔ g.eval w rule.provenance = true
        ∧ rule.normal.pos ⊆ proved state.pir w state.trueProvenance := by
  rw [RuleHolds, h.grows.eval_eq _ hr w]
  refine and_congr_right fun _ => ⟨fun hall atom ha => ?_, fun hall atom id ha hl => ?_⟩
  · have htrue := (h.represents.trues atom).mpr (hprompt.2.1 ha)
    obtain ⟨id, hl⟩ := Option.isSome_iff_exists.mp ((h.keys atom).mpr htrue)
    exact ⟨id, hl, hall atom id ha hl⟩
  · obtain ⟨other, hl', hvalue⟩ := hall ha
    obtain rfl : id = other := Option.some.inj (hl.symm.trans hl')
    exact hvalue

end Xlog.Prob
