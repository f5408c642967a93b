import Xlog.Foundation.Assoc
import Xlog.Logic.FixpointCorrectness

/-! The evaluator of a component computes the least model under the same condition as that of one
predicate.
-/

namespace Xlog.Logic

open Xlog.Foundation

/-- All rules of a component. -/
def RuleGroups.rules (groups : RuleGroups) : List Rule := groups.flatMap Prod.snd

/-- A predicate of the component. -/
def RuleGroups.Defines (groups : RuleGroups) (predicate : String) : Prop :=
  predicate ∈ groups.map Prod.fst

section Component

variable {schemas : String → List ScalarType} {groups : RuleGroups} {base : RefRelationStore}

theorem RuleGroups.mem_rules {group : String × List Rule} (hg : group ∈ groups) {rule : Rule}
    (hr : rule ∈ group.2)
    : rule ∈ groups.rules :=
  List.mem_flatMap.mpr ⟨group, hg, hr⟩

theorem RuleGroups.arity_of_mem (distinct : (groups.map Prod.fst).Nodup)
    {group : String × List Rule} (hg : group ∈ groups) {arity : Nat}
    (harity : headArity group.2 = some arity)
    : groups.arity group.1 = arity := by
  rw [RuleGroups.arity, lookup_of_mem distinct hg, Option.bind_some, harity, Option.getD_some]

/-- The rules with a head predicate of the component are those of its group. -/
theorem mem_group_iff (distinct : (groups.map Prod.fst).Nodup)
    (hheads : ∀ group ∈ groups, ∀ rule ∈ group.2, rule.head.predicate = group.1)
    {group : String × List Rule} (hg : group ∈ groups) {rule : Rule}
    : rule ∈ group.2 ↔ rule ∈ groups.rules ∧ rule.head.predicate = group.1 := by
  constructor
  · intro hr
    exact ⟨RuleGroups.mem_rules hg hr, hheads group hg rule hr⟩
  · rintro ⟨hr, hp⟩
    obtain ⟨other, ho, hr⟩ := List.mem_flatMap.mp hr
    have hkey : other.1 = group.1 := (hheads other ho rule hr).symm.trans hp
    have hlo := lookup_of_mem distinct ho
    rw [hkey, lookup_of_mem distinct hg] at hlo
    rwa [Option.some.inj hlo]

/-- Every relation of the component is that of the round. -/
def SccOk (schemas : String → List ScalarType) (groups : RuleGroups) (base : Interp)
    (rounds : Nat) (s : SccState) : Prop :=
  ∀ group ∈ groups, RoundOk schemas groups.rules base rounds group.1 (groups.arity group.1)
    (s.frozen group.1) (s.derived group.1)

theorem SccOk.interp {rounds : Nat} {s : SccState}
    (hs : SccOk schemas groups base.interp rounds s)
    (hheads : ∀ group ∈ groups, ∀ rule ∈ group.2, rule.head.predicate = group.1)
    : (s.store groups base).interp = roundsOf groups.rules base.interp rounds := by
  funext predicate
  by_cases hp : predicate ∈ groups.map Prod.fst
  · obtain ⟨group, hg, rfl⟩ := List.mem_map.mp hp
    ext row
    rw [← (hs group hg).mem_iff]
    simp [RefRelationStore.interp, SccState.store, SccState.relation, List.mem_map_of_mem hg]
  · rw [roundsOf_of_not_head]
    · ext row
      simp [RefRelationStore.interp, SccState.store, hp]
    · intro rule hr heq
      obtain ⟨group, hg, hr⟩ := List.mem_flatMap.mp hr
      rw [hheads group hg rule hr] at heq
      exact hp (heq ▸ List.mem_map_of_mem hg)

theorem checkRowTypes_ok {predicate : String} {schema : List ScalarType} {row : RefRow}
    (h : RowFits schema row)
    : checkRowTypes predicate schema row = .ok () := by
  have hnone : firstTypeMismatch row schema = none := by
    rw [firstTypeMismatch, List.findSome?_eq_none_iff]
    intro cell hc
    have hcell := List.fst_mem_of_mem_zipIdx hc
    rw [if_pos]
    obtain ⟨i, hlt, heq⟩ := List.getElem_of_mem hcell
    simp only [List.length_zip, lt_inf_iff] at hlt
    rw [← heq, List.getElem_zip]
    exact h.get hlt.1 hlt.2
  rw [checkRowTypes, hnone]

/-- The groups that a round has passed are in the next round, the others are as before. -/
structure RoundPart (schemas : String → List ScalarType) (groups : RuleGroups) (base : Interp)
    (rounds : Nat) (s : SccState) (done : RuleGroups) (next : SccState) : Prop where
  passed : ∀ group ∈ done, RoundOk schemas groups.rules base (rounds + 1) group.1
    (groups.arity group.1) (next.frozen group.1) (next.derived group.1)
    ∧ (next.derived group.1 = s.derived group.1
      ↔ roundsOf groups.rules base (rounds + 1) group.1 = roundsOf groups.rules base rounds group.1)
  todo : ∀ predicate, predicate ∉ done.map Prod.fst →
    next.frozen predicate = s.frozen predicate ∧ next.derived predicate = s.derived predicate

/-- One round of all groups. -/
theorem sccRound_spec (order : VariableOrder)
    (h : Consistent schemas base groups.Defines groups.rules)
    (hfits : PlaceholderFits groups.Defines groups.rules)
    (distinct : (groups.map Prod.fst).Nodup)
    (hheads : ∀ group ∈ groups, ∀ rule ∈ group.2, rule.head.predicate = group.1)
    {rounds : Nat} {s : SccState} (hs : SccOk schemas groups base.interp rounds s)
    : Ends (fun _ => False) (RoundPart schemas groups base.interp rounds s groups)
        (groups.foldlM (sccGroupStep (s.store groups base) order) s) := by
  have hinterp := hs.interp hheads
  have hready := h.ready hfits (s.store groups base)
    (fun predicate hp => if_neg hp)
    (fun predicate hp => by
      obtain ⟨group, hg, rfl⟩ := List.mem_map.mp hp
      exact ⟨groups.arity group.1, s.frozen group.1, s.derived group.1, if_pos hp,
        (hs group hg).toRelationOk⟩)
  refine Ends.foldlM (RoundPart schemas groups base.interp rounds s) ⟨by simp, by simp⟩ ?_
  intro before group after next heq hnext
  have hg : group ∈ groups := by simp [heq]
  have hnew : group.1 ∉ before.map Prod.fst := by
    intro hm
    rw [heq, List.map_append, List.map_cons, List.nodup_append] at distinct
    exact distinct.2.2 group.1 hm group.1 (by simp) rfl
  have hbase : base.interp group.1 = ∅ := by
    ext row
    simp [RefRelationStore.interp, h.fresh group.1 (List.mem_map_of_mem hg)]
  have hin (rule : Rule) (hr : rule ∈ group.2) : rule ∈ groups.rules := RuleGroups.mem_rules hg hr
  have hrun := ruleRows_spec (SccFixpointError.ruleEval group.1) order
    (fun rule hr => h.typed rule (hin rule hr)) (fun rule hr => h.eligible rule (hin rule hr))
    (fun rule hr => hready.atoms rule (hin rule hr))
  rw [hinterp] at hrun
  refine hrun.bind fun produced hmem => ?_
  have hproduced (row : RefRow) : row ∈ produced ↔ ∃ rule ∈ groups.rules,
      rule.head.predicate = group.1
      ∧ rule.Derives (roundsOf groups.rules base.interp rounds) row := by
    rw [hmem row]
    refine exists_congr fun rule => ?_
    rw [mem_group_iff distinct hheads hg, and_assoc]
  have htyped : ∀ row ∈ produced, RowFits (schemas group.1) row := by
    intro row hrow
    obtain ⟨rule, hr, hp, hd⟩ := (hproduced row).mp hrow
    obtain ⟨types, ht⟩ := h.typed rule hr
    exact hp ▸ ht.rowFits (hinterp ▸ hready.rows rule hr) hd
  obtain ⟨hfrozen, hderived⟩ := hnext.todo group.1 hnew
  have hold := hs group hg
  have hround := hold.next hbase hproduced htyped (.inl rfl)
  have hsame := hold.next_eq_iff hbase hproduced
  rw [← hfrozen] at hround
  have hchecks : ((next.frozen group.1).or (produced.head?.map inferSchema)).toList.forM
      (fun schema => produced.forM (checkRowTypes group.1 schema)) = .ok () := by
    refine forM_eq_ok.mpr fun schema hschema => forM_eq_ok.mpr fun row hrow => ?_
    rw [Option.mem_toList] at hschema
    obtain hf | ⟨hf, -⟩ := hround.frozen
    · obtain rfl := Option.some.inj (hf.symm.trans hschema)
      exact checkRowTypes_ok (htyped row hrow)
    · rw [hf] at hschema
      simp at hschema
  simp only [hchecks, ok_bind, hderived]
  constructor
  · intro other ho
    rcases List.mem_append.mp ho with ho | ho
    · have hne : other.1 ≠ group.1 := fun he => hnew (he ▸ List.mem_map_of_mem ho)
      simpa [hne] using hnext.passed other ho
    · obtain rfl := List.mem_singleton.mp ho
      simpa using ⟨hround, hsame⟩
  · intro predicate hp
    simp only [List.map_append, List.map_cons, List.map_nil, List.mem_append, List.mem_singleton,
      not_or] at hp
    simpa [hp.2] using hnext.todo predicate hp.1

/-- The loop ends in the least model if it has enough rounds left to reach it and one more, by
induction on these.
-/
theorem sccLoop_spec (order : VariableOrder) (limit left : Nat)
    (h : Consistent schemas base groups.Defines groups.rules)
    (hfits : PlaceholderFits groups.Defines groups.rules)
    (distinct : (groups.map Prod.fst).Nodup)
    (hheads : ∀ group ∈ groups, ∀ rule ∈ group.2, rule.head.predicate = group.1)
    {rounds : Nat} {s : SccState} (hs : SccOk schemas groups base.interp rounds s)
    (henough : ∃ last, rounds ≤ last ∧ last < rounds + left
      ∧ roundsOf groups.rules base.interp last = leastModel groups.rules base.interp)
    : Ends (fun _ => False) (fun store => ∀ group ∈ groups, ∃ relation,
        store group.1 = some relation
        ∧ ∀ row, row ∈ relation.rows ↔ row ∈ leastModel groups.rules base.interp group.1)
        (sccLoop groups base order limit left s) := by
  induction left generalizing rounds s with
  | zero =>
      obtain ⟨last, hle, hlt, -⟩ := henough
      omega
  | succ left ih =>
      unfold sccLoop
      refine (sccRound_spec order h hfits distinct hheads hs).bind fun next hnext => ?_
      have hsame : (groups.all fun group => next.derived group.1 = s.derived group.1) = true
          ↔ ∀ group ∈ groups, roundsOf groups.rules base.interp (rounds + 1) group.1
            = roundsOf groups.rules base.interp rounds group.1 := by
        simp only [List.all_eq_true, decide_eq_true_eq]
        exact forall₂_congr fun group hg => (hnext.passed group hg).2
      split
      · rename_i heq
        have hmodel : roundsOf groups.rules base.interp rounds
            = leastModel groups.rules base.interp := by
          refine roundsOf_eq_leastModel (funext fun predicate => ?_)
          by_cases hp : predicate ∈ groups.map Prod.fst
          · obtain ⟨group, hg, rfl⟩ := List.mem_map.mp hp
            exact hsame.mp heq group hg
          · have hnot : ∀ rule ∈ groups.rules, rule.head.predicate ≠ predicate := by
              intro rule hr he
              obtain ⟨group, hg, hr⟩ := List.mem_flatMap.mp hr
              exact hp (he ▸ hheads group hg rule hr ▸ List.mem_map_of_mem hg)
            rw [roundsOf_of_not_head hnot, roundsOf_of_not_head hnot]
        intro group hg
        refine ⟨next.relation groups group.1, if_pos (List.mem_map_of_mem hg), ?_⟩
        intro row
        rw [← hmodel, ← hsame.mp heq group hg]
        exact (hnext.passed group hg).1.mem_iff row
      · rename_i hne
        refine ih (fun group hg => (hnext.passed group hg).1) ?_
        obtain ⟨last, hle, hlt, hlast⟩ := henough
        refine ⟨last, ?_, by omega, hlast⟩
        rcases Nat.lt_or_eq_of_le hle with hless | rfl
        · exact hless
        · exact absurd (hsame.mpr fun group _ => by rw [roundsOf_stable hlast]) hne

theorem checkGroup_ok (h : Consistent schemas base groups.Defines groups.rules)
    (hheads : ∀ group ∈ groups, ∀ rule ∈ group.2, rule.head.predicate = group.1)
    {group : String × List Rule} (hg : group ∈ groups) {arity : Nat}
    (harity : headArity group.2 = some arity)
    : checkGroup base group = .ok () := by
  have htyped (rule : Rule) (hr : rule ∈ group.2) : ∃ types, rule.Typed schemas types :=
    h.typed rule (RuleGroups.mem_rules hg hr)
  have hchecked : group.2.zipIdx.forM (fun item =>
      if item.1.head.predicate ≠ group.1 then
        Except.error (SccFixpointError.ruleHeadPredicateMismatch group.1 item.2
          item.1.head.predicate)
      else .ok ()) = .ok () := by
    refine forM_eq_ok.mpr fun item hi => ?_
    rw [if_neg (not_not_intro (hheads group hg item.1 (List.fst_mem_of_mem_zipIdx hi)))]
  have harities : group.2.zipIdx.forM (fun item =>
      if ¬ item.1.head.terms.isEmpty ∧ item.1.head.terms.length ≠ arity then
        Except.error (SccFixpointError.headArityMismatch group.1 item.2 item.1.head.terms.length
          arity)
      else .ok ()) = .ok () := by
    refine forM_eq_ok.mpr fun item hi => ?_
    have hlen := (length_eq_headArity htyped (hheads group hg) harity).2 item.1
      (List.fst_mem_of_mem_zipIdx hi)
    rw [if_neg (by simp [hlen])]
  simp only [checkGroup, h.fresh group.1 (List.mem_map_of_mem hg), Option.isSome_none,
    Bool.false_eq_true, if_false, hchecked, ok_bind, harity, harities]

theorem headArity_of_checkGroup {group : String × List Rule} (run : checkGroup base group = .ok ())
    : headArity group.2 ≠ none := by
  intro hnone
  unfold checkGroup at run
  split at run
  · simp at run
  · obtain ⟨-, -, run⟩ := bind_eq_ok.mp run
    rw [hnone] at run
    simp at run

/-- The evaluator of a component computes its least relations exactly when its predicates have
arguments and the placeholders accept the constants of the recursive atoms.
-/
theorem evaluateSccFixpoint_iff {order : VariableOrder} {config : FixpointConfig}
    (h : Consistent schemas base groups.Defines groups.rules)
    (distinct : (groups.map Prod.fst).Nodup)
    (hheads : ∀ group ∈ groups, ∀ rule ∈ group.2, rule.head.predicate = group.1)
    (henough : ∃ rounds < config.maxIterations,
      roundsOf groups.rules base.interp rounds = leastModel groups.rules base.interp)
    : (∃ store, evaluateSccFixpoint groups base order config = .ok store
        ∧ ∀ group ∈ groups, ∃ relation, store group.1 = some relation
          ∧ ∀ row, row ∈ relation.rows ↔ row ∈ leastModel groups.rules base.interp group.1)
      ↔ (∀ group ∈ groups, ∃ rule ∈ group.2, rule.head.terms ≠ [])
        ∧ PlaceholderFits groups.Defines groups.rules := by
  obtain ⟨last, hlt, hlast⟩ := henough
  have hlimit : config.maxIterations ≠ 0 := by omega
  constructor
  · rintro ⟨store, run, -⟩
    simp only [evaluateSccFixpoint, if_neg hlimit] at run
    obtain ⟨_, hchecks, run⟩ := bind_eq_ok.mp run
    constructor
    · intro group hg
      exact headArity_ne_none.mp (headArity_of_checkGroup (forM_eq_ok.mp hchecks group hg))
    · obtain ⟨left, hleft⟩ := Nat.exists_eq_succ_of_ne_zero hlimit
      rw [hleft, sccLoop] at run
      obtain ⟨next, hround, -⟩ := bind_eq_ok.mp run
      intro rule hr atom ha hp
      obtain ⟨group, hg, hr⟩ := List.mem_flatMap.mp hr
      have hall := foldlM_inv _ (fun (done : RuleGroups) (_ : SccState) => ∀ group ∈ done,
          ∀ rule ∈ group.2, ∃ rows, evaluateRule rule
            (SccState.store groups base ⟨fun _ => none, fun _ => []⟩) order = .ok rows)
        groups (by simp) (fun done group s s' _ hdone hstep => by
          obtain ⟨produced, hproduced, -⟩ := bind_eq_ok.mp hstep
          intro other ho
          rcases List.mem_append.mp ho with ho | ho
          · exact hdone other ho
          · obtain rfl := List.mem_singleton.mp ho
            exact fun rule hr => exists_of_ruleRows hproduced hr) hround
      obtain ⟨rows, hrows⟩ := hall group hg rule hr
      exact constantFits_of_evaluateRule hrows ha (groups.arity atom.predicate) [] (if_pos hp)
  · rintro ⟨hnonempty, hfits⟩
    have harity (group : String × List Rule) (hg : group ∈ groups)
        : ∃ arity, headArity group.2 = some arity :=
      Option.ne_none_iff_exists'.mp (headArity_ne_none.mpr (hnonempty group hg))
    have hchecks : groups.forM (checkGroup base) = .ok () := by
      refine forM_eq_ok.mpr fun group hg => ?_
      obtain ⟨arity, ha⟩ := harity group hg
      exact checkGroup_ok h hheads hg ha
    have hstart : SccOk schemas groups base.interp 0 ⟨fun _ => none, fun _ => []⟩ := by
      intro group hg
      obtain ⟨arity, ha⟩ := harity group hg
      have hbase : base.interp group.1 = ∅ := by
        ext row
        simp [RefRelationStore.interp, h.fresh group.1 (List.mem_map_of_mem hg)]
      refine roundOk_zero groups.rules hbase ?_
      rw [RuleGroups.arity_of_mem distinct hg ha]
      exact (length_eq_headArity
        (fun rule hr => h.typed rule (RuleGroups.mem_rules hg hr)) (hheads group hg) ha).1
    have hloop := sccLoop_spec order config.maxIterations config.maxIterations h hfits distinct
      hheads hstart ⟨last, by omega, by omega, hlast⟩
    have hrun : evaluateSccFixpoint groups base order config
        = sccLoop groups base order config.maxIterations config.maxIterations
          ⟨fun _ => none, fun _ => []⟩ := by
      simp only [evaluateSccFixpoint, if_neg hlimit, hchecks, ok_bind]
    rw [← hrun] at hloop
    cases run : evaluateSccFixpoint groups base order config with
    | error e =>
        rw [run] at hloop
        exact hloop.elim
    | ok store =>
        rw [run] at hloop
        exact ⟨store, rfl, hloop⟩

end Component

-- Both evaluators

/-- The limit leaves one round after those that the least model needs. -/
def EnoughRounds (rules : List Rule) (base : RefRelationStore) (config : FixpointConfig) : Prop :=
  ∃ rounds < config.maxIterations,
    roundsOf rules base.interp rounds = leastModel rules base.interp

def FixpointCorrect (rules : List Rule) (base : RefRelationStore) (target : String)
    (order : VariableOrder) (config : FixpointConfig) : Prop :=
  ∃ relation, evaluateFixpoint rules base target order config = .ok relation
    ∧ ∀ row, row ∈ relation.rows ↔ row ∈ leastModel rules base.interp target

def SccFixpointCorrect (groups : RuleGroups) (base : RefRelationStore) (order : VariableOrder)
    (config : FixpointConfig) : Prop :=
  ∃ store, evaluateSccFixpoint groups base order config = .ok store
    ∧ ∀ group ∈ groups, ∃ relation, store group.1 = some relation
      ∧ ∀ row, row ∈ relation.rows ↔ row ∈ leastModel groups.rules base.interp group.1

theorem rules_singleton (target : String) (rules : List Rule)
    : RuleGroups.rules [(target, rules)] = rules := by
  simp [RuleGroups.rules]

theorem defines_singleton (target : String) (rules : List Rule)
    : RuleGroups.Defines [(target, rules)] = (· = target) := by
  funext predicate
  simp [RuleGroups.Defines]

/-- Both evaluators return the least model of typed rules if and only if every recursive predicate
has arguments and every constant of a recursive atom has a value of type `u32`, that of the
placeholder.
-/
theorem fixpoints_correct_iff {schemas : String → List ScalarType} {groups : RuleGroups}
    {base : RefRelationStore} {order : VariableOrder} {config : FixpointConfig}
    (h : Consistent schemas base groups.Defines groups.rules)
    (distinct : (groups.map Prod.fst).Nodup)
    (hheads : ∀ group ∈ groups, ∀ rule ∈ group.2, rule.head.predicate = group.1)
    (henough : EnoughRounds groups.rules base config)
    : (SccFixpointCorrect groups base order config
        ↔ (∀ group ∈ groups, ∃ rule ∈ group.2, rule.head.terms ≠ [])
          ∧ PlaceholderFits groups.Defines groups.rules)
      ∧ ∀ target rules, groups = [(target, rules)] →
        (FixpointCorrect rules base target order config
          ↔ (∃ rule ∈ rules, rule.head.terms ≠ []) ∧ PlaceholderFits (· = target) rules) := by
  refine ⟨evaluateSccFixpoint_iff h distinct hheads henough, ?_⟩
  rintro target rules rfl
  rw [rules_singleton, defines_singleton] at h
  rw [rules_singleton] at henough
  exact evaluateFixpoint_iff h (hheads (target, rules) (by simp)) henough

/-- `reach(X, Y) :- edge(X, Y), edge(X, Y).` and
`reach(X, Y) :- edge(X, Y), reach(Y, last).`
-/
def reachRules (last : Term) : List Rule :=
  let edge : BodyLiteral := .positive ⟨"edge", [.var "X", .var "Y"]⟩
  [⟨⟨"reach", [.var "X", .var "Y"]⟩, [edge, edge]⟩,
    ⟨⟨"reach", [.var "X", .var "Y"]⟩, [edge, .positive ⟨"reach", [.var "Y", last]⟩]⟩]

def symbolEdge : RefRelationStore := fun predicate =>
  if predicate = "edge" then
    some ⟨[.symbol, .symbol], [[.symbol "b", .symbol "a"]]⟩
  else none

def onlyEdge : RefRow := [.symbol "b", .symbol "a"]

/-- Every edge is in `reach`, and nothing else: the only edge leads nowhere. -/
theorem reachRules_derive (last : Term) {interp : Interp} (hedge : interp "edge" = {onlyEdge})
    (row : RefRow)
    : (∃ rule ∈ reachRules last, rule.head.predicate = "reach" ∧ rule.Derives interp row)
      ↔ row = onlyEdge := by
  constructor
  · rintro ⟨rule, hr, -, σ, ⟨hatoms, -⟩, hhead⟩
    have hmatch : Atom.Matches ⟨"edge", [.var "X", .var "Y"]⟩ σ onlyEdge := by
      have hmem : Atom.mk "edge" [.var "X", .var "Y"] ∈ rule.positiveAtoms := by
        rcases List.mem_pair.mp hr with rfl | rfl <;> simp [Rule.positiveAtoms]
      obtain ⟨r, hr, hm⟩ := hatoms _ hmem
      rw [hedge] at hr
      obtain rfl : r = onlyEdge := hr
      exact hm
    have hargs : rule.head.terms = [.var "X", .var "Y"] := by
      rcases List.mem_pair.mp hr with rfl | rfl <;> rfl
    rw [hargs] at hhead
    simp only [Atom.Matches, onlyEdge, List.forall₂_cons, TermMatches, List.Forall₂.nil,
      and_true] at hmatch
    cases hhead with
    | cons hx hhead =>
        cases hhead with
        | cons hy hhead =>
            cases hhead
            rw [onlyEdge, hmatch.1, hmatch.2, show _ = σ "X" from hx, show _ = σ "Y" from hy]
  · rintro rfl
    refine ⟨_, List.mem_cons_self, rfl, fun name => .symbol (if name = "X" then "b" else "a"),
      ⟨?_, by simp [Rule.comparisons]⟩, ?_⟩
    · intro atom ha
      have heq : atom = ⟨"edge", [.var "X", .var "Y"]⟩ := by
        simpa [Rule.positiveAtoms] using ha
      subst heq
      exact ⟨onlyEdge, by simp [hedge], by simp [Atom.Matches, onlyEdge, TermMatches]⟩
    · simp [onlyEdge, TermValue]

theorem reachRules_enough (last : Term) : EnoughRounds (reachRules last) symbolEdge ⟨32⟩ := by
  have hedge : symbolEdge.interp "edge" = {onlyEdge} := by
    ext row
    simp [RefRelationStore.interp, symbolEdge, onlyEdge]
  have hnone : symbolEdge.interp "reach" = ∅ := by
    ext row
    simp [RefRelationStore.interp, symbolEdge]
  have hnothead : ∀ rule ∈ reachRules last, rule.head.predicate = "reach" := by
    simp [reachRules]
  have hround (interp : Interp) (he : interp "edge" = {onlyEdge})
      : consequence (reachRules last) symbolEdge.interp interp
        = Function.update symbolEdge.interp "reach" {onlyEdge} := by
    funext predicate
    by_cases hp : predicate = "reach"
    · subst hp
      ext row
      rw [Function.update_self, Set.mem_singleton_iff, ← reachRules_derive last he]
      exact ⟨fun hm => hm.resolve_left (by simp [hnone]), Or.inr⟩
    · ext row
      rw [Function.update_of_ne hp]
      refine ⟨fun hm => hm.resolve_right ?_, Or.inl⟩
      rintro ⟨rule, hrule, rfl, -⟩
      exact hp (hnothead rule hrule)
  have hfirst := hround symbolEdge.interp hedge
  refine ⟨1, by decide, roundsOf_eq_leastModel ?_⟩
  rw [roundsOf_succ, roundsOf_succ, roundsOf, hfirst]
  exact hround _ (by simp [hedge])

/-- A rule of two atoms over typed arguments. -/
theorem reachRules_consistent {last : Term} {ty : ScalarType}
    (hlast : TermFits (fun _ => ty) last ty) (hty : ty = .symbol)
    (heligible : ∀ rule ∈ reachRules last,
      analyze (HypergraphRule.fromRule rule) .hashFallback = .eligible)
    : Consistent (fun _ => [.symbol, .symbol]) symbolEdge (· = "reach") (reachRules last) := by
  subst hty
  have hvar (name : String) : TermFits (fun _ => .symbol) (.var name) .symbol :=
    ⟨fun _ _ => rfl, trivial⟩
  constructor
  · intro rule hr
    refine ⟨fun _ => .symbol, ?_⟩
    rcases List.mem_pair.mp hr with rfl | rfl
    · constructor <;> simp [Rule.positiveAtoms, Rule.comparisons, BodyLiteral.isComputed, hvar,
        ValueFits, Rule.Binds]
    · constructor <;> simp [Rule.positiveAtoms, Rule.comparisons, BodyLiteral.isComputed, hvar,
        hlast, ValueFits, Rule.Binds]
  · exact heligible
  · intro rule hr atom ha
    rcases List.mem_pair.mp hr with rfl | rfl
    · simp [Rule.positiveAtoms] at ha
      simp [ha, symbolEdge]
    · simp [Rule.positiveAtoms] at ha
      rcases ha with rfl | rfl <;> simp [symbolEdge]
  · intro predicate relation hrel
    simp only [symbolEdge] at hrel
    split at hrel
    · obtain rfl := Option.some.inj hrel
      simp [RowFits, RefValue.scalarType]
    · simp at hrel
  · rintro _ rfl
    rfl

/-- The same rules with a symbol as a constant of the recursive atom are refused in the first
round.
-/
theorem fixpoint_refuses_symbol
    : Consistent (fun _ => [.symbol, .symbol]) symbolEdge (· = "reach")
        (reachRules (.string "a"))
      ∧ EnoughRounds (reachRules (.string "a")) symbolEdge ⟨32⟩
      ∧ ¬ FixpointCorrect (reachRules (.string "a")) symbolEdge "reach" appearanceOrder ⟨32⟩
      ∧ ¬ SccFixpointCorrect [("reach", reachRules (.string "a"))] symbolEdge appearanceOrder
        ⟨32⟩ := by
  refine ⟨reachRules_consistent ⟨by simp, rfl⟩ rfl (by decide +kernel), reachRules_enough _,
    ?_, ?_⟩
  · rintro ⟨relation, run, -⟩
    have hfails : (evaluateFixpoint (reachRules (.string "a")) symbolEdge "reach" appearanceOrder
        ⟨32⟩).isOk = false := by
      decide +kernel
    rw [run] at hfails
    cases hfails
  · rintro ⟨store, run, -⟩
    have hfails : (evaluateSccFixpoint [("reach", reachRules (.string "a"))] symbolEdge
        appearanceOrder ⟨32⟩).isOk = false := by
      decide +kernel
    rw [run] at hfails
    cases hfails

theorem reach_fixpoints_correct
    : SccFixpointCorrect [("reach", reachRules (.var "Y"))] symbolEdge appearanceOrder ⟨32⟩
      ∧ FixpointCorrect (reachRules (.var "Y")) symbolEdge "reach" appearanceOrder ⟨32⟩ := by
  have hconsistent := @reachRules_consistent (.var "Y") .symbol ⟨by simp, trivial⟩ rfl
    (by decide +kernel)
  have hfits : PlaceholderFits (· = "reach") (reachRules (.var "Y")) := by
    intro rule hr atom ha hp term ht
    rcases List.mem_pair.mp hr with rfl | rfl <;> simp [Rule.positiveAtoms] at ha
    · subst ha
      simp at hp
    · rcases ha with rfl | rfl
      · simp at hp
      · rcases List.mem_pair.mp ht with rfl | rfl <;> trivial
  have hboth := @fixpoints_correct_iff (fun _ => [.symbol, .symbol])
    [("reach", reachRules (.var "Y"))] symbolEdge appearanceOrder ⟨32⟩
    (by rwa [rules_singleton, defines_singleton]) (by simp) (by simp [reachRules])
    (by rw [rules_singleton]; exact reachRules_enough _)
  rw [rules_singleton, defines_singleton] at hboth
  exact ⟨hboth.1.mpr ⟨by simp [reachRules], hfits⟩,
    (hboth.2 _ _ rfl).mpr ⟨⟨_, List.mem_cons_self, by simp⟩, hfits⟩⟩

end Xlog.Logic
