import Xlog.Logic.Fixpoint

/-! The evaluator of one predicate computes the least model of typed rules exactly when the
placeholder schema of the relation that is still empty accepts the constants of its own atoms.
-/

namespace Xlog.Logic

open Xlog.Foundation

section Target

variable {schemas : String → List ScalarType} {rules : List Rule} {base : RefRelationStore}
variable {target : String} {order : VariableOrder} {arity : Nat}

/-- The store of a round holds the round. -/
theorem interp_update (schema : List ScalarType) {rows : List RefRow} {rounds : Nat}
    (hheads : ∀ rule ∈ rules, rule.head.predicate = target)
    (hrows : ∀ row, row ∈ rows ↔ row ∈ roundsOf rules base.interp rounds target)
    : RefRelationStore.interp (Function.update base target (some ⟨schema, rows⟩))
      = roundsOf rules base.interp rounds := by
  funext predicate
  by_cases hp : predicate = target
  · subst hp
    ext row
    simp [RefRelationStore.interp, ← hrows]
  · rw [roundsOf_of_not_head (fun rule hr => (hheads rule hr).trans_ne (Ne.symm hp))]
    ext row
    simp [RefRelationStore.interp, hp]

/-- The loop ends in the least model if it has enough rounds left to reach it and one more, by
induction on these.
-/
theorem fixpointLoop_spec (order : VariableOrder) (limit left : Nat)
    (h : Consistent schemas base (· = target) rules)
    (hfits : PlaceholderFits (· = target) rules)
    (hheads : ∀ rule ∈ rules, rule.head.predicate = target) {rounds : Nat} {s : FixpointState}
    (hs : RoundOk schemas rules base.interp rounds target arity s.schema s.rows)
    (henough : ∃ last, rounds ≤ last ∧ last < rounds + left
      ∧ roundsOf rules base.interp last = leastModel rules base.interp)
    : Ends (fun _ => False)
        (fun relation => ∀ row, row ∈ relation.rows ↔ row ∈ leastModel rules base.interp target)
        (fixpointLoop rules base target order limit arity left s) := by
  induction left generalizing rounds s with
  | zero =>
      obtain ⟨last, hle, hlt, -⟩ := henough
      omega
  | succ left ih =>
      have hbase : base.interp target = ∅ := by
        ext row
        simp [RefRelationStore.interp, h.fresh target rfl]
      have hinterp := interp_update (schemaOr s.schema arity) hheads hs.mem_iff
      have hready := h.ready hfits
        (Function.update base target (some ⟨schemaOr s.schema arity, s.rows⟩))
        (fun predicate hp => Function.update_of_ne hp _ _)
        (fun predicate hp => ⟨arity, s.schema, s.rows, by simp [hp], hp ▸ hs.toRelationOk⟩)
      have hrun := ruleRows_spec FixpointError.ruleEval order h.typed h.eligible
        hready.atoms
      rw [hinterp] at hrun
      unfold fixpointLoop
      refine hrun.bind fun produced hmem => ?_
      have hproduced (row : RefRow) : row ∈ produced ↔ ∃ rule ∈ rules,
          rule.head.predicate = target ∧ rule.Derives (roundsOf rules base.interp rounds) row := by
        rw [hmem row]
        refine exists_congr fun rule => and_congr_right fun hr => ?_
        rw [and_iff_right (hheads rule hr)]
      have htyped : ∀ row ∈ produced, RowFits (schemas target) row := by
        intro row hrow
        obtain ⟨rule, hr, hp, hd⟩ := (hproduced row).mp hrow
        obtain ⟨types, ht⟩ := h.typed rule hr
        exact hp ▸ ht.rowFits (hinterp ▸ hready.rows rule hr) hd
      have hsame := hs.next_eq_iff hbase hproduced
      have hstable : roundsOf rules base.interp (rounds + 1) target
          = roundsOf rules base.interp rounds target →
          roundsOf rules base.interp rounds = leastModel rules base.interp := by
        intro heq
        refine roundsOf_eq_leastModel (funext fun predicate => ?_)
        by_cases hp : predicate = target
        · rw [hp, heq]
        · have hnot : ∀ rule ∈ rules, rule.head.predicate ≠ predicate :=
            fun rule hr => (hheads rule hr).trans_ne (Ne.symm hp)
          rw [roundsOf_of_not_head hnot, roundsOf_of_not_head hnot]
      simp only
      split
      · rename_i heq
        intro row
        rw [← hstable (hsame.mp heq)]
        exact hs.mem_iff row
      · rename_i hne
        refine ih (hs.next hbase hproduced htyped (.inr rfl)) ?_
        obtain ⟨last, hle, hlt, hlast⟩ := henough
        refine ⟨last, ?_, by omega, hlast⟩
        rcases Nat.lt_or_eq_of_le hle with hless | rfl
        · exact hless
        · exact absurd (hsame.mpr (by rw [roundsOf_stable hlast])) hne

/-- The checks at entry pass when some rule has a head with arguments, and only then. -/
theorem evaluateFixpoint_eq_loop (h : Consistent schemas base (· = target) rules)
    (hheads : ∀ rule ∈ rules, rule.head.predicate = target) {config : FixpointConfig}
    (hlimit : config.maxIterations ≠ 0) {arity : Nat} (harity : headArity rules = some arity)
    : evaluateFixpoint rules base target order config
      = fixpointLoop rules base target order config.maxIterations arity config.maxIterations
        ⟨none, []⟩ := by
  have hchecked : rules.zipIdx.forM (fun item =>
      if item.1.head.predicate ≠ target then
        Except.error (FixpointError.ruleNotForTarget item.2 item.1.head.predicate target)
      else .ok ()) = .ok () := by
    refine forM_eq_ok.mpr fun item hi => ?_
    rw [if_neg (not_not_intro (hheads item.1 (List.fst_mem_of_mem_zipIdx hi)))]
  have harities : rules.zipIdx.forM (fun item =>
      if ¬ item.1.head.terms.isEmpty ∧ item.1.head.terms.length ≠ arity then
        Except.error (FixpointError.headArityMismatch item.2 item.1.head.terms.length arity)
      else .ok ()) = .ok () := by
    refine forM_eq_ok.mpr fun item hi => ?_
    have hlen := (length_eq_headArity h.typed hheads harity).2 item.1
      (List.fst_mem_of_mem_zipIdx hi)
    rw [if_neg (by simp [hlen])]
  simp only [evaluateFixpoint, if_neg hlimit, h.fresh target rfl, Option.isSome_none,
    Bool.false_eq_true, if_false, hchecked, ok_bind, harity, harities]

/-- The evaluator of one predicate computes its least relation exactly when the predicate has
arguments and the placeholder accepts the constants of its recursive atoms.
-/
theorem evaluateFixpoint_iff (h : Consistent schemas base (· = target) rules)
    (hheads : ∀ rule ∈ rules, rule.head.predicate = target) {config : FixpointConfig}
    (henough : ∃ rounds < config.maxIterations,
      roundsOf rules base.interp rounds = leastModel rules base.interp)
    : (∃ relation, evaluateFixpoint rules base target order config = .ok relation
        ∧ ∀ row, row ∈ relation.rows ↔ row ∈ leastModel rules base.interp target)
      ↔ (∃ rule ∈ rules, rule.head.terms ≠ []) ∧ PlaceholderFits (· = target) rules := by
  obtain ⟨last, hlt, hlast⟩ := henough
  have hlimit : config.maxIterations ≠ 0 := by omega
  constructor
  · rintro ⟨relation, run, -⟩
    cases harity : headArity rules with
    | none =>
        simp only [evaluateFixpoint, if_neg hlimit, h.fresh target rfl, Option.isSome_none,
          Bool.false_eq_true, if_false, harity] at run
        obtain ⟨-, -, run⟩ := bind_eq_ok.mp run
        simp at run
    | some arity =>
        refine ⟨headArity_ne_none.mp (by simp [harity]), ?_⟩
        rw [evaluateFixpoint_eq_loop h hheads hlimit harity] at run
        obtain ⟨left, hleft⟩ := Nat.exists_eq_succ_of_ne_zero hlimit
        rw [hleft, fixpointLoop] at run
        obtain ⟨produced, hproduced, -⟩ := bind_eq_ok.mp run
        intro rule hr atom ha hp
        obtain ⟨rows, hrows⟩ := exists_of_ruleRows hproduced hr
        refine constantFits_of_evaluateRule hrows ha arity [] ?_
        rw [hp, Function.update_self]
  · rintro ⟨hhead, hfits⟩
    obtain ⟨arity, harity⟩ := Option.ne_none_iff_exists'.mp (headArity_ne_none.mpr hhead)
    have hbase : base.interp target = ∅ := by
      ext row
      simp [RefRelationStore.interp, h.fresh target rfl]
    have hstart := roundOk_zero rules hbase
      (length_eq_headArity h.typed hheads harity).1
    have hloop := fixpointLoop_spec order config.maxIterations config.maxIterations h hfits
      hheads (s := ⟨none, []⟩) hstart ⟨last, by omega, by omega, hlast⟩
    rw [← evaluateFixpoint_eq_loop h hheads hlimit harity] at hloop
    cases run : evaluateFixpoint rules base target order config with
    | error e =>
        rw [run] at hloop
        exact hloop.elim
    | ok relation =>
        rw [run] at hloop
        exact ⟨relation, rfl, hloop⟩

end Target

end Xlog.Logic
