import Xlog.Cuda.SemanticProgramContext

/-! The combination of two programs as a conservative union: valid when it fits, with the least models of
both programs side by side.
-/

namespace Xlog.Cuda

open Xlog.Foundation

-- Validity of the parts

theorem SemanticProgramFact.Valid.append {fact : SemanticProgramFact} {arities : List UInt32}
    (valid : fact.Valid arities) (more : List UInt32)
    : fact.Valid (arities ++ more) where
  arity := valid.arity
  declared := by
    rw [List.getElem?_append_left (List.getElem?_eq_some_iff.mp valid.declared).1]
    exact valid.declared
  inactive := valid.inactive

theorem SemanticProgramAtom.Valid.append {atom : SemanticProgramAtom} {arities : List UInt32}
    (valid : atom.Valid arities) (more : List UInt32)
    : atom.Valid (arities ++ more) where
  arity := valid.arity
  declared := by
    rw [List.getElem?_append_left (List.getElem?_eq_some_iff.mp valid.declared).1]
    exact valid.declared
  terms := valid.terms
  inactive := valid.inactive

theorem SemanticProgramRule.Valid.append {rule : SemanticProgramRule} {arities : List UInt32}
    (valid : rule.Valid arities) (more : List UInt32)
    : rule.Valid (arities ++ more) where
  bodyCount := valid.bodyCount
  head := valid.head.append more
  body := fun atom inside => (valid.body atom inside).append more
  inactive := valid.inactive
  bound := valid.bound

section Move

variable {count : UInt32} {name : UInt32 → UInt32} {arities before : List UInt32}

/-- A declaration is found behind the ones put before it. -/
theorem declared_append {predicate arity : UInt32} (length : before.length = count.toNat)
    (fits : predicate.toNat + count.toNat ≤ u32Limit)
    (declared : arities[predicate.toNat]? = some arity)
    : (before ++ arities)[(predicate + count).toNat]? = some arity := by
  rw [toNat_add_of_fits fits, ← length, List.getElem?_append_right (Nat.le_add_left ..),
    Nat.add_sub_cancel, declared]

theorem moveTerm_kind (term : SemanticProgramTerm) : (moveTerm name term).kind = term.kind := by
  by_cases constant : term.kind = 1
  · simp [moveTerm, constant]
  · simp [moveTerm, constant]

theorem moveTerm_of_variable {term : SemanticProgramTerm} (kind : term.kind ≠ 1)
    : moveTerm name term = term :=
  if_neg kind

theorem SemanticProgramFact.Valid.move {fact : SemanticProgramFact}
    (valid : fact.Valid arities) (length : before.length = count.toNat)
    (fits : fact.predicate.toNat + count.toNat ≤ u32Limit)
    : (moveFact count name fact).Valid (before ++ arities) where
  arity := valid.arity
  declared := declared_append length fits valid.declared
  inactive := by
    obtain binary | zero := valid.inactive
    · exact .inl binary
    · by_cases binary : fact.arity = 2
      · exact .inl binary
      · exact .inr (by simp [moveFact, binary, zero])

theorem SemanticProgramAtom.Valid.move {atom : SemanticProgramAtom}
    (valid : atom.Valid arities) (length : before.length = count.toNat)
    (fits : atom.predicate.toNat + count.toNat ≤ u32Limit)
    : (moveAtom count name atom).Valid (before ++ arities) where
  arity := valid.arity
  declared := declared_append length fits valid.declared
  terms := by
    rw [(activeTerms_moveAtom valid.arity).1]
    intro moved member
    obtain ⟨term, active, rfl⟩ := List.mem_map.mp member
    obtain constant | ⟨kind, range⟩ := valid.terms term active
    · exact .inl ((moveTerm_kind term).trans constant)
    · rw [moveTerm_of_variable (by rw [kind]; decide)]
      exact .inr ⟨kind, range⟩
  inactive := by
    rw [(activeTerms_moveAtom valid.arity).2]
    exact valid.inactive

/-- Moving changes constants only, so the bound variables stay. -/
theorem bound_moveRule {rule : SemanticProgramRule} (valid : rule.Valid arities)
    : (moveRule count name rule).bound = rule.bound := by
  rw [SemanticProgramRule.bound, (activeBody_moveRule valid.bodyCount).1, List.flatMap_map,
    SemanticProgramRule.bound]
  refine List.flatMap_congr fun atom inside => ?_
  rw [(activeTerms_moveAtom (valid.body atom inside).arity).1, List.filter_map, List.map_map]
  have kinds : (fun term : SemanticProgramTerm => decide (term.kind = 0)) ∘ moveTerm name
      = fun term => decide (term.kind = 0) := by
    ext term
    simp [moveTerm_kind]
  rw [kinds]
  refine List.map_congr_left fun term filtered => ?_
  have kind : term.kind = 0 := by simpa using (List.mem_filter.mp filtered).2
  rw [Function.comp_apply, moveTerm_of_variable (by rw [kind]; decide)]

theorem SemanticProgramRule.Valid.move {rule : SemanticProgramRule}
    (valid : rule.Valid arities) (length : before.length = count.toNat)
    (fits : ∀ predicate arity : UInt32, arities[predicate.toNat]? = some arity →
      predicate.toNat + count.toNat ≤ u32Limit)
    : (moveRule count name rule).Valid (before ++ arities) where
  bodyCount := valid.bodyCount
  head := valid.head.move length (fits _ _ valid.head.declared)
  body := by
    rw [(activeBody_moveRule valid.bodyCount).1]
    intro moved member
    obtain ⟨atom, inside, rfl⟩ := List.mem_map.mp member
    have atom_valid := valid.body atom inside
    exact atom_valid.move length (fits _ _ atom_valid.declared)
  inactive := by
    rw [(activeBody_moveRule valid.bodyCount).2]
    exact valid.inactive
  bound := by
    rw [bound_moveRule valid]
    intro moved member kind
    rw [show (moveRule count name rule).head = moveAtom count name rule.head from rfl,
      (activeTerms_moveAtom valid.head.arity).1] at member
    obtain ⟨term, active, rfl⟩ := List.mem_map.mp member
    rw [moveTerm_kind] at kind
    rw [moveTerm_of_variable (by rw [kind]; decide)]
    exact valid.bound term active kind

end Move

namespace SemanticProgramAdmission

variable {source target : SemanticProgramAdmission} {offset : UInt32}
  {mapping : List (UInt32 × UInt32)} {name : UInt32 → UInt32}

-- Validity of the union

/-- The combination fits the resident bank, and no statement record is used twice. -/
structure Fits (source target : SemanticProgramAdmission) (offset : UInt32) : Prop where
  facts : source.initialFacts.length + target.initialFacts.length ≤ 4096
  rules : source.initialRules.length + target.initialRules.length ≤ 254
  records : ∀ entry ∈ source.observationFacts, ∀ other ∈ target.observationFacts,
    entry.1.toNat ≠ other.1.toNat + offset.toNat

/-- The combination of valid programs is valid exactly when it fits. -/
theorem Renames.combined_valid (renames : Renames source target mapping name)
    (fits : ∀ record ∈ target.records, record.toNat + offset.toNat ≤ u32Limit)
    : (combined source target offset name).Valid ↔ Fits source target offset := by
  have moved_record : ∀ entry ∈ target.observationFacts,
      (entry.1 + offset).toNat = entry.1.toNat + offset.toNat := fun entry member =>
    toNat_add_of_fits (fits entry.1 (List.mem_append_right _ (List.mem_map_of_mem member)))
  constructor
  · intro valid
    have facts := valid.facts_length
    have rules := valid.rules_length
    simp only [combined, List.length_append, List.length_map] at facts rules
    refine ⟨facts, rules, fun entry member other member' same => ?_⟩
    refine (List.pairwise_append.mp valid.distinct).2.2 entry member _
      (List.mem_map_of_mem member') (UInt32.toNat_inj.mp ?_)
    rw [moved_record other member', same]
  · intro fit
    have source_valid := renames.source_valid
    have target_valid := renames.target_valid
    have length := source_valid.arities_length
    have moved : ∀ fact : SemanticProgramFact, fact.Valid target.predicateArities →
        (moveFact source.predicateCount name fact).Valid
          (source.predicateArities ++ target.predicateArities) := fun fact valid =>
      valid.move length (renames.predicate_fits valid.declared)
    refine {
      predicates := ?_, arities_length := ?_, arities := ?_, queries := ?_
      queries_length := ?_, records_length := ?_, tuples := ?_, observations := ?_
      distinct := ?_, recorded := ?_, facts_length := ?_, rules_length := ?_, rules := ?_ }
    · intro zero
      have sum := toNat_add_of_fits renames.fits
      have none := source_valid.predicates
      rw [show source.predicateCount + target.predicateCount = 0 from zero] at sum
      refine none (UInt32.toNat_inj.mp ?_)
      simp only [UInt32.toNat_zero] at sum ⊢
      omega
    · simp only [combined, List.length_append, length, target_valid.arities_length,
        toNat_add_of_fits renames.fits]
    · exact List.forall_mem_append.mpr ⟨source_valid.arities, target_valid.arities⟩
    · simpa [combined] using target_valid.queries
    · simpa [combined] using target_valid.queries_length
    · simpa [combined] using target_valid.records_length
    · intro fact member
      obtain asked | given := List.mem_append.mp member
      · obtain ⟨query, inside, rfl⟩ := List.mem_map.mp asked
        exact moved query (target_valid.tuples query (List.mem_append_left _ inside))
      · obtain old | new := List.mem_append.mp given
        · exact (source_valid.tuples fact (List.mem_append_right _ old)).append _
        · obtain ⟨original, inside, rfl⟩ := List.mem_map.mp new
          exact moved original (target_valid.tuples original (List.mem_append_right _ inside))
    · intro entry member
      obtain old | new := List.mem_append.mp member
      · exact (source_valid.observations entry old).append _
      · obtain ⟨original, inside, rfl⟩ := List.mem_map.mp new
        exact moved original.2 (target_valid.observations original inside)
    · refine List.pairwise_append.mpr ⟨source_valid.distinct, ?_, ?_⟩
      · refine List.pairwise_map.mpr (target_valid.distinct.imp fun {entry other} ne same => ?_)
        exact ne (by simpa using same)
      · intro entry member moved_entry member' same
        obtain ⟨other, inside, rfl⟩ := List.mem_map.mp member'
        exact fit.records entry member other inside (by
          rw [← moved_record other inside]
          exact congrArg UInt32.toNat same)
    · intro pair member
      rw [combined, List.zip_map] at member
      obtain ⟨original, inside, rfl⟩ := List.mem_map.mp member
      exact List.mem_append_right _ (List.mem_map.mpr
        ⟨original, target_valid.recorded original inside, rfl⟩)
    · simpa [combined] using fit.facts
    · simpa [combined] using fit.rules
    · intro rule member
      obtain old | new := List.mem_append.mp member
      · exact (source_valid.rules rule old).append _
      · obtain ⟨original, inside, rfl⟩ := List.mem_map.mp new
        exact (target_valid.rules original inside).move length
          fun predicate arity declared => renames.predicate_fits declared

-- The least models

theorem programClauses_append (facts more : List SemanticProgramFact)
    (rules others : List SemanticProgramRule)
    : programClauses (facts ++ more) (rules ++ others)
      = programClauses facts rules ∪ programClauses more others := by
  ext clause
  simp only [programClauses, factClauses, Set.mem_union, Set.mem_setOf_eq, List.mem_append]
  constructor
  · rintro (⟨empty, old | new⟩ | ⟨rule, old | new, instance_of⟩)
    · exact .inl (.inl ⟨empty, old⟩)
    · exact .inr (.inl ⟨empty, new⟩)
    · exact .inl (.inr ⟨rule, old, instance_of⟩)
    · exact .inr (.inr ⟨rule, new, instance_of⟩)
  · rintro ((⟨empty, old⟩ | ⟨rule, old, instance_of⟩) | ⟨empty, new⟩ | ⟨rule, new, instance_of⟩)
    · exact .inl ⟨empty, .inl old⟩
    · exact .inr ⟨rule, .inl old, instance_of⟩
    · exact .inl ⟨empty, .inr new⟩
    · exact .inr ⟨rule, .inr new, instance_of⟩

/-- The tuples of the predicates below a count. -/
def predicatesBelow (count : UInt32) : Set SemanticProgramFact := {fact | fact.predicate < count}

/-- A valid program stays within its predicates. -/
theorem Valid.clauses_below {program : SemanticProgramAdmission} (valid : program.Valid)
    : ∀ clause ∈ programClauses program.initialFacts program.initialRules,
        clause.body ⊆ predicatesBelow program.predicateCount
        ∧ clause.head ∈ predicatesBelow program.predicateCount := by
  have below : ∀ {predicate arity : UInt32},
      program.predicateArities[predicate.toNat]? = some arity →
      predicate < program.predicateCount := fun declared => by
    rw [UInt32.lt_iff_toNat_lt, ← valid.arities_length]
    exact (List.getElem?_eq_some_iff.mp declared).1
  rintro clause (⟨empty, fact⟩ | ⟨rule, member, values, rfl⟩)
  · rw [empty]
    refine ⟨Set.empty_subset _, ?_⟩
    exact below (valid.tuples clause.head (List.mem_append_right _ fact)).declared
  · refine ⟨?_, below (valid.rules rule member).head.declared⟩
    rintro _ ⟨atom, inside, rfl⟩
    exact below ((valid.rules rule member).body atom inside).declared

/-- Moved predicates are not below the count. -/
theorem Renames.above (renames : Renames source target mapping name)
    {predicate arity : UInt32}
    (declared : target.predicateArities[predicate.toNat]? = some arity)
    : ¬ predicate + source.predicateCount < source.predicateCount := by
  rw [UInt32.lt_iff_toNat_lt, toNat_add_of_fits (renames.predicate_fits declared)]
  omega

/-- The moved program stays above the source's predicates. -/
theorem Renames.clauses_above (renames : Renames source target mapping name)
    : ∀ clause ∈ programClauses
          (target.initialFacts.map (moveFact source.predicateCount name))
          (target.initialRules.map (moveRule source.predicateCount name)),
        clause.body ⊆ (predicatesBelow source.predicateCount)ᶜ
        ∧ clause.head ∈ (predicatesBelow source.predicateCount)ᶜ := by
  have valid := renames.target_valid
  rintro clause (⟨empty, fact⟩ | ⟨rule, member, values, rfl⟩)
  · rw [empty]
    refine ⟨Set.empty_subset _, ?_⟩
    obtain ⟨original, inside, same⟩ := List.mem_map.mp
      (show clause.head ∈ target.initialFacts.map _ from fact)
    rw [← same]
    exact renames.above (valid.tuples original (List.mem_append_right _ inside)).declared
  · obtain ⟨original, inside, rfl⟩ := List.mem_map.mp member
    have rule_valid := valid.rules original inside
    refine ⟨?_, renames.above rule_valid.head.declared⟩
    rintro _ ⟨atom, moved, rfl⟩
    rw [(activeBody_moveRule rule_valid.bodyCount).1] at moved
    obtain ⟨atom, active, rfl⟩ := List.mem_map.mp moved
    exact renames.above (rule_valid.body atom active).declared

theorem Renames.source_model (renames : Renames source target mapping name)
    : (combined source target offset name).leastModel ∩ predicatesBelow source.predicateCount
      = source.leastModel := by
  rw [leastModel, combined, programClauses_append]
  exact leastModel_union_inter renames.source_valid.clauses_below
    fun clause member => (renames.clauses_above clause member).2

theorem Renames.target_model (renames : Renames source target mapping name)
    (distinct : Set.InjOn name {c | c ∈ target.constantOccurrences})
    : (combined source target offset name).leastModel ∩ (predicatesBelow source.predicateCount)ᶜ
      = moveFact source.predicateCount name '' target.leastModel := by
  rw [← renames.target_valid.leastModel_move distinct, leastModel, combined,
    programClauses_append, Set.union_comm]
  refine leastModel_union_inter renames.clauses_above fun clause member outside => ?_
  exact outside (renames.source_valid.clauses_below clause member).2

-- The union

/-- What a combined program keeps of both programs. -/
structure ConservativeUnion (source target : SemanticProgramAdmission) (offset : UInt32)
    (name : UInt32 → UInt32) (result : SemanticProgramAdmission) : Prop where
  names : Names source target name
  predicates : ∀ predicate < target.predicateCount,
    source.predicateCount ≤ predicate + source.predicateCount
    ∧ predicate + source.predicateCount < result.predicateCount
  predicates_distinct : ∀ predicate other : UInt32,
    predicate + source.predicateCount = other + source.predicateCount → predicate = other
  source_model : {fact ∈ result.leastModel | fact.predicate < source.predicateCount}
    = source.leastModel
  target_model : {fact ∈ result.leastModel | ¬ fact.predicate < source.predicateCount}
    = moveFact source.predicateCount name '' target.leastModel
  queries : result.queries = target.queries.map (moveFact source.predicateCount name)
  derivable : ∀ query ∈ target.queries,
    moveFact source.predicateCount name query ∈ result.leastModel ↔ query ∈ target.leastModel
  records : result.queryRecords = target.queryRecords.map (· + offset)
    ∧ result.queryRecords.length = result.queries.length
  recorded : ∀ pair ∈ result.queryRecords.zip result.queries, pair ∈ result.observationFacts
  source_facts : source.initialFacts <+: result.initialFacts
  source_rules : source.initialRules <+: result.initialRules
  words : result.WordsDetermine

/-- Why two valid programs cannot be combined. -/
def ContextForced (source target : SemanticProgramAdmission) (offset : UInt32) : Prop :=
  u32Limit < source.predicateCount.toNat + target.predicateCount.toNat
  ∨ u32Limit + 1 < source.constants.length + target.constants.length
  ∨ (∃ record ∈ target.records, u32Limit < record.toNat + offset.toNat)
  ∨ ¬ Fits source target offset

theorem Renames.conservativeUnion (renames : Renames source target mapping name)
    (names : Names source target name)
    (valid : (combined source target offset name).Valid)
    : ConservativeUnion source target offset name (combined source target offset name) where
  names := names
  predicates := by
    intro predicate below
    have sum := toNat_add_of_fits renames.fits
    have fits := renames.fits
    have less := UInt32.lt_iff_toNat_lt.mp below
    have moved : predicate.toNat + source.predicateCount.toNat ≤ u32Limit := by omega
    rw [UInt32.le_iff_toNat_le, UInt32.lt_iff_toNat_lt, toNat_add_of_fits moved]
    change _ ∧ _ < (source.predicateCount + target.predicateCount).toNat
    omega
  predicates_distinct := fun predicate other same => by simpa using same
  source_model := renames.source_model
  target_model := renames.target_model names.distinct
  queries := rfl
  derivable := by
    intro query member
    have query_valid := renames.target_valid.tuples query (List.mem_append_left _ member)
    have within : target.Over query := over_of_mem (by simp [member])
    have model := @Renames.target_model source target offset _ _ renames names.distinct
    constructor
    · intro derived
      obtain ⟨fact, derived', same⟩ := model.subset
        ⟨derived, renames.above query_valid.declared⟩
      have known := renames.target_valid.over_of_derived derived'
      rwa [← moveFact_injOn names.distinct known within same]
    · intro derived
      exact (model.superset (Set.mem_image_of_mem _ derived)).1
  records := ⟨rfl, valid.records_length⟩
  recorded := valid.recorded
  source_facts := List.prefix_append ..
  source_rules := List.prefix_append ..
  words := valid.wordsDetermine

/-- Combining two admitted programs gives a conservative union of them, and it is refused exactly when a
capacity, the range of a word or a statement record used twice stands against it.
-/
theorem evaluationContext_conservative {source target : SemanticProgramAdmission}
    (offset : UInt32) (source_valid : source.validate = .ok ())
    (target_valid : target.validate = .ok ())
    : (∀ result, evaluationContext source target offset = .ok result →
        ∃ name, ConservativeUnion source target offset name result)
      ∧ ((∃ message, evaluationContext source target offset = .error message)
        ↔ ContextForced source target offset) := by
  rw [validate_eq_ok] at source_valid target_valid
  have ends := constantMapping_ends source target
  by_cases fits : source.predicateCount.toNat + target.predicateCount.toNat ≤ u32Limit
  · cases mapped : constantMapping source target with
    | error message =>
        have refused : evaluationContext source target offset = .error message := by
          simp only [evaluationContext, validate_eq_ok.mpr source_valid,
            validate_eq_ok.mpr target_valid, checkedAdd_eq_some.mpr ⟨rfl, fits⟩, mapped, ok_bind,
            error_bind]
        rw [mapped] at ends
        refine ⟨fun result ran => ?_, fun _ => .inr (.inl ends), fun _ => ⟨_, refused⟩⟩
        rw [refused] at ran
        cases ran
    | ok mapping =>
        rw [mapped] at ends
        obtain ⟨names, named, enough⟩ := ends
        have renames : Renames source target mapping (nameIn mapping) :=
          ⟨source_valid, target_valid, fits, named⟩
        have outcome := @Renames.evaluationContext_eq_ok _ _ offset _ _ renames mapped
        refine ⟨fun result ran => ?_, fun failed => ?_, fun forced => ?_⟩
        · obtain ⟨rfl, _, valid⟩ := outcome.mp ran
          exact ⟨_, renames.conservativeUnion names valid⟩
        · obtain ⟨message, failed⟩ := failed
          by_contra free
          simp only [ContextForced, not_or, not_exists, not_and, not_not, Nat.not_lt] at free
          obtain ⟨-, -, records, fit⟩ := free
          have ran := outcome.mpr ⟨rfl, records, (renames.combined_valid records).mpr fit⟩
          rw [failed] at ran
          cases ran
        · cases ran : evaluationContext source target offset with
          | error message => exact ⟨message, rfl⟩
          | ok result =>
              obtain ⟨rfl, records, valid⟩ := outcome.mp ran
              have fit := (renames.combined_valid records).mp valid
              obtain many | many | ⟨record, member, far⟩ | unfit := forced
              · exact absurd fits (Nat.not_le.mpr many)
              · exact absurd enough (Nat.not_le.mpr many)
              · exact absurd (records record member) (Nat.not_le.mpr far)
              · exact absurd fit unfit
  · have refused : evaluationContext source target offset
        = .error "evaluation predicate context exceeds the native domain" := by
      simp only [evaluationContext, validate_eq_ok.mpr source_valid,
        validate_eq_ok.mpr target_valid, checkedAdd, if_neg fits, ok_bind, error_bind]
    refine ⟨fun result ran => ?_, fun _ => .inl (Nat.not_le.mp fits), fun _ => ⟨_, refused⟩⟩
    rw [refused] at ran
    cases ran

/-- `reached(X) :- start(X).` over one tuple of `start`, with a query for `reached`. -/
def reachedProgram : SemanticProgramAdmission where
  predicateCount := 2
  predicateArities := [1, 1]
  initialFacts := [⟨1, 1, 7, 0⟩]
  initialRules := [⟨⟨0, 1, ⟨0, 0⟩, .default⟩,
    (⟨1, 1, ⟨0, 0⟩, .default⟩, .default, .default), 1⟩]
  queries := [⟨0, 1, 7, 0⟩]
  queryRecords := [0]
  observationFacts := [(0, ⟨0, 1, 7, 0⟩)]

theorem evaluationContext_conservative_reachedProgram
    : (∀ result, evaluationContext reachedProgram reachedProgram 1 = .ok result →
        ∃ name, ConservativeUnion reachedProgram reachedProgram 1 name result)
      ∧ ((∃ message, evaluationContext reachedProgram reachedProgram 1 = .error message)
        ↔ ContextForced reachedProgram reachedProgram 1) :=
  evaluationContext_conservative 1 (by decide +kernel) (by decide +kernel)

end SemanticProgramAdmission

end Xlog.Cuda
