import Xlog.Cuda.SemanticProgramMeaning

/-! The canonical words of a program: as many as counted, and enough to tell valid programs apart.
-/

namespace Xlog.Cuda

-- Blocks

/-- Lists of as many blocks of one length are equal when their words are, by list induction. -/
theorem flatMap_injective {α β : Type} {block : α → List β} {width : Nat}
    (widths : ∀ item, (block item).length = width) (injective : Function.Injective block)
    {items others : List α} (lengths : items.length = others.length)
    (same : items.flatMap block = others.flatMap block)
    : items = others := by
  induction items generalizing others with
  | nil => exact (List.length_eq_zero_iff.mp lengths.symm).symm
  | cons item items ih =>
      cases others with
      | nil => simp at lengths
      | cons other others =>
          rw [List.flatMap_cons, List.flatMap_cons] at same
          obtain ⟨heads, tails⟩ := List.append_inj same ((widths item).trans (widths other).symm)
          rw [injective heads, ih (by simpa using lengths) tails]

theorem length_flatMap_block {α β : Type} {block : α → List β} {width : Nat}
    (widths : ∀ item, (block item).length = width) (items : List α)
    : (items.flatMap block).length = items.length * width := by
  induction items with
  | nil => simp
  | cons item items ih =>
      rw [List.flatMap_cons, List.length_append, ih, widths, List.length_cons, Nat.succ_mul,
        Nat.add_comm]

theorem SemanticProgramFact.length_words (fact : SemanticProgramFact) : fact.words.length = 4 := rfl

theorem SemanticProgramAtom.length_words (atom : SemanticProgramAtom) : atom.words.length = 6 := rfl

theorem SemanticProgramRule.length_words (rule : SemanticProgramRule) : rule.words.length = 25 :=
  rfl

theorem SemanticProgramFact.words_injective : Function.Injective SemanticProgramFact.words := by
  rintro ⟨predicate, arity, first, second⟩ ⟨predicate', arity', first', second'⟩ same
  simpa [SemanticProgramFact.words] using same

theorem SemanticProgramAtom.words_injective : Function.Injective SemanticProgramAtom.words := by
  rintro ⟨predicate, arity, ⟨kind, value⟩, ⟨kind', value'⟩⟩
    ⟨predicate', arity', ⟨kind₁, value₁⟩, ⟨kind₂, value₂⟩⟩ same
  simpa [SemanticProgramAtom.words, and_assoc] using same

theorem SemanticProgramRule.words_injective : Function.Injective SemanticProgramRule.words := by
  rintro ⟨head, ⟨one, two, three⟩, bodyCount⟩ ⟨head', ⟨one', two', three'⟩, bodyCount'⟩ same
  obtain ⟨counts, atoms⟩ := List.cons.inj same
  have lists : [head, one, two, three] = [head', one', two', three'] :=
    flatMap_injective SemanticProgramAtom.length_words SemanticProgramAtom.words_injective
      (by simp) atoms
  simp only [List.cons.injEq, and_true] at lists
  obtain ⟨rfl, rfl, rfl, rfl⟩ := lists
  obtain rfl : bodyCount = bodyCount' := counts
  rfl

-- Programs

namespace SemanticProgramAdmission

variable {program : SemanticProgramAdmission}

theorem length_words (program : SemanticProgramAdmission)
    : program.words.length
      = 5 + program.predicateArities.length
        + (program.queries.length + program.initialFacts.length) * 4
        + program.initialRules.length * 25 := by
  have facts := length_flatMap_block SemanticProgramFact.length_words
    (program.queries ++ program.initialFacts)
  have rules := length_flatMap_block SemanticProgramRule.length_words program.initialRules
  rw [List.length_append] at facts
  simp only [words, List.length_append, List.length_map, facts, rules, List.length_cons,
    List.length_nil]
  omega

/-- The counted words of a program, and what they tell about a valid one. -/
structure WordsDetermine (program : SemanticProgramAdmission) : Prop where
  count : program.wordCount = some program.words.length
  determine : ∀ other : SemanticProgramAdmission, other.Valid → other.words = program.words →
    other.predicateArities = program.predicateArities
    ∧ other.initialFacts = program.initialFacts
    ∧ other.initialRules = program.initialRules
    ∧ other.queries = program.queries

theorem checkedUsize_eq {n : Nat} (fits : n < 18446744073709551616) : checkedUsize n = some n :=
  if_pos fits

/-- A valid program is far from the largest count. -/
theorem Valid.wordCount (valid : program.Valid)
    : program.wordCount = some program.words.length := by
  have queries := valid.queries_length
  have facts := valid.facts_length
  have rules := valid.rules_length
  have arities := valid.arities_length
  have predicates := program.predicateCount.toNat_lt
  rw [u32Limit] at queries
  rw [SemanticProgramAdmission.wordCount, checkedUsize_eq (by omega)]
  simp only [Option.bind_eq_bind, Option.bind_some]
  rw [checkedUsize_eq (by omega), Option.bind_some, checkedUsize_eq (by omega),
    Option.bind_some, checkedUsize_eq (by omega), Option.bind_some,
    checkedUsize_eq (by omega), Option.bind_some, checkedUsize_eq (by omega), length_words]
  congr 1
  omega

theorem toUInt64_injective {m n : Nat} (small : m < 18446744073709551616)
    (small' : n < 18446744073709551616) (same : m.toUInt64 = n.toUInt64)
    : m = n := by
  have values := congrArg UInt64.toNat same
  simp only [Nat.toUInt64, UInt64.toNat_ofNat'] at values
  rwa [Nat.mod_eq_of_lt small, Nat.mod_eq_of_lt small'] at values

theorem Valid.wordsDetermine (valid : program.Valid) : program.WordsDetermine where
  count := valid.wordCount
  determine := by
    intro other other_valid same
    obtain ⟨header, rest⟩ := List.append_inj same (by simp)
    simp only [List.cons.injEq, and_true, true_and] at header
    obtain ⟨predicates, facts, rules, queries⟩ := header
    have predicates : other.predicateCount = program.predicateCount := by
      have values := congrArg UInt64.toNat predicates
      exact UInt32.toNat_inj.mp (by simpa using values)
    have fact_counts := valid.facts_length
    have fact_counts' := other_valid.facts_length
    have rule_counts := valid.rules_length
    have rule_counts' := other_valid.rules_length
    have query_counts := valid.queries_length
    have query_counts' := other_valid.queries_length
    rw [u32Limit] at query_counts query_counts'
    have facts := toUInt64_injective (by omega) (by omega) facts
    have rules := toUInt64_injective (by omega) (by omega) rules
    have queries := toUInt64_injective (by omega) (by omega) queries
    have injective : Function.Injective UInt32.toUInt64 := by
      intro a b same
      have values := congrArg UInt64.toNat same
      exact UInt32.toNat_inj.mp (by simpa using values)
    have arities : other.predicateArities.length = program.predicateArities.length := by
      rw [valid.arities_length, other_valid.arities_length, predicates]
    have all := List.map_injective_iff.mpr injective rest
    obtain ⟨front, rule_words⟩ := List.append_inj all (by
      simp only [List.length_append, length_flatMap_block SemanticProgramFact.length_words,
        arities, facts, queries])
    obtain ⟨arity_words, fact_words⟩ := List.append_inj front arities
    have tuples : other.queries ++ other.initialFacts = program.queries ++ program.initialFacts :=
      flatMap_injective SemanticProgramFact.length_words SemanticProgramFact.words_injective
        (by simp only [List.length_append, queries, facts]) fact_words
    obtain ⟨same_queries, same_facts⟩ := List.append_inj tuples queries
    exact ⟨arity_words, same_facts,
      flatMap_injective SemanticProgramRule.length_words SemanticProgramRule.words_injective rules
        rule_words,
      same_queries⟩

end SemanticProgramAdmission

end Xlog.Cuda
