import Xlog.Cuda.SemanticProgramMeaning

/-! Moving a program: predicates shifted by a count and constants under new names. The least model moves
along, because a valid program derives tuples over its own constants only.
-/

namespace Xlog.Cuda

open Xlog.Foundation

-- Moved programs

section Move

variable (count : UInt32) (name : UInt32 → UInt32)

def moveFact (fact : SemanticProgramFact) : SemanticProgramFact where
  predicate := fact.predicate + count
  arity := fact.arity
  first := name fact.first
  second := if fact.arity = 2 then name fact.second else fact.second

def moveTerm (term : SemanticProgramTerm) : SemanticProgramTerm :=
  if term.kind = 1 then { term with value := name term.value } else term

def moveAtom (atom : SemanticProgramAtom) : SemanticProgramAtom where
  predicate := atom.predicate + count
  arity := atom.arity
  terms := (if 0 < atom.arity then moveTerm name atom.terms.1 else atom.terms.1,
    if 1 < atom.arity then moveTerm name atom.terms.2 else atom.terms.2)

def moveRule (rule : SemanticProgramRule) : SemanticProgramRule where
  head := moveAtom count name rule.head
  body := (if 0 < rule.bodyCount then moveAtom count name rule.body.1 else rule.body.1,
    if 1 < rule.bodyCount then moveAtom count name rule.body.2.1 else rule.body.2.1,
    if 2 < rule.bodyCount then moveAtom count name rule.body.2.2 else rule.body.2.2)
  bodyCount := rule.bodyCount

end Move

variable {count : UInt32} {name : UInt32 → UInt32}

/-- A slice of at most two terms. -/
theorem SemanticProgramAtom.activeTerms_cases {atom : SemanticProgramAtom}
    (arity : atom.arity = 1 ∨ atom.arity = 2)
    : (atom.arity = 1 ∧ atom.activeTerms = [atom.terms.1]
        ∧ atom.inactiveTerms = [atom.terms.2])
      ∨ (atom.arity = 2 ∧ atom.activeTerms = [atom.terms.1, atom.terms.2]
        ∧ atom.inactiveTerms = []) := by
  obtain one | two := arity
  · refine .inl ⟨one, ?_, ?_⟩ <;> simp [activeTerms, inactiveTerms, termList, one]
  · refine .inr ⟨two, ?_, ?_⟩ <;> simp [activeTerms, inactiveTerms, termList, two]

theorem moveTerm_eval {values : UInt32 → UInt32} (term : SemanticProgramTerm)
    : (moveTerm name term).eval (fun v => name (values v)) = name (term.eval values) := by
  by_cases constant : term.kind = 1
  · simp [moveTerm, SemanticProgramTerm.eval, constant]
  · simp [moveTerm, SemanticProgramTerm.eval, constant]

theorem activeTerms_moveAtom {atom : SemanticProgramAtom}
    (arity : atom.arity = 1 ∨ atom.arity = 2)
    : (moveAtom count name atom).activeTerms = atom.activeTerms.map (moveTerm name)
      ∧ (moveAtom count name atom).inactiveTerms = atom.inactiveTerms := by
  obtain ⟨predicate, arity', terms⟩ := atom
  obtain rfl | rfl := arity <;> exact ⟨rfl, rfl⟩

theorem activeBody_moveRule {rule : SemanticProgramRule}
    (bodyCount : rule.bodyCount = 1 ∨ rule.bodyCount = 2 ∨ rule.bodyCount = 3)
    : (moveRule count name rule).activeBody = rule.activeBody.map (moveAtom count name)
      ∧ (moveRule count name rule).inactiveBody = rule.inactiveBody := by
  obtain ⟨head, body, bodyCount'⟩ := rule
  obtain rfl | rfl | rfl := bodyCount <;> exact ⟨rfl, rfl⟩

/-- The ground instance of a moved atom is the moved instance when the terms in use agree. -/
theorem ground_moveAtom {values values' : UInt32 → UInt32} {atom : SemanticProgramAtom}
    (arity : atom.arity = 1 ∨ atom.arity = 2)
    (agree : ∀ term ∈ atom.activeTerms,
      (moveTerm name term).eval values' = name (term.eval values))
    : (moveAtom count name atom).ground values' = moveFact count name (atom.ground values) := by
  obtain ⟨predicate, arity', first, second⟩ := atom
  obtain rfl | rfl := arity
  · have one := agree first (by simp [SemanticProgramAtom.activeTerms,
      SemanticProgramAtom.termList])
    simp [moveAtom, SemanticProgramAtom.ground, moveFact, one]
  · have one := agree first (by simp [SemanticProgramAtom.activeTerms,
      SemanticProgramAtom.termList])
    have two := agree second (by simp [SemanticProgramAtom.activeTerms,
      SemanticProgramAtom.termList])
    simp [moveAtom, SemanticProgramAtom.ground, moveFact, one, two]

-- Constants

namespace SemanticProgramAdmission

variable {program : SemanticProgramAdmission}

/-- A tuple over the constants of a program. -/
def Over (program : SemanticProgramAdmission) (fact : SemanticProgramFact) : Prop :=
  fact.first ∈ program.constantOccurrences
  ∧ (fact.arity = 2 → fact.second ∈ program.constantOccurrences)

theorem over_of_mem {fact : SemanticProgramFact}
    (member : fact ∈ program.initialFacts ++ program.queries
      ++ program.observationFacts.map Prod.snd)
    : program.Over fact := by
  have occurs : ∀ c ∈ (if fact.arity = 2 then [fact.first, fact.second] else [fact.first]),
      c ∈ program.constantOccurrences := fun c inside =>
    List.mem_append_left _ (List.mem_flatMap.mpr ⟨fact, member, inside⟩)
  by_cases binary : fact.arity = 2
  · rw [if_pos binary] at occurs
    exact ⟨occurs _ (by simp), fun _ => occurs _ (by simp)⟩
  · rw [if_neg binary] at occurs
    exact ⟨occurs _ (by simp), fun two => absurd two binary⟩

theorem constant_mem {rule : SemanticProgramRule} (member : rule ∈ program.initialRules)
    {atom : SemanticProgramAtom} (inside : atom ∈ rule.head :: rule.activeBody)
    {term : SemanticProgramTerm} (active : term ∈ atom.activeTerms) (constant : term.kind = 1)
    : term.value ∈ program.constantOccurrences := by
  refine List.mem_append_right _ (List.mem_flatMap.mpr ⟨rule, member, ?_⟩)
  refine List.mem_flatMap.mpr ⟨atom, inside, List.mem_map.mpr ⟨term, ?_, rfl⟩⟩
  exact List.mem_filter.mpr ⟨active, by simpa using constant⟩

/-- An instance is over the constants when the values of its terms are. -/
theorem over_ground {values : UInt32 → UInt32} {atom : SemanticProgramAtom}
    (arity : atom.arity = 1 ∨ atom.arity = 2)
    : program.Over (atom.ground values)
      ↔ ∀ term ∈ atom.activeTerms, term.eval values ∈ program.constantOccurrences := by
  obtain ⟨one, active, _⟩ | ⟨two, active, _⟩ := SemanticProgramAtom.activeTerms_cases arity
  · simp [Over, SemanticProgramAtom.ground, active, one]
  · simp [Over, SemanticProgramAtom.ground, active, two]

/-- The value of a bound variable comes from a body instance. -/
theorem value_mem_of_bound {rule : SemanticProgramRule} {values : UInt32 → UInt32}
    (valid : rule.Valid program.predicateArities)
    (body : ∀ atom ∈ rule.activeBody, program.Over (atom.ground values)) {v : UInt32}
    (bound : v ∈ rule.bound)
    : values v ∈ program.constantOccurrences := by
  obtain ⟨atom, inside, from_atom⟩ := List.mem_flatMap.mp bound
  obtain ⟨term, filtered, rfl⟩ := List.mem_map.mp from_atom
  obtain ⟨active, kind⟩ := List.mem_filter.mp filtered
  have variable_kind : term.kind = 0 := by simpa using kind
  have value := (over_ground (valid.body atom inside).arity).mp (body atom inside) term active
  rwa [SemanticProgramTerm.eval, variable_kind, if_neg (by decide)] at value

/-- A valid program derives tuples over its constants. -/
theorem Valid.over_of_derived (valid : program.Valid)
    : program.leastModel ⊆ {fact | program.Over fact} := by
  refine leastModel_subset ?_
  rintro clause (⟨-, fact⟩ | ⟨rule, member, values, rfl⟩) body
  · exact over_of_mem (by simp [show clause.head ∈ program.initialFacts from fact])
  · have rule_valid := valid.rules rule member
    have instances : ∀ atom ∈ rule.activeBody, program.Over (atom.ground values) :=
      fun atom inside => body ⟨atom, inside, rfl⟩
    refine (over_ground rule_valid.head.arity).mpr fun term active => ?_
    by_cases constant : term.kind = 1
    · rw [SemanticProgramTerm.eval, if_pos constant]
      exact constant_mem member (List.mem_cons_self ..) active constant
    · rw [SemanticProgramTerm.eval, if_neg constant]
      have variable_kind := ((rule_valid.head.terms term active).resolve_left constant).1
      exact value_mem_of_bound rule_valid instances
        (rule_valid.bound term active variable_kind)

/-- Names that tell the constants apart tell the tuples apart. -/
theorem moveFact_injOn
    (distinct : Set.InjOn name {c | c ∈ program.constantOccurrences})
    : Set.InjOn (moveFact count name) {fact | program.Over fact} := by
  rintro ⟨predicate, arity, first, second⟩ ⟨one, two⟩ ⟨predicate', arity', first', second'⟩
    ⟨one', two'⟩ same
  simp only [moveFact, SemanticProgramFact.mk.injEq] at same
  obtain ⟨predicates, rfl, firsts, seconds⟩ := same
  obtain rfl : predicate = predicate' := by simpa using predicates
  obtain rfl : first = first' := distinct one one' firsts
  by_cases binary : arity = 2
  · rw [if_pos binary, if_pos binary] at seconds
    obtain rfl : second = second' := distinct (two binary) (two' binary) seconds
    rfl
  · rw [if_neg binary, if_neg binary] at seconds
    rw [seconds]

-- The least model

/-- A moved instance that is a moved tuple has named constants in its terms. -/
theorem exists_constant {values : UInt32 → UInt32} {atom : SemanticProgramAtom}
    (arity : atom.arity = 1 ∨ atom.arity = 2) {fact : SemanticProgramFact}
    (within : program.Over fact)
    (same : (moveAtom count name atom).ground values = moveFact count name fact)
    : ∀ term ∈ atom.activeTerms, ∃ c ∈ program.constantOccurrences,
        (moveTerm name term).eval values = name c := by
  obtain ⟨predicate, arity', first, second⟩ := atom
  obtain ⟨predicate', arity'', first', second'⟩ := fact
  obtain ⟨one, two⟩ := within
  simp only [moveAtom, SemanticProgramAtom.ground, moveFact, SemanticProgramFact.mk.injEq]
    at same
  obtain ⟨-, rfl, firsts, seconds⟩ := same
  obtain rfl | rfl := arity
  · intro term active
    obtain rfl : term = first := by
      simpa [SemanticProgramAtom.activeTerms, SemanticProgramAtom.termList] using active
    exact ⟨first', one, by simpa using firsts⟩
  · intro term active
    obtain rfl | rfl : term = first ∨ term = second := by
      simpa [SemanticProgramAtom.activeTerms, SemanticProgramAtom.termList] using active
    · exact ⟨first', one, by simpa using firsts⟩
    · exact ⟨second', two rfl, by simpa using seconds⟩

/-- Values in a moved program read back as values in the original one, where there are any. -/
noncomputable def pullBack (program : SemanticProgramAdmission) (name values : UInt32 → UInt32)
    (v : UInt32) : UInt32 :=
  open Classical in
  if found : ∃ c ∈ program.constantOccurrences, name c = values v then found.choose else v

theorem pullBack_spec {values : UInt32 → UInt32} {v c : UInt32}
    (member : c ∈ program.constantOccurrences) (same : values v = name c)
    : name (program.pullBack name values v) = values v
      ∧ program.pullBack name values v ∈ program.constantOccurrences := by
  have found : ∃ c ∈ program.constantOccurrences, name c = values v := ⟨c, member, same.symm⟩
  rw [pullBack, dif_pos found]
  exact ⟨found.choose_spec.2, found.choose_spec.1⟩

/-- The terms of a moved instance read back. -/
theorem pullBack_eval {values : UInt32 → UInt32} {term : SemanticProgramTerm}
    (known : term.kind = 1 → term.value ∈ program.constantOccurrences)
    (named : ∃ c ∈ program.constantOccurrences, (moveTerm name term).eval values = name c)
    : (moveTerm name term).eval values = name (term.eval (program.pullBack name values))
      ∧ term.eval (program.pullBack name values) ∈ program.constantOccurrences := by
  by_cases constant : term.kind = 1
  · simpa [moveTerm, SemanticProgramTerm.eval, constant] using known constant
  · obtain ⟨c, member, same⟩ := named
    simp only [moveTerm, if_neg constant, SemanticProgramTerm.eval] at same ⊢
    obtain ⟨back, inside⟩ := pullBack_spec member same
    exact ⟨back.symm, inside⟩

/-- An instance of a moved rule over moved derived tuples is a moved instance over derived tuples. -/
theorem Valid.pull_clause (valid : program.Valid)
    (distinct : Set.InjOn name {c | c ∈ program.constantOccurrences})
    {rule : SemanticProgramRule} (member : rule ∈ program.initialRules)
    {values : UInt32 → UInt32}
    (body : ((moveRule count name rule).clause values).body
      ⊆ moveFact count name '' program.leastModel)
    : ((moveRule count name rule).clause values).head
      ∈ moveFact count name '' program.leastModel := by
  have rule_valid := valid.rules rule member
  set values' := program.pullBack name values with values'_eq
  have terms : ∀ atom ∈ rule.activeBody, ∀ term ∈ atom.activeTerms,
      (moveTerm name term).eval values = name (term.eval values')
      ∧ term.eval values' ∈ program.constantOccurrences := by
    intro atom inside term active
    obtain ⟨fact, derived, same⟩ := body
      ⟨moveAtom count name atom, by
        rw [(activeBody_moveRule rule_valid.bodyCount).1]
        exact List.mem_map_of_mem inside, rfl⟩
    refine pullBack_eval (fun constant =>
      constant_mem member (List.mem_cons_of_mem _ inside) active constant) ?_
    exact exists_constant (rule_valid.body atom inside).arity (valid.over_of_derived derived)
      same.symm term active
  have premises : ∀ atom ∈ rule.activeBody, atom.ground values' ∈ program.leastModel := by
    intro atom inside
    obtain ⟨fact, derived, same⟩ := body
      ⟨moveAtom count name atom, by
        rw [(activeBody_moveRule rule_valid.bodyCount).1]
        exact List.mem_map_of_mem inside, rfl⟩
    have arity := (rule_valid.body atom inside).arity
    have moved : moveFact count name fact = moveFact count name (atom.ground values') := by
      rw [same]
      exact ground_moveAtom arity fun term active => (terms atom inside term active).1
    have within : program.Over (atom.ground values') :=
      (over_ground arity).mpr fun term active => (terms atom inside term active).2
    rwa [← moveFact_injOn distinct (valid.over_of_derived derived) within moved]
  refine ⟨rule.head.ground values', ?_, ?_⟩
  · refine models_leastModel _ (rule.clause values') (.inr ⟨rule, member, values', rfl⟩) ?_
    rintro _ ⟨atom, inside, rfl⟩
    exact premises atom inside
  · refine (ground_moveAtom rule_valid.head.arity fun term active => ?_).symm
    by_cases constant : term.kind = 1
    · simp [moveTerm, SemanticProgramTerm.eval, constant]
    · -- a variable of the head is bound by a body atom
      have variable_kind := ((rule_valid.head.terms term active).resolve_left constant).1
      obtain ⟨atom, inside, from_atom⟩ :=
        List.mem_flatMap.mp (rule_valid.bound term active variable_kind)
      obtain ⟨other, filtered, same⟩ := List.mem_map.mp from_atom
      obtain ⟨active', kind⟩ := List.mem_filter.mp filtered
      have not_constant : other.kind ≠ 1 := by
        rw [show other.kind = 0 by simpa using kind]
        decide
      have back := (terms atom inside other active').1
      simp only [moveTerm, if_neg not_constant, if_neg constant, SemanticProgramTerm.eval,
        same] at back ⊢
      exact back

/-- The least model of a moved program is the moved least model. -/
theorem Valid.leastModel_move (valid : program.Valid)
    (distinct : Set.InjOn name {c | c ∈ program.constantOccurrences})
    : Foundation.leastModel (programClauses (program.initialFacts.map (moveFact count name))
        (program.initialRules.map (moveRule count name)))
      = moveFact count name '' program.leastModel := by
  refine leastModel_eq_image ?_ ?_
  · rintro clause (⟨empty, fact⟩ | ⟨rule, member, values, rfl⟩)
    · refine ⟨⟨∅, moveFact count name clause.head⟩, .inl ⟨rfl, ?_⟩,
        Set.empty_subset _, rfl⟩
      exact List.mem_map_of_mem (f := moveFact count name) fact
    · have rule_valid := valid.rules rule member
      have moved : ∀ atom : SemanticProgramAtom, atom.arity = 1 ∨ atom.arity = 2 →
          (moveAtom count name atom).ground (fun v => name (values v))
            = moveFact count name (atom.ground values) := fun atom arity =>
        ground_moveAtom arity fun term _ => moveTerm_eval term
      refine ⟨(moveRule count name rule).clause fun v => name (values v),
        .inr ⟨_, List.mem_map_of_mem member, _, rfl⟩, ?_, moved _ rule_valid.head.arity⟩
      rintro _ ⟨atom, inside, rfl⟩
      rw [(activeBody_moveRule rule_valid.bodyCount).1] at inside
      obtain ⟨original, listed, rfl⟩ := List.mem_map.mp inside
      exact ⟨original.ground values, ⟨original, listed, rfl⟩,
        (moved original (rule_valid.body original listed).arity).symm⟩
  · rintro clause (⟨empty, fact⟩ | ⟨rule, member, values, rfl⟩) body
    · obtain ⟨original, inside, same⟩ := List.mem_map.mp
        (show clause.head ∈ program.initialFacts.map (moveFact count name) from fact)
      exact ⟨original, models_leastModel _ ⟨∅, original⟩ (.inl ⟨rfl, inside⟩)
        (Set.empty_subset _), same⟩
    · obtain ⟨rule, inside, rfl⟩ := List.mem_map.mp member
      exact valid.pull_clause distinct inside body

end SemanticProgramAdmission

end Xlog.Cuda
