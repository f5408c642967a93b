import Xlog.Cuda.SemanticProgramRenaming
import Xlog.Cuda.SemanticProgramWords
import Xlog.Foundation.Assoc

/-! Combining a training program with an evaluation program: the combination is a conservative union, and
it is refused only when it does not fit.
-/

namespace Xlog.Cuda

open Xlog.Foundation

-- Words

theorem checkedAdd_eq_some {a b c : UInt32}
    : checkedAdd a b = some c ↔ c = a + b ∧ a.toNat + b.toNat ≤ u32Limit := by
  rw [checkedAdd]
  by_cases fits : a.toNat + b.toNat ≤ u32Limit
  · simp [fits, eq_comm]
  · simp [fits]

theorem toNat_add_of_fits {a b : UInt32} (fits : a.toNat + b.toNat ≤ u32Limit)
    : (a + b).toNat = a.toNat + b.toNat := by
  rw [UInt32.toNat_add, Nat.mod_eq_of_lt]
  rw [u32Limit] at fits
  omega

/-- Distinct numbers below a bound are at most as many. -/
theorem length_le_of_nodup {numbers : List Nat} {bound : Nat} (distinct : numbers.Nodup)
    (below : ∀ n ∈ numbers, n < bound)
    : numbers.length ≤ bound := by
  have inside : numbers ⊆ List.range bound := fun n member => List.mem_range.mpr (below n member)
  simpa using (List.subperm_of_subset distinct inside).length_le

/-- A list with every number below a bound has at least as many. -/
theorem le_length_of_forall_mem {numbers : List Nat} {bound : Nat}
    (all : ∀ n < bound, n ∈ numbers)
    : bound ≤ numbers.length := by
  have inside : List.range bound ⊆ numbers := fun n member => all n (List.mem_range.mp member)
  simpa using (List.subperm_of_subset List.nodup_range inside).length_le

theorem words_length_le {constants : List UInt32} (distinct : constants.Nodup)
    : constants.length ≤ u32Limit + 1 := by
  have numbers : (constants.map UInt32.toNat).Nodup :=
    distinct.map fun a b same => UInt32.toNat_inj.mp same
  have bounded := @length_le_of_nodup _ (u32Limit + 1) numbers (by
    intro n member
    obtain ⟨c, _, rfl⟩ := List.mem_map.mp member
    exact c.toNat_lt)
  rwa [List.length_map] at bounded

theorem le_words_length {constants : List UInt32} (all : ∀ c, c ∈ constants)
    : u32Limit + 1 ≤ constants.length := by
  have covered := @le_length_of_forall_mem (constants.map UInt32.toNat) (u32Limit + 1) (by
    intro n below
    refine List.mem_map.mpr ⟨UInt32.ofNat n, all _, ?_⟩
    rw [UInt32.toNat_ofNat', Nat.mod_eq_of_lt (Nat.lt_of_lt_of_eq below (by decide))])
  rwa [List.length_map] at covered

namespace SemanticProgramAdmission

variable {source target : SemanticProgramAdmission} {offset : UInt32}

-- The constant mapping

theorem mem_constants {program : SemanticProgramAdmission} {c : UInt32}
    : c ∈ program.constants ↔ c ∈ program.constantOccurrences := by
  rw [constants, (List.perm_insertionSort _ _).mem_iff, List.mem_dedup]

theorem nodup_constants (program : SemanticProgramAdmission) : program.constants.Nodup :=
  (List.perm_insertionSort _ _).nodup_iff.mpr (List.nodup_dedup _)

/-- The search ends at the first constant that is not taken, or finds all taken. -/
theorem freshConstant_ends (taken : List UInt32) (next : UInt32)
    : Ends (fun _ => ∀ c, next ≤ c → c ∈ taken)
        (fun fresh => fresh ∉ taken ∧ ∀ c, next ≤ c → c < fresh → c ∈ taken)
        (freshConstant taken next) := by
  fun_induction freshConstant taken next with
  | case1 next inside room ih =>
      have step : ∀ c : UInt32, next ≤ c → c = next ∨ next + 1 ≤ c := by
        intro c above
        have succ := toNat_add_of_fits (b := 1) (Nat.succ_le_of_lt room)
        simp only [UInt32.le_iff_toNat_le, ← UInt32.toNat_inj, succ, UInt32.toNat_one] at above ⊢
        omega
      refine (ih.mono ?_).weaken ?_
      · intro fresh found
        refine ⟨found.1, fun c above below => ?_⟩
        exact (step c above).elim (fun same => same ▸ inside) fun later => found.2 c later below
      · intro _ full c above
        exact (step c above).elim (fun same => same ▸ inside) (full c)
  | case2 next inside last =>
      intro c above
      have top : c = next := by
        have bound := c.toNat_lt
        rw [UInt32.le_iff_toNat_le] at above
        rw [u32Limit] at last
        refine UInt32.toNat_inj.mp ?_
        omega
      exact top ▸ inside
  | case3 next outside =>
      refine ⟨outside, fun c above below => ?_⟩
      exact absurd below (UInt32.not_lt.mpr above)

/-- The state after some of the target's constants have got their names. -/
structure ConstantMapping.Ok (source : SemanticProgramAdmission) (done : List UInt32)
    (state : ConstantMapping) : Prop where
  keys : state.mapping.map Prod.fst = done.reverse
  names : (state.mapping.map Prod.snd).Nodup
  apart : ∀ name ∈ state.mapping.map Prod.snd, name ∉ source.constants
  taken : state.taken = state.mapping.map Prod.snd ++ source.constants
  below : ∀ c < state.next, c ∈ state.taken

theorem ConstantMapping.Ok.length {done : List UInt32} {state : ConstantMapping}
    (ok : state.Ok source done)
    : state.mapping.length = done.length := by
  simpa using congrArg List.length ok.keys

/-- Naming one more constant. -/
theorem ConstantMapping.Ok.insert {done : List UInt32} {state : ConstantMapping}
    (ok : state.Ok source done) (original : UInt32)
    : Ends (fun _ => u32Limit + 1 ≤ source.constants.length + done.length)
        (ConstantMapping.Ok source (done ++ [original])) (state.insert original) := by
  refine ((freshConstant_ends state.taken state.next).weaken fun _ full => ?_).bind
    fun fresh found => ?_
  · have all : ∀ c, c ∈ state.taken := fun c =>
      (Decidable.em (c < state.next)).elim (ok.below c) fun above => full c (UInt32.not_lt.mp above)
    have enough := le_words_length all
    rw [ok.taken, List.length_append, List.length_map, ok.length] at enough
    omega
  · obtain ⟨new, between⟩ := found
    rw [ok.taken, List.mem_append, not_or] at new
    refine {
      keys := by simp [ok.keys]
      names := List.nodup_cons.mpr ⟨new.1, ok.names⟩
      apart := List.forall_mem_cons.mpr ⟨new.2, ok.apart⟩
      taken := by simp [ok.taken]
      below := fun c less => ?_ }
    refine List.mem_cons_of_mem _ ?_
    exact (Decidable.em (c < state.next)).elim (ok.below c) fun above =>
      between c (UInt32.not_lt.mp above) less

/-- Names for the target's constants: distinct, and none of the source's. -/
structure Names (source target : SemanticProgramAdmission) (name : UInt32 → UInt32) : Prop where
  distinct : Set.InjOn name {c | c ∈ target.constantOccurrences}
  apart : ∀ c ∈ target.constantOccurrences, name c ∉ source.constantOccurrences

/-- The name of a constant in a mapping. -/
def nameIn (mapping : List (UInt32 × UInt32)) (c : UInt32) : UInt32 :=
  (mapping.lookup c).getD c

theorem constantMapping_ends (source target : SemanticProgramAdmission)
    : Ends (fun _ => u32Limit + 1 < source.constants.length + target.constants.length)
        (fun mapping => Names source target (nameIn mapping)
          ∧ (∀ c ∈ target.constantOccurrences, frozen mapping c = .ok (nameIn mapping c))
          ∧ source.constants.length + target.constants.length ≤ u32Limit + 1)
        (constantMapping source target) := by
  have run : Ends (fun _ => u32Limit + 1 < source.constants.length + target.constants.length)
      (ConstantMapping.Ok source target.constants)
      (target.constants.foldlM ConstantMapping.insert ⟨[], source.constants, 0⟩) := by
    refine Ends.foldlM (ConstantMapping.Ok source) ⟨rfl, List.nodup_nil, by simp, rfl, ?_⟩ ?_
    · exact fun c less => absurd less (by simp)
    · intro before item after state split ok
      refine (ok.insert item).weaken fun _ enough => ?_
      rw [split, List.length_append, List.length_cons]
      omega
  refine run.bind fun state ok => ?_
  have keys : (state.mapping.map Prod.fst).Nodup := by
    rw [ok.keys]
    exact List.nodup_reverse.mpr (nodup_constants target)
  have found : ∀ c ∈ target.constantOccurrences, ∃ name, state.mapping.lookup c = some name := by
    intro c member
    refine exists_lookup_of_mem_keys ?_
    rw [ok.keys, List.mem_reverse]
    exact mem_constants.mpr member
  refine ⟨⟨?_, ?_⟩, ?_, ?_⟩
  · intro c member c' member' same
    obtain ⟨name, named⟩ := found c member
    obtain ⟨name', named'⟩ := found c' member'
    rw [nameIn, nameIn, named, named'] at same
    obtain rfl : name = name' := same
    have entries := List.inj_on_of_nodup_map ok.names (mem_of_lookup named)
      (mem_of_lookup named') rfl
    exact (Prod.mk.inj entries).1
  · intro c member
    obtain ⟨name, named⟩ := found c member
    rw [nameIn, named]
    exact fun taken => ok.apart name (List.mem_map_of_mem (f := Prod.snd) (mem_of_lookup named))
      (mem_constants.mpr taken)
  · intro c member
    obtain ⟨name, named⟩ := found c member
    simp [frozen, nameIn, named]
  · have distinct : (state.mapping.map Prod.snd ++ source.constants).Nodup :=
      List.nodup_append.mpr ⟨ok.names, nodup_constants source,
        fun name member c taken same => ok.apart name member (same ▸ taken)⟩
    have bounded := words_length_le distinct
    rw [List.length_append, List.length_map, ok.length] at bounded
    omega

-- Renaming

section Rename

variable {mapping : List (UInt32 × UInt32)} {name : UInt32 → UInt32}

/-- The mapping names the constants of the target, and the predicates fit. -/
structure Renames (source target : SemanticProgramAdmission)
    (mapping : List (UInt32 × UInt32)) (name : UInt32 → UInt32) : Prop where
  source_valid : source.Valid
  target_valid : target.Valid
  fits : source.predicateCount.toNat + target.predicateCount.toNat ≤ u32Limit
  named : ∀ c ∈ target.constantOccurrences, frozen mapping c = .ok (name c)

variable (renames : Renames source target mapping name)

include renames

theorem Renames.predicate_fits {predicate arity : UInt32}
    (declared : target.predicateArities[predicate.toNat]? = some arity)
    : predicate.toNat + source.predicateCount.toNat ≤ u32Limit := by
  have below := (List.getElem?_eq_some_iff.mp declared).1
  rw [renames.target_valid.arities_length] at below
  have fits := renames.fits
  omega

theorem Renames.addPredicate {predicate arity : UInt32}
    (declared : target.predicateArities[predicate.toNat]? = some arity)
    : source.addPredicate predicate = .ok (predicate + source.predicateCount) := by
  rw [SemanticProgramAdmission.addPredicate,
    checkedAdd_eq_some.mpr ⟨rfl, renames.predicate_fits declared⟩]

theorem Renames.fact {fact : SemanticProgramFact} (valid : fact.Valid target.predicateArities)
    (within : target.Over fact)
    : renameFact source mapping fact = .ok (moveFact source.predicateCount name fact) := by
  rw [renameFact, renames.addPredicate valid.declared, ok_bind, renames.named _ within.1, ok_bind]
  by_cases binary : fact.arity = 2
  · rw [if_pos binary, renames.named _ (within.2 binary), ok_bind, moveFact, if_pos binary]
  · rw [if_neg binary, ok_bind, moveFact, if_neg binary]

theorem Renames.term {term : SemanticProgramTerm}
    (known : term.kind = 1 → term.value ∈ target.constantOccurrences)
    : renameTerm mapping term = .ok (moveTerm name term) := by
  by_cases constant : term.kind = 1
  · rw [renameTerm, if_pos constant, renames.named _ (known constant), ok_bind, moveTerm,
      if_pos constant]
  · rw [renameTerm, if_neg constant, moveTerm, if_neg constant]

theorem Renames.atom {atom : SemanticProgramAtom} (valid : atom.Valid target.predicateArities)
    (known : ∀ term ∈ atom.activeTerms, term.kind = 1 → term.value ∈ target.constantOccurrences)
    : renameAtom source mapping atom = .ok (moveAtom source.predicateCount name atom) := by
  rw [renameAtom, renames.addPredicate valid.declared, ok_bind]
  obtain ⟨one, active, _⟩ | ⟨two, active, _⟩ := SemanticProgramAtom.activeTerms_cases valid.arity
  · have first := renames.term (known atom.terms.1 (by simp [active]))
    simp [moveAtom, one, first]
  · have first := renames.term (known atom.terms.1 (by simp [active]))
    have second := renames.term (known atom.terms.2 (by simp [active]))
    simp [moveAtom, two, first, second]

theorem Renames.rule {rule : SemanticProgramRule} (member : rule ∈ target.initialRules)
    : renameRule source mapping rule = .ok (moveRule source.predicateCount name rule) := by
  have valid := renames.target_valid.rules rule member
  have atoms : ∀ atom ∈ rule.activeBody,
      renameAtom source mapping atom = .ok (moveAtom source.predicateCount name atom) :=
    fun atom inside => renames.atom (valid.body atom inside)
      fun term active constant =>
        constant_mem member (List.mem_cons_of_mem _ inside) active constant
  have head := renames.atom valid.head fun term active constant =>
    constant_mem member (List.mem_cons_self ..) active constant
  rw [renameRule, head, ok_bind]
  obtain ⟨head, ⟨first, second, third⟩, bodyCount⟩ := rule
  obtain rfl | rfl | rfl := valid.bodyCount
  · have one := atoms first (by simp [SemanticProgramRule.activeBody,
      SemanticProgramRule.bodyList])
    simp [one, moveRule]
  · have one := atoms first (by simp [SemanticProgramRule.activeBody,
      SemanticProgramRule.bodyList])
    have two := atoms second (by simp [SemanticProgramRule.activeBody,
      SemanticProgramRule.bodyList])
    simp [one, two, moveRule]
  · have one := atoms first (by simp [SemanticProgramRule.activeBody,
      SemanticProgramRule.bodyList])
    have two := atoms second (by simp [SemanticProgramRule.activeBody,
      SemanticProgramRule.bodyList])
    have three := atoms third (by simp [SemanticProgramRule.activeBody,
      SemanticProgramRule.bodyList])
    simp [one, two, three, moveRule]

end Rename

-- The combined program

/-- The source program with the moved target program behind it. -/
def combined (source target : SemanticProgramAdmission) (offset : UInt32)
    (name : UInt32 → UInt32) : SemanticProgramAdmission where
  predicateCount := source.predicateCount + target.predicateCount
  predicateArities := source.predicateArities ++ target.predicateArities
  initialFacts := source.initialFacts
    ++ target.initialFacts.map (moveFact source.predicateCount name)
  initialRules := source.initialRules
    ++ target.initialRules.map (moveRule source.predicateCount name)
  queries := target.queries.map (moveFact source.predicateCount name)
  queryRecords := target.queryRecords.map (· + offset)
  observationFacts := source.observationFacts ++ target.observationFacts.map fun entry =>
    (entry.1 + offset, moveFact source.predicateCount name entry.2)

/-- The statement records that the target names. -/
def records (program : SemanticProgramAdmission) : List UInt32 :=
  program.queryRecords ++ program.observationFacts.map Prod.fst

theorem addRecord_eq_ok {record result : UInt32}
    : addRecord offset record = .ok result
      ↔ result = record + offset ∧ record.toNat + offset.toNat ≤ u32Limit := by
  rw [addRecord]
  cases added : checkedAdd record offset with
  | none =>
      simp only [reduceCtorEq, false_iff]
      intro fits
      simp [checkedAdd_eq_some.mpr ⟨rfl, fits.2⟩] at added
  | some sum =>
      obtain ⟨rfl, fits⟩ := checkedAdd_eq_some.mp added
      simp [fits, eq_comm]

variable {mapping : List (UInt32 × UInt32)} {name : UInt32 → UInt32}

theorem Renames.queries (renames : Renames source target mapping name)
    : target.queries.mapM (renameFact source mapping)
      = .ok (target.queries.map (moveFact source.predicateCount name)) :=
  mapM_ok _ _ _ fun fact member => renames.fact
    (renames.target_valid.tuples fact (List.mem_append_left _ member))
    (over_of_mem (by simp [member]))

theorem Renames.facts (renames : Renames source target mapping name)
    : target.initialFacts.mapM (renameFact source mapping)
      = .ok (target.initialFacts.map (moveFact source.predicateCount name)) :=
  mapM_ok _ _ _ fun fact member => renames.fact
    (renames.target_valid.tuples fact (List.mem_append_right _ member))
    (over_of_mem (by simp [member]))

theorem Renames.observation (renames : Renames source target mapping name)
    {entry : UInt32 × SemanticProgramFact} (member : entry ∈ target.observationFacts)
    : renameFact source mapping entry.2 = .ok (moveFact source.predicateCount name entry.2) := by
  refine renames.fact (renames.target_valid.observations entry member) (over_of_mem ?_)
  exact List.mem_append_right _ (List.mem_map_of_mem member)

/-- With a mapping, the outcome is decided by the records and by the admission of the combination. -/
theorem Renames.evaluationContext_eq_ok (renames : Renames source target mapping name)
    (mapped : constantMapping source target = .ok mapping) {result : SemanticProgramAdmission}
    : evaluationContext source target offset = .ok result
      ↔ result = combined source target offset name
        ∧ (∀ record ∈ target.records, record.toNat + offset.toNat ≤ u32Limit)
        ∧ (combined source target offset name).Valid := by
  have counts := checkedAdd_eq_some.mpr ⟨rfl, renames.fits⟩
  have rules : target.initialRules.mapM (renameRule source mapping)
      = .ok (target.initialRules.map (moveRule source.predicateCount name)) :=
    mapM_ok _ _ _ fun rule member => renames.rule member
  have unfolded : evaluationContext source target offset = (do
      let queryRecords ← target.queryRecords.mapM (addRecord offset)
      let observations ← target.observationFacts.mapM (renameObservation source mapping offset)
      let result : SemanticProgramAdmission :=
        { combined source target offset name with
          queryRecords, observationFacts := source.observationFacts ++ observations }
      result.validate
      .ok result) := by
    simp only [evaluationContext, validate_eq_ok.mpr renames.source_valid,
      validate_eq_ok.mpr renames.target_valid, counts, mapped, renames.queries, renames.facts,
      rules, ok_bind, combined]
  rw [unfolded]
  constructor
  · intro ran
    obtain ⟨queryRecords, first, ran⟩ := bind_eq_ok.mp ran
    obtain ⟨observations, second, ran⟩ := bind_eq_ok.mp ran
    obtain ⟨_, admitted, ran⟩ := bind_eq_ok.mp ran
    have query_fits : ∀ record ∈ target.queryRecords,
        record.toNat + offset.toNat ≤ u32Limit := fun record member => by
      obtain ⟨_, _, added⟩ := exists_result_of_mapM first member
      exact (addRecord_eq_ok.mp added).2
    have entry_fits : ∀ entry ∈ target.observationFacts,
        entry.1.toNat + offset.toNat ≤ u32Limit := fun entry member => by
      obtain ⟨_, _, renamed⟩ := exists_result_of_mapM second member
      obtain ⟨_, added, _⟩ := bind_eq_ok.mp renamed
      exact (addRecord_eq_ok.mp added).2
    have first' := mapM_ok (addRecord offset) (· + offset) target.queryRecords
      fun record member => addRecord_eq_ok.mpr ⟨rfl, query_fits record member⟩
    have second' := mapM_ok (renameObservation source mapping offset)
      (fun entry => (entry.1 + offset, moveFact source.predicateCount name entry.2))
      target.observationFacts fun entry member => by
        rw [renameObservation, addRecord_eq_ok.mpr ⟨rfl, entry_fits entry member⟩, ok_bind,
          renames.observation member, ok_bind]
    obtain rfl := Except.ok.inj (first'.symm.trans first)
    obtain rfl := Except.ok.inj (second'.symm.trans second)
    refine ⟨(Except.ok.inj ran).symm, ?_, validate_eq_ok.mp admitted⟩
    intro record member
    obtain asked | observed := List.mem_append.mp member
    · exact query_fits record asked
    · obtain ⟨entry, inside, rfl⟩ := List.mem_map.mp observed
      exact entry_fits entry inside
  · intro fit
    obtain ⟨rfl, fits, valid⟩ := fit
    have first := mapM_ok (addRecord offset) (· + offset) target.queryRecords
      fun record member =>
        addRecord_eq_ok.mpr ⟨rfl, fits record (List.mem_append_left _ member)⟩
    have second := mapM_ok (renameObservation source mapping offset)
      (fun entry => (entry.1 + offset, moveFact source.predicateCount name entry.2))
      target.observationFacts fun entry member => by
        have fit := fits entry.1 (List.mem_append_right _ (List.mem_map_of_mem member))
        rw [renameObservation, addRecord_eq_ok.mpr ⟨rfl, fit⟩, ok_bind,
          renames.observation member, ok_bind]
    have admitted := validate_eq_ok.mpr valid
    rw [first, ok_bind, second, ok_bind]
    change (combined source target offset name).validate >>= _ = _
    rw [admitted]
    rfl

end SemanticProgramAdmission

end Xlog.Cuda
