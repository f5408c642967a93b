import Xlog.Logic.MagicSetsMeaning

/-! The rewriting restricts a target predicate in place, for all its readers. The answers stay as they are
exactly when the readers need no fact of a target that the seeds do not ask for.
-/

namespace Xlog.Logic

open Xlog.Core Xlog.Foundation

-- Other predicates

section Readers

variable {V : Type} {constant : Term → V} {targets : List String} {rules rewritten : List Rule}
variable {seeds : List Seed} {adornments : List Adornment} {fact : GroundAtom V}

/-- The ground instances of the rules in which no rule but those of the targets uses a fact of a target
that nothing asks for.
-/
def servedClauses (constant : Term → V) (targets : List String) (rules : List Rule)
    (seeds : List Seed)
    : Set (Clause (GroundAtom V)) :=
  {clause ∈ positiveClauses constant rules | clause.head.1 ∉ targets →
    ∀ fact ∈ clause.body, fact.1 ∈ targets → Requested constant targets rules seeds fact}

/-- The requested facts of a target are derived. -/
def TargetSettled (constant : Term → V) (targets : List String) (rules rewritten : List Rule)
    (seeds : List Seed) (target : String)
    : Prop :=
  ∀ fact ∈ extension constant rules, fact.1 = target →
    Requested constant targets rules seeds fact → fact ∈ extension constant rewritten

theorem MagicRules.settled_of_support
    (magic : MagicRules targets rules seeds adornments rewritten) (denotes : Denotes constant)
    {target : String} (support : SupportDerived constant rules rewritten target)
    (targeted : target ∈ targets)
    : TargetSettled constant targets rules rewritten seeds target := by
  rintro fact derived same ⟨adornment, same_pred, demand⟩
  obtain ⟨known, asked⟩ := magic.demanded denotes support targeted demand (same_pred.trans same)
  exact (magic.kept denotes support targeted derived same).2 adornment known same_pred asked

/-- The facts of other predicates are derived where the targets that they reach are settled, by induction
on what is derived.
-/
theorem MagicRules.others (magic : MagicRules targets rules seeds adornments rewritten)
    (reached : String → Prop)
    (closed : ∀ pred, reached pred → ∀ other, Calls rules pred other → reached other)
    (settled : ∀ target ∈ targets, reached target →
      TargetSettled constant targets rules rewritten seeds target)
    (derived : fact ∈ leastModel (servedClauses constant targets rules seeds))
    (other : fact.1 ∉ targets) (start : reached fact.1)
    : fact ∈ extension constant rewritten := by
  have inside : leastModel (servedClauses constant targets rules seeds)
      ⊆ {fact | fact ∈ extension constant rules ∧ (fact.1 ∉ targets → reached fact.1 →
        fact ∈ extension constant rewritten)} := by
    refine leastModel_subset ?_
    rintro ⟨body, head⟩ ⟨⟨rule, member, values, choice, instance_head, instances, rfl⟩, served⟩ holds
    refine ⟨extension_intro member instance_head fun atom called =>
      ⟨choice atom, (holds ⟨atom, called, rfl⟩).1, instances atom called⟩, fun other start => ?_⟩
    refine extension_intro ((magic.rules rule).mpr (.inl ⟨member, instance_head.1 ▸ other⟩))
      instance_head fun atom called => ⟨choice atom, ?_, instances atom called⟩
    obtain ⟨known, carried⟩ := holds ⟨atom, called, rfl⟩
    have next : reached (choice atom).1 := closed _ start _ ⟨rule, member, instance_head.1.symm,
      (instances atom called).1 ▸ mem_bodyPredicates called⟩
    by_cases target : (choice atom).1 ∈ targets
    · exact settled _ target next _ known rfl (served other _ ⟨atom, called, rfl⟩ target)
    · exact carried target next
  exact (inside derived).2 other start

/-- The one predicate is read by the rules for the other, but not the other way. -/
def Below (rules : List Rule) (pred other : String) : Prop :=
  Relation.TransGen (Calls rules) other pred ∧ ¬ Relation.ReflTransGen (Calls rules) pred other

instance : IsStrictOrder String (Below rules) where
  irrefl _ below := below.2 .refl
  trans _ _ _ below below' :=
    ⟨below'.1.trans below.1, fun back => below.2 (back.trans below'.1.to_reflTransGen)⟩

/-- Every target is settled, by induction on the targets below it. -/
theorem MagicRules.settled (magic : MagicRules targets rules seeds adornments rewritten)
    (denotes : Denotes constant)
    (served : ∀ fact ∈ extension constant rules, fact.1 ∉ targets →
      fact ∈ leastModel (servedClauses constant targets rules seeds))
    {target : String} (targeted : target ∈ targets)
    : TargetSettled constant targets rules rewritten seeds target := by
  have grounded : {target | target ∈ targets}.WellFoundedOn (Below rules) :=
    (List.finite_toSet targets).wellFoundedOn
  refine grounded.induction targeted fun target targeted below => ?_
  refine magic.settled_of_support denotes ?_ targeted
  intro rule inside same atom called apart fact derived same_pred
  have calls : Calls rules target atom.predicate := ⟨rule, inside, same, mem_bodyPredicates called⟩
  have acyclic : ¬ Relation.TransGen (Calls rules) atom.predicate atom.predicate := fun cycle =>
    apart ((magic.linear rule inside (same ▸ targeted) atom called cycle).trans same)
  refine magic.others (Below rules · target) ?_ below
    (served fact derived (same_pred ▸ fun other => acyclic (magic.cyclic _ other)))
    (same_pred ▸ fun other => acyclic (magic.cyclic _ other)) ?_
  · exact fun pred reached other call =>
      ⟨reached.1.tail call, fun back => reached.2 (.head call back)⟩
  · exact same_pred ▸ ⟨.single calls, fun back => acyclic (.tail' back calls)⟩

/-- Then the rewritten rules derive exactly the facts that are of no target or requested. -/
theorem MagicRules.derived_iff (magic : MagicRules targets rules seeds adornments rewritten)
    (denotes : Denotes constant) (heads : ∀ rule ∈ rules, Term.anonymous ∉ rule.head.terms)
    (authored : ∀ rule ∈ rules, Authored rule.head.predicate
      ∧ ∀ atom ∈ positiveAtoms rule.body, Authored atom.predicate)
    (served : ∀ fact ∈ extension constant rules, fact.1 ∉ targets →
      fact ∈ leastModel (servedClauses constant targets rules seeds))
    (own : Authored fact.1)
    : fact ∈ extension constant rewritten ↔ fact ∈ extension constant rules
        ∧ (fact.1 ∈ targets → Requested constant targets rules seeds fact) := by
  constructor
  · intro derived
    have backed := magic.sound heads authored derived
    exact ⟨backed.derived own, backed.requested own⟩
  · rintro ⟨derived, requested⟩
    by_cases target : fact.1 ∈ targets
    · exact magic.settled denotes served target fact derived rfl (requested target)
    · exact magic.others (fun _ => True) (fun _ _ _ _ => trivial)
        (fun target targeted _ => magic.settled denotes served targeted)
        (served fact derived target) target trivial

/-- What the rewritten rules derive uses of the targets only requested facts, by induction on what is
derived.
-/
theorem MagicRules.served (magic : MagicRules targets rules seeds adornments rewritten)
    (heads : ∀ rule ∈ rules, Term.anonymous ∉ rule.head.terms)
    (authored : ∀ rule ∈ rules, Authored rule.head.predicate
      ∧ ∀ atom ∈ positiveAtoms rule.body, Authored atom.predicate)
    (derived : fact ∈ extension constant rewritten)
    : Authored fact.1 → fact ∈ leastModel (servedClauses constant targets rules seeds) := by
  refine extension_induct (motive := fun fact => Authored fact.1 →
      fact ∈ leastModel (servedClauses constant targets rules seeds))
    (fun rule member values fact head body own => ?_) derived
  have through : ∀ original ∈ rules, original.head.Instance constant values fact →
      (∀ atom ∈ positiveAtoms original.body, atom ∈ positiveAtoms rule.body) →
      fact ∈ leastModel (servedClauses constant targets rules seeds) := by
    intro original inside head within
    have body' : ∀ atom ∈ positiveAtoms original.body, ∃ fact, fact ∈ extension constant rewritten
        ∧ fact ∈ leastModel (servedClauses constant targets rules seeds)
        ∧ Authored fact.1 ∧ atom.Instance constant values fact := by
      intro atom called
      obtain ⟨fact, derived, ih, instance_atom⟩ := body atom (within atom called)
      have own : Authored fact.1 := instance_atom.1 ▸ (authored original inside).2 atom called
      exact ⟨fact, derived, ih own, own, instance_atom⟩
    choose! choice derived kept owns instances using body'
    refine models_leastModel (servedClauses constant targets rules seeds)
      ⟨{fact | ∃ atom ∈ positiveAtoms original.body, fact = choice atom}, fact⟩
      ⟨⟨original, inside, values, choice, head, instances, rfl⟩, ?_⟩ ?_
    · rintro - _ ⟨atom, called, rfl⟩
      exact (magic.sound heads authored (derived atom called)).requested (owns atom called)
    · rintro _ ⟨atom, called, rfl⟩
      exact kept atom called
  obtain ⟨inside, -⟩ | seeded | demanding | guarded := (magic.rules rule).mp member
  · exact through rule inside head fun _ => id
  · obtain ⟨seed, -, rfl⟩ := List.mem_map.mp seeded
    exact absurd head.1 (own _ _)
  · obtain ⟨_, -, _, -, -, site, -, rule_eq⟩ := mem_demandRules.mp demanding
    rw [CallSite.demands] at rule_eq
    split at rule_eq
    · cases rule_eq
    · obtain rfl := List.mem_singleton.mp rule_eq
      exact absurd head.1 (own _ _)
  · obtain ⟨_, -, original, inside, -, rfl⟩ := mem_guardedRules.mp guarded
    exact through original inside head fun atom => List.mem_cons_of_mem _

end Readers

-- Generated rules

/-- Generated rules are kept up to equal texts, by list induction. -/
theorem foldl_pushUniqueRule (text : DebugText) (rules : List Rule) (out : List Rule × List String)
    (keyed : ∀ key ∈ out.2, ∃ rule ∈ out.1, text.rule rule = key)
    : let final := (rules.foldl (pushUniqueRule text) out).1
      (∀ rule ∈ final, rule ∈ out.1 ∨ rule ∈ rules) ∧ out.1 ⊆ final
        ∧ ∀ rule ∈ rules, ∃ kept ∈ final, text.rule rule = text.rule kept := by
  induction rules generalizing out with
  | nil => exact ⟨fun _ => .inl, List.Subset.refl _, nofun⟩
  | cons rule rules ih =>
      rw [List.foldl_cons, pushUniqueRule]
      split
      · rename_i known
        obtain ⟨origin, inside, texts⟩ := ih out keyed
        obtain ⟨kept, member, same⟩ := keyed _ known
        exact ⟨fun other found => (origin other found).imp_right (List.mem_cons_of_mem _), inside,
          List.forall_mem_cons.mpr ⟨⟨kept, inside member, same.symm⟩, texts⟩⟩
      · obtain ⟨origin, inside, texts⟩ := ih (out.1 ++ [rule], text.rule rule :: out.2) (by
          refine List.forall_mem_cons.mpr ⟨⟨rule, by simp, rfl⟩, fun key member => ?_⟩
          obtain ⟨kept, found, same⟩ := keyed key member
          exact ⟨kept, List.mem_append_left _ found, same⟩)
        refine ⟨fun other found => ?_, fun _ member => inside (List.mem_append_left _ member),
          List.forall_mem_cons.mpr ⟨⟨rule, inside (by simp), rfl⟩, texts⟩⟩
        obtain before | later := origin other found
        · rw [List.mem_append, List.mem_singleton] at before
          exact before.imp_right fun same => List.mem_cons.mpr (.inl same)
        · exact .inr (List.mem_cons_of_mem _ later)

variable {V : Type}

/-- Rules with equal texts have the same ground instances. -/
def TextsTell (text : DebugText) (constant : Term → V) (rules : List Rule) : Prop :=
  ∀ rule ∈ rules, ∀ other ∈ rules, text.rule rule = text.rule other →
    positiveClauses constant [rule] = positiveClauses constant [other]

theorem mem_positiveClauses {constant : Term → V} {rules : List Rule} {clause : Clause (GroundAtom V)}
    : clause ∈ positiveClauses constant rules
      ↔ ∃ rule ∈ rules, clause ∈ positiveClauses constant [rule] := by
  simp [positiveClauses]

theorem extension_pushUnique {text : DebugText} {constant : Term → V} {generated : List Rule}
    (tell : TextsTell text constant generated) (before after : List Rule)
    : extension constant (before ++ (generated.foldl (pushUniqueRule text) ([], [])).1 ++ after)
      = extension constant (before ++ generated ++ after) := by
  obtain ⟨origin, -, texts⟩ := foldl_pushUniqueRule text generated ([], []) nofun
  have within : ∀ rule ∈ (generated.foldl (pushUniqueRule text) ([], [])).1, rule ∈ generated :=
    fun rule member => (origin rule member).resolve_left List.not_mem_nil
  refine congrArg leastModel (Set.ext fun clause => ?_)
  rw [mem_positiveClauses, mem_positiveClauses]
  simp only [List.mem_append]
  constructor
  · rintro ⟨rule, (first | kept) | last, instance_rule⟩
    · exact ⟨rule, .inl (.inl first), instance_rule⟩
    · exact ⟨rule, .inl (.inr (within rule kept)), instance_rule⟩
    · exact ⟨rule, .inr last, instance_rule⟩
  · rintro ⟨rule, (first | member) | last, instance_rule⟩
    · exact ⟨rule, .inl (.inl first), instance_rule⟩
    · obtain ⟨kept, found, same⟩ := texts rule member
      exact ⟨kept, .inl (.inr found), tell rule member kept (within kept found) same ▸ instance_rule⟩
    · exact ⟨rule, .inr last, instance_rule⟩

-- Programs

def magicTargets (text : DebugText) (program : Program) : List String :=
  (collectQuerySeeds text program).map Seed.pred

theorem collectQuerySeeds_recursive {text : DebugText} {program : Program} {seed : Seed}
    (member : seed ∈ collectQuerySeeds text program)
    : seed.pred ∈ recursivePredicates program.rules := by
  suffices from_any : ∀ (queries : List Query) (seeds : List Seed × List String),
      (∀ seed ∈ seeds.1, seed.pred ∈ recursivePredicates program.rules) →
      ∀ seed ∈ (queries.foldl (querySeed text (recursivePredicates program.rules)) seeds).1,
        seed.pred ∈ recursivePredicates program.rules by
    exact from_any program.queries ([], []) nofun seed member
  intro queries
  induction queries with
  | nil => exact fun seeds known => known
  | cons query queries ih =>
      refine fun seeds known => ih _ ?_
      rw [querySeed]
      dsimp only
      split
      · exact known
      · rename_i eligible
        refine List.forall_mem_append.mpr ⟨known, List.forall_mem_singleton.mpr ?_⟩
        exact not_not.mp fun other => eligible (.inl other)

theorem mem_orderedTexts {texts : List String} {text : String}
    : text ∈ orderedTexts texts ↔ text ∈ texts := by
  suffices from_any : ∀ out : List String,
      text ∈ texts.foldl (insertOrdered fun a b => decide (a ≤ b)) out
        ↔ text ∈ out ∨ text ∈ texts by
    simpa [orderedTexts] using from_any []
  induction texts with
  | nil => simp
  | cons first texts ih =>
      intro out
      rw [List.foldl_cons, ih, mem_insertOrdered, List.mem_cons]
      tauto

/-- A supported target is in a cycle with no other predicate. -/
theorem linear_of_supported {rules : List Rule} {targets : List String}
    (supported : unsupportedTargetReasons rules targets (recursivePredicates rules) = [])
    {rule : Rule} (member : rule ∈ rules) (target : rule.head.predicate ∈ targets) {atom : Atom}
    (called : atom ∈ positiveAtoms rule.body)
    (cycle : Relation.TransGen (Calls rules) atom.predicate atom.predicate)
    : atom.predicate = rule.head.predicate := by
  by_contra other
  have reason : outside ("mutual recursion through " ++ atom.predicate)
      ∈ unsupportedTargetReasons rules targets (recursivePredicates rules) := by
    refine mem_orderedTexts.mpr (List.mem_flatMap.mpr ⟨rule, ?_, ?_⟩)
    · exact List.mem_filter.mpr ⟨member, by simpa using target⟩
    · refine List.mem_append_right _ (List.mem_flatMap.mpr ⟨_, mem_positiveAtoms.mp called, ?_⟩)
      rw [literalReasons, if_pos ⟨mem_recursivePredicates.mpr cycle, other⟩]
      simp
  rw [supported] at reason
  cases reason

/-- An applied rewriting has supported targets and closed adornments. -/
theorem rewriteMagicSets_applied {text : DebugText} {program : Program} {rewrite : MagicSetRewrite}
    (ran : rewriteMagicSets text program = .ok rewrite) (applied : rewrite.report.status = .applied)
    : unsupportedTargetReasons program.rules (magicTargets text program)
          (recursivePredicates program.rules) = []
      ∧ ∃ adornments rules, expandAdornments (magicTargets text program) program.rules
            (initialAdornments (collectQuerySeeds text program)) = .ok adornments
          ∧ rewriteRules text program.rules (magicTargets text program) adornments
            (collectQuerySeeds text program) = .ok rules
          ∧ rewrite.program.rules = rules := by
  have declined : ∀ {mode reasons}, declineOrError program mode reasons ≠ .ok rewrite := by
    intro mode reasons same
    cases mode with
    | on => cases same
    | off | auto =>
        cases same
        cases applied
  have enabled : ∀ mode, rewriteEnabled text program mode = .ok rewrite →
      unsupportedTargetReasons program.rules (magicTargets text program)
          (recursivePredicates program.rules) = []
      ∧ ∃ adornments rules, expandAdornments (magicTargets text program) program.rules
            (initialAdornments (collectQuerySeeds text program)) = .ok adornments
          ∧ rewriteRules text program.rules (magicTargets text program) adornments
            (collectQuerySeeds text program) = .ok rules
          ∧ rewrite.program.rules = rules := by
    intro mode ran
    rw [rewriteEnabled] at ran
    split at ran
    · exact absurd ran declined
    split at ran
    · exact absurd ran declined
    split at ran
    · exact absurd ran declined
    rename_i supported
    obtain ⟨adornments, found, ran⟩ := bind_eq_ok.mp ran
    obtain ⟨rules, made, ran⟩ := bind_eq_ok.mp ran
    cases ran
    exact ⟨not_not.mp supported, adornments, rules, found, made, rfl⟩
  rw [rewriteMagicSets] at ran
  split at ran
  · cases ran
    cases applied
  · cases ran
    cases applied
  · exact enabled _ ran

/-- Positive rules and constraints, of predicates with names of their own. -/
structure Datalog (program : Program) : Prop where
  rules : ∀ rule ∈ program.rules, ∀ literal ∈ rule.body, ∃ atom, literal = .positive atom
  constraints
    : ∀ constraint ∈ program.constraints, ∀ literal ∈ constraint.body, ∃ atom, literal = .positive atom
  heads : ∀ rule ∈ program.rules, Term.anonymous ∉ rule.head.terms
  authored
    : ∀ rule ∈ program.rules, Authored rule.head.predicate
      ∧ ∀ atom ∈ positiveAtoms rule.body, Authored atom.predicate
  authored_constraints
    : ∀ constraint ∈ program.constraints, ∀ atom ∈ positiveAtoms constraint.body,
      Authored atom.predicate
  authored_queries : ∀ query ∈ program.queries, Authored query.atom.predicate

/-- The rules that the rewriting adds. -/
def generatedRules (text : DebugText) (program : Program) : Result (List Rule) := do
  let adornments ← expandAdornments (magicTargets text program) program.rules
    (initialAdornments (collectQuerySeeds text program))
  .ok (seedRules (collectQuerySeeds text program)
    ++ demandRules (magicTargets text program) program.rules adornments)

/-- The constraint is violated by some facts. -/
def Constraint.Violated (constant : Term → V) (facts : Set (GroundAtom V)) (constraint : Constraint)
    : Prop :=
  ∃ values, ∀ atom ∈ positiveAtoms constraint.body, ∃ fact ∈ facts, atom.Instance constant values fact

/-- The facts of the predicates that are no targets, the answers of the queries and the violated
constraints are those of the program.
-/
structure PreservesAnswers (constant : Term → V) (text : DebugText) (program rewritten : Program)
    : Prop where
  predicates
    : ∀ fact : GroundAtom V, Authored fact.1 → fact.1 ∉ magicTargets text program →
      (fact ∈ extension constant rewritten.rules ↔ fact ∈ extension constant program.rules)
  queries
    : ∀ query ∈ program.queries, ∀ values fact, query.atom.Instance constant values fact →
      (fact ∈ extension constant rewritten.rules ↔ fact ∈ extension constant program.rules)
  constraints
    : ∀ constraint ∈ program.constraints,
      constraint.Violated constant (extension constant rewritten.rules)
        ↔ constraint.Violated constant (extension constant program.rules)

/-- Some seed asks for the fact. -/
def Asked (constant : Term → V) (text : DebugText) (program : Program) (fact : GroundAtom V)
    : Prop :=
  fact.1 ∈ magicTargets text program →
    Requested constant (magicTargets text program) program.rules (collectQuerySeeds text program) fact

/-- The readers of the targets need no facts that the seeds do not ask for. -/
structure Served (constant : Term → V) (text : DebugText) (program : Program) : Prop where
  rules
    : ∀ fact ∈ extension constant program.rules, fact.1 ∉ magicTargets text program →
      fact ∈ leastModel (servedClauses constant (magicTargets text program) program.rules
        (collectQuerySeeds text program))
  queries
    : ∀ query ∈ program.queries, ∀ values, ∀ fact ∈ extension constant program.rules,
      query.atom.Instance constant values fact → Asked constant text program fact
  constraints
    : ∀ constraint ∈ program.constraints,
      constraint.Violated constant (extension constant program.rules) →
      constraint.Violated constant
        {fact | fact ∈ extension constant program.rules ∧ Asked constant text program fact}

/-- An applied rewriting derives what some magic rules derive. -/
theorem magicRules_of_applied {constant : Term → V} {text : DebugText} {program : Program}
    {rewrite : MagicSetRewrite} (ran : rewriteMagicSets text program = .ok rewrite)
    (applied : rewrite.report.status = .applied)
    (tell : ∀ generated, generatedRules text program = .ok generated →
      TextsTell text constant generated)
    : ∃ adornments rewritten, MagicRules (magicTargets text program) program.rules
          (collectQuerySeeds text program) adornments rewritten
        ∧ extension constant rewrite.program.rules = extension constant rewritten := by
  obtain ⟨supported, adornments, rules, found, made, same⟩ := rewriteMagicSets_applied ran applied
  obtain ⟨-, error, failed⟩ | ⟨-, final, found', inside, within⟩ := expandAdornments_cases
    (magicTargets text program) program.rules (collectQuerySeeds text program)
  · cases failed.symm.trans found
  obtain rfl := Except.ok.inj (found'.symm.trans found)
  rw [rewriteRules_eq text (collectQuerySeeds text program) within] at made
  refine ⟨final, program.rules.filter (·.head.predicate ∉ magicTargets text program)
    ++ (seedRules (collectQuerySeeds text program)
      ++ demandRules (magicTargets text program) program.rules final)
    ++ guardedRules program.rules final, ⟨?_, ?_, ?_, ?_, within, ?_⟩, ?_⟩
  · exact fun seed member => List.mem_map_of_mem member
  · intro target member
    obtain ⟨seed, known, rfl⟩ := List.mem_map.mp member
    exact mem_recursivePredicates.mp (collectQuerySeeds_recursive known)
  · exact fun rule member target atom called => linear_of_supported supported member target called
  · exact fun seed member =>
      inside (((initialAdornments_spec (collectQuerySeeds text program)).2 _).mpr ⟨seed, member, rfl⟩)
  · intro rule
    simp only [List.mem_append, List.mem_filter, decide_eq_true_eq, or_assoc]
  · rw [same, ← Except.ok.inj made]
    refine extension_pushUnique (tell _ ?_) _ _
    rw [generatedRules, found, ok_bind]

/-- The rewriting preserves the answers exactly when the readers of the targets are served. -/
theorem preservesAnswers_iff {constant : Term → V} {text : DebugText} {program : Program}
    {rewrite : MagicSetRewrite} (datalog : Datalog program) (denotes : Denotes constant)
    (tell : ∀ generated, generatedRules text program = .ok generated →
      TextsTell text constant generated)
    (ran : rewriteMagicSets text program = .ok rewrite) (applied : rewrite.report.status = .applied)
    : PreservesAnswers constant text program rewrite.program ↔ Served constant text program := by
  obtain ⟨adornments, rewritten, magic, same⟩ := magicRules_of_applied ran applied tell
  have sound : ∀ {fact}, Authored fact.1 → fact ∈ extension constant rewritten →
      fact ∈ extension constant program.rules ∧ Asked constant text program fact := by
    intro fact own derived
    have backed := magic.sound datalog.heads datalog.authored derived
    exact ⟨backed.derived own, backed.requested own⟩
  constructor
  · rintro ⟨predicates, queries, constraints⟩
    rw [same] at predicates queries constraints
    refine ⟨fun fact derived other => ?_, fun query member values fact derived inside => ?_,
      fun constraint member violated => ?_⟩
    · have own := authored_of_derived (fun rule member => (datalog.authored rule member).1) derived
      exact magic.served datalog.heads datalog.authored ((predicates fact own other).mpr derived) own
    · refine (sound ?_ ((queries query member values fact inside).mpr derived)).2
      exact inside.1 ▸ datalog.authored_queries query member
    · obtain ⟨values, holds⟩ := (constraints constraint member).mpr violated
      refine ⟨values, fun atom called => ?_⟩
      obtain ⟨fact, derived, inside⟩ := holds atom called
      exact ⟨fact, sound (inside.1 ▸ datalog.authored_constraints constraint member atom called) derived,
        inside⟩
  · intro served
    have derived_iff : ∀ {fact}, Authored fact.1 → (fact ∈ extension constant rewritten
        ↔ fact ∈ extension constant program.rules ∧ Asked constant text program fact) :=
      magic.derived_iff denotes datalog.heads datalog.authored served.rules
    refine ⟨fun fact own other => ?_, fun query member values fact inside => ?_,
      fun constraint member => ⟨?_, fun violated => ?_⟩⟩
    · rw [same, derived_iff own]
      exact and_iff_left fun target => absurd target other
    · rw [same, derived_iff (inside.1 ▸ datalog.authored_queries query member)]
      exact and_iff_left_of_imp fun derived =>
        served.queries query member values fact derived inside
    · rw [same]
      rintro ⟨values, holds⟩
      refine ⟨values, fun atom called => ?_⟩
      obtain ⟨fact, derived, inside⟩ := holds atom called
      have own := inside.1 ▸ datalog.authored_constraints constraint member atom called
      exact ⟨fact, (sound own derived).1, inside⟩
    · rw [same]
      obtain ⟨values, holds⟩ := served.constraints constraint member violated
      refine ⟨values, fun atom called => ?_⟩
      obtain ⟨fact, asked, inside⟩ := holds atom called
      have own := inside.1 ▸ datalog.authored_constraints constraint member atom called
      exact ⟨fact, (derived_iff own).mpr asked, inside⟩

/-- Paths along two edges apart, one query from a source and one for all of them. -/
def twoQueriesProgram : Program :=
  { Program.empty with
    rules := [⟨⟨"edge", [.integer 1, .integer 2]⟩, []⟩, ⟨⟨"edge", [.integer 3, .integer 4]⟩, []⟩,
      ⟨⟨"reach", [.var "X", .var "Y"]⟩, [.positive ⟨"edge", [.var "X", .var "Y"]⟩]⟩,
      ⟨⟨"reach", [.var "X", .var "Z"]⟩, [.positive ⟨"reach", [.var "X", .var "Y"]⟩,
        .positive ⟨"edge", [.var "Y", .var "Z"]⟩]⟩]
    queries := [⟨⟨"reach", [.integer 1, .var "Y"]⟩⟩, ⟨⟨"reach", [.var "X", .var "Y"]⟩⟩]
    directives := { Directives.default with magicSets := some .on } }

def twoQueriesRewrite : MagicSetRewrite where
  program := { twoQueriesProgram with
    rules := [⟨⟨"edge", [.integer 1, .integer 2]⟩, []⟩, ⟨⟨"edge", [.integer 3, .integer 4]⟩, []⟩,
      ⟨⟨"__xlog_magic_reach_bf", [.integer 1]⟩, []⟩,
      ⟨⟨"reach", [.var "X", .var "Y"]⟩, [.positive ⟨"__xlog_magic_reach_bf", [.var "X"]⟩,
        .positive ⟨"edge", [.var "X", .var "Y"]⟩]⟩,
      ⟨⟨"reach", [.var "X", .var "Z"]⟩, [.positive ⟨"__xlog_magic_reach_bf", [.var "X"]⟩,
        .positive ⟨"reach", [.var "X", .var "Y"]⟩, .positive ⟨"edge", [.var "Y", .var "Z"]⟩]⟩] }
  report := ⟨.applied, ["__xlog_magic_reach_bf"], ["reach/bf"], []⟩

def integerValue : Term → Option Int
  | .integer value => some value
  | _ => none

theorem twoQueries_datalog : Datalog twoQueriesProgram := by
  have edge : Authored "edge" := authored_of_head (by decide)
  have reach : Authored "reach" := authored_of_head (by decide)
  refine ⟨?_, nofun, ?_, ?_, nofun, ?_⟩
  · simp [twoQueriesProgram]
  · simp [twoQueriesProgram]
  · simp [twoQueriesProgram, positiveAtoms, forall_and, edge, reach]
  · simp [twoQueriesProgram, reach]

theorem preservesAnswers_iff_twoQueries
    : PreservesAnswers integerValue reprText twoQueriesProgram twoQueriesRewrite.program
      ↔ Served integerValue reprText twoQueriesProgram := by
  refine preservesAnswers_iff twoQueries_datalog (fun _ _ _ => rfl) ?_ rfl rfl
  intro generated made rule member other member' _
  have seed_only : generatedRules reprText twoQueriesProgram
      = .ok [⟨⟨"__xlog_magic_reach_bf", [.integer 1]⟩, []⟩] := rfl
  obtain rfl := Except.ok.inj (made.symm.trans seed_only)
  rw [List.mem_singleton.mp member, List.mem_singleton.mp member']

def secondEdge (name : String) : Option Int := if name = "X" then some 3 else some 4

theorem head?_of_takes {constant : Term → V} {values : String → V} {term : Term} {terms : List Term}
    {arguments : List V} (all : List.Forall₂ (Term.Takes constant values) (term :: terms) arguments)
    : ∃ value, arguments.head? = some value ∧ term.Takes constant values value := by
  cases all with
  | cons first _ => exact ⟨_, rfl, first⟩

/-- The second query loses the path that the first does not ask for. -/
theorem twoQueries_loses_answer
    : ¬ ∀ text program rewrite, Datalog program → rewriteMagicSets text program = .ok rewrite →
        rewrite.report.status = .applied →
        PreservesAnswers integerValue text program rewrite.program := by
  intro preserves
  have answers := (preserves reprText twoQueriesProgram twoQueriesRewrite twoQueries_datalog rfl
    rfl).queries ⟨⟨"reach", [.var "X", .var "Y"]⟩⟩ (by simp [twoQueriesProgram])
    secondEdge ("reach", [some 3, some 4])
    ⟨rfl, .cons rfl (.cons rfl .nil)⟩
  have edge_fact : ⟨⟨"edge", [.integer 3, .integer 4]⟩, []⟩ ∈ twoQueriesProgram.rules := by
    simp [twoQueriesProgram]
  have edge : ("edge", [some 3, some 4]) ∈ extension integerValue twoQueriesProgram.rules :=
    extension_intro edge_fact
      (show Atom.Instance integerValue secondEdge _ _ from ⟨rfl, .cons rfl (.cons rfl .nil)⟩) nofun
  have reach_rule : ⟨⟨"reach", [.var "X", .var "Y"]⟩,
      [.positive ⟨"edge", [.var "X", .var "Y"]⟩]⟩ ∈ twoQueriesProgram.rules := by
    simp [twoQueriesProgram]
  have path : ("reach", [some 3, some 4]) ∈ extension integerValue twoQueriesProgram.rules := by
    refine extension_intro reach_rule
      (show Atom.Instance integerValue secondEdge _ _ from ⟨rfl, .cons rfl (.cons rfl .nil)⟩) ?_
    exact List.forall_mem_singleton.mpr ⟨_, edge, rfl, .cons rfl (.cons rfl .nil)⟩
  have from_one : ∀ fact ∈ extension integerValue twoQueriesRewrite.program.rules,
      fact.1 ≠ "edge" → fact.2.head? = some (some 1) := by
    intro fact derived
    refine extension_induct (motive := fun fact => fact.1 ≠ "edge" → fact.2.head? = some (some 1))
      (fun rule member values fact head body other => ?_) derived
    simp only [twoQueriesRewrite, List.mem_cons, List.not_mem_nil, or_false] at member
    have asked_one : ⟨"__xlog_magic_reach_bf", [.var "X"]⟩ ∈ positiveAtoms rule.body →
        values "X" = some 1 := by
      intro called
      obtain ⟨asked, -, ih, inside⟩ := body _ called
      obtain ⟨value, first, takes⟩ := head?_of_takes inside.2
      exact takes.symm.trans
        (Option.some.inj (first.symm.trans (ih (inside.1 ▸ show _ ≠ _ by decide))))
    obtain rfl | rfl | rfl | rfl | rfl := member
    · exact absurd head.1 other
    · exact absurd head.1 other
    · obtain ⟨value, first, takes⟩ := head?_of_takes head.2
      exact first.trans (congrArg some takes)
    all_goals
      obtain ⟨value, first, takes⟩ := head?_of_takes head.2
      exact first.trans (congrArg some (takes.trans (asked_one (List.mem_cons_self ..))))
  simpa using from_one _ (answers.mpr path) (by decide)

end Xlog.Logic
