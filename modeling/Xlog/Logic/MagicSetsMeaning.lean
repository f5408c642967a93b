import Xlog.Foundation.DefiniteClauses
import Xlog.Logic.MagicSetsCorrectness

/-! What the rewritten rules derive: of a target predicate only the facts that the evaluation of the seeds
demands, from left to right.
-/

namespace Xlog.Logic

open Xlog.Core Xlog.Foundation

-- Meaning

/-- A predicate and its arguments. -/
abbrev GroundAtom (V : Type) := String × List V

section Meaning

variable {V : Type} (constant : Term → V)

/-- The values that a term can have where the variables have theirs. -/
def Term.Takes (values : String → V) (term : Term) (value : V) : Prop :=
  match term with
  | .var name => value = values name
  | .anonymous => True
  | .integer _ | .float _ | .string _ | .symbol _ => value = constant term
  | .list _ | .cons .. | .compound .. | .predRef _ | .aggregate _ => False

def Atom.Instance (values : String → V) (atom : Atom) (fact : GroundAtom V) : Prop :=
  fact.1 = atom.predicate ∧ List.Forall₂ (Term.Takes constant values) atom.terms fact.2

def positiveAtoms (body : List BodyLiteral) : List Atom :=
  body.filterMap fun
    | .positive atom => some atom
    | _ => none

/-- The ground instances of the rules. -/
def positiveClauses (rules : List Rule) : Set (Clause (GroundAtom V)) :=
  {clause | ∃ rule ∈ rules, ∃ values, ∃ choice : Atom → GroundAtom V, rule.head.Instance constant values clause.head
    ∧ (∀ atom ∈ positiveAtoms rule.body, atom.Instance constant values (choice atom))
    ∧ clause.body = {fact | ∃ atom ∈ positiveAtoms rule.body, fact = choice atom}}

/-- What positive rules derive. -/
def extension (rules : List Rule) : Set (GroundAtom V) := leastModel (positiveClauses constant rules)

/-- A rule is evaluated from left to right: a call is made with values for its bound arguments. -/
inductive Demand (targets : List String) (rules : List Rule) (seeds : List Seed)
    : Adornment → List V → Prop
  | seed {seed values arguments} (member : seed ∈ seeds)
    (bound : List.Forall₂ (Term.Takes constant values) seed.terms arguments)
    : Demand targets rules seeds ⟨seed.pred, seed.pattern⟩ arguments
  | call {adornment rule site values arguments passed}
    (caller : Demand targets rules seeds adornment arguments) (member : rule ∈ rules)
    (same : rule.head.predicate = adornment.pred) (call : site ∈ ruleSites targets rule adornment)
    (head : List.Forall₂ (Term.Takes constant values) (boundTerms rule.head adornment.pattern)
      arguments)
    (earlier : ∀ atom ∈ positiveAtoms site.earlier.tail, ∃ fact ∈ extension constant rules,
      atom.Instance constant values fact)
    (bound : List.Forall₂ (Term.Takes constant values) (boundTerms site.atom site.pattern) passed)
    : Demand targets rules seeds site.adornment passed

/-- The arguments at the bound places. -/
def selected (pattern : List Bool) (arguments : List V) : List V :=
  ((arguments.zip pattern).filter Prod.snd).map Prod.fst

/-- Some demand asks for the fact. -/
def Requested (targets : List String) (rules : List Rule) (seeds : List Seed) (fact : GroundAtom V)
    : Prop :=
  ∃ adornment, adornment.pred = fact.1
  ∧ Demand constant targets rules seeds adornment (selected adornment.pattern fact.2)

variable {constant} {rules : List Rule} {fact : GroundAtom V}

theorem extension_intro {rule : Rule} {values : String → V} (member : rule ∈ rules)
    (head : rule.head.Instance constant values fact)
    (body : ∀ atom ∈ positiveAtoms rule.body, ∃ fact ∈ extension constant rules,
      atom.Instance constant values fact)
    : fact ∈ extension constant rules := by
  choose! choice derived instances using body
  refine models_leastModel (positiveClauses constant rules)
    ⟨{fact | ∃ atom ∈ positiveAtoms rule.body, fact = choice atom}, fact⟩
    ⟨rule, member, values, choice, head, instances, rfl⟩ ?_
  rintro _ ⟨atom, inside, rfl⟩
  exact derived atom inside

/-- Induction on what is derived. -/
theorem extension_induct {motive : GroundAtom V → Prop}
    (step : ∀ rule ∈ rules, ∀ values fact, rule.head.Instance constant values fact →
      (∀ atom ∈ positiveAtoms rule.body, ∃ fact ∈ extension constant rules,
        motive fact ∧ atom.Instance constant values fact) → motive fact)
    (derived : fact ∈ extension constant rules)
    : motive fact := by
  have inside : extension constant rules
      ⊆ {fact | fact ∈ extension constant rules ∧ motive fact} := by
    refine leastModel_subset ?_
    rintro ⟨body, head⟩ ⟨rule, member, values, choice, instance_head, instances, rfl⟩ holds
    refine ⟨extension_intro member instance_head fun atom inside =>
      ⟨choice atom, (holds ⟨atom, inside, rfl⟩).1, instances atom inside⟩, ?_⟩
    exact step rule member values head instance_head fun atom inside =>
      ⟨choice atom, (holds ⟨atom, inside, rfl⟩).1, (holds ⟨atom, inside, rfl⟩).2,
        instances atom inside⟩
  exact (inside derived).2

theorem forall₂_selected {α β : Type} {related : α → β → Prop} {items : List α} {others : List β}
    (pattern : List Bool) (all : List.Forall₂ related items others)
    : List.Forall₂ related (((items.zip pattern).filter Prod.snd).map Prod.fst)
      (((others.zip pattern).filter Prod.snd).map Prod.fst) := by
  induction all generalizing pattern with
  | nil => simp
  | cons first _ ih =>
      cases pattern with
      | nil => simp
      | cons bound pattern =>
          cases bound with
          | false => exact ih pattern
          | true => exact .cons first (ih pattern)

/-- A term without `_` has one value. -/
theorem Term.Takes.unique {values : String → V} {term : Term} {value value' : V}
    (named : term ≠ .anonymous) (takes : term.Takes constant values value)
    (takes' : term.Takes constant values value')
    : value = value' := by
  cases term with
  | var | integer | float | string | symbol => exact takes.trans takes'.symm
  | anonymous => exact absurd rfl named
  | list | cons | compound | predRef | aggregate => exact takes.elim

end Meaning

-- Names

/-- What stands before the first of two equal separators is equal, by list induction. -/
theorem append_cons_inj {α : Type} {separator : α} {before before' after after' : List α}
    (absent : separator ∉ before) (absent' : separator ∉ before')
    (same : before ++ separator :: after = before' ++ separator :: after')
    : before = before' ∧ after = after' := by
  induction before generalizing before' with
  | nil =>
      cases before' with
      | nil => exact ⟨rfl, (List.cons.inj same).2⟩
      | cons item before' => exact absurd (by simp [(List.cons.inj same).1]) absent'
  | cons item before ih =>
      cases before' with
      | nil => exact absurd (by simp [(List.cons.inj same).1]) absent
      | cons item' before' =>
          obtain ⟨rfl, rest⟩ := List.cons.inj same
          obtain ⟨rfl, rfl⟩ := ih (fun member => absent (List.mem_cons_of_mem _ member))
            (fun member => absent' (List.mem_cons_of_mem _ member)) rest
          exact ⟨rfl, rfl⟩

theorem magicPredicate_inj {pred pred' : String} {pattern pattern' : List Bool}
    (same : magicPredicate pred pattern = magicPredicate pred' pattern')
    : pred = pred' ∧ pattern = pattern' := by
  have letters : ∀ pattern : List Bool,
      '_' ∉ (pattern.map fun bound => if bound then 'b' else 'f').reverse := by
    intro pattern member
    obtain ⟨bound, -, letter⟩ := List.mem_map.mp (List.mem_reverse.mp member)
    cases bound <;> simp at letter
  have texts := congrArg (fun text => text.toList.reverse) same
  simp only [magicPredicate, adornmentKey, String.toList_append, String.toList_ofList,
    List.reverse_append, List.append_assoc] at texts
  obtain ⟨keys, preds⟩ := append_cons_inj (letters pattern) (letters pattern') texts
  refine ⟨?_, ?_⟩
  · exact String.toList_injective (List.reverse_injective (List.append_cancel_right preds))
  · refine List.map_injective_iff.mpr ?_ (List.reverse_injective keys)
    intro a b letter
    cases a <;> cases b <;> simp_all

/-- A name that the rewriting does not make. -/
def Authored (pred : String) : Prop := ∀ other pattern, pred ≠ magicPredicate other pattern

theorem authored_of_head {pred : String} (first : pred.toList.head? ≠ some '_') : Authored pred := by
  rintro other pattern rfl
  exact first (by simp [magicPredicate, String.toList_append])

-- Call sites

theorem positiveAtoms_append (body body' : List BodyLiteral)
    : positiveAtoms (body ++ body') = positiveAtoms body ++ positiveAtoms body' :=
  List.filterMap_append

theorem mem_positiveAtoms {body : List BodyLiteral} {atom : Atom}
    : atom ∈ positiveAtoms body ↔ .positive atom ∈ body := by
  rw [positiveAtoms, List.mem_filterMap]
  constructor
  · rintro ⟨literal, member, same⟩
    cases literal with
    | positive =>
        obtain rfl := Option.some.inj same
        exact member
    | comparison | epistemic | isExpr | negated | univ => cases same
  · exact fun member => ⟨_, member, rfl⟩

theorem mem_bodyPredicates {rule : Rule} {atom : Atom} (member : atom ∈ positiveAtoms rule.body)
    : atom.predicate ∈ rule.bodyPredicates :=
  List.mem_filterMap.mpr ⟨.positive atom, mem_positiveAtoms.mp member, rfl⟩

/-- Derived facts have the names of heads. -/
theorem authored_of_derived {V : Type} {constant : Term → V} {rules : List Rule}
    {fact : GroundAtom V} (authored : ∀ rule ∈ rules, Authored rule.head.predicate)
    (derived : fact ∈ extension constant rules)
    : Authored fact.1 :=
  extension_induct (motive := fun fact => Authored fact.1)
    (fun rule member _ _ head _ => head.1 ▸ authored rule member) derived

/-- A call site stands in the body behind the positive literals before it, by induction on the body. -/
theorem callSites_split {targets bound : List String} {earlier body : List BodyLiteral}
    {site : CallSite} (member : site ∈ callSites targets bound earlier body)
    : (∃ prior rest later, body = prior ++ .positive site.atom :: rest
        ∧ site.earlier = earlier ++ later ∧ positiveAtoms later = positiveAtoms prior)
      ∧ site.atom.predicate ∈ targets
      ∧ ∃ bound, site.pattern = atomAdornment site.atom bound := by
  induction body generalizing bound earlier with
  | nil => cases member
  | cons literal body ih =>
      have further : ∀ {bound} (kept : List BodyLiteral),
          site ∈ callSites targets bound (earlier ++ kept) body →
          positiveAtoms kept = positiveAtoms [literal] →
          (∃ prior rest later, literal :: body = prior ++ .positive site.atom :: rest
            ∧ site.earlier = earlier ++ later ∧ positiveAtoms later = positiveAtoms prior)
          ∧ site.atom.predicate ∈ targets
          ∧ ∃ bound, site.pattern = atomAdornment site.atom bound := by
        intro bound kept behind atoms
        obtain ⟨⟨prior, rest, later, rfl, before, same⟩, others⟩ := ih behind
        refine ⟨⟨literal :: prior, rest, kept ++ later, rfl, ?_, ?_⟩, others⟩
        · rw [before, List.append_assoc]
        · rw [positiveAtoms_append, atoms, same, ← positiveAtoms_append, List.singleton_append]
      cases literal with
      | positive atom =>
          obtain here | later := List.mem_append.mp member
          · split at here
            · obtain rfl := List.mem_singleton.mp here
              exact ⟨⟨[], body, [], rfl, by simp, rfl⟩, ‹_›, bound, rfl⟩
            · cases here
          · exact further _ later rfl
      | comparison | epistemic | isExpr | negated | univ =>
          exact further [] (by simpa [callSites] using member) rfl

theorem mem_of_mem_boundTerms {atom : Atom} {pattern : List Bool} {term : Term}
    (member : term ∈ boundTerms atom pattern)
    : term ∈ atom.terms := by
  obtain ⟨⟨term, bound⟩, inside, rfl⟩ := List.mem_map.mp member
  exact (List.of_mem_zip (List.mem_filter.mp inside).1).1

/-- What is bound is no `_`. -/
theorem not_anonymous_of_bound {atom : Atom} {bound : List String} {term : Term}
    (member : term ∈ boundTerms atom (atomAdornment atom bound))
    : term ≠ .anonymous := by
  rw [boundTerms, atomAdornment] at member
  rintro rfl
  generalize atom.terms = terms at member
  induction terms with
  | nil => cases member
  | cons first terms ih =>
      rw [List.map_cons, List.zip_cons_cons, List.filter_cons] at member
      split at member
      · rename_i first_bound
        obtain rfl | later := List.mem_cons.mp member
        · simp [termIsBound] at first_bound
        · exact ih later
      · exact ih member

theorem forall₂_unique {V : Type} {constant : Term → V} {values : String → V} {terms : List Term}
    {arguments arguments' : List V} (named : ∀ term ∈ terms, term ≠ .anonymous)
    (all : List.Forall₂ (Term.Takes constant values) terms arguments)
    (all' : List.Forall₂ (Term.Takes constant values) terms arguments')
    : arguments = arguments' := by
  induction all generalizing arguments' with
  | nil => cases all'; rfl
  | cons first _ ih =>
      cases all' with
      | cons first' rest' =>
          rw [List.forall_mem_cons] at named
          rw [first.unique named.1 first', ih named.2 rest']

-- The rewritten rules

/-- The rules of a rewriting whose adornments are closed under calls, and whose targets are recursive by
themselves.
-/
structure MagicRules (targets : List String) (rules : List Rule) (seeds : List Seed)
    (adornments : List Adornment) (rewritten : List Rule) : Prop where
  seeded : ∀ seed ∈ seeds, seed.pred ∈ targets
  cyclic : ∀ target ∈ targets, Relation.TransGen (Calls rules) target target
  linear
    : ∀ rule ∈ rules, rule.head.predicate ∈ targets → ∀ atom ∈ positiveAtoms rule.body,
      Relation.TransGen (Calls rules) atom.predicate atom.predicate →
      atom.predicate = rule.head.predicate
  initial : ∀ seed ∈ seeds, ⟨seed.pred, seed.pattern⟩ ∈ adornments
  within : CallsWithin targets (adornedRules rules adornments) adornments
  rules
    : ∀ rule, rule ∈ rewritten ↔ (rule ∈ rules ∧ rule.head.predicate ∉ targets)
      ∨ rule ∈ seedRules seeds ∨ rule ∈ demandRules targets rules adornments
      ∨ rule ∈ guardedRules rules adornments

section Rewritten

variable {V : Type} {constant : Term → V} {targets : List String} {rules rewritten : List Rule}
variable {seeds : List Seed} {adornments : List Adornment} {fact : GroundAtom V}

theorem mem_guardedRules {rule : Rule}
    : rule ∈ guardedRules rules adornments ↔ ∃ adornment ∈ adornments, ∃ original ∈ rules,
        original.head.predicate = adornment.pred
        ∧ rule = ⟨original.head,
          .positive (magicAtomFor original.head adornment.pattern) :: original.body⟩ := by
  rw [guardedRules, List.mem_map]
  constructor
  · rintro ⟨⟨adornment, original⟩, member, rfl⟩
    obtain ⟨known, inside, same⟩ := mem_adornedRules.mp member
    exact ⟨adornment, known, original, inside, same, rfl⟩
  · rintro ⟨adornment, known, original, inside, same, rfl⟩
    exact ⟨(adornment, original), mem_adornedRules.mpr ⟨known, inside, same⟩, rfl⟩

theorem mem_demandRules {rule : Rule}
    : rule ∈ demandRules targets rules adornments ↔ ∃ adornment ∈ adornments, ∃ original ∈ rules,
        original.head.predicate = adornment.pred ∧ ∃ site ∈ ruleSites targets original adornment,
        rule ∈ site.demands := by
  simp only [demandRules, List.mem_flatMap, Prod.exists, mem_adornedRules]
  constructor
  · rintro ⟨adornment, original, ⟨known, inside, same⟩, demand⟩
    exact ⟨adornment, known, original, inside, same, demand⟩
  · rintro ⟨adornment, known, original, inside, same, demand⟩
    exact ⟨adornment, original, ⟨known, inside, same⟩, demand⟩

/-- What the original rules say about a fact of the rewritten ones. -/
structure Backed (constant : Term → V) (targets : List String) (rules : List Rule)
    (seeds : List Seed) (fact : GroundAtom V)
    : Prop where
  derived : Authored fact.1 → fact ∈ extension constant rules
  requested
    : Authored fact.1 → fact.1 ∈ targets → Requested constant targets rules seeds fact
  demand
    : ∀ adornment : Adornment, fact.1 = magicPredicate adornment.pred adornment.pattern →
      Demand constant targets rules seeds adornment fact.2

/-- The rewritten rules derive no new facts, of a target only requested ones, and demand no more than the
evaluation of the seeds: by induction on what they derive.
-/
theorem MagicRules.sound (magic : MagicRules targets rules seeds adornments rewritten)
    (heads : ∀ rule ∈ rules, Term.anonymous ∉ rule.head.terms)
    (authored : ∀ rule ∈ rules, Authored rule.head.predicate
      ∧ ∀ atom ∈ positiveAtoms rule.body, Authored atom.predicate)
    (derived : fact ∈ extension constant rewritten)
    : Backed constant targets rules seeds fact := by
  refine extension_induct (motive := Backed constant targets rules seeds)
    (fun rule member values fact head body => ?_) derived
  -- a body atom with an authored name is derived by the original rules
  have known : ∀ atom ∈ positiveAtoms rule.body, Authored atom.predicate →
      ∃ fact ∈ extension constant rules, atom.Instance constant values fact := by
    intro atom inside own
    obtain ⟨fact, -, backed, instance_atom⟩ := body atom inside
    exact ⟨fact, backed.derived (instance_atom.1 ▸ own), instance_atom⟩
  -- and the guard of a rule is a demand
  have guard : ∀ {original : Rule} {adornment : Adornment} {rest},
      rule.body = .positive (magicAtomFor original.head adornment.pattern) :: rest →
      original.head.predicate = adornment.pred → ∃ arguments,
        Demand constant targets rules seeds adornment arguments
        ∧ List.Forall₂ (Term.Takes constant values) (boundTerms original.head adornment.pattern)
          arguments := by
    intro original adornment rest shape same
    obtain ⟨asked, -, backed, name, arguments⟩ :=
      body (magicAtomFor original.head adornment.pattern) (by simp [shape, positiveAtoms])
    exact ⟨asked.2, backed.demand adornment (same ▸ name), arguments⟩
  obtain ⟨inside, other⟩ | seeded | demanding | guarded := (magic.rules rule).mp member
  · have own := authored rule inside
    exact ⟨fun _ => extension_intro inside head fun atom called => known atom called (own.2 atom called),
      fun _ target => absurd (head.1 ▸ target) other,
      fun adornment name => absurd (head.1.symm.trans name) (own.1 _ _)⟩
  · obtain ⟨seed, seed_member, rfl⟩ := List.mem_map.mp seeded
    refine ⟨fun own => absurd head.1 (own _ _), fun own => absurd head.1 (own _ _),
      fun adornment name => ?_⟩
    obtain ⟨pred, pattern⟩ := magicPredicate_inj (head.1.symm.trans name)
    obtain rfl : (⟨seed.pred, seed.pattern⟩ : Adornment) = adornment := by rw [pred, pattern]
    exact .seed seed_member head.2
  · obtain ⟨caller, -, original, inside, same, site, call, rule_eq⟩ := mem_demandRules.mp demanding
    obtain ⟨⟨prior, rest, later, split_body, earlier, atoms⟩, -⟩ := callSites_split call
    rw [CallSite.demands] at rule_eq
    split at rule_eq
    · cases rule_eq
    obtain rfl := List.mem_singleton.mp rule_eq
    refine ⟨fun own => absurd head.1 (own _ _), fun own => absurd head.1 (own _ _),
      fun adornment name => ?_⟩
    obtain ⟨pred, pattern⟩ := magicPredicate_inj (head.1.symm.trans name)
    obtain rfl : site.adornment = adornment := by
      rw [CallSite.adornment, pattern, show site.atom.predicate = adornment.pred from pred]
    obtain ⟨arguments, demanded, passed⟩ := guard (show site.earlier = _ :: later from earlier) same
    refine .call demanded inside same call passed (fun atom before => ?_) head.2
    rw [earlier, List.singleton_append, List.tail_cons, atoms] at before
    refine known atom ?_ ((authored original inside).2 atom ?_)
    · show atom ∈ positiveAtoms site.earlier
      rw [earlier, positiveAtoms_append, atoms]
      exact List.mem_append_right _ before
    · rw [split_body, positiveAtoms_append]
      exact List.mem_append_left _ before
  · obtain ⟨caller, -, original, inside, same, rfl⟩ := mem_guardedRules.mp guarded
    obtain ⟨arguments, demanded, passed⟩ := guard rfl same
    have own := authored original inside
    refine ⟨fun _ => extension_intro inside head fun atom called =>
      known atom (List.mem_cons_of_mem _ called) (own.2 atom called),
      fun _ _ => ⟨caller, same.symm.trans head.1.symm, ?_⟩,
      fun adornment name => absurd (head.1.symm.trans name) (own.1 _ _)⟩
    have named : ∀ term ∈ boundTerms original.head caller.pattern, term ≠ .anonymous := by
      rintro _ bound rfl
      exact heads original inside (mem_of_mem_boundTerms bound)
    have asked : arguments = selected caller.pattern fact.2 :=
      forall₂_unique named passed (forall₂_selected caller.pattern head.2)
    exact asked ▸ demanded

/-- `==` constants denote one value. -/
def Denotes (constant : Term → V) : Prop :=
  ∀ bits bits' : F64, bits.same bits' = true → constant (.float bits) = constant (.float bits')

theorem Denotes.takes {values : String → V} (denotes : Denotes constant) {term term' : Term}
    {value : V} (same : term.same term' = true) (takes : term.Takes constant values value)
    : term'.Takes constant values value := by
  cases term with
  | var =>
      cases term' with
      | var => exact takes.trans (congrArg values (by simpa [Term.same] using same))
      | _ => simp [Term.same] at same
  | anonymous =>
      cases term' with
      | anonymous => trivial
      | _ => simp [Term.same] at same
  | float bits =>
      cases term' with
      | float bits' => exact takes.trans (denotes bits bits' (by simpa [Term.same] using same))
      | _ => simp [Term.same] at same
  | integer value =>
      cases term' with
      | integer => exact takes.trans (congrArg (constant <| .integer ·) (by simpa [Term.same] using same))
      | _ => simp [Term.same] at same
  | string value =>
      cases term' with
      | string => exact takes.trans (congrArg (constant <| .string ·) (by simpa [Term.same] using same))
      | _ => simp [Term.same] at same
  | symbol id =>
      cases term' with
      | symbol => exact takes.trans (congrArg (constant <| .symbol ·) (by simpa [Term.same] using same))
      | _ => simp [Term.same] at same
  | list | cons | compound | predRef | aggregate => exact takes.elim

/-- An atom that is the head of a trivial rule has the instances of the head. -/
theorem Denotes.instance {values : String → V} (denotes : Denotes constant) {atom atom' : Atom}
    (same : atom.same atom' = true) (inside : atom.Instance constant values fact)
    : atom'.Instance constant values fact := by
  obtain ⟨pred, terms⟩ := atom
  obtain ⟨pred', terms'⟩ := atom'
  simp only [Atom.same, Bool.and_eq_true, decide_eq_true_eq] at same
  obtain ⟨rfl, same⟩ := same
  refine ⟨inside.1, ?_⟩
  have all := inside.2
  dsimp only at all ⊢
  clear inside
  generalize fact.2 = arguments at all
  induction all generalizing terms' with
  | nil =>
      cases terms' with
      | nil => exact .nil
      | cons => simp [Term.sameList] at same
  | cons first _ ih =>
      cases terms' with
      | nil => simp [Term.sameList] at same
      | cons term' terms' =>
          rw [Term.sameList, Bool.and_eq_true] at same
          exact .cons (denotes.takes same.1 first) (ih terms' same.2)

/-- What the rewritten rules keep of a derived fact: all of it but the facts of a target that nothing asks for. -/
def Kept (constant : Term → V) (targets : List String) (adornments : List Adornment)
    (rewritten : List Rule) (fact : GroundAtom V)
    : Prop :=
  (fact.1 ∉ targets → fact ∈ extension constant rewritten)
  ∧ ∀ adornment ∈ adornments, adornment.pred = fact.1 →
    (magicPredicate adornment.pred adornment.pattern, selected adornment.pattern fact.2)
      ∈ extension constant rewritten → fact ∈ extension constant rewritten

theorem Kept.of_derived (derived : fact ∈ extension constant rewritten)
    : Kept constant targets adornments rewritten fact :=
  ⟨fun _ => derived, fun _ _ _ _ => derived⟩

/-- The facts of the other predicates in the rules for a predicate are derived. -/
def SupportDerived (constant : Term → V) (rules rewritten : List Rule) (pred : String) : Prop :=
  ∀ rule ∈ rules, rule.head.predicate = pred →
    ∀ atom ∈ positiveAtoms rule.body, atom.predicate ≠ pred →
    ∀ fact ∈ extension constant rules, fact.1 = atom.predicate → fact ∈ extension constant rewritten

theorem MagicRules.demand_target (magic : MagicRules targets rules seeds adornments rewritten)
    {adornment : Adornment} {arguments : List V}
    (demand : Demand constant targets rules seeds adornment arguments)
    : adornment.pred ∈ targets := by
  cases demand with
  | seed member => exact magic.seeded _ member
  | call _ _ _ call => exact (callSites_split call).2.1

/-- A call behind derived literals is demanded. -/
theorem MagicRules.demand (magic : MagicRules targets rules seeds adornments rewritten)
    (denotes : Denotes constant) {adornment : Adornment} {rule : Rule} {site : CallSite}
    {values : String → V} {passed : List V} (known : adornment ∈ adornments) (inside : rule ∈ rules)
    (same : rule.head.predicate = adornment.pred) (call : site ∈ ruleSites targets rule adornment)
    (earlier : ∀ atom ∈ positiveAtoms site.earlier, ∃ fact ∈ extension constant rewritten,
      atom.Instance constant values fact)
    (bound : List.Forall₂ (Term.Takes constant values) (boundTerms site.atom site.pattern) passed)
    : (magicPredicate site.atom.predicate site.pattern, passed) ∈ extension constant rewritten := by
  by_cases trivial_rule : isTrivial site.earlier (magicAtomFor site.atom site.pattern) = true
  · unfold isTrivial at trivial_rule
    split at trivial_rule
    · rename_i guard only
      obtain ⟨asked, derived, instance_guard⟩ := earlier guard (by simp [only, positiveAtoms])
      obtain ⟨name, arguments⟩ := denotes.instance trivial_rule instance_guard
      obtain ⟨-, -, _, pattern⟩ := callSites_split call
      have named : ∀ term ∈ boundTerms site.atom site.pattern, term ≠ .anonymous :=
        fun term member => not_anonymous_of_bound (pattern ▸ member)
      rw [forall₂_unique named bound arguments]
      have same_fact : asked = (magicPredicate site.atom.predicate site.pattern, asked.2) :=
        Prod.ext name rfl
      exact same_fact ▸ derived
    · cases trivial_rule
  · have demands : (⟨magicAtomFor site.atom site.pattern, site.earlier⟩ : Rule) ∈ site.demands := by
      rw [CallSite.demands, if_neg trivial_rule]
      exact List.mem_singleton_self _
    have member := mem_demandRules.mpr ⟨adornment, known, rule, inside, same, site, call, demands⟩
    exact extension_intro ((magic.rules _).mpr (.inr (.inr (.inl member)))) ⟨rfl, bound⟩ earlier

/-- The literals before a call are kept one after the other, by induction on them. -/
theorem MagicRules.prior (magic : MagicRules targets rules seeds adornments rewritten)
    (denotes : Denotes constant) {adornment : Adornment} {rule : Rule} {values : String → V}
    (known : adornment ∈ adornments) (inside : rule ∈ rules)
    (same : rule.head.predicate = adornment.pred) (bound : List String)
    (earlier prior rest : List BodyLiteral)
    (sites : ∀ site ∈ callSites targets bound earlier (prior ++ rest),
      site ∈ ruleSites targets rule adornment)
    (before : ∀ atom ∈ positiveAtoms earlier, ∃ fact ∈ extension constant rewritten,
      atom.Instance constant values fact)
    (facts : ∀ atom ∈ positiveAtoms prior, ∃ fact, Kept constant targets adornments rewritten fact
      ∧ atom.Instance constant values fact)
    : ∀ atom ∈ positiveAtoms prior, ∃ fact ∈ extension constant rewritten,
        atom.Instance constant values fact := by
  induction prior generalizing bound earlier with
  | nil => exact nofun
  | cons literal prior ih =>
      cases literal with
      | positive atom =>
          rw [List.cons_append, callSites, List.forall_mem_append] at sites
          have first : ∃ fact ∈ extension constant rewritten, atom.Instance constant values fact := by
            obtain ⟨fact, kept, instance_atom⟩ := facts atom (List.mem_cons_self ..)
            refine ⟨fact, ?_, instance_atom⟩
            by_cases target : atom.predicate ∈ targets
            · rw [if_pos target] at sites
              have call := sites.1 _ (List.mem_singleton_self _)
              have asked := magic.demand denotes known inside same call before
                (forall₂_selected _ instance_atom.2)
              have called := (magic.within (adornment, rule)
                (mem_adornedRules.mpr ⟨known, inside, same⟩) _ (List.mem_map_of_mem call)).2
              exact kept.2 _ called instance_atom.1.symm asked
            · exact kept.1 (instance_atom.1 ▸ target)
          refine List.forall_mem_cons.mpr ⟨first, ih _ _ sites.2 (fun other member => ?_)
            fun other member => facts other (List.mem_cons_of_mem _ member)⟩
          rw [positiveAtoms_append] at member
          obtain old | new := List.mem_append.mp member
          · exact before other old
          · obtain rfl := List.mem_singleton.mp new
            exact first
      | comparison | epistemic | isExpr | negated | univ => exact ih _ _ sites before facts

/-- The facts of a target are kept where those of the other predicates in its rules are derived: by
induction on what is derived.
-/
theorem MagicRules.kept (magic : MagicRules targets rules seeds adornments rewritten)
    (denotes : Denotes constant) {target : String}
    (support : SupportDerived constant rules rewritten target) (targeted : target ∈ targets)
    (derived : fact ∈ extension constant rules)
    : fact.1 = target → Kept constant targets adornments rewritten fact := by
  refine extension_induct (motive := fun fact => fact.1 = target →
      Kept constant targets adornments rewritten fact)
    (fun rule inside values fact head body own => ⟨fun other => absurd (own ▸ targeted) other,
      fun adornment known same asked => ?_⟩) derived
  have same_pred : rule.head.predicate = adornment.pred := head.1.symm.trans same.symm
  have guarded := mem_guardedRules.mpr ⟨adornment, known, rule, inside, same_pred, rfl⟩
  have guard : ∃ fact ∈ extension constant rewritten,
      (magicAtomFor rule.head adornment.pattern).Instance constant values fact :=
    ⟨_, asked, same_pred ▸ rfl, forall₂_selected adornment.pattern head.2⟩
  refine extension_intro ((magic.rules _).mpr (.inr (.inr (.inr guarded)))) head ?_
  refine List.forall_mem_cons.mpr ⟨guard, ?_⟩
  have before : ∀ atom ∈ positiveAtoms [.positive (magicAtomFor rule.head adornment.pattern)],
      ∃ fact ∈ extension constant rewritten, atom.Instance constant values fact :=
    fun atom member => List.mem_singleton.mp member ▸ guard
  refine magic.prior denotes known inside same_pred _ _ rule.body []
    (fun site member => by rwa [List.append_nil] at member) before fun atom called => ?_
  obtain ⟨fact, derived, kept, instance_atom⟩ := body atom called
  refine ⟨fact, ?_, instance_atom⟩
  by_cases same_atom : atom.predicate = target
  · exact kept (instance_atom.1.trans same_atom)
  · exact .of_derived (support rule inside (head.1.symm.trans own) atom called same_atom fact derived
      instance_atom.1)

/-- Then every demand on the target is made, by induction on it: a target demands no other. -/
theorem MagicRules.demanded (magic : MagicRules targets rules seeds adornments rewritten)
    (denotes : Denotes constant) {target : String}
    (support : SupportDerived constant rules rewritten target) (targeted : target ∈ targets)
    {adornment : Adornment} {arguments : List V}
    (demand : Demand constant targets rules seeds adornment arguments)
    : adornment.pred = target → adornment ∈ adornments
        ∧ (magicPredicate adornment.pred adornment.pattern, arguments)
          ∈ extension constant rewritten := by
  induction demand with
  | seed member bound =>
      exact fun _ => ⟨magic.initial _ member, extension_intro ((magic.rules _).mpr
        (.inr (.inl (List.mem_map_of_mem member)))) ⟨rfl, bound⟩ nofun⟩
  | @call adornment rule site values arguments passed caller member same call head earlier bound ih =>
      intro own
      obtain ⟨⟨prior, rest, later, split_body, before, atoms⟩, site_target, -⟩ :=
        callSites_split call
      have called : site.atom ∈ positiveAtoms rule.body := by
        rw [split_body, positiveAtoms_append]
        exact List.mem_append_right _ (List.mem_cons_self ..)
      have same_target : rule.head.predicate = target :=
        (magic.linear rule member (same ▸ magic.demand_target caller) site.atom called
          (magic.cyclic _ site_target)).symm.trans own
      obtain ⟨known, asked⟩ := ih (same.symm.trans same_target)
      have guard : ∀ atom ∈ positiveAtoms [.positive (magicAtomFor rule.head adornment.pattern)],
          ∃ fact ∈ extension constant rewritten, atom.Instance constant values fact :=
        fun atom member => List.mem_singleton.mp member ▸ ⟨_, asked, same ▸ rfl, head⟩
      refine ⟨(magic.within (adornment, rule) (mem_adornedRules.mpr ⟨known, member, same⟩) _
        (List.mem_map_of_mem call)).2, ?_⟩
      refine magic.demand denotes known member same call ?_ bound
      rw [before, positiveAtoms_append, List.forall_mem_append]
      refine ⟨guard, atoms ▸ ?_⟩
      refine magic.prior denotes known member same
        (headBoundVariables rule.head adornment.pattern)
        [.positive (magicAtomFor rule.head adornment.pattern)] prior (.positive site.atom :: rest)
        (fun other call' => ?_) guard fun atom called' => ?_
      · rw [ruleSites, split_body]
        exact call'
      · rw [before, List.singleton_append, List.tail_cons, atoms] at earlier
        obtain ⟨fact, derived, instance_atom⟩ := earlier atom called'
        refine ⟨fact, ?_, instance_atom⟩
        by_cases same_atom : atom.predicate = target
        · exact magic.kept denotes support targeted derived (instance_atom.1.trans same_atom)
        · refine .of_derived (support rule member same_target atom ?_ same_atom fact derived
            instance_atom.1)
          rw [split_body, positiveAtoms_append]
          exact List.mem_append_left _ called'

end Rewritten

end Xlog.Logic
