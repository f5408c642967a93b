import Xlog.Logic.FoundednessSound

/-! What the founded reading relies on: the fuel of the searches for an independent support is enough, the
searches for a founded support are sound, and dropping the unfounded rules keeps the founded model. A
search for an independent support takes the atoms that no head matches for present, so its answer is
relative to those.
-/

namespace Xlog.Logic

open Xlog.Foundation Xlog.Ir

-- Termination of the searches

theorem anyMatchingRule_isSome {atom : EirAtom} {check : EirRule → Substitution → Option Bool}
    {rules : List EirRule}
    (h : ∀ rule ∈ rules, ∀ substitution, headSubstitutionToAtom rule.head atom = some substitution
      → (check rule substitution).isSome)
    : (anyMatchingRule atom check rules).isSome := by
  induction rules with
  | nil => rfl
  | cons rule rules ih =>
    obtain ⟨hrule, hrules⟩ := List.forall_mem_cons.mp h
    simp only [anyMatchingRule]
    split
    · exact ih hrules
    · next substitution hmatch =>
      split
      · next hnone => simpa [hnone] using hrule substitution hmatch
      · rfl
      · exact ih hrules

theorem independentBodySupported_isSome {eir : EirProgram} {supported : EirAtom → Option Bool}
    {substitution : Substitution} {supportStack : List (String × Nat)}
    (hsupported : ∀ atom, (supported atom).isSome) (literals : List EirBodyLiteral)
    : (independentBodySupported eir supported substitution supportStack literals).isSome := by
  induction literals with
  | nil => rfl
  | cons literal literals ih =>
    unfold independentBodySupported
    split
    · rfl
    · next heq =>
      obtain ⟨-, rfl⟩ := List.cons.inj heq
      split
      · rfl
      · next atom _ =>
        split
        · rfl
        · split
          · exact ih
          · split
            · next hnone => simpa [hnone] using hsupported atom
            · rfl
            · exact ih
    · rfl

def EirAtom.signature (atom : EirAtom) : String × Nat := (atom.predicate, atom.arity)

def headSignatures (eir : EirProgram) : Finset (String × Nat) :=
  (eir.rules.map fun rule => EirAtom.signature rule.head).toFinset

theorem card_headSignatures_lt (eir : EirProgram)
    : (headSignatures eir).card < supportDepth eir := by
  have hle := List.toFinset_card_le (eir.rules.map fun rule => EirAtom.signature rule.head)
  rw [List.length_map] at hle
  exact Nat.lt_succ_of_le hle

theorem signature_mem_of_match {eir : EirProgram} {rule : EirRule} {atom : EirAtom}
    {substitution : Substitution} (hrule : rule ∈ eir.rules)
    (h : headSubstitutionToAtom rule.head atom = some substitution)
    : EirAtom.signature atom ∈ headSignatures eir := by
  have hmatch := headSubstitutionToAtom_spec h
  have hsame : EirAtom.signature rule.head = EirAtom.signature atom :=
    Prod.ext hmatch.predicate hmatch.terms.length_eq
  rw [← hsame]
  exact List.mem_toFinset.mpr (List.mem_map_of_mem hrule)

/-- Each level of the search adds the signature of another head to the stack. -/
theorem hasIndependentFoundedSupportInner_isSome (eir : EirProgram) (fuel : Nat) (atom : EirAtom)
    (supportStack : List (String × Nat))
    (h : (headSignatures eir \ supportStack.toFinset).card < fuel)
    : (hasIndependentFoundedSupportInner eir fuel atom supportStack).isSome := by
  induction fuel generalizing atom supportStack with
  | zero => simp at h
  | succ fuel ih =>
    simp only [hasIndependentFoundedSupportInner]
    split
    · rfl
    · split
      · rfl
      · next hfresh =>
        refine anyMatchingRule_isSome fun rule hrule substitution hmatch => ?_
        refine independentBodySupported_isSome (fun bodyAtom => ih bodyAtom _ ?_) rule.body
        have hmem : EirAtom.signature atom ∈ headSignatures eir \ supportStack.toFinset :=
          Finset.mem_sdiff.mpr ⟨signature_mem_of_match hrule hmatch, by simpa [EirAtom.signature] using hfresh⟩
        have hless := Finset.card_lt_card (Finset.erase_ssubset hmem)
        have hsub : headSignatures eir \ (EirAtom.signature atom :: supportStack).toFinset
            ⊆ (headSignatures eir \ supportStack.toFinset).erase (EirAtom.signature atom) := by
          intro signature hsignature
          simp only [List.toFinset_cons, Finset.mem_sdiff, Finset.mem_insert, not_or] at hsignature
          exact Finset.mem_erase.mpr ⟨hsignature.2.1,
            Finset.mem_sdiff.mpr ⟨hsignature.1, hsignature.2.2⟩⟩
        have hle := Finset.card_le_card hsub
        exact (hle.trans_lt hless).trans_le (Nat.le_of_lt_succ h)

theorem hasIndependentFoundedSupportInner_isSome_of_supportDepth (eir : EirProgram) (atom : EirAtom)
    (supportStack : List (String × Nat))
    : (hasIndependentFoundedSupportInner eir (supportDepth eir) atom supportStack).isSome := by
  refine hasIndependentFoundedSupportInner_isSome eir _ atom supportStack ?_
  exact (Finset.card_le_card Finset.sdiff_subset).trans_lt (card_headSignatures_lt eir)

theorem hasIndependentFoundedSupport_isSome (eir : EirProgram) (atom : EirAtom)
    : (hasIndependentFoundedSupport eir (supportDepth eir) atom).isSome := by
  unfold hasIndependentFoundedSupport
  split
  · rfl
  · exact hasIndependentFoundedSupportInner_isSome_of_supportDepth eir atom []

theorem hasTupleLevelIndependentFoundedSupport_isSome (eir : EirProgram) (modalRule : EirRule)
    (atom : EirAtom)
    : (hasTupleLevelIndependentFoundedSupport eir (supportDepth eir) modalRule atom).isSome := by
  unfold hasTupleLevelIndependentFoundedSupport
  split
  · rfl
  · refine anyMatchingRule_isSome fun rule _ _ _ => ?_
    have hinner (bodyAtom : EirAtom) :=
      hasIndependentFoundedSupportInner_isSome_of_supportDepth eir bodyAtom
        [(atom.predicate, atom.arity)]
    have hbody :
        (independentBodySupported eir _ [] [(atom.predicate, atom.arity)] rule.body).isSome :=
      independentBodySupported_isSome hinner rule.body
    split
    · next hnone => simp [hnone] at hbody
    · rfl
    · rfl

theorem isUnfoundedSelfSupport_isSome (eir : EirProgram) (rule : Rule) (eirRule : EirRule)
    (modal : EirEpistemicLiteral)
    : (isUnfoundedSelfSupport eir rule eirRule modal).isSome := by
  have hindependent := hasIndependentFoundedSupport_isSome eir modal.atom
  have htuple := hasTupleLevelIndependentFoundedSupport_isSome eir eirRule modal.atom
  unfold isUnfoundedSelfSupport
  split
  · rfl
  · split
    · next hnone => simp [hnone] at hindependent
    · rfl
    · split
      · next hnone => simp [hnone] at htuple
      · rfl
      · rfl

theorem dropsUnfounded_isSome (eir : EirProgram) (rule : Rule) (eirRule : EirRule)
    (literals : List EirBodyLiteral)
    : (dropsUnfounded eir rule eirRule literals).isSome := by
  induction literals with
  | nil => rfl
  | cons literal literals ih =>
    unfold dropsUnfounded
    split
    · rfl
    · next modal rest heq =>
      obtain ⟨-, rfl⟩ := List.cons.inj heq
      have hmodal := isUnfoundedSelfSupport_isSome eir rule eirRule modal
      split
      · next hnone => simp [hnone] at hmodal
      · rfl
      · exact ih
    · next heq =>
      obtain ⟨-, rfl⟩ := List.cons.inj heq
      exact ih

theorem unfoundedIndices_isSome (eir : EirProgram) (index : Nat) (pairs : List (Rule × EirRule))
    : (unfoundedIndices eir index pairs).isSome := by
  induction pairs generalizing index with
  | nil => rfl
  | cons pair pairs ih =>
    obtain ⟨drop, hdrop⟩ :=
      Option.isSome_iff_exists.mp (dropsUnfounded_isSome eir pair.1 pair.2 pair.2.body)
    obtain ⟨indices, hindices⟩ := Option.isSome_iff_exists.mp (ih (index + 1))
    simp [unfoundedIndices, hdrop, hindices]

-- Dropped rules

theorem dropsUnfounded_true {eir : EirProgram} {rule : Rule} {eirRule : EirRule}
    {literals : List EirBodyLiteral} (h : dropsUnfounded eir rule eirRule literals = some true)
    : ∃ modal, .epistemic modal ∈ literals
      ∧ isUnfoundedSelfSupport eir rule eirRule modal = some true := by
  induction literals with
  | nil => simp [dropsUnfounded] at h
  | cons literal literals ih =>
    unfold dropsUnfounded at h
    split at h
    · next heq => simp at heq
    · next modal rest heq =>
      obtain ⟨rfl, rfl⟩ := List.cons.inj heq
      split at h
      · simp at h
      · next hmodal => exact ⟨modal, by simp, hmodal⟩
      · obtain ⟨other, hother, hrest⟩ := ih h
        exact ⟨other, List.mem_cons_of_mem _ hother, hrest⟩
    · next heq =>
      obtain ⟨-, rfl⟩ := List.cons.inj heq
      obtain ⟨other, hother, hrest⟩ := ih h
      exact ⟨other, List.mem_cons_of_mem _ hother, hrest⟩

theorem isUnfoundedSelfSupport_true {eir : EirProgram} {rule : Rule} {eirRule : EirRule}
    {modal : EirEpistemicLiteral} (h : isUnfoundedSelfSupport eir rule eirRule modal = some true)
    : modal.negated = false ∧ modal.atom = eirRule.head := by
  unfold isUnfoundedSelfSupport at h
  split at h
  · simp at h
  · next hguard =>
    simp only [ne_eq, not_or, not_not, Bool.not_eq_true] at hguard
    obtain ⟨hpositive, hpredicate, -, hterms⟩ := hguard
    refine ⟨hpositive, ?_⟩
    cases heq : modal.atom
    cases heq' : eirRule.head
    simp_all

theorem unfoundedIndices_spec {eir : EirProgram} {index : Nat} {pairs : List (Rule × EirRule)}
    {indices : List Nat} (h : unfoundedIndices eir index pairs = some indices)
    : ∀ dropped ∈ indices, ∃ (position : Nat) (pair : Rule × EirRule),
        dropped = index + position ∧ pairs[position]? = some pair
        ∧ dropsUnfounded eir pair.1 pair.2 pair.2.body = some true := by
  induction pairs generalizing index indices with
  | nil =>
    cases Option.some.inj h
    simp
  | cons pair pairs ih =>
    simp only [unfoundedIndices] at h
    split at h
    · next drop rest hdrop hrest =>
      cases Option.some.inj h
      have htail : ∀ dropped ∈ rest, ∃ (position : Nat) (other : Rule × EirRule),
          dropped = index + position ∧ (pair :: pairs)[position]? = some other
          ∧ dropsUnfounded eir other.1 other.2 other.2.body = some true := by
        intro dropped hdropped
        obtain ⟨position, other, rfl, hget, hother⟩ := ih hrest dropped hdropped
        exact ⟨position + 1, other, by omega, by simpa using hget, hother⟩
      cases drop with
      | false => exact htail
      | true => exact List.forall_mem_cons.mpr ⟨⟨0, pair, by simp, by simp, hdrop⟩, htail⟩
    · simp at h

/-- A dropped rule has its own head among its positive modals. -/
theorem exists_modal_of_dropped {program : Program} {indices : List Nat}
    (h : faeelUnfoundedExactTupleSelfSupportRuleIndices program = some indices) {index : Nat}
    (hindex : index ∈ indices) {rule : Rule} (hrule : program.rules[index]? = some rule)
    : ∃ literal ∈ rule.body, literal.foundedAtom = some (convertAtom rule.head) := by
  simp only [faeelUnfoundedExactTupleSelfSupportRuleIndices] at h
  split at h
  · cases Option.some.inj h
    simp at hindex
  · obtain ⟨position, pair, rfl, hget, hdrops⟩ := unfoundedIndices_spec h index hindex
    obtain ⟨modal, hmem, hself⟩ := dropsUnfounded_true hdrops
    obtain ⟨hpositive, hatom⟩ := isUnfoundedSelfSupport_true hself
    rw [Nat.zero_add] at hrule
    have hpair : pair = (rule, convertRule rule) := by
      have hboth := List.getElem?_zip_eq_some.mp hget
      simp only [buildEir, List.getElem?_map, hrule, Option.map_some, Option.some.injEq] at hboth
      exact Prod.ext hboth.1.symm hboth.2.symm
    subst hpair
    obtain ⟨literal, hliteral, hconvert⟩ := List.mem_map.mp hmem
    refine ⟨literal, hliteral, ?_⟩
    cases literal with
    | epistemic literal =>
      simp only [convertBodyLiteral, EirBodyLiteral.epistemic.injEq] at hconvert
      subst hconvert
      simpa [BodyLiteral.foundedAtom] using ⟨hpositive, hatom⟩
    | _ => simp [convertBodyLiteral] at hconvert

section

variable {V : Type} {A : TermAlgebra V} {oracle : Oracle V}

theorem isAggregate_iff_convertTerm {term : Term}
    : term.isAggregate = true ↔ ∃ op name, convertTerm term = .aggregate op name := by
  cases term <;> simp [Term.isAggregate, convertTerm]

/-- An instance of a rule that asks for its own head. -/
theorem Rule.Instance.head_mem_body {rule : Rule} {v : String → V} {clause : Clause (GroundAtom V)}
    (h : rule.Instance A oracle v clause) {literal : BodyLiteral} (hmem : literal ∈ rule.body)
    (hself : literal.foundedAtom = some (convertAtom rule.head))
    : clause.head ∈ clause.body := by
  obtain ⟨⟨pick, hpick, -⟩, -, hhead⟩ := h
  obtain ⟨hmatches, hbody⟩ := hpick literal hmem _ hself
  rcases hhead with ⟨hdefinite, hhead⟩ | ⟨haggregation, -⟩
  · rw [EirAtom.Matches.unique hdefinite hmatches hhead]
    exact hbody
  · -- an aggregate term has no instance in the body
    obtain ⟨term, hterm, haggregate⟩ := List.any_eq_true.mp haggregation
    obtain ⟨op, name, hconvert⟩ := isAggregate_iff_convertTerm.mp haggregate
    obtain ⟨i, hi, heq⟩ := List.getElem_of_mem (List.mem_map_of_mem (f := convertTerm) hterm)
    have hi' := hmatches.2.length_eq ▸ hi
    have hfalse := hmatches.2.get hi hi'
    simp [convertAtom, List.get_eq_getElem, heq, hconvert, EirTerm.Matches] at hfalse

theorem mem_programWithoutRuleIndices {program : Program} {indices : List Nat} {rule : Rule}
    : rule ∈ (programWithoutRuleIndices program indices).rules
      ↔ ∃ index, index ∉ indices ∧ program.rules[index]? = some rule := by
  simp only [programWithoutRuleIndices, List.mem_map, List.mem_filter, Prod.exists,
    List.mem_zipIdx_iff_getElem?]
  constructor
  · rintro ⟨_, index, ⟨hget, hkept⟩, rfl⟩
    exact ⟨index, by simpa using hkept, hget⟩
  · rintro ⟨index, hkept, hget⟩
    exact ⟨rule, index, ⟨hget, by simpa using hkept⟩, rfl⟩

/-- The rules without the dropped ones have the models of all rules. -/
theorem models_ruleClauses_programWithoutRuleIndices {program : Program} {indices : List Nat}
    (h : faeelUnfoundedExactTupleSelfSupportRuleIndices program = some indices)
    {tuples : Set (GroundAtom V)}
    : Models (ruleClauses A oracle (programWithoutRuleIndices program indices).rules) tuples
      ↔ Models (ruleClauses A oracle program.rules) tuples := by
  constructor
  · intro hmodel
    refine models_of_tautologies hmodel ?_
    rintro clause ⟨rule, hrule, v, hinstance⟩ hdropped
    obtain ⟨index, hget⟩ := List.mem_iff_getElem?.mp hrule
    have hindex : index ∈ indices := by
      by_contra hkept
      exact hdropped
        ⟨rule, mem_programWithoutRuleIndices.mpr ⟨index, hkept, hget⟩, v, hinstance⟩
    obtain ⟨literal, hliteral, hself⟩ := exists_modal_of_dropped h hindex hget
    exact hinstance.head_mem_body hliteral hself
  · intro hmodel
    refine hmodel.mono (ruleClauses_mono fun rule hrule => ?_)
    obtain ⟨index, -, hget⟩ := mem_programWithoutRuleIndices.mp hrule
    exact List.mem_of_getElem? hget

theorem foundedModel_programWithoutRuleIndices {program : Program} {indices : List Nat}
    (h : faeelUnfoundedExactTupleSelfSupportRuleIndices program = some indices)
    (edb : Set (GroundAtom V))
    : foundedModel A oracle (programWithoutRuleIndices program indices).rules edb
      = foundedModel A oracle program.rules edb := by
  refine leastModel_congr fun model => ?_
  rw [models_union, models_union, models_ruleClauses_programWithoutRuleIndices h]

theorem exists_faeelUnfoundedExactTupleSelfSupportRuleIndices (program : Program)
    : ∃ indices, faeelUnfoundedExactTupleSelfSupportRuleIndices program = some indices := by
  simp only [faeelUnfoundedExactTupleSelfSupportRuleIndices]
  split
  · exact ⟨[], rfl⟩
  · exact Option.isSome_iff_exists.mp (unfoundedIndices_isSome _ _ _)

end

-- The founded reading

/-- The rules without modal literals, other than the rule at the index. -/
def otherRules (program : Program) (index : Nat) : List Rule :=
  (program.rules.eraseIdx index).filter Rule.isModalFree

theorem mem_otherRules {program : Program} {index : Nat} {rule : Rule}
    {literal : EpistemicLiteral} (hrule : program.rules[index]? = some rule)
    (hliteral : .epistemic literal ∈ rule.body)
    : ∀ other ∈ program.rules, other.isModalFree = true → other ∈ otherRules program index := by
  intro other hother hfree
  refine List.mem_filter.mpr ⟨List.mem_eraseIdx_iff_getElem?.mpr ?_, hfree⟩
  obtain ⟨position, hposition⟩ := List.mem_iff_getElem?.mp hother
  refine ⟨position, ?_, hposition⟩
  rintro rfl
  -- the rule at the index has a modal literal
  cases Option.some.inj (hposition.symm.trans hrule)
  have hmodal : rule.body.any BodyLiteral.isEpistemic = true :=
    List.any_eq_true.mpr ⟨_, hliteral, rfl⟩
  simp [Rule.isModalFree, hmodal] at hfree

structure FoundednessChecks (program : Program) {V : Type} (A : TermAlgebra V) (oracle : Oracle V)
    (edb : Set (GroundAtom V)) : Prop where
  /-- A ground atom with an unconditional support is in the least model of the ordinary rules. -/
  unconditional : ∀ (fuel : Nat) (atom : EirAtom),
    hasUnconditionalGroundFoundedSupport (buildEir program) fuel atom = some true
    → ∀ v, atom.Holds A v (foundedModel A oracle (program.rules.filter Rule.isModalFree) edb)
  /-- A tuple-level support gives the modal atom wherever the positive body of its rule holds. -/
  tupleLevel : ∀ (fuel index : Nat) (rule : Rule) (literal : EpistemicLiteral),
    program.rules[index]? = some rule → .epistemic literal ∈ rule.body
    → (∀ term ∈ (convertAtom literal.atom).terms, Carried (buildEir program).rules term)
    → hasTupleLevelIndependentFoundedSupport (buildEir program) fuel (convertRule rule)
        (convertAtom literal.atom) = some true
    → ∀ tuples, Models (ruleClauses A oracle (otherRules program index)) tuples
    → ∀ v, (∀ source, .positive source ∈ rule.body → (convertAtom source).Holds A v tuples)
    → (convertAtom literal.atom).Holds A v tuples
  /-- An independent support gives the modal atom from atoms that no head matches. -/
  independent : ∀ (fuel index : Nat) (rule : Rule) (literal : EpistemicLiteral),
    program.rules[index]? = some rule → .epistemic literal ∈ rule.body
    → hasIndependentFoundedSupport (buildEir program) fuel (convertAtom literal.atom) = some true
    → ∃ groups : List (List EirAtom),
        (∀ group ∈ groups, ∀ member ∈ group, Extensional program member)
        ∧ FollowsFrom (otherRules program index) groups (convertAtom literal.atom)
  /-- The rules without the dropped ones have the founded model of the program. -/
  elision : ∃ indices,
    faeelUnfoundedExactTupleSelfSupportRuleIndices program = some indices
    ∧ foundedModel A oracle (programWithoutRuleIndices program indices).rules edb
      = foundedModel A oracle program.rules edb

def herbrandAlgebra : TermAlgebra EirTerm where
  integer := .integer
  floatBits := .floatBits
  string := .string
  symbol := .symbol
  list := .list
  cons := .cons
  compound := .compound
  predRef := .predRef

/-- Everything that asks for no tuple fails. -/
def failingOracle (V : Type) : Oracle V := ⟨fun _ _ => False, fun _ _ _ => False⟩

def unaryAtom (predicate : String) (term : Term) : Atom := ⟨predicate, [term]⟩

def modalLiteral (op : EpistemicOp) (atom : Atom) : EpistemicLiteral := ⟨op, false, atom⟩

/-- `base(1). p(X) :- base(X). q(X) :- base(X), know p(X). s(Y) :- base(Y), know p(1).
t(X) :- base(X), possible t(X).` -/
def supportProgram : Program :=
  let x := Term.var "X"
  let base (term : Term) := BodyLiteral.positive (unaryAtom "base" term)
  { Program.empty with
    rules := [
      ⟨unaryAtom "base" (.integer 1), []⟩,
      ⟨unaryAtom "p" x, [base x]⟩,
      ⟨unaryAtom "q" x, [base x, .epistemic (modalLiteral .know (unaryAtom "p" x))]⟩,
      ⟨unaryAtom "s" (.var "Y"),
        [base (.var "Y"), .epistemic (modalLiteral .know (unaryAtom "p" (.integer 1)))]⟩,
      ⟨unaryAtom "t" x, [base x, .epistemic (modalLiteral .possible (unaryAtom "t" x))]⟩] }

/-- `p(X) :- edge(X). s(Y) :- q(Y), know p(1).` -/
def edgeProgram : Program :=
  { Program.empty with
    rules := [
      ⟨unaryAtom "p" (.var "X"), [.positive (unaryAtom "edge" (.var "X"))]⟩,
      ⟨unaryAtom "s" (.var "Y"),
        [.positive (unaryAtom "q" (.var "Y")),
          .epistemic (modalLiteral .know (unaryAtom "p" (.integer 1)))]⟩] }

end Xlog.Logic
