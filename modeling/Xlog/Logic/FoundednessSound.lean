import Xlog.Logic.FoundednessSearch

/-! What follows when a search for a founded support succeeds.
-/

namespace Xlog.Logic

open Xlog.Foundation Xlog.Ir

-- Successful searches

theorem anyMatchingRule_true {atom : EirAtom} {check : EirRule → Substitution → Option Bool}
    {rules : List EirRule} (h : anyMatchingRule atom check rules = some true)
    : ∃ rule ∈ rules, ∃ substitution, headSubstitutionToAtom rule.head atom = some substitution
      ∧ check rule substitution = some true := by
  induction rules with
  | nil => simp [anyMatchingRule] at h
  | cons rule rules ih =>
    simp only [anyMatchingRule] at h
    split at h
    · obtain ⟨other, hother, hrest⟩ := ih h
      exact ⟨other, List.mem_cons_of_mem _ hother, hrest⟩
    · next substitution hmatch =>
      split at h
      · simp at h
      · next hcheck => exact ⟨rule, by simp, substitution, hmatch, hcheck⟩
      · obtain ⟨other, hother, hrest⟩ := ih h
        exact ⟨other, List.mem_cons_of_mem _ hother, hrest⟩

/-- Every literal of the body is a positive atom, and its instance has the property. -/
def BodyInstances (substitution : Substitution) (property : EirAtom → Prop)
    (literals : List EirBodyLiteral) : Prop :=
  ∀ literal ∈ literals, ∃ bodyAtom atom, literal = .relational false bodyAtom
    ∧ substituteEirAtom substitution bodyAtom = some atom ∧ property atom

theorem BodyInstances.cons {substitution : Substitution} {property : EirAtom → Prop}
    {literals : List EirBodyLiteral} {bodyAtom atom : EirAtom}
    (hsub : substituteEirAtom substitution bodyAtom = some atom) (hproperty : property atom)
    (h : BodyInstances substitution property literals)
    : BodyInstances substitution property (.relational false bodyAtom :: literals) :=
  List.forall_mem_cons.mpr ⟨⟨bodyAtom, atom, rfl, hsub, hproperty⟩, h⟩

theorem groundBodySupported_true {supported : EirAtom → Option Bool} {substitution : Substitution}
    {literals : List EirBodyLiteral}
    (h : groundBodySupported supported substitution literals = some true)
    : BodyInstances substitution
        (fun atom => atom.terms.all eirTermIsGround = true ∧ supported atom = some true)
        literals := by
  induction literals with
  | nil => simp [BodyInstances]
  | cons literal literals ih =>
    unfold groundBodySupported at h
    split at h
    · next heq => simp at heq
    · next bodyAtom rest heq =>
      obtain ⟨rfl, rfl⟩ := List.cons.inj heq
      split at h
      · simp at h
      · next atom hsub =>
        split at h
        · simp at h
        · next hground =>
          split at h
          · simp at h
          · simp at h
          · next hsupported => exact (ih h).cons hsub ⟨by simpa using hground, hsupported⟩
    · simp at h

theorem independentBodySupported_true {eir : EirProgram} {supported : EirAtom → Option Bool}
    {substitution : Substitution} {supportStack : List (String × Nat)}
    {literals : List EirBodyLiteral}
    (h : independentBodySupported eir supported substitution supportStack literals = some true)
    : BodyInstances substitution
        (fun atom => hasDefiningRule eir atom = false ∨ supported atom = some true) literals := by
  induction literals with
  | nil => simp [BodyInstances]
  | cons literal literals ih =>
    unfold independentBodySupported at h
    split at h
    · next heq => simp at heq
    · next bodyAtom rest heq =>
      obtain ⟨rfl, rfl⟩ := List.cons.inj heq
      split at h
      · simp at h
      · next atom hsub =>
        split at h
        · simp at h
        · split at h
          · next hdefining => exact (ih h).cons hsub (.inl (by simpa using hdefining))
          · split at h
            · simp at h
            · simp at h
            · next hsupported => exact (ih h).cons hsub (.inr hsupported)
    · simp at h

-- Supports

theorem convertBodyLiteral_eq_relational {literal : BodyLiteral} {atom : EirAtom}
    (h : convertBodyLiteral literal = .relational false atom)
    : ∃ source, literal = .positive source ∧ convertAtom source = atom := by
  cases literal with
  | positive source =>
    simp only [convertBodyLiteral, EirBodyLiteral.relational.injEq, true_and] at h
    exact ⟨source, rfl, h⟩
  | _ => simp [convertBodyLiteral] at h

/-- A rule whose literals are positive atoms has no modal literal. -/
theorem isModalFree_of_instances {rule : Rule} {substitution : Substitution}
    {property : EirAtom → Prop}
    (h : BodyInstances substitution property (convertRule rule).body)
    : rule.isModalFree = true := by
  simp only [Rule.isModalFree, Bool.not_eq_true', List.any_eq_false]
  intro literal hliteral
  obtain ⟨bodyAtom, -, heq, -⟩ := h _ (List.mem_map_of_mem hliteral)
  obtain ⟨source, rfl, -⟩ := convertBodyLiteral_eq_relational heq
  simp [BodyLiteral.isEpistemic]

/-- An argument that a head can carry without changing what it stands for. -/
def Carried (rules : List EirRule) (term : EirTerm) : Prop :=
  term.isDefinite = true
  ∧ ((∃ name, term = .var name) ∨ eirTermIsGround term = true
    ∨ ∀ rule ∈ rules, term ∉ rule.head.terms)

theorem Carried.of_ground {rules : List EirRule} {term : EirTerm}
    (h : eirTermIsGround term = true)
    : Carried rules term :=
  ⟨isDefinite_of_ground term h, .inr (.inl h)⟩

section

variable {V : Type} {A : TermAlgebra V} {oracle : Oracle V} {tuples : Set (GroundAtom V)}
variable {v w : String → V} {program : Program} {rules : List Rule}

theorem HeadTermFits.matches_iff {substitution : Substitution} {headTerm atomTerm : EirTerm}
    (h : HeadTermFits substitution headTerm atomTerm) (hreal : Realizes A v substitution w)
    {eirRules : List EirRule} (hcarried : Carried eirRules atomTerm) {rule : EirRule}
    (hrule : rule ∈ eirRules) (hmem : headTerm ∈ rule.head.terms) (value : V)
    : atomTerm.Matches A v value ↔ headTerm.Matches A w value := by
  rcases h with ⟨name, rfl, hlookup⟩ | ⟨rfl, -, hvar⟩
  · exact hreal.bound name atomTerm hlookup value
  · rcases hcarried.2 with ⟨name, hname⟩ | hground | hnot
    · exact absurd hname (hvar name)
    · exact matches_of_ground v w headTerm hground value
    · exact absurd hmem (hnot rule hrule)

theorem HeadTermFits.isDefinite {substitution : Substitution} {headTerm atomTerm : EirTerm}
    (h : HeadTermFits substitution headTerm atomTerm) (hatom : atomTerm.isDefinite = true)
    : headTerm.isDefinite = true := by
  rcases h with ⟨name, rfl, -⟩ | ⟨rfl, -⟩
  · rfl
  · exact hatom

/-- A rule whose body holds puts the atom that its head matches among the tuples. -/
theorem holds_of_support (hmodel : Models (ruleClauses A oracle rules) tuples) {rule : Rule}
    (hrule : rule ∈ rules) {eirRules : List EirRule} (hmem : convertRule rule ∈ eirRules)
    (hbody : ∀ literal ∈ (convertRule rule).body, ∃ bodyAtom,
      literal = .relational false bodyAtom ∧ bodyAtom.Holds A w tuples)
    {atom : EirAtom} {substitution : Substitution}
    (hmatch : HeadMatch (convertRule rule).head atom substitution)
    (hreal : Realizes A v substitution w) (hatom : ∀ term ∈ atom.terms, Carried eirRules term)
    : atom.Holds A v tuples := by
  have hliterals : ∀ literal ∈ rule.body, literal.Holds A oracle w tuples := by
    intro literal hliteral
    obtain ⟨bodyAtom, heq, hholds⟩ := hbody _ (List.mem_map_of_mem hliteral)
    obtain ⟨source, rfl, rfl⟩ := convertBodyLiteral_eq_relational heq
    refine ⟨?_, by simp [BodyLiteral.foundedAtom]⟩
    rintro _ ⟨⟩
    exact hholds
  have hzip : ∀ pair ∈ (convertRule rule).head.terms.zip atom.terms,
      HeadTermFits substitution pair.1 pair.2 := by
    intro pair hpair
    exact (List.forall₂_iff_zip.mp hmatch.terms).2 hpair
  have hdefinite : (convertAtom rule.head).IsDefinite := by
    intro headTerm hterm
    obtain ⟨i, hi, rfl⟩ := List.getElem_of_mem hterm
    have hi' : i < atom.terms.length := hmatch.terms.length_eq ▸ hi
    exact (hmatch.terms.get hi hi').isDefinite (hatom _ (List.getElem_mem hi')).1
  obtain ⟨tuple, htuple⟩ := EirAtom.exists_matches_iff (A := A) w hdefinite
  have hhead := (htuple tuple).mpr rfl
  have hin := models_ruleClauses.mp hmodel rule hrule w hliterals tuple (.inl ⟨hdefinite, hhead⟩)
  refine ⟨tuple, hin, hhead.1.trans hmatch.predicate, ?_⟩
  refine (forall₂_matches_congr ?_).mp hhead.2
  refine List.forall₂_iff_zip.mpr ⟨hmatch.terms.length_eq, fun {headTerm atomTerm} hpair value => ?_⟩
  have hmems := List.of_mem_zip hpair
  exact ((hzip _ hpair).matches_iff hreal (hatom _ hmems.2) hmem hmems.1 value).symm

/-- The body of a support holds when its instances do. -/
theorem BodyInstances.holds {substitution : Substitution} {property : EirAtom → Prop}
    {literals : List EirBodyLiteral} (h : BodyInstances substitution property literals)
    (hreal : Realizes A v substitution w) (hholds : ∀ atom, property atom → atom.Holds A v tuples)
    : ∀ literal ∈ literals, ∃ bodyAtom,
        literal = .relational false bodyAtom ∧ bodyAtom.Holds A w tuples := by
  intro literal hliteral
  obtain ⟨bodyAtom, atom, heq, hsub, hproperty⟩ := h literal hliteral
  exact ⟨bodyAtom, heq, (substituteEirAtom_holds hreal hsub).mp (hholds atom hproperty)⟩

theorem exists_realizes_of_match {head atom : EirAtom} {substitution : Substitution}
    (hmatch : HeadMatch head atom substitution) {eirRules : List EirRule}
    (hatom : ∀ term ∈ atom.terms, Carried eirRules term) (v : String → V)
    : ∃ w, Realizes A v substitution w :=
  exists_realizes v fun name term hlookup => (hatom term (hmatch.range name term hlookup)).1

-- Unconditional support

/-- Ordinary rules alone put an unconditionally supported atom among the tuples of every model. -/
theorem holds_of_unconditional (hmodel : Models (ruleClauses A oracle rules) tuples)
    (hrules : ∀ rule ∈ program.rules, rule.isModalFree = true → rule ∈ rules) (fuel : Nat)
    {atom : EirAtom} {supportStack : List (String × List EirTerm)}
    (hground : atom.terms.all eirTermIsGround = true)
    (h : hasUnconditionalGroundFoundedSupportInner (buildEir program) fuel atom supportStack
      = some true) (v : String → V)
    : atom.Holds A v tuples := by
  induction fuel generalizing atom supportStack v with
  | zero => simp [hasUnconditionalGroundFoundedSupportInner] at h
  | succ fuel ih =>
    simp only [hasUnconditionalGroundFoundedSupportInner] at h
    split at h
    · simp at h
    · obtain ⟨eirRule, hmem, substitution, hhead, hcheck⟩ := anyMatchingRule_true h
      obtain ⟨rule, hrule, rfl⟩ := List.mem_map.mp hmem
      have hbody := groundBodySupported_true hcheck
      have hmatch := headSubstitutionToAtom_spec hhead
      have hatom : ∀ term ∈ atom.terms, Carried (buildEir program).rules term :=
        fun term hterm => .of_ground (List.all_eq_true.mp hground term hterm)
      obtain ⟨w, hreal⟩ := exists_realizes_of_match (A := A) hmatch hatom v
      refine holds_of_support hmodel (hrules rule hrule (isModalFree_of_instances hbody)) hmem
        (hbody.holds hreal fun bodyAtom hbodyAtom => ih hbodyAtom.1 hbodyAtom.2 v) hmatch hreal
        hatom

-- Support by the domain of the modal rule

theorem mem_positiveRelationalBodyAtoms {rule : Rule} {atom : EirAtom}
    (h : atom ∈ positiveRelationalBodyAtoms (convertRule rule))
    : ∃ source, .positive source ∈ rule.body ∧ convertAtom source = atom := by
  obtain ⟨eirLiteral, hmem, heq⟩ := List.mem_filterMap.mp h
  obtain ⟨literal, hliteral, rfl⟩ := List.mem_map.mp hmem
  cases literal with
  | positive source =>
    simp only [convertBodyLiteral, positiveRelationalAtom, Option.some.injEq] at heq
    exact ⟨source, hliteral, heq⟩
  | _ => simp [convertBodyLiteral, positiveRelationalAtom] at heq

theorem domainCovered_true {modalDomain supportDomain : List EirAtom} {substitution : Substitution}
    (h : domainCovered modalDomain supportDomain substitution = true) {bodyAtom : EirAtom}
    (hmem : bodyAtom ∈ supportDomain)
    : ∃ atom ∈ modalDomain, substituteEirAtom substitution bodyAtom = some atom := by
  have hall := List.all_eq_true.mp ((Bool.and_eq_true _ _).mp h).2 bodyAtom hmem
  split at hall
  · next atom hsub => exact ⟨atom, by simpa using hall, hsub⟩
  · simp at hall

/-- An atom supported by the domain of a modal rule holds wherever the rule's positive atoms do. -/
theorem holds_of_tupleLevel (hmodel : Models (ruleClauses A oracle rules) tuples)
    (hrules : ∀ rule ∈ program.rules, rule.isModalFree = true → rule ∈ rules) {fuel : Nat}
    {modalRule : Rule} {atom : EirAtom}
    (hatom : ∀ term ∈ atom.terms, Carried (buildEir program).rules term)
    (h : hasTupleLevelIndependentFoundedSupport (buildEir program) fuel (convertRule modalRule) atom
      = some true)
    (hbody : ∀ source, .positive source ∈ modalRule.body
      → (convertAtom source).Holds A v tuples)
    : atom.Holds A v tuples := by
  unfold hasTupleLevelIndependentFoundedSupport at h
  split at h
  · simp at h
  · obtain ⟨eirRule, hmem, substitution, hhead, hcheck⟩ := anyMatchingRule_true h
    obtain ⟨rule, hrule, rfl⟩ := List.mem_map.mp hmem
    split at hcheck
    · simp at hcheck
    · simp at hcheck
    · next hindependent =>
      have hinstances := independentBodySupported_true hindependent
      have hdomain := Option.some.inj hcheck
      have hmatch := headSubstitutionToAtom_spec hhead
      obtain ⟨w, hreal⟩ := exists_realizes_of_match (A := A) hmatch hatom v
      refine holds_of_support hmodel (hrules rule hrule (isModalFree_of_instances hinstances)) hmem
        ?_ hmatch hreal hatom
      intro literal hliteral
      obtain ⟨bodyAtom, -, rfl, -⟩ := hinstances literal hliteral
      have hbodyAtom : bodyAtom ∈ positiveRelationalBodyAtoms (convertRule rule) :=
        List.mem_filterMap.mpr ⟨_, hliteral, rfl⟩
      obtain ⟨instance', hinstance, hsub⟩ := domainCovered_true hdomain hbodyAtom
      obtain ⟨source, hsource, rfl⟩ := mem_positiveRelationalBodyAtoms hinstance
      exact ⟨bodyAtom, rfl, (substituteEirAtom_holds hreal hsub).mp (hbody source hsource)⟩

end

-- Independent support

/-- A body atom of an ordinary rule, as far as its head has been matched, that no head matches. -/
def Extensional (program : Program) (atom : EirAtom) : Prop :=
  hasDefiningRule (buildEir program) atom = false
  ∧ ∃ rule ∈ program.rules, rule.isModalFree = true ∧ ∃ substitution bodyAtom,
    .relational false bodyAtom ∈ (convertRule rule).body
    ∧ substituteEirAtom substitution bodyAtom = some atom

/-- The atom holds in every model of the rules that has a common instance of each group of atoms. -/
def FollowsFrom (rules : List Rule) (groups : List (List EirAtom)) (atom : EirAtom) : Prop :=
  ∀ (V : Type) (A : TermAlgebra V) (oracle : Oracle V) (tuples : Set (GroundAtom V)),
    Models (ruleClauses A oracle rules) tuples
    → (∀ group ∈ groups, ∃ v, ∀ member ∈ group, EirAtom.Holds A v tuples member)
    → ∀ v, atom.Holds A v tuples

theorem FollowsFrom.mono {rules : List Rule} {groups groups' : List (List EirAtom)} {atom : EirAtom}
    (h : FollowsFrom rules groups atom) (hsub : groups ⊆ groups')
    : FollowsFrom rules groups' atom :=
  fun V A oracle tuples hmodel hgroups =>
    h V A oracle tuples hmodel fun group hgroup => hgroups group (hsub hgroup)

/-- The atoms of a body: those taken as present form one group, the others follow from more. -/
theorem exists_groups_of_body {program : Program} {rules : List Rule} {substitution : Substitution}
    {supported : EirAtom → Option Bool} {literals : List EirBodyLiteral}
    (h : BodyInstances substitution
      (fun atom => hasDefiningRule (buildEir program) atom = false ∨ supported atom = some true)
      literals)
    (hrule : ∃ rule ∈ program.rules, rule.isModalFree = true ∧ literals ⊆ (convertRule rule).body)
    (hsupported : ∀ atom, supported atom = some true
      → ∃ groups : List (List EirAtom),
        (∀ group ∈ groups, ∀ member ∈ group, Extensional program member)
        ∧ FollowsFrom rules groups atom)
    : ∃ (group : List EirAtom) (groups : List (List EirAtom)),
      (∀ member ∈ group, Extensional program member)
      ∧ (∀ other ∈ groups, ∀ member ∈ other, Extensional program member)
      ∧ BodyInstances substitution (fun atom => atom ∈ group ∨ FollowsFrom rules groups atom)
          literals := by
  induction literals with
  | nil => exact ⟨[], [], by simp, by simp, by simp [BodyInstances]⟩
  | cons literal literals ih =>
    obtain ⟨hliteral, hliterals⟩ := List.forall_mem_cons.mp h
    obtain ⟨rule, hmem, hfree, hsub⟩ := hrule
    obtain ⟨hin, hrest⟩ := List.cons_subset.mp hsub
    obtain ⟨group, groups, hgroup, hgroups, hinstances⟩ := ih hliterals ⟨rule, hmem, hfree, hrest⟩
    obtain ⟨bodyAtom, atom, rfl, hatom, hcase⟩ := hliteral
    rcases hcase with hundefined | hdone
    · refine ⟨atom :: group, groups, ?_, hgroups, ?_⟩
      · exact List.forall_mem_cons.mpr ⟨⟨hundefined, rule, hmem, hfree, substitution, bodyAtom, hin,
          hatom⟩, hgroup⟩
      · refine .cons hatom (.inl (by simp)) fun other hother => ?_
        obtain ⟨bodyAtom', atom', heq, hatom', hcase'⟩ := hinstances other hother
        exact ⟨bodyAtom', atom', heq, hatom', hcase'.imp_left (List.mem_cons_of_mem _)⟩
    · obtain ⟨more, hmore, hfollows⟩ := hsupported atom hdone
      refine ⟨group, more ++ groups, hgroup, ?_, ?_⟩
      · exact List.forall_mem_append.mpr ⟨hmore, hgroups⟩
      · refine .cons hatom (.inr (hfollows.mono (by simp))) fun other hother => ?_
        obtain ⟨bodyAtom', atom', heq, hatom', hcase'⟩ := hinstances other hother
        exact ⟨bodyAtom', atom', heq, hatom', hcase'.imp_right fun h => h.mono (by simp)⟩

/-- An independently supported atom follows from atoms that no head matches. -/
theorem exists_groups_of_independent {program : Program} {rules : List Rule}
    (hrules : ∀ rule ∈ program.rules, rule.isModalFree = true → rule ∈ rules) (fuel : Nat)
    {atom : EirAtom} {supportStack : List (String × Nat)}
    (h : hasIndependentFoundedSupportInner (buildEir program) fuel atom supportStack = some true)
    : ∃ groups : List (List EirAtom),
      (∀ group ∈ groups, ∀ member ∈ group, Extensional program member)
      ∧ FollowsFrom rules groups atom := by
  induction fuel generalizing atom supportStack with
  | zero => simp [hasIndependentFoundedSupportInner] at h
  | succ fuel ih =>
    simp only [hasIndependentFoundedSupportInner] at h
    split at h
    · simp at h
    · next hguard =>
      have hground : ∀ term ∈ atom.terms, eirTermIsGround term = true := by
        intro term hterm
        have hpos : 0 < atom.arity := List.length_pos_of_mem hterm
        have hall : atom.terms.all eirTermIsGround = true := by simpa [hpos] using hguard
        exact List.all_eq_true.mp hall term hterm
      split at h
      · simp at h
      · obtain ⟨eirRule, hmem, substitution, hhead, hcheck⟩ := anyMatchingRule_true h
        obtain ⟨rule, hrule, rfl⟩ := List.mem_map.mp hmem
        have hbody := independentBodySupported_true hcheck
        have hfree := isModalFree_of_instances hbody
        have hmatch := headSubstitutionToAtom_spec hhead
        obtain ⟨group, groups, hgroup, hgroups, hinstances⟩ :=
          exists_groups_of_body hbody ⟨rule, hrule, hfree, fun _ h => h⟩ fun _ h => ih h
        refine ⟨group :: groups, List.forall_mem_cons.mpr ⟨hgroup, hgroups⟩, ?_⟩
        intro V A oracle tuples hmodel hall v
        obtain ⟨hshared, hothers⟩ := List.forall_mem_cons.mp hall
        -- the body is taken at the assignment that the present atoms share
        obtain ⟨shared, hpresent⟩ := hshared
        have hatom : ∀ term ∈ atom.terms, Carried (buildEir program).rules term :=
          fun term hterm => .of_ground (hground term hterm)
        obtain ⟨w, hreal⟩ := exists_realizes_of_match (A := A) hmatch hatom shared
        have hholds : atom.Holds A shared tuples := by
          refine holds_of_support hmodel (hrules rule hrule hfree) hmem
            (hinstances.holds hreal fun bodyAtom hcase => ?_) hmatch hreal hatom
          rcases hcase with hin | hfollows
          · exact hpresent bodyAtom hin
          · exact hfollows V A oracle tuples hmodel hothers shared
        exact EirAtom.Holds.of_ground (List.all_eq_true.mpr hground) hholds

end Xlog.Logic
