import Xlog.Gpu.WfsTransform

/-! The programs of the passes: their predicates, the columns of these, and that no pass
derives what it negates.
-/

namespace Xlog.Gpu

open Xlog.Core Xlog.Foundation Xlog.Logic

-- Shape

/-- The frozen relations of a transform. -/
def WfsNegationTransform.names : WfsNegationTransform → List (String × String)
  | .drop => []
  | .rename names _ => names

/-- A declaration of the frozen relation of an entry, with the columns of its source. -/
def DeclaresFixed (sourceSchemas : Schemas) (entry : String × String) (decl : PredDecl) : Prop :=
  decl.name = entry.2
  ∧ ∃ schema, sourceSchemas entry.1 = some schema ∧ decl.arity = fixedColumns schema.arity

/-- The program of a pass: transformed rules, some of the transformed constraints, and the
declarations of the frozen relations.
-/
structure PassProgram (source : Program) (negation : WfsNegationTransform)
    (sourceSchemas : Schemas) (program : Program) : Prop where
  rules : List.Forall₂
    (fun rule rule' => rule'.head = rule.head ∧ BodyImage negation rule.body rule'.body)
    source.rules program.rules
  constraints : ∀ constraint' ∈ program.constraints, ∃ constraint ∈ source.constraints,
    constraint'.authoredIndex = constraint.authoredIndex
      ∧ BodyImage negation constraint.body constraint'.body
  declared : ∃ decls, program.predicates = source.predicates ++ decls
    ∧ List.Forall₂ (DeclaresFixed sourceSchemas) negation.names decls
  others : program = { source with
    predicates := program.predicates, rules := program.rules, constraints := program.constraints }

theorem fixedDecl_declares (program : Program) {entry : String × String} {schema : Schema}
    {sourceSchemas : Schemas} (h : sourceSchemas entry.1 = some schema)
    : DeclaresFixed sourceSchemas entry (fixedDecl program entry.1 entry.2 schema) := by
  refine ⟨rfl, schema, h, ?_⟩
  by_cases hzero : schema.arity = 0
  · simp [fixedDecl, PredDecl.arity, fixedColumns, hzero]
  · have hne : schema.columns ≠ [] := by
      intro hnil
      simp [Schema.arity, hnil] at hzero
    simp [fixedDecl, PredDecl.arity, fixedColumns, Schema.arity, hne]

/-- Declaring the frozen relations only adds declarations, by list induction. -/
theorem addWfsFixedPredicates_spec {program out : Program} {names : List (String × String)}
    {sourceSchemas : Schemas} (h : addWfsFixedPredicates program names sourceSchemas = .ok out)
    : ∃ decls, out = { program with predicates := program.predicates ++ decls }
      ∧ List.Forall₂ (DeclaresFixed sourceSchemas) names decls := by
  unfold addWfsFixedPredicates at h
  generalize program.predicates.map PredDecl.name = existing at h
  induction names generalizing program with
  | nil =>
      cases h
      exact ⟨[], by simp, .nil⟩
  | cons entry names ih =>
      rw [List.foldlM_cons] at h
      obtain ⟨next, hstep, hrest⟩ := bind_eq_ok.mp h
      split at hstep
      · cases hstep
      · cases hschema : sourceSchemas entry.1 with
        | none => simp [hschema] at hstep
        | some schema =>
            simp only [hschema, Except.ok.injEq] at hstep
            subst hstep
            obtain ⟨decls, hout, hdecls⟩ := ih hrest
            refine ⟨_ :: decls, ?_, .cons (fixedDecl_declares program hschema) hdecls⟩
            rw [hout]
            simp

theorem wfsTransformProgram_spec {source program : Program} {negation : WfsNegationTransform}
    {sourceSchemas : Schemas}
    (schemas : ∀ names other, negation = .rename names other → other = sourceSchemas)
    (h : wfsTransformProgram source negation = .ok program)
    : PassProgram source negation sourceSchemas program
      ∧ List.Forall₂ (fun constraint constraint' =>
          constraint'.authoredIndex = constraint.authoredIndex
            ∧ BodyImage negation constraint.body constraint'.body)
        source.constraints program.constraints := by
  obtain ⟨rules, hrules, h⟩ := bind_eq_ok.mp h
  obtain ⟨constraints, hconstraints, h⟩ := bind_eq_ok.mp h
  have hruleImages := (forall₂_of_mapM hrules).imp fun _ _ => wfsTransformRule_image
  have hconstraintImages :=
    (forall₂_of_mapM hconstraints).imp fun _ _ => wfsTransformConstraint_image
  have hcome : ∀ constraint' ∈ constraints, ∃ constraint ∈ source.constraints,
      constraint'.authoredIndex = constraint.authoredIndex
        ∧ BodyImage negation constraint.body constraint'.body := by
    intro constraint' hmem
    obtain ⟨constraint, hc, hok⟩ := exists_of_mem_mapM hconstraints hmem
    exact ⟨constraint, hc, wfsTransformConstraint_image hok⟩
  cases negation with
  | drop =>
      cases h
      exact ⟨⟨hruleImages, hcome, ⟨[], by simp, .nil⟩, rfl⟩, hconstraintImages⟩
  | rename names other =>
      obtain rfl := schemas names other rfl
      obtain ⟨decls, rfl, hdecls⟩ := addWfsFixedPredicates_spec h
      exact ⟨⟨hruleImages, hcome, ⟨decls, rfl, hdecls⟩, rfl⟩, hconstraintImages⟩

/-- The passes for the upper bounds have no constraints. -/
theorem PassProgram.withoutConstraints {source program : Program}
    {negation : WfsNegationTransform} {sourceSchemas : Schemas}
    (h : PassProgram source negation sourceSchemas program)
    : PassProgram source negation sourceSchemas { program with constraints := [] } where
  rules := h.rules
  constraints := by simp
  declared := h.declared
  others := by
    have hothers := h.others
    rw [hothers]

-- Names

/-- The frozen relations have distinct reserved names, one for each predicate. -/
structure FreshNames (names : List (String × String)) : Prop where
  keys : (names.map Prod.fst).Nodup
  distinct : (names.map Prod.snd).Nodup
  reserved : ∀ entry ∈ names, startsWith entry.2 "__wfs_" = true

theorem startsWith_append {start rest text : String} (h : startsWith start text = true)
    : startsWith (start ++ rest) text = true := by
  simp only [startsWith, String.toList_append, List.isPrefixOf_iff_prefix] at h ⊢
  exact h.trans (List.prefix_append _ _)

theorem freshNames_wfsFixedNames (program : Program) (start : String)
    (reserved : startsWith start "__wfs_" = true)
    : FreshNames (wfsFixedNames program (wfsNegatedPredicates program) start) := by
  obtain ⟨hkeys, hdistinct, hnamed⟩ :=
    wfsFixedNames_spec program (wfsNegatedPredicates program) start
  refine ⟨by rw [hkeys]; exact wfsNegatedPredicates_nodup program, hdistinct, ?_⟩
  intro entry hmem
  obtain ⟨rest, heq⟩ := hnamed entry hmem
  rw [heq]
  exact startsWith_append (startsWith_append reserved)

/-- The columns of a pass's predicates: those of the source, and of the frozen relations. -/
def fixedArity (names : List (String × String)) (arity : String → Nat) (name : String) : Nat :=
  match names.find? (·.2 = name) with
  | some entry => fixedColumns (arity entry.1)
  | none => arity name

theorem fixedArity_of_mem {names : List (String × String)} (arity : String → Nat)
    (distinct : (names.map Prod.snd).Nodup) {entry : String × String} (h : entry ∈ names)
    : fixedArity names arity entry.2 = fixedColumns (arity entry.1) := by
  cases hfind : names.find? (·.2 = entry.2) with
  | none =>
      have hne := List.find?_eq_none.mp hfind entry h
      simp at hne
  | some found =>
      have hname : found.2 = entry.2 := by simpa using List.find?_some hfind
      have heq : found = entry :=
        List.inj_on_of_nodup_map distinct (List.mem_of_find?_eq_some hfind) h hname
      simp [fixedArity, hfind, heq]

theorem fixedArity_of_unreserved {names : List (String × String)} (arity : String → Nat)
    (fresh : FreshNames names) {name : String} (h : startsWith name "__wfs_" = false)
    : fixedArity names arity name = arity name := by
  cases hfind : names.find? (·.2 = name) with
  | none => simp [fixedArity, hfind]
  | some found =>
      have hname : found.2 = name := by simpa using List.find?_some hfind
      have hreserved := fresh.reserved found (List.mem_of_find?_eq_some hfind)
      rw [hname, h] at hreserved
      exact absurd hreserved Bool.false_ne_true

-- Predicates

/-- The atom of a transformed literal is one of the source, or reads a frozen relation. -/
theorem BodyImage.atom_cases {negation : WfsNegationTransform} {body body' : List BodyLiteral}
    (h : BodyImage negation body body') {literal : BodyLiteral} {atom : Atom}
    (hmem : literal ∈ body') (hatom : literal.ordinaryAtom = some atom)
    : .positive atom ∈ body
      ∨ ∃ original name, .negated original ∈ body
        ∧ (original.predicate, name) ∈ negation.names ∧ atom = fixedAtom name original := by
  cases literal with
  | positive other =>
      obtain rfl : other = atom := by simpa [BodyLiteral.ordinaryAtom] using hatom
      exact .inl ((h.positive other).mp hmem)
  | negated fixed =>
      obtain rfl : fixed = atom := by simpa [BodyLiteral.ordinaryAtom] using hatom
      obtain ⟨original, horiginal, hrun⟩ := (h.negated fixed).mp hmem
      rcases transformWfsLiteral_negated hrun with ⟨hnone, _⟩ | ⟨_, _, name, rfl, hname, himage⟩
      · cases hnone
      · cases himage
        exact .inr ⟨original, name, horiginal, mem_of_lookup hname, rfl⟩
  | epistemic | comparison | isExpr | univ => simp [BodyLiteral.ordinaryAtom] at hatom

theorem mem_atoms_of_rule {program : Program} {rule : Rule} (hrule : rule ∈ program.rules)
    {literal : BodyLiteral} (hliteral : literal ∈ rule.body) {atom : Atom}
    (hatom : literal.ordinaryAtom = some atom)
    : atom ∈ program.atoms :=
  mem_atoms_iff.mpr (.inr (.inl ⟨rule, hrule, literal, hliteral, hatom⟩))

theorem mem_atoms_of_head {program : Program} {rule : Rule} (hrule : rule ∈ program.rules)
    : rule.head ∈ program.atoms :=
  mem_atoms_iff.mpr (.inl ⟨rule, hrule, rfl⟩)

theorem mem_atoms_of_constraint {program : Program} {constraint : Constraint}
    (hconstraint : constraint ∈ program.constraints) {literal : BodyLiteral}
    (hliteral : literal ∈ constraint.body) {atom : Atom}
    (hatom : literal.ordinaryAtom = some atom)
    : atom ∈ program.atoms :=
  mem_atoms_iff.mpr (.inr (.inr (.inl ⟨constraint, hconstraint, literal, hliteral, hatom⟩)))

theorem mem_mentioned_of_atom {program : Program} {atom : Atom} (h : atom ∈ program.atoms)
    : atom.predicate ∈ program.mentioned :=
  mem_mentioned_iff.mpr (.inr ⟨atom, h, rfl⟩)

section

variable {source program : Program} {negation : WfsNegationTransform} {sourceSchemas : Schemas}

theorem PassProgram.exists_rule (h : PassProgram source negation sourceSchemas program)
    {rule' : Rule} (hmem : rule' ∈ program.rules)
    : ∃ rule ∈ source.rules,
      rule'.head = rule.head ∧ BodyImage negation rule.body rule'.body := by
  obtain ⟨i, hi, rfl⟩ := List.getElem_of_mem hmem
  have hlt : i < source.rules.length := h.rules.length_eq ▸ hi
  exact ⟨source.rules[i], List.getElem_mem _, h.rules.get hlt hi⟩

theorem PassProgram.exists_image (h : PassProgram source negation sourceSchemas program)
    {rule : Rule} (hmem : rule ∈ source.rules)
    : ∃ rule' ∈ program.rules,
      rule'.head = rule.head ∧ BodyImage negation rule.body rule'.body := by
  obtain ⟨i, hi, rfl⟩ := List.getElem_of_mem hmem
  have hlt : i < program.rules.length := h.rules.length_eq ▸ hi
  exact ⟨program.rules[i], List.getElem_mem _, h.rules.get hi hlt⟩

theorem PassProgram.statedAtoms_eq (h : PassProgram source negation sourceSchemas program)
    : program.statedAtoms = source.statedAtoms := by
  rw [h.others]
  rfl

/-- The atoms of a pass are atoms of the source, or read frozen relations. -/
theorem PassProgram.atom_cases (h : PassProgram source negation sourceSchemas program)
    {atom : Atom} (hmem : atom ∈ program.atoms)
    : atom ∈ source.atoms
      ∨ ∃ original name, original ∈ source.atoms
        ∧ (original.predicate, name) ∈ negation.names ∧ atom = fixedAtom name original := by
  rcases mem_atoms_iff.mp hmem with ⟨rule', hrule', rfl⟩ | ⟨rule', hrule', literal, hlit, hatom⟩
    | ⟨constraint', hc', literal, hlit, hatom⟩ | hstated
  · obtain ⟨rule, hrule, hhead, _⟩ := h.exists_rule hrule'
    exact .inl (hhead ▸ mem_atoms_of_head hrule)
  · obtain ⟨rule, hrule, _, himage⟩ := h.exists_rule hrule'
    rcases himage.atom_cases hlit hatom with hpos | ⟨original, name, hneg, hname, heq⟩
    · exact .inl (mem_atoms_of_rule hrule hpos rfl)
    · exact .inr ⟨original, name, mem_atoms_of_rule hrule hneg rfl, hname, heq⟩
  · obtain ⟨constraint, hc, _, himage⟩ := h.constraints constraint' hc'
    rcases himage.atom_cases hlit hatom with hpos | ⟨original, name, hneg, hname, heq⟩
    · exact .inl (mem_atoms_of_constraint hc hpos rfl)
    · exact .inr ⟨original, name, mem_atoms_of_constraint hc hneg rfl, hname, heq⟩
  · rw [h.statedAtoms_eq] at hstated
    exact .inl (mem_atoms_iff.mpr (.inr (.inr (.inr hstated))))

/-- A predicate of a pass is one of the source, or a frozen relation. -/
theorem PassProgram.mentioned_cases (h : PassProgram source negation sourceSchemas program)
    {name : String} (hname : name ∈ program.mentioned)
    : name ∈ source.mentioned ∨ name ∈ negation.names.map Prod.snd := by
  rcases mem_mentioned_iff.mp hname with ⟨decl, hdecl, rfl⟩ | ⟨atom, hatom, rfl⟩
  · obtain ⟨decls, hpredicates, hdecls⟩ := h.declared
    rw [hpredicates] at hdecl
    rcases List.mem_append.mp hdecl with hdecl | hdecl
    · exact .inl (mem_mentioned_iff.mpr (.inl ⟨decl, hdecl, rfl⟩))
    · obtain ⟨i, hi, rfl⟩ := List.getElem_of_mem hdecl
      have hlt : i < negation.names.length := hdecls.length_eq ▸ hi
      have hfixed := (hdecls.get hlt hi).1
      simp only [List.get_eq_getElem] at hfixed
      exact .inr (hfixed ▸ List.mem_map_of_mem (List.getElem_mem _))
  · rcases h.atom_cases hatom with hsource | ⟨original, fixed, _, hfixed, rfl⟩
    · exact .inl (mem_mentioned_of_atom hsource)
    · exact .inr (List.mem_map.mpr ⟨_, hfixed, rfl⟩)

theorem fixedAtom_terms_length (name : String) (atom : Atom)
    : (fixedAtom name atom).terms.length = fixedColumns atom.terms.length := by
  cases hterms : atom.terms <;> simp [fixedAtom, fixedColumns, hterms]

/-- A pass uses every predicate with one number of columns. -/
theorem PassProgram.hasArity (h : PassProgram source negation sourceSchemas program)
    (fresh : FreshNames negation.names) {arity : String → Nat}
    (wellFormed : WellFormedSource source arity)
    (columns : ∀ entry ∈ negation.names, ∀ schema, sourceSchemas entry.1 = some schema
      → schema.arity = arity entry.1)
    : HasArity program (fixedArity negation.names arity) where
  atoms atom hmem := by
    rcases h.atom_cases hmem with hsource | ⟨original, name, horiginal, hname, rfl⟩
    · rw [wellFormed.arities.atoms atom hsource, fixedArity_of_unreserved arity fresh
        (wellFormed.unreserved _ (mem_mentioned_of_atom hsource)).1]
    · rw [fixedAtom_terms_length, wellFormed.arities.atoms original horiginal]
      exact (fixedArity_of_mem arity fresh.distinct hname).symm
  declared decl hmem := by
    obtain ⟨decls, hpredicates, hdecls⟩ := h.declared
    rw [hpredicates] at hmem
    rcases List.mem_append.mp hmem with hmem | hmem
    · have hmentioned : decl.name ∈ source.mentioned :=
        mem_mentioned_iff.mpr (.inl ⟨decl, hmem, rfl⟩)
      rw [wellFormed.arities.declared decl hmem, fixedArity_of_unreserved arity fresh
        (wellFormed.unreserved _ hmentioned).1]
    · obtain ⟨i, hi, rfl⟩ := List.getElem_of_mem hmem
      have hlt : i < negation.names.length := hdecls.length_eq ▸ hi
      obtain ⟨hname, schema, hschema, hdecl⟩ := hdecls.get hlt hi
      have hentry : negation.names[i] ∈ negation.names := List.getElem_mem _
      have hcolumns := columns _ hentry schema hschema
      simp only [List.get_eq_getElem] at hname hdecl
      rw [hdecl, hcolumns, hname, fixedArity_of_mem arity fresh.distinct hentry]

end

end Xlog.Gpu
