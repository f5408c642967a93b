import Xlog.Gpu.WfsPrograms

/-! One pass of the plan: it leaves the least model of the source's rules with negation read
in the store that the frozen relations came from.
-/

namespace Xlog.Gpu

open Xlog.Core Xlog.Foundation Xlog.Logic

-- Reserved names

theorem startsWith_constraintRelation (index : Nat)
    : startsWith (constraintRelation index) "__xlog_constraint_" = true :=
  startsWith_append (by decide +kernel)

theorem startsWith_queryRelation (index : Nat)
    : startsWith (queryRelation index) "__xlog_query_" = true :=
  startsWith_append (by decide +kernel)

theorem startsWith_append_eq (start rest text : String)
    (h : text.toList.length ≤ start.toList.length)
    : startsWith (start ++ rest) text = startsWith start text := by
  rw [Bool.eq_iff_iff]
  refine ⟨fun hlong => ?_, startsWith_append⟩
  simp only [startsWith, String.toList_append, List.isPrefixOf_iff_prefix] at hlong ⊢
  exact List.prefix_of_prefix_length_le hlong (List.prefix_append _ _) h

theorem constraintRelation_unreserved (index : Nat)
    : startsWith (constraintRelation index) "__wfs_" = false := by
  have hstart : startsWith "__xlog_constraint_" "__wfs_" = false := by decide +kernel
  exact (startsWith_append_eq _ index.repr _ (by decide +kernel)).trans hstart

theorem queryRelation_unreserved (index : Nat)
    : startsWith (queryRelation index) "__wfs_" = false := by
  have hstart : startsWith "__xlog_query_" "__wfs_" = false := by decide +kernel
  exact (startsWith_append_eq _ index.repr _ (by decide +kernel)).trans hstart

theorem constraintRelation_ne_queryRelation (index other : Nat)
    : constraintRelation index ≠ queryRelation other := by
  intro h
  have hquery := startsWith_queryRelation other
  have hstart : startsWith "__xlog_constraint_" "__xlog_query_" = false := by decide +kernel
  have hconstraint :=
    (startsWith_append_eq _ index.repr _ (by decide +kernel)).trans hstart
  rw [← h] at hquery
  exact absurd (hconstraint.symm.trans hquery) Bool.false_ne_true

theorem constraintRelation_injective : Function.Injective constraintRelation := by
  intro left right h
  exact Nat.repr_injective ((String.append_right_inj _).mp h)

-- Mentioned predicates

section

variable {source program desugared : Program} {negation : WfsNegationTransform}
  {sourceSchemas : Schemas} {arity : String → Nat}

theorem mem_positivePart_atoms {atom : Atom}
    : atom ∈ (positivePart source).atoms
      ↔ (∃ rule ∈ source.rules, rule.head = atom)
        ∨ (∃ rule ∈ source.rules, .positive atom ∈ rule.body)
        ∨ atom ∈ source.statedAtoms := by
  rw [mem_atoms_iff]
  have hbody (rule : Rule)
      : (∃ literal ∈ rule.body.filter fun literal => (negatedPredicate literal).isNone,
          literal.ordinaryAtom = some atom) ↔ .positive atom ∈ rule.body := by
    constructor
    · intro h
      obtain ⟨literal, hmem, hatom⟩ := h
      obtain ⟨hmem, hneg⟩ := List.mem_filter.mp hmem
      cases literal with
      | positive other =>
          obtain rfl : other = atom := by simpa [BodyLiteral.ordinaryAtom] using hatom
          exact hmem
      | negated other => simp [negatedPredicate] at hneg
      | epistemic | comparison | isExpr | univ => simp [BodyLiteral.ordinaryAtom] at hatom
    · intro h
      exact ⟨_, List.mem_filter.mpr ⟨h, rfl⟩, rfl⟩
  have hstated : (positivePart source).statedAtoms = source.statedAtoms := rfl
  simp only [hstated]
  simp only [positivePart, List.mem_map, exists_exists_and_eq_and, hbody, List.not_mem_nil,
    false_and, exists_false, false_or]

/-- Every pass mentions the predicates of the positive part. -/
theorem PassProgram.mentioned_of_positivePart
    (h : PassProgram source negation sourceSchemas program) {name : String}
    (hname : name ∈ (positivePart source).mentioned)
    : name ∈ program.mentioned := by
  rcases mem_mentioned_iff.mp hname with ⟨decl, hdecl, rfl⟩ | ⟨atom, hatom, rfl⟩
  · obtain ⟨decls, hpredicates, _⟩ := h.declared
    refine mem_mentioned_iff.mpr (.inl ⟨decl, ?_, rfl⟩)
    rw [hpredicates]
    exact List.mem_append_left _ hdecl
  · refine mem_mentioned_of_atom ?_
    rcases mem_positivePart_atoms.mp hatom with ⟨rule, hrule, rfl⟩ | ⟨rule, hrule, hpos⟩
      | hstated
    · obtain ⟨rule', hrule', hhead, _⟩ := h.exists_image hrule
      exact hhead ▸ mem_atoms_of_head hrule'
    · obtain ⟨rule', hrule', _, himage⟩ := h.exists_image hrule
      exact mem_atoms_of_rule hrule' ((himage.positive atom).mpr hpos) rfl
    · rw [← h.statedAtoms_eq] at hstated
      exact mem_atoms_iff.mpr (.inr (.inr (.inr hstated)))

/-- A pass without constraints mentions no other predicate of the source. -/
theorem PassProgram.positivePart_of_mentioned
    (h : PassProgram source negation sourceSchemas program)
    (fresh : FreshNames negation.names) (noConstraints : program.constraints = [])
    {name : String} (unreserved : startsWith name "__wfs_" = false)
    (hname : name ∈ program.mentioned)
    : name ∈ (positivePart source).mentioned := by
  have hreserved {entry : String × String} (hentry : entry ∈ negation.names)
      : entry.2 ≠ name := by
    rintro rfl
    rw [fresh.reserved entry hentry] at unreserved
    exact absurd unreserved.symm Bool.false_ne_true
  rcases mem_mentioned_iff.mp hname with ⟨decl, hdecl, hdeclName⟩ | ⟨atom, hatom, hatomName⟩
  · obtain ⟨decls, hpredicates, hdecls⟩ := h.declared
    rw [hpredicates] at hdecl
    rcases List.mem_append.mp hdecl with hdecl | hdecl
    · exact mem_mentioned_iff.mpr (.inl ⟨decl, hdecl, hdeclName⟩)
    · obtain ⟨i, hi, rfl⟩ := List.getElem_of_mem hdecl
      have hlt : i < negation.names.length := hdecls.length_eq ▸ hi
      have hfixed := (hdecls.get hlt hi).1
      simp only [List.get_eq_getElem] at hfixed
      exact absurd (hfixed.symm.trans hdeclName) (hreserved (List.getElem_mem _))
  · refine mem_mentioned_iff.mpr (.inr ⟨atom, mem_positivePart_atoms.mpr ?_, hatomName⟩)
    rcases mem_atoms_iff.mp hatom with ⟨rule', hrule', rfl⟩ | ⟨rule', hrule', literal, hlit, hlitAtom⟩
      | ⟨constraint', hc', _⟩ | hstated
    · obtain ⟨rule, hrule, hhead, _⟩ := h.exists_rule hrule'
      exact .inl ⟨rule, hrule, hhead.symm⟩
    · obtain ⟨rule, hrule, _, himage⟩ := h.exists_rule hrule'
      rcases himage.atom_cases hlit hlitAtom with hpos | ⟨original, fixed, _, hfixed, heq⟩
      · exact .inr (.inl ⟨rule, hrule, hpos⟩)
      · rw [heq] at hatomName
        exact absurd hatomName (hreserved hfixed)
    · rw [noConstraints] at hc'
      exact absurd hc' List.not_mem_nil
    · rw [h.statedAtoms_eq] at hstated
      exact .inr (.inr hstated)

/-- Queries and constraints as rules mention what they did before, and their own relations. -/
theorem mentioned_of_desugared
    (h : desugarQueriesAndConstraints program = .ok desugared) {name : String}
    (notConstraint : startsWith name "__xlog_constraint_" = false)
    (notQuery : startsWith name "__xlog_query_" = false) (hname : name ∈ desugared.mentioned)
    : name ∈ program.mentioned := by
  have hfields := desugared_eq h
  rcases mem_mentioned_iff.mp hname with ⟨decl, hdecl, hdeclName⟩ | ⟨atom, hatom, hatomName⟩
  · rw [hfields] at hdecl
    exact mem_mentioned_iff.mpr (.inl ⟨decl, hdecl, hdeclName⟩)
  · have hquery {entry : Query × Nat} (hentry : entry ∈ program.queries.zipIdx)
        : entry.1.atom ∈ program.atoms := by
      refine mem_atoms_iff.mpr (.inr (.inr (.inr ?_)))
      simp only [Program.statedAtoms, List.mem_append, List.mem_map]
      exact .inl (.inl (.inl ⟨entry.1, List.fst_mem_of_mem_zipIdx hentry, rfl⟩))
    refine mem_mentioned_iff.mpr ?_
    rcases mem_atoms_iff.mp hatom with ⟨rule, hrule, rfl⟩ | ⟨rule, hrule, literal, hlit, hlitAtom⟩
      | ⟨constraint, hc, literal, hlit, hlitAtom⟩ | hstated
    · rcases (mem_desugared_rules h).mp hrule with hrule | ⟨_, _, index, _, rfl⟩
        | ⟨entry, _, rfl⟩
      · exact .inr ⟨_, mem_atoms_of_head hrule, hatomName⟩
      · rw [← hatomName, startsWith_constraintRelation] at notConstraint
        exact absurd notConstraint.symm Bool.false_ne_true
      · rw [← hatomName] at notQuery
        exact absurd (startsWith_queryRelation entry.2) (by rw [Bool.not_eq_true]; exact notQuery)
    · rcases (mem_desugared_rules h).mp hrule with hrule | ⟨constraint, hc, index, _, rfl⟩
        | ⟨entry, hentry, rfl⟩
      · exact .inr ⟨atom, mem_atoms_of_rule hrule hlit hlitAtom, hatomName⟩
      · exact .inr ⟨atom, mem_atoms_of_constraint hc hlit hlitAtom, hatomName⟩
      · rw [List.mem_singleton.mp hlit] at hlitAtom
        cases hlitAtom
        exact .inr ⟨_, hquery hentry, hatomName⟩
    · have hprogram : constraint ∈ program.constraints := by
        rw [hfields] at hc
        exact hc
      exact .inr ⟨atom, mem_atoms_of_constraint hprogram hlit hlitAtom, hatomName⟩
    · rw [hfields] at hstated
      exact .inr ⟨atom, mem_atoms_iff.mpr (.inr (.inr (.inr hstated))), hatomName⟩

theorem desugared_mentioned (h : desugarQueriesAndConstraints program = .ok desugared)
    {name : String} (hname : name ∈ program.mentioned)
    : name ∈ desugared.mentioned := by
  have hfields := desugared_eq h
  rcases mem_mentioned_iff.mp hname with ⟨decl, hdecl, rfl⟩ | ⟨atom, hatom, rfl⟩
  · refine mem_mentioned_iff.mpr (.inl ⟨decl, ?_, rfl⟩)
    rw [hfields]
    exact hdecl
  · refine mem_mentioned_of_atom ?_
    rcases mem_atoms_iff.mp hatom with ⟨rule, hrule, rfl⟩ | ⟨rule, hrule, literal, hlit, hlitAtom⟩
      | hconstraint | hstated
    · exact mem_atoms_of_head ((mem_desugared_rules h).mpr (.inl hrule))
    · exact mem_atoms_of_rule ((mem_desugared_rules h).mpr (.inl hrule)) hlit hlitAtom
    · rw [hfields]
      exact mem_atoms_iff.mpr (.inr (.inr (.inl hconstraint)))
    · rw [hfields]
      exact mem_atoms_iff.mpr (.inr (.inr (.inr hstated)))

/-- No pass derives what it negates: only frozen relations are negated. -/
theorem PassProgram.negationFrozen (h : PassProgram source negation sourceSchemas program)
    (fresh : FreshNames negation.names) (wellFormed : WellFormedSource source arity)
    (hdesugared : desugarQueriesAndConstraints program = .ok desugared)
    : NegationFrozen desugared := by
  intro rule hrule atom hneg other hother heq
  have hreserved : startsWith atom.predicate "__wfs_" = true := by
    have hbody {body body' : List BodyLiteral} (himage : BodyImage negation body body')
        (hmem : .negated atom ∈ body') : startsWith atom.predicate "__wfs_" = true := by
      obtain ⟨original, _, hrun⟩ := (himage.negated atom).mp hmem
      rcases transformWfsLiteral_negated hrun with ⟨hnone, _⟩ | ⟨_, _, _, rfl, hname, heq⟩
      · cases hnone
      · cases heq
        exact fresh.reserved _ (mem_of_lookup hname)
    rcases (mem_desugared_rules hdesugared).mp hrule with hrule | ⟨constraint, hc, _, _, rfl⟩
      | ⟨entry, _, rfl⟩
    · obtain ⟨_, _, _, himage⟩ := h.exists_rule hrule
      exact hbody himage hneg
    · obtain ⟨_, _, _, himage⟩ := h.constraints constraint hc
      exact hbody himage hneg
    · simp [queryRule] at hneg
  have hunreserved : startsWith other.head.predicate "__wfs_" = false := by
    rcases (mem_desugared_rules hdesugared).mp hother with hother | ⟨_, _, index, _, rfl⟩
      | ⟨entry, _, rfl⟩
    · obtain ⟨rule, hrule, hhead, _⟩ := h.exists_rule hother
      rw [hhead]
      exact (wellFormed.unreserved _ (mem_mentioned_of_atom (mem_atoms_of_head hrule))).1
    · exact constraintRelation_unreserved index
    · exact queryRelation_unreserved entry.2
  rw [heq, hreserved] at hunreserved
  exact absurd hunreserved.symm Bool.false_ne_true

end

-- Seeds

section

variable {V Plan : Type} (pass : GpuOrdinaryPass Plan) (base : RelationStore V)

theorem isSome_seededStore (name : String)
    : (seededStore pass base name).isSome = (pass.schemas name).isSome := by
  simp [seededStore]

theorem seededStore_of_unreserved {name : String}
    (notConstraint : startsWith name "__xlog_constraint_" = false)
    (notQuery : startsWith name "__xlog_query_" = false)
    : seededStore pass base name
      = (pass.schemas name).map fun schema => (base name).getD (.empty schema) := by
  simp [seededStore, notConstraint, notQuery]

/-- A pass starts with the tuples of the base store, for the predicates it has columns of. -/
theorem mem_atomsOf_seededStore {a : GroundAtom V}
    (notConstraint : startsWith a.1 "__xlog_constraint_" = false)
    (notQuery : startsWith a.1 "__xlog_query_" = false)
    : a ∈ atomsOf (seededStore pass base)
      ↔ (∃ schema, pass.schemas a.1 = some schema) ∧ a ∈ atomsOf base := by
  obtain ⟨name, row⟩ := a
  simp only [atomsOf, Set.mem_ofPred_eq,
    seededStore_of_unreserved pass base notConstraint notQuery]
  cases hschema : pass.schemas name with
  | none => simp
  | some schema =>
      cases hbase : base name with
      | none => simp [Buffer.empty]
      | some buffer => simp

/-- Constraint relations start empty. -/
theorem constraint_notMem_seededStore (index : Nat) (row : List V)
    : (constraintRelation index, row) ∉ atomsOf (seededStore pass base) := by
  intro h
  obtain ⟨buffer, hbuffer, hrow⟩ := h
  simp only [seededStore, startsWith_constraintRelation, Bool.or_true, if_true,
    Option.map_eq_some_iff] at hbuffer
  obtain ⟨schema, _, rfl⟩ := hbuffer
  simp [Buffer.empty] at hrow

end

-- Runs

section

variable {V Plan : Type} (reading : Reading V) (context : GpuContext V Plan)
  (source program : Program) (negation : WfsNegationTransform) (sourceSchemas : Schemas)
  (arity : String → Nat) (pass : GpuOrdinaryPass Plan) (base origin : RelationStore V)

/-- What a pass is given: its program, the base store, and the store that the frozen relations
are filled from.
-/
structure PassSetup : Prop where
  contract : PassEvaluates reading context source program pass
  program : PassProgram source negation sourceSchemas program
  fresh : FreshNames negation.names
  wellFormed : WellFormedSource source arity
  units : ReadsUnit reading context
  columns : ∀ entry ∈ negation.names, ∀ schema, sourceSchemas entry.1 = some schema
    → schema.arity = arity entry.1
  negated : ∀ entry ∈ negation.names, entry.1 ∈ source.mentioned
  baseArity : StoreHasArity source arity base
  originArity : StoreHasArity source arity origin

/-- What a pass does: the store it fills and executes on, and the store it leaves. -/
structure PassRun (desugared : Program) (store out : RelationStore V) : Prop where
  desugars : desugarQueriesAndConstraints program = .ok desugared
  runs : runGpuOrdinaryPass context pass base (withStore negation.names origin) = .ok out
  kept : ∀ name, name ∉ negation.names.map Prod.snd → store name = seededStore pass base name
  filled : ∀ entry ∈ negation.names, ∃ buffer schema, store entry.2 = some buffer
    ∧ pass.schemas entry.2 = some schema ∧ schema.arity = fixedColumns (arity entry.1)
    ∧ gpuCloneOrEmpty context pass.schemas entry.1 entry.2 origin = .ok buffer
  schemas : ∀ name, (out name).map Buffer.schema = (store name).map Buffer.schema
  model : ∀ a, a.1 ∈ desugared.mentioned
    → (a ∈ atomsOf out ↔ a ∈ consequences (groundRules reading desugared.rules (atomsOf store))
      (atomsOf store))

variable {reading context source program negation sourceSchemas arity pass base origin}

theorem PassSetup.mem_mentioned
    (h : PassSetup reading context source program negation sourceSchemas arity pass base origin)
    {entry : String × String} (hentry : entry ∈ negation.names)
    : entry.2 ∈ program.mentioned := by
  obtain ⟨decls, hpredicates, hdecls⟩ := h.program.declared
  obtain ⟨i, hi, rfl⟩ := List.getElem_of_mem hentry
  have hlt : i < decls.length := hdecls.length_eq ▸ hi
  have hname := (hdecls.get hi hlt).1
  simp only [List.get_eq_getElem] at hname
  refine mem_mentioned_iff.mpr (.inl ⟨decls[i], ?_, hname⟩)
  rw [hpredicates]
  exact List.mem_append_right _ (List.getElem_mem _)

/-- The seeds have the columns of the pass. -/
theorem PassSetup.seeded_arity
    (h : PassSetup reading context source program negation sourceSchemas arity pass base origin)
    {desugared : Program} (hdesugars : desugarQueriesAndConstraints program = .ok desugared)
    {name : String} (hname : name ∈ desugared.mentioned)
    (notFixed : name ∉ negation.names.map Prod.snd) {schema : Schema}
    (hschema : pass.schemas name = some schema) {buffer : Buffer V}
    (hbuffer : seededStore pass base name = some buffer)
    : buffer.schema.arity = schema.arity := by
  simp only [seededStore, hschema, Option.map_some, Option.some.injEq] at hbuffer
  subst hbuffer
  by_cases hgenerated : (startsWith name "__xlog_query_"
      || startsWith name "__xlog_constraint_") = true
  · simp [hgenerated, Buffer.empty]
  · simp only [Bool.not_eq_true, Bool.or_eq_false_iff] at hgenerated
    have hprogram := mentioned_of_desugared hdesugars hgenerated.2 hgenerated.1 hname
    have hsource := (h.program.mentioned_cases hprogram).resolve_right notFixed
    simp only [hgenerated, Bool.or_self, Bool.false_eq_true, if_false]
    cases hbase : base name with
    | none => rfl
    | some original =>
        have harity := h.contract.arity _ (h.program.hasArity h.fresh h.wellFormed h.columns) _
          hprogram schema hschema
        rw [fixedArity_of_unreserved arity h.fresh (h.wellFormed.unreserved name hsource).1]
          at harity
        rw [harity]
        exact h.baseArity name hsource original hbase

theorem PassSetup.exists_run
    (h : PassSetup reading context source program negation sourceSchemas arity pass base origin)
    : ∃ desugared store out, PassRun reading context program negation arity pass base origin
        desugared store out := by
  obtain ⟨desugared, hdesugars⟩ := h.contract.desugars
  have hschema {entry : String × String} (hentry : entry ∈ negation.names)
      : ∃ schema, pass.schemas entry.2 = some schema :=
    h.contract.mentioned desugared hdesugars _
      (desugared_mentioned hdesugars (h.mem_mentioned hentry))
  have hnames : (withStore negation.names origin).map (·.2.1) = negation.names.map Prod.snd := by
    simp [withStore, Function.comp_def]
  obtain ⟨store, hstore, hkept, hfilled⟩ := addFixedRelations_spec context pass
    (withStore negation.names origin) (hnames ▸ h.fresh.distinct)
    (by
      intro entry hentry
      obtain ⟨source, hsource, rfl⟩ := List.mem_map.mp hentry
      exact hschema hsource)
    (seededStore pass base)
  have hfixed : ∀ entry ∈ negation.names, ∃ buffer, store entry.2 = some buffer
      ∧ gpuCloneOrEmpty context pass.schemas entry.1 entry.2 origin = .ok buffer := by
    intro entry hentry
    exact hfilled (entry.1, entry.2, origin) (List.mem_map_of_mem hentry)
  have hsome (name : String) : (store name).isSome = (pass.schemas name).isSome := by
    by_cases hmem : name ∈ negation.names.map Prod.snd
    · obtain ⟨entry, hentry, rfl⟩ := List.mem_map.mp hmem
      obtain ⟨buffer, hbuffer, _⟩ := hfixed entry hentry
      obtain ⟨schema, hschema⟩ := hschema hentry
      rw [hbuffer, hschema]
      rfl
    · rw [hkept name (hnames ▸ hmem), isSome_seededStore]
  have hcolumns {entry : String × String} (hentry : entry ∈ negation.names) {schema : Schema}
      (hschema : pass.schemas entry.2 = some schema)
      : schema.arity = fixedColumns (arity entry.1) := by
    have harity := h.contract.arity _ (h.program.hasArity h.fresh h.wellFormed h.columns) _
      (h.mem_mentioned hentry) schema hschema
    rwa [fixedArity_of_mem arity h.fresh.distinct hentry] at harity
  have harities : ∀ name ∈ desugared.mentioned, ∀ schema buffer,
      pass.schemas name = some schema → store name = some buffer
      → buffer.schema.arity = schema.arity := by
    intro name hname schema buffer hschema hbuffer
    by_cases hmem : name ∈ negation.names.map Prod.snd
    · obtain ⟨entry, hentry, rfl⟩ := List.mem_map.mp hmem
      obtain ⟨found, hfound, hclone⟩ := hfixed entry hentry
      rw [hfound] at hbuffer
      cases hbuffer
      exact gpuCloneOrEmpty_arity context hschema (hcolumns hentry hschema)
        (h.originArity _ (h.negated entry hentry)) hclone
    · rw [hkept name (hnames ▸ hmem)] at hbuffer
      exact h.seeded_arity hdesugars hname hmem hschema hbuffer
  obtain ⟨out, hout, hschemas, hmodel⟩ := h.contract.evaluates desugared hdesugars
    (h.program.negationFrozen h.fresh h.wellFormed hdesugars) store hsome harities
  refine ⟨desugared, store, out, hdesugars, ?_, fun name hmem => hkept name (hnames ▸ hmem), ?_,
    hschemas, hmodel⟩
  · simp [runGpuOrdinaryPass, hstore, hout]
  · intro entry hentry
    obtain ⟨buffer, hbuffer, hclone⟩ := hfixed entry hentry
    obtain ⟨schema, hschema⟩ := hschema hentry
    exact ⟨buffer, schema, hbuffer, hschema, hcolumns hentry hschema, hclone⟩

variable {desugared : Program} {store out : RelationStore V}

/-- The negated literals of the pass read the frozen set in place of the source's ones. -/
theorem PassRun.reads
    (run : PassRun reading context program negation arity pass base origin desugared store out)
    (h : PassSetup reading context source program negation sourceSchemas arity pass base origin)
    {frozen : Set (GroundAtom V)} (dropped : negation = .drop → frozen = ∅)
    (renamed : ∀ a, a.1 ∈ source.mentioned → negation ≠ .drop → (a ∈ frozen ↔ a ∈ atomsOf origin))
    : ReadsFrozen reading source negation frozen (atomsOf store) where
  dropped := dropped
  renamed atom hatom fixed hrun assignment := by
    rcases transformWfsLiteral_negated hrun with ⟨hnone, _⟩ | ⟨_, _, name, rfl, hname, himage⟩
    · cases hnone
    cases himage
    have hmentioned := mem_mentioned_of_atom hatom
    have harity := h.wellFormed.arities.atoms atom hatom
    obtain ⟨buffer, schema, hbuffer, hschema, hcolumns, hclone⟩ :=
      run.filled (atom.predicate, name) (mem_of_lookup hname)
    rw [← fixedAtom_reads context h.units hschema (by rw [hcolumns, harity])
      (fun buffer hbuffer => by rw [harity]; exact h.originArity _ hmentioned buffer hbuffer)
      hclone hbuffer assignment]
    refine forall₂_congr fun a hstands => not_congr (renamed a ?_ (by simp))
    rw [hstands.1]
    exact hmentioned

end

end Xlog.Gpu
