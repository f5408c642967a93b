import Xlog.Gpu.WfsPass

/-! The least model that a pass leaves, over the source's predicates, and the constraints; the rounds of the
alternating loop follow the alternation of least models.
-/

namespace Xlog.Gpu

open Xlog.Core Xlog.Foundation Xlog.Logic

/-- Tuples of the base store belong to predicates that every pass mentions. -/
def Covered {V : Type} (source : Program) (base : RelationStore V) : Prop :=
  ∀ a ∈ atomsOf base, a.1 ∈ source.mentioned → a.1 ∈ (positivePart source).mentioned

section

variable {V Plan : Type} {reading : Reading V} {context : GpuContext V Plan}
  {source program : Program} {negation : WfsNegationTransform} {sourceSchemas : Schemas}
  {arity : String → Nat} {pass : GpuOrdinaryPass Plan} {base origin : RelationStore V}
  {desugared : Program} {store out : RelationStore V} {frozen : Set (GroundAtom V)}

/-- Positive atoms of a firing rule are tuples of the predicates that the rule mentions. -/
theorem Fires.pos_mentioned {rule : Rule} {head : GroundAtom V} {pos : Set (GroundAtom V)}
    (h : Fires reading rule frozen head pos) (hrule : rule ∈ source.rules)
    : ∀ a ∈ pos, a.1 ∈ source.mentioned := by
  intro a ha
  obtain ⟨_, _, _, honly, _, _⟩ := h
  obtain ⟨atom, hmem, hstands⟩ := honly a ha
  rw [hstands.1]
  exact mem_mentioned_of_atom (mem_atoms_of_rule hrule hmem rfl)

/-- The rules after the transform derive tuples of predicates they mention. -/
theorem head_mentioned_of_instance {rule : Rule} {g : NormalRule (GroundAtom V)}
    (hrule : rule ∈ program.rules) (hg : g ∈ instances reading rule)
    : g.head.1 ∈ program.mentioned := by
  obtain ⟨_, hstands, _⟩ := hg
  rw [hstands.1]
  exact mem_mentioned_of_atom (mem_atoms_of_head hrule)

section

variable
  (run : PassRun reading context program negation arity pass base origin desugared store out)
  (setup : PassSetup reading context source program negation sourceSchemas arity pass base origin)
  (reads : ReadsFrozen reading source negation frozen (atomsOf store))

include run setup

/-- The store that a pass executes on has the base tuples of its predicates. -/
theorem PassRun.mem_store_iff {a : GroundAtom V} (ha : a.1 ∈ source.mentioned)
    : a ∈ atomsOf store ↔ (∃ schema, pass.schemas a.1 = some schema) ∧ a ∈ atomsOf base := by
  have hunreserved := setup.wellFormed.unreserved a.1 ha
  have hkept : store a.1 = seededStore pass base a.1 := by
    refine run.kept a.1 fun hmem => ?_
    obtain ⟨entry, hentry, heq⟩ := List.mem_map.mp hmem
    have hreserved := setup.fresh.reserved entry hentry
    rw [heq, hunreserved.1] at hreserved
    exact absurd hreserved Bool.false_ne_true
  rw [← mem_atomsOf_seededStore pass base hunreserved.2.2 hunreserved.2.1]
  simp only [atomsOf, Set.mem_ofPred_eq, hkept]

include reads

/-- What the pass derives for the source's predicates, the source's rules derive. -/
theorem PassRun.model_subset
    : consequences (groundRules reading desugared.rules (atomsOf store)) (atomsOf store)
        ∩ { a | a.1 ∈ source.mentioned }
      ⊆ consequences (modelRules reading source base) frozen := by
  refine consequences_inter_subset fun g hg hscope hneg => ?_
  rcases hg with ⟨rule', hrule', hg⟩ | ⟨a, ha, rfl⟩
  · have hhead : g.head.1 = rule'.head.predicate := by
      obtain ⟨_, hstands, _⟩ := hg
      exact hstands.1
    have hunreserved := setup.wellFormed.unreserved _ hscope
    rcases (mem_desugared_rules run.desugars).mp hrule' with hmem | ⟨_, _, index, _, rfl⟩
      | ⟨entry, _, rfl⟩
    · obtain ⟨rule, hrule, hruleHead, himage⟩ := setup.program.exists_rule hmem
      have hfires := (fires_image_iff hruleHead himage reads
        (fun atom hatom => mem_atoms_of_rule hrule hatom rfl) setup.units.unit).mp
        (fires_of_instance reading hg hneg)
      obtain ⟨other, hother, hotherHead, hotherPos, hotherNeg⟩ := hfires.exists_instance
      refine ⟨other, .inl ⟨rule, hrule, hother⟩, hotherHead, ?_, hotherNeg⟩
      exact fun b hb => ⟨hotherPos ▸ hb, hfires.pos_mentioned hrule b (hotherPos ▸ hb)⟩
    · rw [hhead, startsWith_constraintRelation] at hunreserved
      exact absurd hunreserved.2.2.symm Bool.false_ne_true
    · have hquery := startsWith_queryRelation entry.2
      rw [hhead] at hunreserved
      exact absurd (hunreserved.2.1.symm.trans hquery) Bool.false_ne_true
  · have hbase := ((run.mem_store_iff setup hscope).mp ha).2
    exact ⟨⟨a, ∅, ∅⟩, .inr ⟨a, ⟨hbase, hscope⟩, rfl⟩, rfl, Set.empty_subset _,
      Set.empty_disjoint _⟩

/-- What the source's rules derive, the pass derives. -/
theorem PassRun.subset_model (covered : Covered source base)
    : consequences (modelRules reading source base) frozen
        ∩ { a | a.1 ∈ source.mentioned }
      ⊆ consequences (groundRules reading desugared.rules (atomsOf store)) (atomsOf store) := by
  refine consequences_inter_subset fun g hg hscope hneg => ?_
  rcases hg with ⟨rule, hrule, hg⟩ | ⟨a, ⟨hbase, _⟩, rfl⟩
  · obtain ⟨rule', hrule', hhead, himage⟩ := setup.program.exists_image hrule
    have hsource := fires_of_instance reading hg hneg
    have hfires := (fires_image_iff hhead himage reads
      (fun atom hatom => mem_atoms_of_rule hrule hatom rfl) setup.units.unit).mpr hsource
    obtain ⟨other, hother, hotherHead, hotherPos, hotherNeg⟩ := hfires.exists_instance
    refine ⟨other, .inl ⟨rule', ?_, hother⟩, hotherHead, ?_, hotherNeg⟩
    · exact (mem_desugared_rules run.desugars).mpr (.inl hrule')
    · exact fun b hb => ⟨hotherPos ▸ hb, hsource.pos_mentioned hrule b (hotherPos ▸ hb)⟩
  · have hschema := setup.contract.mentioned desugared run.desugars a.1
      (desugared_mentioned run.desugars
        (setup.program.mentioned_of_positivePart (covered a hbase hscope)))
    have hstore := (run.mem_store_iff setup hscope).mpr ⟨hschema, hbase⟩
    exact ⟨⟨a, ∅, ∅⟩, .inr ⟨a, hstore, rfl⟩, rfl, Set.empty_subset _, Set.empty_disjoint _⟩

/-- A pass leaves the least model of the source's rules under the frozen reading. -/
theorem PassRun.mem_out_iff (covered : Covered source base) {a : GroundAtom V}
    (ha : a.1 ∈ source.mentioned)
    : a ∈ atomsOf out ↔ a ∈ consequences (modelRules reading source base) frozen := by
  have hmodel : a ∈ consequences (groundRules reading desugared.rules (atomsOf store))
        (atomsOf store)
      ↔ a ∈ consequences (modelRules reading source base) frozen :=
    ⟨fun h => run.model_subset setup reads ⟨h, ha⟩,
      fun h => run.subset_model setup reads covered ⟨h, ha⟩⟩
  by_cases hmem : a.1 ∈ desugared.mentioned
  · rw [run.model a hmem, hmodel]
  · -- the pass has no relation of this name, and no rule for it
    have hnone := setup.contract.fresh desugared run.desugars a.1 ha hmem
    have hstore : a ∉ atomsOf store := by
      rw [run.mem_store_iff setup ha, hnone]
      simp
    have hout : a ∉ atomsOf out := by
      intro h
      obtain ⟨buffer, hbuffer, _⟩ := h
      have hschema := run.schemas a.1
      have hkept : store a.1 = seededStore pass base a.1 := by
        refine run.kept a.1 fun hfixed => ?_
        obtain ⟨entry, hentry, heq⟩ := List.mem_map.mp hfixed
        exact hmem (heq ▸ desugared_mentioned run.desugars (setup.mem_mentioned hentry))
      rw [hbuffer, hkept, seededStore, hnone] at hschema
      cases hschema
    refine iff_of_false hout fun h => ?_
    obtain ⟨g, hg, rfl, _, _⟩ := exists_rule_of_mem_consequences (hmodel.mpr h)
    rcases hg with ⟨rule, hrule, hg⟩ | ⟨b, hb, rfl⟩
    · exact hmem (head_mentioned_of_instance hrule hg)
    · exact hstore hb

omit reads in
/-- The relation of a constraint is derived by the rule of that constraint alone. -/
theorem PassRun.constraint_of_head {constraint' : Constraint} {index : Nat}
    (hconstraint' : constraint' ∈ program.constraints)
    (hindex : constraint'.authoredIndex = some index) {rule : Rule}
    (hrule : rule ∈ desugared.rules) (hname : rule.head.predicate = constraintRelation index)
    : rule.body = constraint'.body := by
  rcases (mem_desugared_rules run.desugars).mp hrule with hmem | ⟨other, hother, number, hnumber, rfl⟩
    | ⟨entry, _, rfl⟩
  · obtain ⟨original, horiginal, heq, _⟩ := setup.program.exists_rule hmem
    have hunreserved := setup.wellFormed.unreserved _
      (mem_mentioned_of_atom (mem_atoms_of_head horiginal))
    rw [← heq, hname, startsWith_constraintRelation] at hunreserved
    exact absurd hunreserved.2.2.symm Bool.false_ne_true
  · obtain rfl : number = index := constraintRelation_injective hname
    -- the indices of the constraints are distinct
    obtain rfl : other = constraint' :=
      List.inj_on_of_nodup_map setup.contract.identities hother hconstraint'
        (hnumber.trans hindex.symm)
    rfl
  · exact absurd hname.symm (constraintRelation_ne_queryRelation index entry.2)

omit reads in
/-- A pass starts without tuples of constraint relations. -/
theorem PassRun.constraint_notMem_store (index : Nat) (row : List V)
    : (constraintRelation index, row) ∉ atomsOf store := by
  intro h
  obtain ⟨buffer, hbuffer, hmem⟩ := h
  refine constraint_notMem_seededStore pass base index row ⟨buffer, ?_, hmem⟩
  rw [← run.kept _ ?_]
  · exact hbuffer
  · intro hfixed
    obtain ⟨entry, hentry, heq⟩ := List.mem_map.mp hfixed
    have hreserved := setup.fresh.reserved entry hentry
    rw [heq, constraintRelation_unreserved] at hreserved
    exact absurd hreserved Bool.false_ne_true

/-- A constraint relation has a tuple exactly when the body holds, its negated atoms against
the frozen set.
-/
theorem PassRun.constraint_iff {constraint constraint' : Constraint} {index : Nat}
    (hconstraint : constraint ∈ source.constraints)
    (hconstraint' : constraint' ∈ program.constraints)
    (hindex : constraint'.authoredIndex = some index)
    (himage : BodyImage negation constraint.body constraint'.body)
    : (∃ row, (constraintRelation index, row) ∈ atomsOf out)
      ↔ ∃ assignment, BodyDerives reading (atomsOf out) frozen assignment constraint.body := by
  have within : ∀ atom, .negated atom ∈ constraint.body → atom ∈ source.atoms :=
    fun atom hmem => mem_atoms_of_constraint hconstraint hmem rfl
  have hrule : (⟨⟨constraintRelation index, [.integer 1]⟩, constraint'.body⟩ : Rule)
      ∈ desugared.rules :=
    (mem_desugared_rules run.desugars).mpr
      (.inr (.inl ⟨constraint', hconstraint', index, hindex, rfl⟩))
  have hmentioned : constraintRelation index ∈ desugared.mentioned :=
    mem_mentioned_of_atom (mem_atoms_of_head hrule)
  -- the positive atoms of the body are read in the model that the pass leaves
  have hbody (assignment : reading.Assignment)
      : BodyDerives reading
          (consequences (groundRules reading desugared.rules (atomsOf store)) (atomsOf store))
          (atomsOf store) assignment constraint'.body
        ↔ BodyDerives reading (atomsOf out) frozen assignment constraint.body := by
    unfold BodyDerives
    rw [himage.builtinsHold_iff (setup.units.unit assignment),
      himage.open_iff reads within assignment]
    simp only [himage.positive]
    refine and_congr_right fun _ => and_congr_left fun _ => forall₂_congr fun atom hatom =>
      exists_congr fun a => and_congr_left fun hstands => (run.model a ?_).symm
    rw [hstands.1]
    exact mem_mentioned_of_atom
      (mem_atoms_of_rule hrule ((himage.positive atom).mpr hatom) rfl)
  constructor
  · intro hex
    obtain ⟨row, hrow⟩ := hex
    rcases (mem_consequences_iff reading).mp ((run.model _ hmentioned).mp hrow) with hstore
      | ⟨rule, hmem, assignment, hstands, hderives⟩
    · exact absurd hstore (run.constraint_notMem_store setup index row)
    · rw [run.constraint_of_head setup hconstraint' hindex hmem hstands.1.symm] at hderives
      exact ⟨assignment, (hbody assignment).mp hderives⟩
  · intro hex
    obtain ⟨assignment, hderives⟩ := hex
    refine ⟨[context.marker], (run.model _ hmentioned).mpr ((mem_consequences_iff reading).mpr
      (.inr ⟨_, hrule, assignment, ⟨rfl, ?_⟩, (hbody assignment).mpr hderives⟩))⟩
    exact .cons (setup.units.marker assignment) .nil

end

end

-- Convergence test

section

variable {V Plan : Type} (context : GpuContext V Plan)

/-- A relation is read as it is when its columns are those of the schema. -/
theorem gpuCloneOrEmpty_self {schemas : Schemas} {pred : String} {schema : Schema}
    (store : RelationStore V) (hschema : schemas pred = some schema)
    (columns : ∀ buffer, store pred = some buffer → buffer.schema.arity = schema.arity)
    : gpuCloneOrEmpty context schemas pred pred store
      = .ok ((store pred).getD (.empty schema)) := by
  simp only [gpuCloneOrEmpty, hschema, Option.some_or]
  cases hbuffer : store pred with
  | none => rfl
  | some buffer =>
      have hunit : ¬ (buffer.schema.arity = 0 ∧ schema.arity = 1) := by
        rw [columns buffer hbuffer]
        omega
      simp [hunit]

theorem buffersGpuSetEquivalent_iff [DecidableEq V] {left right : Buffer V}
    : buffersGpuSetEquivalent left right = true
      ↔ left.schema = right.schema ∧ left.rows = right.rows := by
  simp only [buffersGpuSetEquivalent, Bool.and_eq_true, decide_eq_true_eq, Finset.card_eq_zero,
    Finset.sdiff_eq_empty_iff_subset]
  constructor
  · intro h
    exact ⟨h.1.1.1, subset_antisymm h.1.2 h.2⟩
  · intro h
    exact ⟨⟨⟨h.1, congrArg Finset.card h.2⟩, h.2.subset⟩, h.2.superset⟩

/-- The test of the stores is the test of the relations, by list induction. -/
theorem gpuStoresEquivalent_spec [DecidableEq V] (schemas : Schemas)
    (left right : RelationStore V) (arity : String → Nat) (predicates : List String)
    (hschemas : ∀ pred ∈ predicates, ∃ schema, schemas pred = some schema
      ∧ schema.arity = arity pred)
    (hleft : ∀ pred ∈ predicates, ∀ buffer, left pred = some buffer
      → buffer.schema.arity = arity pred)
    (hright : ∀ pred ∈ predicates, ∀ buffer, right pred = some buffer
      → buffer.schema.arity = arity pred)
    : ∃ converged, gpuStoresEquivalent context schemas left right predicates = .ok converged
      ∧ (converged = true ↔ ∀ pred ∈ predicates, ∀ schema, schemas pred = some schema
        → buffersGpuSetEquivalent ((left pred).getD (.empty schema))
          ((right pred).getD (.empty schema)) = true) := by
  induction predicates with
  | nil => exact ⟨true, rfl, by simp⟩
  | cons pred predicates ih =>
      obtain ⟨schema, hschema, harity⟩ := hschemas pred List.mem_cons_self
      obtain ⟨converged, hrun, hiff⟩ := ih
        (fun p hp => hschemas p (List.mem_cons_of_mem _ hp))
        (fun p hp => hleft p (List.mem_cons_of_mem _ hp))
        (fun p hp => hright p (List.mem_cons_of_mem _ hp))
      have hcloneLeft := gpuCloneOrEmpty_self context left hschema fun buffer hbuffer =>
        (hleft pred List.mem_cons_self buffer hbuffer).trans harity.symm
      have hcloneRight := gpuCloneOrEmpty_self context right hschema fun buffer hbuffer =>
        (hright pred List.mem_cons_self buffer hbuffer).trans harity.symm
      simp only [gpuStoresEquivalent, hcloneLeft, hcloneRight, ok_bind]
      by_cases hsame : buffersGpuSetEquivalent ((left pred).getD (.empty schema))
          ((right pred).getD (.empty schema)) = true
      · refine ⟨converged, by simp [hsame, hrun], ?_⟩
        rw [hiff, List.forall_mem_cons]
        simp [hschema, hsame]
      · refine ⟨false, by simp [hsame], ?_⟩
        simp [hschema, hsame]

end

-- Setup

section

variable {V Plan : Type} (reading : Reading V) (context : GpuContext V Plan) (source : Program)
  (arity : String → Nat) (base : RelationStore V) (wfs : EpistemicWfsGpuPlan Plan)

/-- A pass of the plan, whatever store its frozen relations come from. -/
def PassReady (program : Program) (negation : WfsNegationTransform) (sourceSchemas : Schemas)
    (pass : GpuOrdinaryPass Plan) : Prop :=
  ∀ origin, StoreHasArity source arity origin
    → PassSetup reading context source program negation sourceSchemas arity pass base origin

/-- The plan of a source program: its passes and what they were compiled from. -/
structure WfsSetup (sourceSchemas : Schemas)
    (overapproxProgram lowerProgram upperProgram : Program) : Prop where
  overapprox : PassReady reading context source arity base overapproxProgram .drop sourceSchemas
    wfs.overapprox
  lower : PassReady reading context source arity base lowerProgram
    (.rename wfs.upperFixedNames sourceSchemas) sourceSchemas wfs.lower
  upper : PassReady reading context source arity base upperProgram
    (.rename wfs.lowerFixedNames sourceSchemas) sourceSchemas wfs.upper
  upperConstraints : upperProgram.constraints = []
  lowerConstraints : List.Forall₂ (fun constraint constraint' =>
      constraint'.authoredIndex = constraint.authoredIndex
        ∧ BodyImage (.rename wfs.upperFixedNames sourceSchemas) constraint.body constraint'.body)
    source.constraints lowerProgram.constraints
  intensional : wfs.intensionalPredicates = wfsIntensionalPredicates source
  baseArity : StoreHasArity source arity base
  wellFormed : WellFormedSource source arity

variable {reading context source arity base wfs} {sourceSchemas : Schemas}
  {overapproxProgram lowerProgram upperProgram : Program}

theorem WfsSetup.withIterations
    (setup : WfsSetup reading context source arity base wfs sourceSchemas overapproxProgram
      lowerProgram upperProgram) (maxIterations : Nat)
    : WfsSetup reading context source arity base { wfs with maxIterations } sourceSchemas
        overapproxProgram lowerProgram upperProgram :=
  ⟨setup.overapprox, setup.lower, setup.upper, setup.upperConstraints, setup.lowerConstraints,
    setup.intensional, setup.baseArity, setup.wellFormed⟩

theorem mem_wfsIntensionalPredicates {name : String}
    : name ∈ wfsIntensionalPredicates source
      ↔ ∃ rule ∈ source.rules, rule.isFact = false ∧ rule.head.predicate = name := by
  simp [wfsIntensionalPredicates, Program.properRules, and_assoc]

/-- Other predicates have the facts alone, however negation is read. -/
theorem mem_consequences_of_notIntensional {a : GroundAtom V}
    (h : a.1 ∉ wfsIntensionalPredicates source) (frozen other : Set (GroundAtom V))
    (ha : a ∈ consequences (modelRules reading source base) frozen)
    : a ∈ consequences (modelRules reading source base) other := by
  obtain ⟨g, hg, rfl, _, _⟩ := exists_rule_of_mem_consequences ha
  have hbody : g.pos = ∅ ∧ g.neg = ∅ := by
    rcases hg with ⟨rule, hrule, assignment, hstands, hbody⟩ | ⟨b, _, rfl⟩
    · have hnil : rule.body = [] := by
        by_contra hne
        refine h (mem_wfsIntensionalPredicates.mpr ⟨rule, hrule, ?_, hstands.1.symm⟩)
        simpa [Rule.isFact] using hne
      constructor
      · refine Set.eq_empty_of_forall_notMem fun b hb => ?_
        obtain ⟨atom, hmem, _⟩ := hbody.only b hb
        simp [hnil] at hmem
      · rw [hbody.negated]
        simp [hnil]
    · exact ⟨rfl, rfl⟩
  refine head_mem_consequences hg ?_ ?_
  · rw [hbody.1]
    exact Set.empty_subset _
  · rw [hbody.2]
    exact Set.empty_disjoint _

-- One pass

/-- What a pass leaves behind: the model for the source's predicates, with the columns that the
seeds had.
-/
structure PassLeaves (reading : Reading V) (source : Program) (arity : String → Nat)
    (base : RelationStore V) (pass : GpuOrdinaryPass Plan) (frozen : Set (GroundAtom V))
    (out : RelationStore V) : Prop where
  model : ∀ a, a.1 ∈ source.mentioned
    → (a ∈ atomsOf out ↔ a ∈ consequences (modelRules reading source base) frozen)
  columns : ∀ name ∈ source.mentioned,
    (out name).map Buffer.schema = (seededStore pass base name).map Buffer.schema
  arity : StoreHasArity source arity out

variable {program : Program} {negation : WfsNegationTransform} {pass : GpuOrdinaryPass Plan}
  {origin : RelationStore V} {desugared : Program} {store out : RelationStore V}

section

variable
  (run : PassRun reading context program negation arity pass base origin desugared store out)
  (setup : PassSetup reading context source program negation sourceSchemas arity pass base origin)

include run setup

/-- A pass keeps the columns of its seeds. -/
theorem PassRun.columns {name : String} (hname : name ∈ source.mentioned)
    : (out name).map Buffer.schema = (seededStore pass base name).map Buffer.schema := by
  rw [run.schemas name, run.kept name]
  intro hmem
  obtain ⟨entry, hentry, heq⟩ := List.mem_map.mp hmem
  have hreserved := setup.fresh.reserved entry hentry
  rw [heq, (setup.wellFormed.unreserved name hname).1] at hreserved
  exact absurd hreserved Bool.false_ne_true

theorem PassRun.storeHasArity : StoreHasArity source arity out := by
  intro name hname buffer hbuffer
  have hunreserved := setup.wellFormed.unreserved name hname
  have hseed := run.columns setup hname
  rw [hbuffer, seededStore_of_unreserved pass base hunreserved.2.2 hunreserved.2.1] at hseed
  cases hschema : pass.schemas name with
  | none => simp [hschema] at hseed
  | some schema =>
      simp only [hschema, Option.map_some, Option.some.injEq] at hseed
      rw [hseed]
      cases hbase : base name with
      | some original => exact setup.baseArity name hname original hbase
      | none =>
          have hdesugared : name ∈ desugared.mentioned := by
            by_contra hmem
            have hnone := setup.contract.fresh desugared run.desugars name hname hmem
            rw [hschema] at hnone
            cases hnone
          have hprogram := mentioned_of_desugared run.desugars hunreserved.2.2 hunreserved.2.1
            hdesugared
          have harity := setup.contract.arity _
            (setup.program.hasArity setup.fresh setup.wellFormed setup.columns) name hprogram
            schema hschema
          rw [fixedArity_of_unreserved arity setup.fresh hunreserved.1] at harity
          exact harity

theorem PassRun.leaves (covered : Covered source base) {frozen : Set (GroundAtom V)}
    (reads : ReadsFrozen reading source negation frozen (atomsOf store))
    : PassLeaves reading source arity base pass frozen out :=
  ⟨fun _ ha => run.mem_out_iff setup reads covered ha, fun _ => run.columns setup,
    run.storeHasArity setup⟩

end

-- One round

/-- A pass runs, and its least model reads negation in the frozen set. -/
theorem PassReady.exists_run
    (ready : PassReady reading context source arity base program negation sourceSchemas pass)
    (originArity : StoreHasArity source arity origin) (covered : Covered source base)
    {frozen : Set (GroundAtom V)} (dropped : negation = .drop → frozen = ∅)
    (renamed : ∀ a, a.1 ∈ source.mentioned → negation ≠ .drop → (a ∈ frozen ↔ a ∈ atomsOf origin))
    : ∃ desugared store out,
      PassRun reading context program negation arity pass base origin desugared store out
      ∧ ReadsFrozen reading source negation frozen (atomsOf store)
      ∧ PassLeaves reading source arity base pass frozen out := by
  obtain ⟨desugared, store, out, run⟩ := (ready origin originArity).exists_run
  have reads := run.reads (ready origin originArity) dropped renamed
  exact ⟨desugared, store, out, run, reads, run.leaves (ready origin originArity) covered reads⟩

/-- A pass has the columns of the predicates of the positive part. -/
theorem PassReady.exists_schema
    (ready : PassReady reading context source arity base program negation sourceSchemas pass)
    (baseArity : StoreHasArity source arity base) {name : String}
    (hname : name ∈ (positivePart source).mentioned) (hsource : name ∈ source.mentioned)
    : ∃ schema, pass.schemas name = some schema ∧ schema.arity = arity name := by
  have setup := ready base baseArity
  have hprogram := setup.program.mentioned_of_positivePart hname
  obtain ⟨desugared, hdesugars⟩ := setup.contract.desugars
  obtain ⟨schema, hschema⟩ := setup.contract.mentioned desugared hdesugars name
    (desugared_mentioned hdesugars hprogram)
  refine ⟨schema, hschema, ?_⟩
  have harity := setup.contract.arity _
    (setup.program.hasArity setup.fresh setup.wellFormed setup.columns) name hprogram schema
    hschema
  rw [fixedArity_of_unreserved arity setup.fresh (setup.wellFormed.unreserved name hsource).1]
    at harity
  exact harity

end

section

variable {V Plan : Type} (reading : Reading V) (context : GpuContext V Plan)
  (source : Program) (arity : String → Nat) (base : RelationStore V)
  (wfs : EpistemicWfsGpuPlan Plan)

/-- The stores before a round: the upper one is at the stage, and from the second round on both
were left by the passes of the round before.
-/
structure AtRound (round : Nat) (stores : WfsStores V) : Prop where
  upper : ∀ a, a.1 ∈ source.mentioned
    → (a ∈ atomsOf stores.upper ↔ a ∈ upperStage (modelRules reading source base) round)
  lowerArity : StoreHasArity source arity stores.lower
  upperArity : StoreHasArity source arity stores.upper
  left : ∀ previous, round = previous + 1
    → PassLeaves reading source arity base wfs.lower
        (upperStage (modelRules reading source base) previous) stores.lower
      ∧ PassLeaves reading source arity base wfs.upper
        (lowerStage (modelRules reading source base) previous) stores.upper

/-- The constraint relations of a lower store, their negated atoms read in the frozen set. -/
def ConstraintsRead (frozen : Set (GroundAtom V)) (lower : RelationStore V) : Prop :=
  ∀ constraint ∈ source.constraints, ∀ index, constraint.authoredIndex = some index
    → ((∃ row, (constraintRelation index, row) ∈ atomsOf lower)
      ↔ ∃ assignment, BodyDerives reading (atomsOf lower) frozen assignment constraint.body)

variable {reading context source arity base wfs} {sourceSchemas : Schemas}
  {overapproxProgram lowerProgram upperProgram : Program}
  (setup : WfsSetup reading context source arity base wfs sourceSchemas overapproxProgram
    lowerProgram upperProgram) (covered : Covered source base)

include setup covered

theorem WfsSetup.exists_round {round : Nat} {stores : WfsStores V}
    (h : AtRound reading source arity base wfs round stores)
    : ∃ next, wfsRound context wfs base stores = .ok next
      ∧ AtRound reading source arity base wfs (round + 1) next
      ∧ ConstraintsRead reading source (upperStage (modelRules reading source base) round)
        next.lower := by
  obtain ⟨desugared, store, lower, run, reads, leaves⟩ := setup.lower.exists_run h.upperArity
    covered (by simp) (fun a ha _ => (h.upper a ha).symm)
  obtain ⟨_, _, upper, upperRun, _, upperLeaves⟩ := setup.upper.exists_run leaves.arity covered
    (by simp) (fun a ha _ => (leaves.model a ha).symm)
  refine ⟨⟨lower, upper⟩, ?_, ?_, ?_⟩
  · have hlower := run.runs
    have hupper := upperRun.runs
    simp only [WfsNegationTransform.names] at hlower hupper
    simp [wfsRound, hlower, hupper]
  · refine ⟨upperLeaves.model, leaves.arity, upperLeaves.arity, ?_⟩
    intro previous heq
    obtain rfl : round = previous := by omega
    exact ⟨leaves, upperLeaves⟩
  · intro constraint hconstraint index hindex
    obtain ⟨i, hi, rfl⟩ := List.getElem_of_mem hconstraint
    have hlt : i < lowerProgram.constraints.length := setup.lowerConstraints.length_eq ▸ hi
    have himage := setup.lowerConstraints.get hi hlt
    exact run.constraint_iff (setup.lower _ h.upperArity) reads (List.getElem_mem _)
      (List.getElem_mem hlt) (himage.1.trans hindex) himage.2

variable [DecidableEq V]

omit covered in
/-- The convergence test succeeds, and tells whether the relations are the same. -/
theorem WfsSetup.exists_test {left right : RelationStore V}
    (hleft : StoreHasArity source arity left) (hright : StoreHasArity source arity right)
    : ∃ converged, wfsStoresEquivalent context wfs left right = .ok converged
      ∧ (converged = true → ∀ a, a.1 ∈ wfsIntensionalPredicates source
        → (a ∈ atomsOf left ↔ a ∈ atomsOf right))
      ∧ ((∀ name ∈ source.mentioned,
            (left name).map Buffer.schema = (right name).map Buffer.schema)
          → (∀ a, a.1 ∈ source.mentioned → (a ∈ atomsOf left ↔ a ∈ atomsOf right))
          → converged = true) := by
  have hmentioned {name : String} (hname : name ∈ wfsIntensionalPredicates source)
      : name ∈ source.mentioned ∧ name ∈ (positivePart source).mentioned := by
    obtain ⟨rule, hrule, _, rfl⟩ := mem_wfsIntensionalPredicates.mp hname
    exact ⟨mem_mentioned_of_atom (mem_atoms_of_head hrule),
      mem_mentioned_of_atom (mem_positivePart_atoms.mpr (.inl ⟨rule, hrule, rfl⟩))⟩
  have hrow {store : RelationStore V} {name : String} (schema : Schema) (row : List V)
      : row ∈ ((store name).getD (.empty schema)).rows ↔ (name, row) ∈ atomsOf store := by
    cases hstore : store name <;> simp [atomsOf, hstore, Buffer.empty]
  obtain ⟨converged, hrun, hiff⟩ := gpuStoresEquivalent_spec context wfs.lower.schemas left right arity
    wfs.intensionalPredicates
    (by
      intro pred hpred
      rw [setup.intensional] at hpred
      exact setup.lower.exists_schema setup.baseArity (hmentioned hpred).2 (hmentioned hpred).1)
    (fun pred hpred => hleft pred (hmentioned (setup.intensional ▸ hpred)).1)
    (fun pred hpred => hright pred (hmentioned (setup.intensional ▸ hpred)).1)
  refine ⟨converged, hrun, ?_, ?_⟩
  · intro hconverged a ha
    obtain ⟨schema, hschema, _⟩ := setup.lower.exists_schema setup.baseArity (hmentioned ha).2
      (hmentioned ha).1
    have hsame := (buffersGpuSetEquivalent_iff.mp
      (hiff.mp hconverged a.1 (setup.intensional ▸ ha) schema hschema)).2
    rw [← hrow schema, ← hrow schema, hsame]
  · intro hcolumns hatoms
    refine hiff.mpr fun pred hpred schema hschema => buffersGpuSetEquivalent_iff.mpr ?_
    have hpredMentioned := (hmentioned (setup.intensional ▸ hpred)).1
    constructor
    · have hcolumn := hcolumns pred hpredMentioned
      cases hl : left pred <;> cases hr : right pred <;> simp_all
    · ext row
      rw [hrow schema, hrow schema]
      exact hatoms (pred, row) hpredMentioned

-- The loop

omit setup covered [DecidableEq V] in
/-- A round in which the upper store stays the same has reached the model. -/
theorem holdWellFoundedModel_of_converged {round : Nat} {stores next : WfsStores V}
    (h : AtRound reading source arity base wfs round stores)
    (hnext : AtRound reading source arity base wfs (round + 1) next)
    (constraints : ConstraintsRead reading source
      (upperStage (modelRules reading source base) round) next.lower)
    (same : ∀ a, a.1 ∈ wfsIntensionalPredicates source
      → (a ∈ atomsOf stores.upper ↔ a ∈ atomsOf next.upper))
    : HoldWellFoundedModel reading source base next := by
  have hfixed : upperStage (modelRules reading source base) (round + 1)
      = upperStage (modelRules reading source base) round := by
    refine subset_antisymm (upperStage_antitone _ (Nat.le_succ round)) ?_
    intro a ha
    by_cases hmem : a.1 ∈ wfsIntensionalPredicates source
    · obtain ⟨rule, hrule, _, hname⟩ := mem_wfsIntensionalPredicates.mp hmem
      have hmentioned : a.1 ∈ source.mentioned :=
        hname ▸ mem_mentioned_of_atom (mem_atoms_of_head hrule)
      rw [← hnext.upper a hmentioned, ← same a hmem, h.upper a hmentioned]
      exact ha
    · cases round with
      | zero => exact mem_consequences_of_notIntensional hmem _ _ ha
      | succ previous => exact mem_consequences_of_notIntensional hmem _ _ ha
  have hmodel := wellFoundedModel_eq_of_upperStage hfixed
  have hlower : ∀ a, a.1 ∈ source.mentioned → (a ∈ atomsOf next.lower
      ↔ a ∈ (wellFoundedModel (modelRules reading source base)).1) := by
    intro a ha
    rw [hmodel]
    exact (hnext.left round rfl).1.model a ha
  refine ⟨hlower, ?_, ?_⟩
  · intro a ha
    rw [hnext.upper a ha, hfixed, hmodel]
    simp
  · intro constraint hconstraint index hindex
    rw [constraints constraint hconstraint index hindex]
    refine exists_congr fun assignment => and_congr_right fun _ => and_congr ?_ ?_
    · refine forall₂_congr fun atom hatom => exists_congr fun a => and_congr_left fun hstands => ?_
      refine hlower a ?_
      rw [hstands.1]
      exact mem_mentioned_of_atom (mem_atoms_of_constraint hconstraint hatom rfl)
    · rw [hmodel]
      exact Iff.rfl

/-- What the loop returns holds the model, by induction on the rounds left. -/
theorem WfsSetup.loop_sound {iterations round : Nat} {stores result : WfsStores V}
    (h : AtRound reading source arity base wfs round stores)
    (hrun : wfsLoop context wfs base iterations stores = .ok result)
    : HoldWellFoundedModel reading source base result := by
  induction iterations generalizing round stores with
  | zero => cases hrun
  | succ iterations ih =>
      obtain ⟨next, hround, hnext, hconstraints⟩ := setup.exists_round covered h
      obtain ⟨lowerConverged, hlower, _, _⟩ :=
        setup.exists_test h.lowerArity hnext.lowerArity
      obtain ⟨upperConverged, hupper, hsame, _⟩ :=
        setup.exists_test h.upperArity hnext.upperArity
      simp only [wfsLoop, hround, hlower, hupper, ok_bind] at hrun
      by_cases hboth : (lowerConverged && upperConverged) = true
      · simp only [hboth, if_true, Except.ok.injEq] at hrun
        subst hrun
        exact holdWellFoundedModel_of_converged h hnext hconstraints
          (hsame (Bool.and_eq_true_iff.mp hboth).2)
      · simp only [hboth] at hrun
        exact ih hnext hrun

/-- With rounds left after the upper bounds have settled the loop returns, by induction on the
rounds left.
-/
theorem WfsSetup.loop_returns {settled iterations round : Nat} {stores : WfsStores V}
    (stable : ∀ m ≥ settled, upperStage (modelRules reading source base) m
      = upperStage (modelRules reading source base) settled)
    (h : AtRound reading source arity base wfs round stores)
    (enough : settled + 2 ≤ round + iterations) (left : 0 < iterations)
    : ∃ result, wfsLoop context wfs base iterations stores = .ok result := by
  induction iterations generalizing round stores with
  | zero => exact absurd left (Nat.lt_irrefl 0)
  | succ iterations ih =>
      obtain ⟨next, hround, hnext, _⟩ := setup.exists_round covered h
      obtain ⟨lowerConverged, hlower, _, hlowerSame⟩ :=
        setup.exists_test h.lowerArity hnext.lowerArity
      obtain ⟨upperConverged, hupper, _, hupperSame⟩ :=
        setup.exists_test h.upperArity hnext.upperArity
      simp only [wfsLoop, hround, hlower, hupper, ok_bind]
      by_cases hboth : (lowerConverged && upperConverged) = true
      · exact ⟨next, by simp [hboth]⟩
      · simp only [hboth]
        by_cases hlate : settled + 1 ≤ round
        · -- two rounds after the bounds have settled leave the same stores
          obtain ⟨previous, rfl⟩ : ∃ previous, round = previous + 1 :=
            ⟨round - 1, by omega⟩
          obtain ⟨hleft, hleftUpper⟩ := h.left previous rfl
          obtain ⟨hright, hrightUpper⟩ := hnext.left (previous + 1) rfl
          have hstage : upperStage (modelRules reading source base) (previous + 1)
              = upperStage (modelRules reading source base) previous := by
            rw [stable (previous + 1) (by omega), stable previous (by omega)]
          refine absurd (Bool.and_eq_true_iff.mpr ⟨hlowerSame ?_ ?_, hupperSame ?_ ?_⟩) hboth
          · exact fun name hname =>
              (hleft.columns name hname).trans (hright.columns name hname).symm
          · intro a ha
            rw [hleft.model a ha, hright.model a ha, hstage]
          · exact fun name hname =>
              (hleftUpper.columns name hname).trans (hrightUpper.columns name hname).symm
          · intro a ha
            rw [hleftUpper.model a ha, hrightUpper.model a ha, lowerStage, lowerStage, hstage]
        · exact ih hnext (by omega) (by omega)

end

end Xlog.Gpu
