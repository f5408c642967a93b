import Xlog.Gpu.WfsRounds

/-! The alternating loop computes the well-founded model exactly when no pass misses a base
relation.
-/

namespace Xlog.Gpu

open Xlog.Core Xlog.Foundation Xlog.Logic

-- Planning

section

variable {source : Program} {arity : String → Nat}

theorem mem_wfsNegatedPredicates {name : String}
    : name ∈ wfsNegatedPredicates source
      ↔ (∃ rule ∈ source.rules, ∃ atom, .negated atom ∈ rule.body ∧ atom.predicate = name)
        ∨ ∃ constraint ∈ source.constraints,
          ∃ atom, .negated atom ∈ constraint.body ∧ atom.predicate = name := by
  have hnegated (literal : BodyLiteral)
      : negatedPredicate literal = some name
        ↔ ∃ atom, literal = .negated atom ∧ atom.predicate = name := by
    cases literal <;> simp [negatedPredicate]
  simp only [wfsNegatedPredicates, List.mem_insertionSort, List.mem_dedup, List.mem_filterMap,
    List.mem_flatten, List.mem_append, List.mem_map, hnegated]
  constructor
  · intro h
    obtain ⟨literal, ⟨body, ⟨rule, hrule, rfl⟩ | ⟨constraint, hc, rfl⟩, hmem⟩, atom, rfl, hname⟩ := h
    · exact .inl ⟨rule, hrule, atom, hmem, hname⟩
    · exact .inr ⟨constraint, hc, atom, hmem, hname⟩
  · intro h
    rcases h with ⟨rule, hrule, atom, hmem, hname⟩ | ⟨constraint, hc, atom, hmem, hname⟩
    · exact ⟨_, ⟨_, .inl ⟨rule, hrule, rfl⟩, hmem⟩, atom, rfl, hname⟩
    · exact ⟨_, ⟨_, .inr ⟨constraint, hc, rfl⟩, hmem⟩, atom, rfl, hname⟩

theorem negated_mentioned {name : String} (h : name ∈ wfsNegatedPredicates source)
    : name ∈ source.mentioned := by
  rcases mem_wfsNegatedPredicates.mp h with ⟨rule, hrule, atom, hmem, rfl⟩
    | ⟨constraint, hc, atom, hmem, rfl⟩
  · exact mem_mentioned_of_atom (mem_atoms_of_rule hrule hmem rfl)
  · exact mem_mentioned_of_atom (mem_atoms_of_constraint hc hmem rfl)

/-- The program for inference has the atoms of the source. -/
theorem inferenceProgram_atoms (source : Program)
    : (inferenceProgram source).atoms = source.atoms := by
  have hbody {relax : BodyLiteral → BodyLiteral} (body : List BodyLiteral)
      (hrelax : ∀ literal, (relax literal).ordinaryAtom = literal.ordinaryAtom)
      : (body.map relax).filterMap BodyLiteral.ordinaryAtom
        = body.filterMap BodyLiteral.ordinaryAtom := by
    rw [List.filterMap_map]
    congr 1
    funext literal
    exact hrelax literal
  have hstated : (inferenceProgram source).statedAtoms = source.statedAtoms := rfl
  simp only [Program.atoms, hstated]
  congr 2
  simp only [inferenceProgram, List.map_map, List.filterMap_flatMap, List.flatMap_map]
  congr 1
  congr 1
  funext rule
  exact hbody rule.body fun literal => by cases literal <;> rfl

theorem inferenceProgram_hasArity (wellFormed : WellFormedSource source arity)
    : HasArity (inferenceProgram source) arity := by
  refine ⟨fun atom hmem => ?_, fun decl hmem => wellFormed.arities.declared decl hmem⟩
  rw [inferenceProgram_atoms] at hmem
  exact wellFormed.arities.atoms atom hmem

end

section

variable {V Plan : Type} {reading : Reading V} {context : GpuContext V Plan} {source : Program}
  {arity : String → Nat} {base : RelationStore V} {wfs : EpistemicWfsGpuPlan Plan}
  {compile : Program → Result (GpuOrdinaryPass Plan)}

/-- The passes of a compiled plan are ready. -/
theorem exists_wfsSetup
    (contract : ∀ program pass, compile program = .ok pass
      → PassEvaluates reading context source program pass)
    (units : ReadsUnit reading context) (wellFormed : WellFormedSource source arity)
    (baseArity : StoreHasArity source arity base)
    (planned : compileEpistemicWfsGpuPlan compile source = .ok wfs)
    : ∃ sourceSchemas overapproxProgram lowerProgram upperProgram,
      WfsSetup reading context source arity base wfs sourceSchemas overapproxProgram lowerProgram
        upperProgram := by
  obtain ⟨sourceSchemas, hinfer, h⟩ := bind_eq_ok.mp planned
  obtain ⟨overapproxProgram, hoverapprox, h⟩ := bind_eq_ok.mp h
  obtain ⟨lowerProgram, hlower, h⟩ := bind_eq_ok.mp h
  obtain ⟨upperProgram, hupper, h⟩ := bind_eq_ok.mp h
  obtain ⟨overapproxPass, hoverapproxPass, h⟩ := bind_eq_ok.mp h
  obtain ⟨lowerPass, hlowerPass, h⟩ := bind_eq_ok.mp h
  obtain ⟨upperPass, hupperPass, h⟩ := bind_eq_ok.mp h
  cases h
  obtain ⟨inferencePass, hinferencePass, hschemas⟩ := bind_eq_ok.mp hinfer
  cases hschemas
  have hspec (start : String) (hstart : startsWith start "__wfs_" = true)
      := freshNames_wfsFixedNames source start hstart
  have hnegated (start : String)
      : ∀ entry ∈ wfsFixedNames source (wfsNegatedPredicates source) start,
        entry.1 ∈ source.mentioned := by
    intro entry hentry
    refine negated_mentioned ?_
    rw [← (wfsFixedNames_spec source (wfsNegatedPredicates source) start).1]
    exact List.mem_map_of_mem hentry
  have hcolumns (start : String)
      : ∀ entry ∈ wfsFixedNames source (wfsNegatedPredicates source) start, ∀ schema,
        inferencePass.schemas entry.1 = some schema → schema.arity = arity entry.1 := by
    intro entry hentry schema hschema
    refine (contract _ _ hinferencePass).arity arity (inferenceProgram_hasArity wellFormed) _ ?_
      schema hschema
    rcases mem_mentioned_iff.mp (hnegated start entry hentry) with ⟨decl, hdecl, hname⟩
      | ⟨atom, hatom, hname⟩
    · exact mem_mentioned_iff.mpr (.inl ⟨decl, hdecl, hname⟩)
    · exact mem_mentioned_iff.mpr (.inr ⟨atom, by rwa [inferenceProgram_atoms], hname⟩)
  have hoverapproxShape : PassProgram source .drop inferencePass.schemas overapproxProgram :=
    (wfsTransformProgram_spec (fun _ _ h => by cases h) hoverapprox).1
  obtain ⟨hlowerShape, hlowerConstraints⟩ := wfsTransformProgram_spec
    (fun _ _ h => by cases h; rfl) hlower
  obtain ⟨hupperShape, _⟩ := wfsTransformProgram_spec (fun _ _ h => by cases h; rfl) hupper
  refine ⟨inferencePass.schemas, { overapproxProgram with constraints := [] }, lowerProgram,
    { upperProgram with constraints := [] }, ?_, ?_, ?_, rfl, hlowerConstraints, rfl, baseArity,
    wellFormed⟩
  · exact fun origin originArity => ⟨contract _ _ hoverapproxPass,
      hoverapproxShape.withoutConstraints, ⟨by simp [WfsNegationTransform.names],
        by simp [WfsNegationTransform.names], by simp [WfsNegationTransform.names]⟩, wellFormed,
      units, by simp [WfsNegationTransform.names], by simp [WfsNegationTransform.names],
      baseArity, originArity⟩
  · exact fun origin originArity => ⟨contract _ _ hlowerPass, hlowerShape,
      hspec "__wfs_upper" (by decide +kernel), wellFormed, units, hcolumns "__wfs_upper",
      hnegated "__wfs_upper", baseArity, originArity⟩
  · exact fun origin originArity => ⟨contract _ _ hupperPass, hupperShape.withoutConstraints,
      hspec "__wfs_lower" (by decide +kernel), wellFormed, units, hcolumns "__wfs_lower",
      hnegated "__wfs_lower", baseArity, originArity⟩

-- Sufficiency

/-- The rules of the source derive tuples of its predicates alone. -/
theorem consequences_mentioned (frozen : Set (GroundAtom V))
    : consequences (modelRules reading source base) frozen ⊆ { a | a.1 ∈ source.mentioned } := by
  refine consequences_subset fun g hg _ _ _ => ?_
  rcases hg with ⟨rule, hrule, hg⟩ | ⟨a, ha, rfl⟩
  · exact head_mentioned_of_instance hrule hg
  · exact ha.2

/-- The tuples of finitely many relations of a store are finite. -/
theorem finite_atomsOf (store : RelationStore V) (names : List String)
    : { a | a ∈ atomsOf store ∧ a.1 ∈ names }.Finite := by
  have hname (name : String) : { a : GroundAtom V | a ∈ atomsOf store ∧ a.1 = name }.Finite := by
    cases hbuffer : store name with
    | none =>
        refine Set.Finite.subset Set.finite_empty fun a ha => ?_
        obtain ⟨⟨buffer, hmem, _⟩, heq⟩ := ha
        rw [heq, hbuffer] at hmem
        cases hmem
    | some buffer =>
        refine (buffer.rows.finite_toSet.image (Prod.mk name)).subset fun a ha => ?_
        obtain ⟨⟨other, hmem, hrow⟩, heq⟩ := ha
        rw [heq, hbuffer] at hmem
        cases hmem
        exact ⟨a.2, hrow, by rw [← heq]⟩
  refine ((List.finite_toSet names).biUnion fun name _ => hname name).subset fun a ha => ?_
  exact Set.mem_biUnion ha.2 ⟨ha.1, rfl⟩

variable [DecidableEq V]

/-- A loop over covered base relations computes the model. -/
theorem WfsSetup.computes {sourceSchemas : Schemas}
    {overapproxProgram lowerProgram upperProgram : Program}
    (setup : WfsSetup reading context source arity base wfs sourceSchemas overapproxProgram
      lowerProgram upperProgram) (covered : Covered source base)
    : ComputesWellFoundedModel reading context source base wfs := by
  obtain ⟨desugared, store, upper, run, _, leaves⟩ := setup.overapprox.exists_run setup.baseArity
    covered (fun _ => rfl) (fun _ _ h => absurd rfl h)
  have hrun : runGpuOrdinaryPass context wfs.overapprox base [] = .ok upper := run.runs
  have hstart (maxIterations : Nat)
      : AtRound reading source arity base { wfs with maxIterations } 0 ⟨base, upper⟩ :=
    ⟨leaves.model, setup.baseArity, leaves.arity, fun _ h => by cases h⟩
  refine ⟨fun maxIterations stores hstores => ?_, ?_⟩
  · simp only [wfsFixpointStores, hrun, ok_bind] at hstores
    exact (setup.withIterations maxIterations).loop_sound covered (hstart maxIterations) hstores
  · have hfinite : (upperStage (modelRules reading source base) 0).Finite := by
      refine (finite_atomsOf upper source.mentioned).subset fun a ha => ?_
      have hmentioned := consequences_mentioned ∅ ha
      exact ⟨(leaves.model a hmentioned).mpr ha, hmentioned⟩
    obtain ⟨settled, stable⟩ := exists_upperStage_eq hfinite
    refine ⟨settled + 2, fun maxIterations henough => ?_⟩
    simp only [wfsFixpointStores, hrun, ok_bind]
    exact (setup.withIterations maxIterations).loop_returns covered stable
      (hstart maxIterations) (by omega) (by omega)

-- Necessity

/-- The upper store that the loop returns was left by an upper pass, by induction on the rounds
left.
-/
theorem WfsSetup.upper_of_loop {sourceSchemas : Schemas}
    {overapproxProgram lowerProgram upperProgram : Program}
    (setup : WfsSetup reading context source arity base wfs sourceSchemas overapproxProgram
      lowerProgram upperProgram) {iterations : Nat} {stores result : WfsStores V}
    (upperArity : StoreHasArity source arity stores.upper)
    (hrun : wfsLoop context wfs base iterations stores = .ok result) {name : String}
    (hname : name ∈ source.mentioned)
    : (result.upper name).map Buffer.schema
      = (seededStore wfs.upper base name).map Buffer.schema := by
  induction iterations generalizing stores with
  | zero => cases hrun
  | succ iterations ih =>
      obtain ⟨_, _, lower, lowerRun⟩ := (setup.lower _ upperArity).exists_run
      have hlowerArity := lowerRun.storeHasArity (setup.lower _ upperArity)
      obtain ⟨_, _, upper, upperRun⟩ := (setup.upper _ hlowerArity).exists_run
      have hround : wfsRound context wfs base stores = .ok ⟨lower, upper⟩ := by
        have hlower := lowerRun.runs
        have hupper := upperRun.runs
        simp only [WfsNegationTransform.names] at hlower hupper
        simp [wfsRound, hlower, hupper]
      obtain ⟨next, hnext, hrun⟩ := bind_eq_ok.mp hrun
      rw [hround] at hnext
      cases hnext
      obtain ⟨lowerConverged, _, hrun⟩ := bind_eq_ok.mp hrun
      obtain ⟨upperConverged, _, hrun⟩ := bind_eq_ok.mp hrun
      by_cases hboth : (lowerConverged && upperConverged) = true
      · simp only [hboth, if_true, Except.ok.injEq] at hrun
        subst hrun
        exact upperRun.columns (setup.upper _ hlowerArity) hname
      · simp only [hboth] at hrun
        exact ih (upperRun.storeHasArity (setup.upper _ hlowerArity)) hrun

omit [DecidableEq V] in
/-- A tuple of the base store is true, and so not false. -/
theorem base_notMem_false {a : GroundAtom V} (ha : a ∈ atomsOf base)
    (hmentioned : a.1 ∈ source.mentioned)
    : a ∉ (wellFoundedModel (modelRules reading source base)).2 := by
  intro hfalse
  rw [← wellFoundedModel_eq] at hfalse
  obtain ⟨b, hb | hb | hb⟩ := isUnfounded_unfounded _ _ ⟨a, ∅, ∅⟩
    (.inr ⟨a, ⟨ha, hmentioned⟩, rfl⟩) hfalse
  · exact hb.1
  · exact hb.1
  · exact hb.1

theorem WfsSetup.covered_of_computes {sourceSchemas : Schemas}
    {overapproxProgram lowerProgram upperProgram : Program}
    (setup : WfsSetup reading context source arity base wfs sourceSchemas overapproxProgram
      lowerProgram upperProgram)
    (computes : ComputesWellFoundedModel reading context source base wfs)
    : Covered source base := by
  intro a ha hmentioned
  by_contra hmissing
  obtain ⟨hright, rounds, hreturns⟩ := computes
  obtain ⟨result, hresult⟩ := hreturns rounds le_rfl
  have hupper := ((hright rounds result hresult).upper a hmentioned).mpr
    (base_notMem_false ha hmentioned)
  obtain ⟨_, _, upper, run⟩ := (setup.overapprox base setup.baseArity).exists_run
  have hrun : runGpuOrdinaryPass context wfs.overapprox base [] = .ok upper := run.runs
  simp only [wfsFixpointStores, hrun, ok_bind] at hresult
  have hcolumns := (setup.withIterations rounds).upper_of_loop
    (run.storeHasArity (setup.overapprox base setup.baseArity)) hresult hmentioned
  -- the upper pass mentions no such predicate, and so has no relation for it
  have upperSetup := setup.upper base setup.baseArity
  obtain ⟨desugared, hdesugars⟩ := upperSetup.contract.desugars
  have hunreserved := setup.wellFormed.unreserved a.1 hmentioned
  have hnone := upperSetup.contract.fresh desugared hdesugars a.1 hmentioned fun hmem =>
    hmissing (upperSetup.program.positivePart_of_mentioned upperSetup.fresh
      setup.upperConstraints hunreserved.1
      (mentioned_of_desugared hdesugars hunreserved.2.2 hunreserved.2.1 hmem))
  obtain ⟨buffer, hbuffer, _⟩ := hupper
  simp [hbuffer, seededStore, hnone] at hcolumns

end

-- A relation that the passes miss

/-- `p() :- not q().` with the constraint `:- q(), p().` -/
def guardedSource : Program :=
  { Program.empty with
    rules := [⟨⟨"p", []⟩, [.negated ⟨"q", []⟩]⟩]
    constraints := [⟨some 0, [.positive ⟨"q", []⟩, .positive ⟨"p", []⟩]⟩] }

def guardedArity (name : String) : Nat := if name = "p" ∨ name = "q" then 0 else 1

/-- The base store in which `q` holds. -/
def guardedBase : RelationStore Nat := fun name =>
  if name = "q" then some ⟨⟨[]⟩, {[]}, by simp [Schema.arity]⟩ else none

/-- Integers stand for themselves. -/
def guardedReading : Reading Nat where
  Assignment := Unit
  term _ term value := term = .integer value
  literal _ _ := True

inductive GuardedBody where
  | unit
  | input
  | frozen (fixed : String)

structure GuardedPlan where
  body : GuardedBody
  constrained : Bool

def guardedBody : BodyLiteral → Option GuardedBody
  | .comparison _ => some .unit
  | .positive ⟨"q", []⟩ => some .input
  | .negated ⟨fixed, [.integer 1]⟩ => some (.frozen fixed)
  | _ => none

def guardedConstrained : List Constraint → Option Bool
  | [] => some false
  | [⟨some 0, [.positive ⟨"q", []⟩, .positive ⟨"p", []⟩]⟩] => some true
  | _ => none

def guardedRules : List Rule → Option GuardedBody
  | [⟨⟨"p", []⟩, [literal]⟩] => guardedBody literal
  | _ => none

/-- Programs of the one rule, with or without the constraint. -/
def guardedCompile (program : Program) : Result (GpuOrdinaryPass GuardedPlan) := do
  let desugared ← desugarQueriesAndConstraints program
  match guardedRules program.rules, guardedConstrained program.constraints with
  | some body, some constrained =>
      if program.queries.isEmpty
          && program.atoms.all (fun atom => atom.terms.length = guardedArity atom.predicate)
          && program.predicates.all (fun decl => decl.arity = guardedArity decl.name) then
        .ok {
          plan := ⟨body, constrained⟩
          schemas := fun name =>
            if name ∈ desugared.mentioned then
              some ⟨List.replicate (guardedArity name) ("c0", .u32)⟩
            else none
        }
      else .error (.compilation "unexpected program")
  | _, _ => .error (.compilation "unexpected program")

def hasRow (store : RelationStore Nat) (name : String) (row : List Nat) : Bool :=
  (store name).any fun buffer => decide (row ∈ buffer.rows)

def addRow (buffer : Buffer Nat) (row : List Nat) : Buffer Nat :=
  if h : row.length = buffer.schema.arity then
    ⟨buffer.schema, insert row buffer.rows, fun other hother => by
      rcases Finset.mem_insert.mp hother with rfl | hother
      · exact h
      · exact buffer.width other hother⟩
  else buffer

def guardedHolds (body : GuardedBody) (store : RelationStore Nat) : Bool :=
  match body with
  | .unit => true
  | .input => hasRow store "q" []
  | .frozen fixed => !hasRow store fixed [1]

def guardedExecute (plan : GuardedPlan) (store : RelationStore Nat)
    : Result (RelationStore Nat) :=
  let holds := guardedHolds plan.body store
  let violated := plan.constrained && hasRow store "q" [] && (hasRow store "p" [] || holds)
  .ok fun name => (store name).map fun buffer =>
    if name = "p" && holds then addRow buffer []
    else if name = constraintRelation 0 && violated then addRow buffer [1]
    else buffer

def guardedContext : GpuContext Nat GuardedPlan := ⟨guardedExecute, 1, fun _ => none⟩

def guardedPlan : EpistemicWfsGpuPlan GuardedPlan :=
  match compileEpistemicWfsGpuPlan guardedCompile guardedSource with
  | .ok wfs => wfs
  | .error _ => ⟨⟨⟨.unit, false⟩, fun _ => none⟩, ⟨⟨.unit, false⟩, fun _ => none⟩,
      ⟨⟨.unit, false⟩, fun _ => none⟩, [], [], [], 0⟩

theorem hasRow_iff {store : RelationStore Nat} {name : String} {row : List Nat}
    : hasRow store name row = true ↔ (name, row) ∈ atomsOf store := by
  cases hstore : store name <;> simp [hasRow, atomsOf, hstore]

theorem guardedRules_eq_some {rules : List Rule} {body : GuardedBody}
    (h : guardedRules rules = some body)
    : ∃ literal, rules = [⟨⟨"p", []⟩, [literal]⟩] ∧ guardedBody literal = some body := by
  unfold guardedRules at h
  split at h
  · exact ⟨_, rfl, h⟩
  · cases h

theorem guardedBody_eq_some {literal : BodyLiteral} {body : GuardedBody}
    (h : guardedBody literal = some body)
    : (∃ comparison, literal = .comparison comparison ∧ body = .unit)
      ∨ (literal = .positive ⟨"q", []⟩ ∧ body = .input)
      ∨ ∃ fixed, literal = .negated ⟨fixed, [.integer 1]⟩ ∧ body = .frozen fixed := by
  unfold guardedBody at h
  split at h
  · exact .inl ⟨_, rfl, by simpa using h.symm⟩
  · exact .inr (.inl ⟨rfl, by simpa using h.symm⟩)
  · exact .inr (.inr ⟨_, rfl, by simpa using h.symm⟩)
  · cases h

theorem guardedConstrained_eq_some {constraints : List Constraint} {constrained : Bool}
    (h : guardedConstrained constraints = some constrained)
    : (constraints = [] ∧ constrained = false)
      ∨ constraints = guardedSource.constraints ∧ constrained = true := by
  unfold guardedConstrained at h
  split at h
  · exact .inl ⟨rfl, by simpa using h.symm⟩
  · exact .inr ⟨rfl, by simpa using h.symm⟩
  · cases h

/-- The programs that are compiled, and what they are compiled to. -/
theorem guardedCompile_eq_ok {program : Program} {pass : GpuOrdinaryPass GuardedPlan}
    (h : guardedCompile program = .ok pass)
    : ∃ desugared, desugarQueriesAndConstraints program = .ok desugared
      ∧ guardedRules program.rules = some pass.plan.body
      ∧ guardedConstrained program.constraints = some pass.plan.constrained
      ∧ program.queries = [] ∧ HasArity program guardedArity
      ∧ pass.schemas = fun name =>
        if name ∈ desugared.mentioned then
          some ⟨List.replicate (guardedArity name) ("c0", .u32)⟩
        else none := by
  obtain ⟨desugared, hdesugars, h⟩ := bind_eq_ok.mp h
  refine ⟨desugared, hdesugars, ?_⟩
  cases hrules : guardedRules program.rules with
  | none => simp [hrules] at h
  | some body =>
      cases hconstrained : guardedConstrained program.constraints with
      | none => simp [hrules, hconstrained] at h
      | some constrained =>
          simp only [hrules, hconstrained] at h
          split at h
          · rename_i hfits
            cases h
            simp only [Bool.and_eq_true, List.isEmpty_iff, List.all_eq_true,
              decide_eq_true_eq] at hfits
            exact ⟨rfl, rfl, hfits.1.1, ⟨hfits.1.2, hfits.2⟩, rfl⟩
          · cases h

theorem guarded_stands_nil {assignment : guardedReading.Assignment} {name : String}
    {a : GroundAtom Nat}
    : Stands guardedReading assignment ⟨name, []⟩ a ↔ a = (name, []) := by
  obtain ⟨other, row⟩ := a
  simp [Stands]

theorem guarded_stands_one {assignment : guardedReading.Assignment} {name : String}
    {a : GroundAtom Nat}
    : Stands guardedReading assignment ⟨name, [.integer 1]⟩ a ↔ a = (name, [1]) := by
  obtain ⟨other, row⟩ := a
  simp only [Stands, List.forall₂_cons_left_iff, List.forall₂_nil_left_iff, Prod.mk.injEq]
  refine and_congr_right fun _ => ?_
  constructor
  · intro h
    obtain ⟨value, rest, hvalue, rfl, rfl⟩ := h
    have hone : (value : Int) = 1 := by simpa using hvalue.symm
    simp only [List.cons.injEq, and_true]
    omega
  · rintro rfl
    exact ⟨1, [], rfl, rfl, rfl⟩

/-- The body of the rule holds in the model when the executor says so. -/
theorem guarded_bodyDerives_iff {literal : BodyLiteral} {body : GuardedBody}
    (hbody : guardedBody literal = some body) {store : RelationStore Nat}
    {model : Set (GroundAtom Nat)}
    (hq : ("q", []) ∈ model ↔ hasRow store "q" [] = true) (assignment : guardedReading.Assignment)
    : BodyDerives guardedReading model (atomsOf store) assignment [literal]
      ↔ guardedHolds body store = true := by
  have hbuiltins (body : List BodyLiteral) : BuiltinsHold guardedReading assignment body :=
    fun _ _ _ => trivial
  rcases guardedBody_eq_some hbody with ⟨comparison, rfl, rfl⟩ | ⟨rfl, rfl⟩ | ⟨fixed, rfl, rfl⟩
  · simp [BodyDerives, Open, hbuiltins, guardedHolds]
  · simp [BodyDerives, Open, hbuiltins, guardedHolds, guarded_stands_nil, hq]
  · simp [BodyDerives, Open, hbuiltins, guardedHolds, guarded_stands_one, ← hasRow_iff]

/-- The tuples of a compiled program's least model. -/
theorem guarded_mem_iff {program desugared : Program} {pass : GpuOrdinaryPass GuardedPlan}
    {store : RelationStore Nat} (hdesugars : desugarQueriesAndConstraints program = .ok desugared)
    (hrules : guardedRules program.rules = some pass.plan.body)
    (hconstrained : guardedConstrained program.constraints = some pass.plan.constrained)
    (hqueries : program.queries = []) {a : GroundAtom Nat}
    : a ∈ consequences (groundRules guardedReading desugared.rules (atomsOf store)) (atomsOf store)
      ↔ a ∈ atomsOf store ∨ (a = ("p", []) ∧ guardedHolds pass.plan.body store = true)
        ∨ (a = (constraintRelation 0, [1]) ∧ pass.plan.constrained = true
          ∧ hasRow store "q" [] = true
          ∧ (hasRow store "p" [] || guardedHolds pass.plan.body store) = true) := by
  obtain ⟨literal, hliteral, hbody⟩ := guardedRules_eq_some hrules
  have hrule (rule : Rule) : rule ∈ desugared.rules
      ↔ rule = ⟨⟨"p", []⟩, [literal]⟩
        ∨ pass.plan.constrained = true ∧ rule = ⟨⟨constraintRelation 0, [.integer 1]⟩,
          [.positive ⟨"q", []⟩, .positive ⟨"p", []⟩]⟩ := by
    rw [mem_desugared_rules hdesugars, hliteral, hqueries]
    rcases guardedConstrained_eq_some hconstrained with ⟨heq, hflag⟩ | ⟨heq, hflag⟩
    · simp [heq, hflag]
    · simp [heq, hflag, guardedSource]
  have hne : constraintRelation 0 ≠ "p" ∧ constraintRelation 0 ≠ "q" := by decide +kernel
  have hbuiltins (assignment : guardedReading.Assignment) (body : List BodyLiteral)
      : BuiltinsHold guardedReading assignment body := fun _ _ _ => trivial
  generalize hmodel
    : consequences (groundRules guardedReading desugared.rules (atomsOf store)) (atomsOf store)
      = model
  have hmem (a : GroundAtom Nat) : a ∈ model
      ↔ a ∈ atomsOf store
        ∨ (a = ("p", []) ∧ ∃ assignment,
          BodyDerives guardedReading model (atomsOf store) assignment [literal])
        ∨ (a = (constraintRelation 0, [1]) ∧ pass.plan.constrained = true
          ∧ ("q", []) ∈ model ∧ ("p", []) ∈ model) := by
    rw [← hmodel, mem_consequences_iff, hmodel]
    simp only [hrule, or_and_right, exists_or, and_assoc, exists_eq_left, guarded_stands_nil,
      exists_and_left, guarded_stands_one]
    refine or_congr_right (or_congr_right ?_)
    simp [BodyDerives, Open, hbuiltins, guarded_stands_nil]
    tauto
  have hq : ("q", []) ∈ model ↔ hasRow store "q" [] = true := by
    rw [hmem, hasRow_iff]
    simp [hne.2.symm]
  have hderives : (∃ assignment,
      BodyDerives guardedReading model (atomsOf store) assignment [literal])
      ↔ guardedHolds pass.plan.body store = true := by
    simp only [guarded_bodyDerives_iff hbody hq]
    exact ⟨fun ⟨_, h⟩ => h, fun h => ⟨(), h⟩⟩
  have hp : ("p", []) ∈ model
      ↔ (hasRow store "p" [] || guardedHolds pass.plan.body store) = true := by
    rw [hmem, hderives, Bool.or_eq_true, hasRow_iff]
    simp [hne.1.symm]
  rw [hmem, hderives, hq, hp]

theorem addRow_schema (buffer : Buffer Nat) (row : List Nat)
    : (addRow buffer row).schema = buffer.schema := by
  unfold addRow
  split <;> rfl

theorem mem_addRow_rows {buffer : Buffer Nat} {row other : List Nat}
    (width : row.length = buffer.schema.arity)
    : other ∈ (addRow buffer row).rows ↔ other = row ∨ other ∈ buffer.rows := by
  simp [addRow, width]

/-- What the executor leaves: the relations it is given, the head and the constraint. -/
theorem mem_guardedExecute {plan : GuardedPlan} {store out : RelationStore Nat}
    (h : guardedExecute plan store = .ok out) {a : GroundAtom Nat} {buffer : Buffer Nat}
    (hbuffer : store a.1 = some buffer) (width : buffer.schema.arity = guardedArity a.1)
    : a ∈ atomsOf out
      ↔ a ∈ atomsOf store ∨ (a = ("p", []) ∧ guardedHolds plan.body store = true)
        ∨ (a = (constraintRelation 0, [1]) ∧ plan.constrained = true
          ∧ hasRow store "q" [] = true
          ∧ (hasRow store "p" [] || guardedHolds plan.body store) = true) := by
  obtain ⟨name, row⟩ := a
  cases h
  have hne : constraintRelation 0 ≠ "p" ∧ constraintRelation 0 ≠ "q" := by decide +kernel
  simp only [atomsOf, Set.mem_ofPred_eq, hbuffer, Option.map_some, Option.some.injEq,
    exists_eq_left', Prod.mk.injEq, Bool.and_eq_true, decide_eq_true_eq]
  dsimp only at width
  by_cases hp : name = "p"
  · subst hp
    have hwidth : ([] : List Nat).length = buffer.schema.arity := by
      rw [width]
      rfl
    cases guardedHolds plan.body store <;> simp [mem_addRow_rows hwidth, hne.1.symm, or_comm]
  · by_cases hc : name = constraintRelation 0
    · subst hc
      have hwidth : [1].length = buffer.schema.arity := by
        rw [width]
        simp [guardedArity, hne]
      by_cases hviolated : (plan.constrained = true ∧ hasRow store "q" [] = true)
          ∧ (hasRow store "p" [] || guardedHolds plan.body store) = true
      · have hparts := hviolated
        simp only [Bool.or_eq_true] at hparts
        simp [hparts, mem_addRow_rows hwidth, hne.1, or_comm]
      · simp only [Bool.or_eq_true] at hviolated
        simp [hviolated, hne.1]
        tauto
    · simp [hp, hc]

theorem guarded_contract (program : Program) (pass : GpuOrdinaryPass GuardedPlan)
    (h : guardedCompile program = .ok pass)
    : PassEvaluates guardedReading guardedContext guardedSource program pass := by
  obtain ⟨desugared, hdesugars, hrules, hconstrained, hqueries, harity, hschemas⟩ :=
    guardedCompile_eq_ok h
  have hunique : ∀ other, desugarQueriesAndConstraints program = .ok other → other = desugared := by
    intro other hother
    rw [hdesugars] at hother
    exact (Except.ok.inj hother).symm
  refine ⟨?_, ⟨desugared, hdesugars⟩, ?_, ?_, ?_, ?_⟩
  · rcases guardedConstrained_eq_some hconstrained with ⟨heq, _⟩ | ⟨heq, _⟩
    · simp [heq]
    · simp [heq, guardedSource]
  · intro other hother name hname
    obtain rfl := hunique other hother
    exact ⟨_, by rw [hschemas]; exact if_pos hname⟩
  · intro other hother name _ hname
    obtain rfl := hunique other hother
    rw [hschemas]
    exact if_neg hname
  · intro arity hother name hname schema hschema
    have hsame : arity name = guardedArity name := by
      rcases mem_mentioned_iff.mp hname with ⟨decl, hdecl, rfl⟩ | ⟨atom, hatom, rfl⟩
      · rw [← hother.declared decl hdecl, harity.declared decl hdecl]
      · rw [← hother.atoms atom hatom, harity.atoms atom hatom]
    simp only [hschemas] at hschema
    split at hschema
    · cases hschema
      rw [hsame]
      simp [Schema.arity]
    · cases hschema
  · intro other hother _ store hsome hcolumns
    obtain rfl := hunique other hother
    refine ⟨_, rfl, fun name => ?_, fun a ha => ?_⟩
    · cases store name with
      | none => rfl
      | some buffer =>
          simp only [Option.map_some, Option.some.injEq]
          split
          · exact addRow_schema buffer _
          · split
            · exact addRow_schema buffer _
            · rfl
    · have hschema : pass.schemas a.1
          = some ⟨List.replicate (guardedArity a.1) ("c0", .u32)⟩ := by
        rw [hschemas]
        exact if_pos ha
      have hstore : (store a.1).isSome = true := by rw [hsome, hschema]; rfl
      obtain ⟨buffer, hbuffer⟩ := Option.isSome_iff_exists.mp hstore
      have hwidth : buffer.schema.arity = guardedArity a.1 := by
        rw [hcolumns a.1 ha _ buffer hschema hbuffer]
        simp [Schema.arity]
      rw [guarded_mem_iff hdesugars hrules hconstrained hqueries]
      exact mem_guardedExecute rfl hbuffer hwidth

theorem guarded_planned
    : compileEpistemicWfsGpuPlan guardedCompile guardedSource = .ok guardedPlan := by
  have hok : (compileEpistemicWfsGpuPlan guardedCompile guardedSource).isOk = true := by
    decide +kernel
  unfold guardedPlan
  cases hrun : compileEpistemicWfsGpuPlan guardedCompile guardedSource with
  | ok wfs => rfl
  | error e => simp [hrun, Except.isOk, Except.toBool] at hok

theorem guarded_units : ReadsUnit guardedReading guardedContext :=
  ⟨fun _ => rfl, fun _ => trivial⟩

theorem guarded_mentioned {name : String} (h : name ∈ guardedSource.mentioned)
    : name = "p" ∨ name = "q" := by
  have hlist : guardedSource.mentioned = ["p", "q", "q", "p"] := by decide +kernel
  rw [hlist] at h
  simp only [List.mem_cons, List.not_mem_nil, or_false] at h
  tauto

theorem guarded_wellFormed : WellFormedSource guardedSource guardedArity where
  arities := by
    constructor
    · have hall : guardedSource.atoms.all
          (fun atom => atom.terms.length = guardedArity atom.predicate) = true := by
        decide +kernel
      simpa using hall
    · exact fun decl hmem => absurd hmem List.not_mem_nil
  unreserved name hname := by
    rcases guarded_mentioned hname with rfl | rfl <;> decide +kernel

theorem guarded_baseArity : StoreHasArity guardedSource guardedArity guardedBase := by
  intro name hname buffer hbuffer
  rcases guarded_mentioned hname with rfl | rfl
  · cases hbuffer
  · cases hbuffer
    rfl

end Xlog.Gpu
