import Mathlib
import Xlog.Logic.ReferenceRule

/-! The naive fixpoint evaluators of recursive hypergraph rules, for one predicate and for a strongly connected
component. Both run every rule against the relations derived so far until nothing new is derived. The
rounds of the least model are those of the evaluators on typed rules.
-/

namespace Xlog.Logic

structure FixpointConfig where
  maxIterations : Nat

def inferSchema (row : RefRow) : List ScalarType := row.map RefValue.scalarType

/-- The arity of the first rule whose head has arguments. -/
def headArity (rules : List Rule) : Option Nat :=
  (rules.find? fun rule => ¬ rule.head.terms.isEmpty).map fun rule => rule.head.terms.length

/-- The schema of a relation without rows is a placeholder. -/
def schemaOr (schema : Option (List ScalarType)) (arity : Nat) : List ScalarType :=
  schema.getD (List.replicate arity .u32)

/-- The rows that the rules derive, with the number of a rule in its error. -/
def ruleRows {ε : Type} (wrap : Nat → RefEvalError → ε) (store : RefRelationStore)
    (order : VariableOrder) (rules : List Rule) : Except ε (List RefRow) :=
  rules.zipIdx.foldlM (fun rows item =>
    match evaluateRule item.1 store order with
    | .ok new => .ok (rows ++ new)
    | .error e => .error (wrap item.2 e)) []

-- One predicate

inductive FixpointError where
  | ruleNotForTarget (ruleIndex : Nat) (observed expected : String)
  | headArityMismatch (ruleIndex observedArity expectedArity : Nat)
  | targetPredicateInBaseRelations (name : String)
  | ruleEval (ruleIndex : Nat) (source : RefEvalError)
  | maxIterationsExceeded (limit observedSize : Nat)
  | targetSchemaIndeterminable
  | invalidMaxIterations

structure FixpointState where
  schema : Option (List ScalarType)
  rows : List RefRow

/-- The rounds that are left. -/
def fixpointLoop (rules : List Rule) (base : RefRelationStore) (target : String)
    (order : VariableOrder) (limit arity : Nat) : Nat → FixpointState
    → Except FixpointError RefRelation
  | 0, s => .error (.maxIterationsExceeded limit s.rows.length)
  | rounds + 1, s => do
      let store := Function.update base target (some ⟨schemaOr s.schema arity, s.rows⟩)
      let produced ← ruleRows FixpointError.ruleEval store order rules
      let newRows := sortDedup (s.rows ++ produced)
      let schema := s.schema.or (newRows.head?.map inferSchema)
      if newRows = s.rows then return ⟨schemaOr schema arity, s.rows⟩
      else fixpointLoop rules base target order limit arity rounds ⟨schema, newRows⟩

def evaluateFixpoint (rules : List Rule) (base : RefRelationStore) (target : String)
    (order : VariableOrder) (config : FixpointConfig) : Except FixpointError RefRelation :=
  if config.maxIterations = 0 then .error .invalidMaxIterations
  else if (base target).isSome then .error (.targetPredicateInBaseRelations target)
  else do
    rules.zipIdx.forM fun item =>
      if item.1.head.predicate ≠ target then
        .error (.ruleNotForTarget item.2 item.1.head.predicate target)
      else .ok ()
    match headArity rules with
    | none => .error .targetSchemaIndeterminable
    | some arity =>
        rules.zipIdx.forM fun item =>
          if ¬ item.1.head.terms.isEmpty ∧ item.1.head.terms.length ≠ arity then
            .error (.headArityMismatch item.2 item.1.head.terms.length arity)
          else .ok ()
        fixpointLoop rules base target order config.maxIterations arity config.maxIterations
          ⟨none, []⟩

-- A component

inductive SccFixpointError where
  | ruleHeadPredicateMismatch (groupKey : String) (ruleIndex : Nat) (observed : String)
  | headArityMismatch (predicate : String) (ruleIndex observedArity expectedArity : Nat)
  | inconsistentHeadValueTypes (predicate : String) (column : Nat) (expected : ScalarType)
      (got : Shown)
  | predicateInBaseRelations (name : String)
  | ruleEval (predicate : String) (ruleIndex : Nat) (source : RefEvalError)
  | maxIterationsExceeded (limit predicateCount totalObservedRows : Nat)
  | schemaIndeterminable (predicate : String)
  | invalidMaxIterations

/-- The rules of the predicates of a component. -/
abbrev RuleGroups := List (String × List Rule)

structure SccState where
  frozen : String → Option (List ScalarType)
  derived : String → List RefRow

def RuleGroups.arity (rules : RuleGroups) (predicate : String) : Nat :=
  ((rules.lookup predicate).bind headArity).getD 0

def SccState.relation (rules : RuleGroups) (s : SccState) (predicate : String) : RefRelation :=
  ⟨schemaOr (s.frozen predicate) (rules.arity predicate), s.derived predicate⟩

/-- The derived relations over the base relations. -/
def SccState.store (rules : RuleGroups) (base : RefRelationStore) (s : SccState)
    : RefRelationStore :=
  fun predicate =>
    if predicate ∈ rules.map Prod.fst then some (s.relation rules predicate) else base predicate

/-- The first column where a row does not have the type of the schema. -/
def firstTypeMismatch (row : RefRow) (schema : List ScalarType)
    : Option (Nat × ScalarType × RefValue) :=
  (row.zip schema).zipIdx.findSome? fun cell =>
    if cell.1.1.scalarType = cell.1.2 then none else some (cell.2, cell.1.2, cell.1.1)

def checkRowTypes (predicate : String) (schema : List ScalarType) (row : RefRow)
    : Except SccFixpointError Unit :=
  match firstTypeMismatch row schema with
  | some found =>
      .error (.inconsistentHeadValueTypes predicate found.1 found.2.1 (.value found.2.2))
  | none => .ok ()

/-- One predicate in one round. -/
def sccGroupStep (store : RefRelationStore) (order : VariableOrder) (next : SccState)
    (group : String × List Rule) : Except SccFixpointError SccState := do
  let produced ← ruleRows (SccFixpointError.ruleEval group.1) store order group.2
  let frozen := (next.frozen group.1).or (produced.head?.map inferSchema)
  frozen.toList.forM fun schema => produced.forM (checkRowTypes group.1 schema)
  return ⟨Function.update next.frozen group.1 frozen,
    Function.update next.derived group.1 (sortDedup (next.derived group.1 ++ produced))⟩

/-- The rounds that are left. -/
def sccLoop (rules : RuleGroups) (base : RefRelationStore) (order : VariableOrder) (limit : Nat)
    : Nat → SccState → Except SccFixpointError RefRelationStore
  | 0, s => .error (.maxIterationsExceeded limit rules.length
      (rules.map fun group => (s.derived group.1).length).sum)
  | rounds + 1, s => do
      let next ← rules.foldlM (sccGroupStep (s.store rules base) order) s
      if rules.all fun group => next.derived group.1 = s.derived group.1 then
        return fun predicate =>
          if predicate ∈ rules.map Prod.fst then some (next.relation rules predicate) else none
      else sccLoop rules base order limit rounds next

/-- The checks of one group at entry. -/
def checkGroup (base : RefRelationStore) (group : String × List Rule)
    : Except SccFixpointError Unit :=
  if (base group.1).isSome then .error (.predicateInBaseRelations group.1)
  else do
    group.2.zipIdx.forM fun item =>
      if item.1.head.predicate ≠ group.1 then
        .error (.ruleHeadPredicateMismatch group.1 item.2 item.1.head.predicate)
      else .ok ()
    match headArity group.2 with
    | none => .error (.schemaIndeterminable group.1)
    | some arity =>
        group.2.zipIdx.forM fun item =>
          if ¬ item.1.head.terms.isEmpty ∧ item.1.head.terms.length ≠ arity then
            .error (.headArityMismatch group.1 item.2 item.1.head.terms.length arity)
          else .ok ()

def evaluateSccFixpoint (rules : RuleGroups) (base : RefRelationStore) (order : VariableOrder)
    (config : FixpointConfig) : Except SccFixpointError RefRelationStore :=
  if config.maxIterations = 0 then .error .invalidMaxIterations
  else do
    rules.forM (checkGroup base)
    sccLoop rules base order config.maxIterations config.maxIterations
      ⟨fun _ => none, fun _ => []⟩

-- Rounds

open Xlog.Foundation

-- Purpose

/-- What the base relations hold and what the rules derive in one step. -/
def consequence (rules : List Rule) (base interp : Interp) : Interp := fun predicate =>
  base predicate ∪ { row | ∃ rule ∈ rules, rule.head.predicate = predicate
    ∧ rule.Derives interp row }

theorem consequence_mono (rules : List Rule) (base : Interp)
    : Monotone (consequence rules base) := by
  intro I J hle predicate
  refine Set.union_subset_union_right _ ?_
  rintro row ⟨rule, hr, hp, hd⟩
  exact ⟨rule, hr, hp, hd.mono fun p => hle p⟩

def leastModel (rules : List Rule) (base : Interp) : Interp :=
  OrderHom.lfp ⟨consequence rules base, consequence_mono rules base⟩

theorem consequence_leastModel (rules : List Rule) (base : Interp)
    : consequence rules base (leastModel rules base) = leastModel rules base :=
  OrderHom.map_lfp ⟨consequence rules base, consequence_mono rules base⟩

/-- The relations after some rounds. -/
def roundsOf (rules : List Rule) (base : Interp) : Nat → Interp
  | 0 => base
  | rounds + 1 => consequence rules base (roundsOf rules base rounds)

/-- The rules are eligible and typed by the schemas, and so are the base relations. -/
structure Consistent (schemas : String → List ScalarType) (base : RefRelationStore)
    (recursive : String → Prop) (rules : List Rule) : Prop where
  typed : ∀ rule ∈ rules, ∃ types, rule.Typed schemas types
  eligible : ∀ rule ∈ rules,
    analyze (HypergraphRule.fromRule rule) .hashFallback = .eligible
  known : ∀ rule ∈ rules, ∀ atom ∈ rule.positiveAtoms,
    recursive atom.predicate ∨ ∃ relation, base atom.predicate = some relation
  stored : ∀ predicate relation, base predicate = some relation →
    relation.schema = schemas predicate ∧ ∀ row ∈ relation.rows, RowFits relation.schema row
  fresh : ∀ predicate, recursive predicate → base predicate = none

/-- The constants of the recursive atoms have values of type `u32`. -/
def PlaceholderFits (recursive : String → Prop) (rules : List Rule) : Prop :=
  ∀ rule ∈ rules, ∀ atom ∈ rule.positiveAtoms, recursive atom.predicate →
    ∀ term ∈ atom.terms, ConstantFits term .u32

-- Rounds

section Rounds

variable {rules : List Rule} {base : Interp}

theorem roundsOf_succ (rounds : Nat)
    : roundsOf rules base (rounds + 1) = consequence rules base (roundsOf rules base rounds) :=
  rfl

theorem roundsOf_le_succ (rounds : Nat)
    : roundsOf rules base rounds ≤ roundsOf rules base (rounds + 1) := by
  induction rounds with
  | zero =>
      rw [roundsOf_succ]
      exact fun predicate => Set.subset_union_left
  | succ rounds ih =>
      rw [roundsOf_succ rounds, roundsOf_succ (rounds + 1)]
      exact consequence_mono rules base ih

/-- No round leaves the least model, by induction on the rounds. -/
theorem roundsOf_le_leastModel (rounds : Nat)
    : roundsOf rules base rounds ≤ leastModel rules base := by
  have hmodel := consequence_leastModel rules base
  induction rounds with
  | zero =>
      rw [← hmodel]
      exact fun predicate => Set.subset_union_left
  | succ rounds ih =>
      rw [roundsOf_succ, ← hmodel]
      exact consequence_mono rules base ih

/-- A round that adds nothing has reached the least model. -/
theorem roundsOf_eq_leastModel {rounds : Nat}
    (h : roundsOf rules base (rounds + 1) = roundsOf rules base rounds)
    : roundsOf rules base rounds = leastModel rules base := by
  refine le_antisymm (roundsOf_le_leastModel rounds) (OrderHom.lfp_le _ ?_)
  exact ((roundsOf_succ rounds).symm.trans h).le

theorem roundsOf_stable {rounds : Nat} (h : roundsOf rules base rounds = leastModel rules base)
    : roundsOf rules base (rounds + 1) = roundsOf rules base rounds := by
  rw [roundsOf_succ, h, consequence_leastModel]

/-- Predicates without rules keep their base relation. -/
theorem roundsOf_of_not_head {predicate : String}
    (h : ∀ rule ∈ rules, rule.head.predicate ≠ predicate) (rounds : Nat)
    : roundsOf rules base rounds predicate = base predicate := by
  cases rounds with
  | zero => rfl
  | succ rounds =>
      rw [roundsOf_succ]
      refine Set.union_eq_self_of_subset_right ?_
      rintro row ⟨rule, hr, hp, -⟩
      exact absurd hp (h rule hr)

/-- What a round adds to a predicate without base relation. -/
theorem mem_roundsOf_succ {predicate : String} (h : base predicate = ∅) (rounds : Nat)
    (row : RefRow)
    : row ∈ roundsOf rules base (rounds + 1) predicate
      ↔ row ∈ roundsOf rules base rounds predicate ∨ ∃ rule ∈ rules,
        rule.head.predicate = predicate ∧ rule.Derives (roundsOf rules base rounds) row := by
  constructor
  · intro hm
    rw [roundsOf_succ] at hm
    rcases hm with hm | hm
    · rw [h] at hm
      exact absurd hm (Set.notMem_empty row)
    · exact .inr hm
  · rintro (hm | hm)
    · exact roundsOf_le_succ rounds predicate hm
    · rw [roundsOf_succ]
      exact .inr hm

end Rounds

-- Rows

theorem inferSchema_of_rowFits {schema : List ScalarType} {row : RefRow} (h : RowFits schema row)
    : inferSchema row = schema := by
  induction h with
  | nil => rfl
  | cons hone _ ih => rw [inferSchema, List.map_cons, hone, ← inferSchema, ih]

/-- A typed rule derives typed rows. -/
theorem Rule.Typed.rowFits {schemas : String → List ScalarType} {types : String → ScalarType}
    {rule : Rule} (h : rule.Typed schemas types) {interp : Interp}
    (hinterp : ∀ atom ∈ rule.positiveAtoms, ∀ row ∈ interp atom.predicate,
      RowFits (schemas atom.predicate) row)
    {row : RefRow} (hderives : rule.Derives interp row)
    : RowFits (schemas rule.head.predicate) row := by
  obtain ⟨σ, ⟨hatoms, -⟩, hhead⟩ := hderives
  have htypes (name : String) (hb : rule.Binds name) : (σ name).scalarType = types name := by
    obtain ⟨atom, ha, hname⟩ := hb
    obtain ⟨r, hr, hm⟩ := hatoms atom ha
    obtain ⟨i, hi, heq⟩ := List.getElem_of_mem hname
    have hrow := hinterp atom ha r hr
    have hir : i < r.length := hm.length_eq ▸ hi
    have his : i < (schemas atom.predicate).length := hrow.length_eq ▸ hir
    have hvalue := hm.get hi hir
    have htype := ((h.atoms atom ha).get hi his).1 name (by simpa using heq)
    have hcell := hrow.get hir his
    simp only [List.get_eq_getElem, heq, TermMatches] at hvalue htype hcell
    rw [← hvalue, hcell, htype]
  refine List.forall₂_iff_get.mpr ⟨hhead.length_eq.symm.trans h.head.length_eq, ?_⟩
  intro i hir his
  have hi : i < rule.head.terms.length := hhead.length_eq ▸ hir
  have hvalue := hhead.get hi hir
  have hfit := h.head.get hi his
  simp only [List.get_eq_getElem] at hvalue hfit ⊢
  cases ht : rule.head.terms[i] with
  | var name =>
      rw [ht] at hvalue hfit
      rw [hvalue, htypes name (h.bound name (.inl (ht ▸ List.getElem_mem hi)))]
      exact hfit
  | integer n =>
      rw [ht] at hvalue hfit
      rw [hvalue, hfit]
      rfl
  | string s =>
      rw [ht] at hvalue hfit
      rw [hvalue, hfit]
      rfl
  | _ =>
      rw [ht] at hfit
      exact hfit.elim

theorem ruleRows_spec {ε : Type} (wrap : Nat → RefEvalError → ε) (order : VariableOrder)
    {schemas : String → List ScalarType} {store : RefRelationStore}
    {rules : List Rule} (htyped : ∀ rule ∈ rules, ∃ types, rule.Typed schemas types)
    (heligible : ∀ rule ∈ rules,
      analyze (HypergraphRule.fromRule rule) .hashFallback = .eligible)
    (hready : ∀ rule ∈ rules, ∀ atom ∈ rule.positiveAtoms, AtomReady schemas store atom)
    : Ends (fun _ => False)
        (fun rows => ∀ row, row ∈ rows ↔ ∃ rule ∈ rules, rule.Derives store.interp row)
        (ruleRows wrap store order rules) := by
  have hloop : Ends (fun _ => False)
      (fun rows => ∀ row, row ∈ rows ↔ ∃ item ∈ rules.zipIdx, item.1.Derives store.interp row)
      (ruleRows wrap store order rules) := by
    unfold ruleRows
    refine Ends.foldlM (fun (done : List (Rule × Nat)) rows => ∀ row, row ∈ rows
      ↔ ∃ item ∈ done, item.1.Derives store.interp row) (by simp) ?_
    intro before item after rows heq hrows
    have hitem : item ∈ rules.zipIdx := by
      rw [heq]
      simp
    have hmem : item.1 ∈ rules := List.fst_mem_of_mem_zipIdx hitem
    obtain ⟨types, ht⟩ := htyped item.1 hmem
    have heval := evaluateRule_spec ht.readable (heligible item.1 hmem) (hready item.1 hmem) order
    cases hrun : evaluateRule item.1 store order with
    | error e =>
        rw [hrun] at heval
        exact heval
    | ok new =>
        rw [hrun] at heval
        intro row
        rw [List.mem_append, hrows row, heval row]
        simp only [List.mem_append, List.mem_singleton, or_and_right, exists_or, exists_eq_left]
  refine hloop.mono fun rows h row => (h row).trans ⟨?_, ?_⟩
  · rintro ⟨item, hi, hd⟩
    exact ⟨item.1, List.fst_mem_of_mem_zipIdx hi, hd⟩
  · rintro ⟨rule, hr, hd⟩
    obtain ⟨i, hi, rfl⟩ := List.getElem_of_mem hr
    exact ⟨(rules[i], i), by simp [List.mem_zipIdx_iff_getElem?], hd⟩

/-- The rules can be evaluated on the rounds so far. -/
structure Ready (schemas : String → List ScalarType) (rules : List Rule)
    (store : RefRelationStore) : Prop where
  atoms : ∀ rule ∈ rules, ∀ atom ∈ rule.positiveAtoms, AtomReady schemas store atom
  rows : ∀ rule ∈ rules, ∀ atom ∈ rule.positiveAtoms, ∀ row ∈ store.interp atom.predicate,
    RowFits (schemas atom.predicate) row

/-- The relation of a recursive predicate in a round. -/
structure RelationOk (schemas : String → List ScalarType) (predicate : String) (arity : Nat)
    (schema : Option (List ScalarType)) (rows : List RefRow) : Prop where
  arity : (schemas predicate).length = arity
  typed : ∀ row ∈ rows, RowFits (schemas predicate) row
  frozen : schema = some (schemas predicate) ∨ schema = none ∧ rows = []

theorem RelationOk.rowFits {schemas : String → List ScalarType} {predicate : String}
    {arity : Nat} {schema : Option (List ScalarType)} {rows : List RefRow}
    (h : RelationOk schemas predicate arity schema rows) {row : RefRow} (hr : row ∈ rows)
    : RowFits (schemaOr schema arity) row := by
  rcases h.frozen with rfl | ⟨-, rfl⟩
  · exact h.typed row hr
  · simp at hr

/-- New typed rows freeze the right schema. -/
theorem RelationOk.next {schemas : String → List ScalarType} {predicate : String}
    {arity : Nat} {schema : Option (List ScalarType)} {rows new : List RefRow}
    (h : RelationOk schemas predicate arity schema rows)
    (hnew : ∀ row ∈ new, RowFits (schemas predicate) row) {from' : List RefRow}
    (hfrom : ∀ row ∈ from', RowFits (schemas predicate) row)
    (hempty : from' = [] → schema = none → new = [])
    : RelationOk schemas predicate arity (schema.or (from'.head?.map inferSchema)) new := by
  refine ⟨h.arity, hnew, ?_⟩
  cases schema with
  | some frozen =>
      rcases h.frozen with hf | ⟨hf, -⟩
      · exact .inl hf
      · simp at hf
  | none =>
      cases from' with
      | nil => exact .inr ⟨rfl, hempty rfl rfl⟩
      | cons row rest =>
          refine .inl ?_
          simp only [Option.none_or, List.head?_cons, Option.map_some]
          rw [inferSchema_of_rowFits (hfrom row (by simp))]

section Rounds

variable {schemas : String → List ScalarType} {base : RefRelationStore}
variable {recursive : String → Prop} {rules : List Rule}

/-- A store that holds a round can be evaluated when its recursive relations are in order and
their placeholders accept the constants.
-/
theorem Consistent.ready (h : Consistent schemas base recursive rules)
    (hfits : PlaceholderFits recursive rules) (store : RefRelationStore)
    (hbase : ∀ predicate, ¬ recursive predicate → store predicate = base predicate)
    (hrec : ∀ predicate, recursive predicate → ∃ arity schema rows,
      store predicate = some ⟨schemaOr schema arity, rows⟩
      ∧ RelationOk schemas predicate arity schema rows)
    : Ready schemas rules store := by
  constructor
  · intro rule hr atom ha
    obtain ⟨types, ht⟩ := h.typed rule hr
    have hconst : List.Forall₂ ConstantFits atom.terms (schemas atom.predicate) :=
      (ht.atoms atom ha).imp fun _ _ hfit => hfit.2
    by_cases hp : recursive atom.predicate
    · obtain ⟨arity, schema, rows, hstore, hok⟩ := hrec _ hp
      refine ⟨_, hstore, fun row hrow => hok.rowFits hrow, ?_, ?_⟩
      · rcases hok.frozen with rfl | ⟨rfl, -⟩
        · exact hconst
        · refine List.forall₂_iff_get.mpr ⟨?_, ?_⟩
          · simp [schemaOr, hconst.length_eq, hok.arity]
          · intro i hi _
            simp only [schemaOr, Option.getD_none, List.get_eq_getElem, List.getElem_replicate]
            exact hfits rule hr atom ha hp _ (List.getElem_mem hi)
      · rcases hok.frozen with rfl | ⟨-, hrows⟩
        · exact .inl rfl
        · exact .inr hrows
    · obtain ⟨relation, hrel⟩ := (h.known rule hr atom ha).resolve_left hp
      obtain ⟨hschema, hrows⟩ := h.stored _ relation hrel
      exact ⟨relation, (hbase _ hp).trans hrel, hrows, hschema ▸ hconst, .inl hschema⟩
  · rintro rule hr atom ha row ⟨relation, hrel, hm⟩
    by_cases hp : recursive atom.predicate
    · obtain ⟨arity, schema, rows, hstore, hok⟩ := hrec _ hp
      obtain rfl := Option.some.inj (hstore.symm.trans hrel)
      exact hok.typed row hm
    · rw [hbase _ hp] at hrel
      obtain ⟨hschema, hrows⟩ := h.stored _ relation hrel
      exact hschema ▸ hrows row hm

/-- Without a round in between, a rule that ran has read its placeholders. -/
theorem constantFits_of_build {predicate : String} {position : Nat} {term : Term}
    {vertex : Option VertexId} {spec : PositionSpec}
    (run : PositionSpec.build predicate position term vertex .u32 = .ok spec)
    : ConstantFits term .u32 := by
  cases term with
  | var _ | anonymous => trivial
  | integer n =>
      obtain ⟨value, hv, -⟩ := bind_eq_ok.mp run
      by_cases hn : n < 0 ∨ n > 4294967295
      · simp [coerceIntegerConstant, if_pos hn] at hv
      · have hlt : n.toNat < 2 ^ 32 := by omega
        refine ⟨.u32 (.ofNat n.toNat), rfl, ?_⟩
        simp only [RefValue.number, UInt32.toNat_ofNat_of_lt' hlt]
        rw [Int.toNat_of_nonneg (by omega)]
  | _ => simp [PositionSpec.build] at run

theorem constantFits_of_buildAll {predicate : String} {vertices : List (Option VertexId)}
    {position : Nat} {terms : List Term} {schema : List ScalarType} {specs : List PositionSpec}
    (hschema : ∀ ty ∈ schema, ty = .u32) (hlen : terms.length = schema.length)
    (run : PositionSpec.buildAll predicate vertices position terms schema = .ok specs)
    : ∀ term ∈ terms, ConstantFits term .u32 := by
  induction terms generalizing position schema specs with
  | nil => simp
  | cons term terms ih =>
      cases schema with
      | nil => simp at hlen
      | cons ty schema =>
          obtain rfl := hschema ty (by simp)
          obtain ⟨spec, hspec, run⟩ := bind_eq_ok.mp run
          obtain ⟨rest, hrest, -⟩ := bind_eq_ok.mp run
          refine List.forall_mem_cons.mpr ⟨constantFits_of_build hspec, ?_⟩
          exact ih (fun ty ht => hschema ty (List.mem_cons_of_mem _ ht)) (by simpa using hlen) hrest

theorem constantFits_of_evaluateRule {rule : Rule} {store : RefRelationStore}
    {order : VariableOrder} {rows : List RefRow} (run : evaluateRule rule store order = .ok rows)
    {atom : Atom} (ha : atom ∈ rule.positiveAtoms) (arity : Nat) (stored : List RefRow)
    (hstore : store atom.predicate = some ⟨schemaOr none arity, stored⟩)
    : ∀ term ∈ atom.terms, ConstantFits term .u32 := by
  unfold evaluateRule at run
  simp only at run
  split at run
  · simp at run
  · split at run
    · simp at run
    · obtain ⟨specs, hspecs, -⟩ := bind_eq_ok.mp run
      obtain ⟨i, hi, rfl⟩ := List.getElem_of_mem ha
      have hlen := (isHypergraphOf_fromRule rule).edges.length_eq
      have hz : i < (rule.positiveAtoms.zip (HypergraphRule.fromRule rule).hyperedges).length := by
        simp [List.length_zip, ← hlen, hi]
      obtain ⟨spec, -, hspec⟩ := exists_result_of_mapM hspecs (List.getElem_mem hz)
      rw [List.getElem_zip] at hspec
      simp only [atomSpecOf, hstore] at hspec
      obtain ⟨-, -, hspec⟩ := bind_eq_ok.mp hspec
      unfold AtomSpec.build at hspec
      split at hspec
      · simp at hspec
      · rename_i hterms
        obtain ⟨positions, hbuild, -⟩ := bind_eq_ok.mp hspec
        refine constantFits_of_buildAll ?_ (not_not.mp hterms) hbuild
        intro ty hty
        exact List.eq_of_mem_replicate (by simpa [schemaOr] using hty)

/-- Rules that ran have each been evaluated. -/
theorem exists_of_ruleRows {ε : Type} {wrap : Nat → RefEvalError → ε} {store : RefRelationStore}
    {order : VariableOrder} {rows : List RefRow} (run : ruleRows wrap store order rules = .ok rows)
    {rule : Rule} (hr : rule ∈ rules)
    : ∃ rows, evaluateRule rule store order = .ok rows := by
  have hall := foldlM_inv _ (fun (done : List (Rule × Nat)) (_ : List RefRow) =>
    ∀ item ∈ done, ∃ rows, evaluateRule item.1 store order = .ok rows) rules.zipIdx (by simp)
    (fun done item rows rows' _ hdone hrun => by
      intro other ho
      rcases List.mem_append.mp ho with ho | ho
      · exact hdone other ho
      · obtain rfl := List.mem_singleton.mp ho
        cases heval : evaluateRule other.1 store order with
        | ok new => exact ⟨new, rfl⟩
        | error e =>
            rw [heval] at hrun
            simp at hrun) run
  obtain ⟨i, hi, rfl⟩ := List.getElem_of_mem hr
  exact hall (rules[i], i) (by simp [List.mem_zipIdx_iff_getElem?])

end Rounds

-- One round

/-- A recursive relation holds what the rounds so far derive, as a sorted list. -/
structure RoundOk (schemas : String → List ScalarType) (rules : List Rule) (base : Interp)
    (rounds : Nat) (predicate : String) (arity : Nat) (schema : Option (List ScalarType))
    (rows : List RefRow) : Prop extends RelationOk schemas predicate arity schema rows where
  sorted : sortDedup rows = rows
  mem_iff : ∀ row, row ∈ rows ↔ row ∈ roundsOf rules base rounds predicate

section Round

variable {schemas : String → List ScalarType} {rules : List Rule} {base : Interp}
variable {rounds : Nat} {predicate : String} {arity : Nat} {schema : Option (List ScalarType)}
variable {rows : List RefRow}

theorem roundOk_zero (rules : List Rule) (hbase : base predicate = ∅) (harity : (schemas predicate).length = arity)
    : RoundOk schemas rules base 0 predicate arity none [] where
  arity := harity
  typed := by simp
  frozen := .inr ⟨rfl, rfl⟩
  sorted := rfl
  mem_iff row := by simp [roundsOf, hbase]

/-- The rows that the rules derive from a round complete the next one. -/
theorem RoundOk.mem_next (h : RoundOk schemas rules base rounds predicate arity schema rows)
    (hbase : base predicate = ∅) {produced : List RefRow}
    (hproduced : ∀ row, row ∈ produced ↔ ∃ rule ∈ rules, rule.head.predicate = predicate
      ∧ rule.Derives (roundsOf rules base rounds) row) (row : RefRow)
    : row ∈ sortDedup (rows ++ produced) ↔ row ∈ roundsOf rules base (rounds + 1) predicate := by
  rw [mem_sortDedup, List.mem_append, h.mem_iff, hproduced, mem_roundsOf_succ hbase]

theorem RoundOk.next (h : RoundOk schemas rules base rounds predicate arity schema rows)
    (hbase : base predicate = ∅) {produced : List RefRow}
    (hproduced : ∀ row, row ∈ produced ↔ ∃ rule ∈ rules, rule.head.predicate = predicate
      ∧ rule.Derives (roundsOf rules base rounds) row)
    (htyped : ∀ row ∈ produced, RowFits (schemas predicate) row) {seen : List RefRow}
    (hseen : seen = produced ∨ seen = sortDedup (rows ++ produced))
    : RoundOk schemas rules base (rounds + 1) predicate arity
        (schema.or (seen.head?.map inferSchema)) (sortDedup (rows ++ produced)) where
  toRelationOk := by
    have hall : ∀ row ∈ sortDedup (rows ++ produced), RowFits (schemas predicate) row := by
      intro row hr
      rcases List.mem_append.mp (mem_sortDedup.mp hr) with hr | hr
      · exact h.typed row hr
      · exact htyped row hr
    refine h.toRelationOk.next hall ?_ ?_
    · rcases hseen with rfl | rfl
      · exact htyped
      · exact hall
    · intro hnil hnone
      rcases hseen with rfl | rfl
      · obtain ⟨-, rfl⟩ := h.frozen.resolve_left (by simp [hnone])
        rw [hnil]
        rfl
      · exact hnil
  sorted := sortDedup_eq_iff.mpr fun row => mem_sortDedup
  mem_iff := h.mem_next hbase hproduced

/-- A round leaves the rows as they are when it adds nothing. -/
theorem RoundOk.next_eq_iff (h : RoundOk schemas rules base rounds predicate arity schema rows)
    (hbase : base predicate = ∅) {produced : List RefRow}
    (hproduced : ∀ row, row ∈ produced ↔ ∃ rule ∈ rules, rule.head.predicate = predicate
      ∧ rule.Derives (roundsOf rules base rounds) row)
    : sortDedup (rows ++ produced) = rows
      ↔ roundsOf rules base (rounds + 1) predicate = roundsOf rules base rounds predicate := by
  have hmem := h.mem_next hbase hproduced
  constructor
  · intro heq
    ext row
    rw [← hmem, heq, h.mem_iff]
  · intro heq
    rw [← h.sorted, sortDedup_eq_iff]
    intro row
    rw [h.sorted, ← mem_sortDedup, hmem, heq, h.mem_iff]

end Round

/-- Checks that the heads have one arity pass on typed rules. -/
theorem length_eq_headArity {schemas : String → List ScalarType} {rules : List Rule}
    {predicate : String} (htyped : ∀ rule ∈ rules, ∃ types, rule.Typed schemas types)
    (hheads : ∀ rule ∈ rules, rule.head.predicate = predicate) {arity : Nat}
    (h : headArity rules = some arity)
    : (schemas predicate).length = arity ∧ ∀ rule ∈ rules, rule.head.terms.length = arity := by
  have hlen (rule : Rule) (hr : rule ∈ rules)
      : rule.head.terms.length = (schemas predicate).length := by
    obtain ⟨types, ht⟩ := htyped rule hr
    rw [ht.head.length_eq, hheads rule hr]
  obtain ⟨rule, hfind, rfl⟩ := Option.map_eq_some_iff.mp h
  have hr := List.mem_of_find?_eq_some hfind
  exact ⟨(hlen rule hr).symm, fun other ho => (hlen other ho).trans (hlen rule hr).symm⟩

theorem headArity_ne_none {rules : List Rule}
    : headArity rules ≠ none ↔ ∃ rule ∈ rules, rule.head.terms ≠ [] := by
  simp [headArity]

end Xlog.Logic
