import Mathlib.Data.List.Dedup
import Mathlib.Data.List.Sort
import Mathlib.Data.Prod.Lex
import Mathlib.Data.String.Basic
import Xlog.Logic.ArithmeticEval
import Xlog.Logic.Hypergraph

/-! The reference evaluator of one hypergraph rule: enumerate the assignments of the variables
to the values seen at their positions, keep those that match every atom and pass every
comparison, and project the head.
-/

namespace Xlog.Logic

-- Values and relations

inductive RefValue where
  | u32 (value : UInt32)
  | u64 (value : UInt64)
  | i32 (value : Int32)
  | i64 (value : Int64)
  | bool (value : Bool)
  | symbol (name : String)
  deriving DecidableEq

namespace RefValue

/-- The place of a value in the derived order: first the variant, then the content. -/
def orderKey : RefValue → Nat ×ₗ Int ×ₗ String
  | .u32 value => toLex (0, toLex (value.toNat, ""))
  | .u64 value => toLex (1, toLex (value.toNat, ""))
  | .i32 value => toLex (2, toLex (value.toInt, ""))
  | .i64 value => toLex (3, toLex (value.toInt, ""))
  | .bool value => toLex (4, toLex (value.toNat, ""))
  | .symbol name => toLex (5, toLex (0, name))

theorem orderKey_injective : Function.Injective orderKey := by
  intro a b h
  cases a <;> cases b <;> simp [orderKey, UInt32.toNat_inj, UInt64.toNat_inj, Int32.toInt_inj,
    Int64.toInt_inj] at h ⊢
  case bool.bool left right => cases left <;> cases right <;> simp at h ⊢
  all_goals exact h

instance : LinearOrder RefValue := LinearOrder.lift' orderKey orderKey_injective

def scalarType : RefValue → ScalarType
  | .u32 _ => .u32
  | .u64 _ => .u64
  | .i32 _ => .i32
  | .i64 _ => .i64
  | .bool _ => .bool
  | .symbol _ => .symbol

/-- An integer of any width. -/
def number : RefValue → Option Int
  | .u32 value => some value.toNat
  | .u64 value => some value.toNat
  | .i32 value => some value.toInt
  | .i64 value => some value.toInt
  | .bool _ | .symbol _ => none

end RefValue

abbrev RefRow := List RefValue

structure RefRelation where
  schema : List ScalarType
  rows : List RefRow

abbrev RefRelationStore := String → Option RefRelation

/-- What an error shows of a value or a term. -/
inductive Shown where
  | text (message : String)
  | value (value : RefValue)
  | float (bits : F64)
  | term (term : Term)

inductive RefEvalError where
  | ineligible (boundaries : List Boundary)
  | missingRelation (predicate : String)
  | relationArityMismatch (predicate : String) (atomArity relationArity : Nat)
  | relationRowArityMismatch (predicate : String) (rowIndex rowLen schemaLen : Nat)
  | relationValueTypeMismatch (predicate : String) (rowIndex column : Nat) (expected : ScalarType)
      (got : Shown)
  | constantTypeMismatch (predicate : String) (position : Nat) (expected : ScalarType)
      (got : Shown)
  | comparisonTypeMismatch (left right : Shown) (op : CompOp)
  | unboundHeadVariable (name : Shown)
  | isExprNotSupported

/-- Sorted and without duplicates. -/
def sortDedup (rows : List RefRow) : List RefRow := (rows.insertionSort (· ≤ ·)).dedup

theorem mem_sortDedup {rows : List RefRow} {row : RefRow}
    : row ∈ sortDedup rows ↔ row ∈ rows := by
  simp [sortDedup]

/-- Rows in order without duplicates are determined by their set. -/
theorem sortDedup_eq_iff {rows others : List RefRow}
    : sortDedup rows = sortDedup others ↔ ∀ row, row ∈ rows ↔ row ∈ others := by
  constructor
  · intro h row
    rw [← mem_sortDedup, h, mem_sortDedup]
  · intro h
    have hsorted (rows : List RefRow) : (sortDedup rows).Pairwise (· ≤ ·) :=
      (List.pairwise_insertionSort _ rows).sublist (List.dedup_sublist _)
    refine List.Perm.eq_of_pairwise (fun _ _ _ _ => le_antisymm) (hsorted rows) (hsorted others) ?_
    refine (List.perm_ext_iff_of_nodup (List.nodup_dedup _) (List.nodup_dedup _)).mpr ?_
    simpa using h

-- Atoms

inductive PositionSpec where
  | vertex (vid : VertexId)
  | constant (value : RefValue)
  | wildcard

/-- An atom with its relation, its constants read at the types of the columns. -/
structure AtomSpec where
  relation : RefRelation
  positions : List PositionSpec

def coerceIntegerConstant (n : Int) (target : ScalarType) (predicate : String) (position : Nat)
    : Except RefEvalError RefValue :=
  let mismatch (got : String) : Except RefEvalError RefValue :=
    .error (.constantTypeMismatch predicate position target (.text got))
  match target with
  | .u32 =>
      if n < 0 ∨ n > 4294967295 then mismatch s!"integer {n} out of range for U32"
      else .ok (.u32 (.ofNat n.toNat))
  | .u64 =>
      if n < 0 then mismatch s!"negative integer {n} for U64" else .ok (.u64 (.ofNat n.toNat))
  | .i32 =>
      if ¬ (-2147483648 ≤ n ∧ n ≤ 2147483647) then
        mismatch s!"integer {n} out of range for I32"
      else .ok (.i32 (.ofInt n))
  | .i64 => .ok (.i64 (.ofInt n))
  | .bool => mismatch s!"integer {n} for Bool"
  | .f32 => mismatch s!"integer {n} for F32"
  | .f64 => mismatch s!"integer {n} for F64"
  | .symbol => mismatch s!"integer {n} for Symbol"

/-- One position of an atom. -/
def PositionSpec.build (predicate : String) (position : Nat) (term : Term)
    (vertex : Option VertexId) (target : ScalarType) : Except RefEvalError PositionSpec :=
  let mismatch (got : Shown) : Except RefEvalError PositionSpec :=
    .error (.constantTypeMismatch predicate position target got)
  match term with
  | .var _ =>
      match vertex with
      | some vid => .ok (.vertex vid)
      | none => .ok .wildcard
  | .anonymous => .ok .wildcard
  | .integer n => do return .constant (← coerceIntegerConstant n target predicate position)
  | .string s => if target = .symbol then .ok (.constant (.symbol s)) else mismatch (.text s!"string {s.quote}")
  | .symbol _ => mismatch (.text "interned Symbol(u32) — use Term::String against a Symbol column")
  | .float bits => mismatch (.float bits)
  | .aggregate _ => mismatch (.text "aggregate in body atom")
  | .list _ | .cons _ _ | .compound _ _ | .predRef _ => mismatch (.term term)

def PositionSpec.buildAll (predicate : String) (vertices : List (Option VertexId))
    : Nat → List Term → List ScalarType → Except RefEvalError (List PositionSpec)
  | position, term :: terms, target :: schema => do
      let spec ← PositionSpec.build predicate position term (vertices[position]?).join target
      return spec :: (← buildAll predicate vertices (position + 1) terms schema)
  | _, _, _ => .ok []

def AtomSpec.build (atom : Atom) (edge : Hyperedge) (relation : RefRelation)
    : Except RefEvalError AtomSpec :=
  if atom.terms.length ≠ relation.schema.length then
    .error (.relationArityMismatch atom.predicate atom.terms.length relation.schema.length)
  else do
    return ⟨relation, ← PositionSpec.buildAll atom.predicate edge.vertexPositions 0 atom.terms
      relation.schema⟩

def validateRow (predicate : String) (schema : List ScalarType) (row : RefRow × Nat)
    : Except RefEvalError Unit :=
  if row.1.length ≠ schema.length then
    .error (.relationRowArityMismatch predicate row.2 row.1.length schema.length)
  else
    (row.1.zip schema).zipIdx.forM fun cell =>
      if cell.1.1.scalarType = cell.1.2 then .ok ()
      else .error (.relationValueTypeMismatch predicate row.2 cell.2 cell.1.2 (.value cell.1.1))

def validateRelationRows (predicate : String) (relation : RefRelation)
    : Except RefEvalError Unit :=
  relation.rows.zipIdx.forM (validateRow predicate relation.schema)

def atomSpecOf (relations : RefRelationStore) (item : Atom × Hyperedge)
    : Except RefEvalError AtomSpec :=
  match relations item.1.predicate with
  | none => .error (.missingRelation item.1.predicate)
  | some relation => do
      validateRelationRows item.1.predicate relation
      AtomSpec.build item.1 item.2 relation

/-- The values seen at the positions of a vertex. -/
def domainOf (specs : List AtomSpec) (vid : VertexId) : List RefValue :=
  ((specs.flatMap fun spec => spec.relation.rows.flatMap fun row =>
    (spec.positions.zip row).filterMap fun cell =>
      match cell.1 with
      | .vertex v => if v = vid then some cell.2 else none
      | _ => none).insertionSort (· ≤ ·)).dedup

/-- Values of some vertices. -/
abbrev VertexBinding := VertexId → Option RefValue

/-- Whether a row matches; nothing when a vertex has no value. -/
def rowMatches (binding : VertexBinding) : List PositionSpec → RefRow → Option Bool
  | [], _ | _ :: _, [] => some true
  | .vertex vid :: positions, value :: row =>
      match binding vid with
      | none => none
      | some bound => if bound ≠ value then some false else rowMatches binding positions row
  | .constant c :: positions, value :: row =>
      if c ≠ value then some false else rowMatches binding positions row
  | .wildcard :: positions, _ :: row => rowMatches binding positions row

def hasMatchingRow (binding : VertexBinding) (positions : List PositionSpec)
    : List RefRow → Bool
  | [] => false
  | row :: rows =>
      match rowMatches binding positions row with
      | none => false
      | some true => true
      | some false => hasMatchingRow binding positions rows

def atomHasMatchingRow (binding : VertexBinding) (spec : AtomSpec) : Bool :=
  hasMatchingRow binding spec.positions spec.relation.rows

-- Comparisons

def resolveVertex (vertices : List Vertex) (binding : VertexBinding) (name : String)
    : Except RefEvalError RefValue :=
  match (vertexOf vertices name).bind binding with
  | some value => .ok value
  | none => .error (.unboundHeadVariable (.text name))

def resolveTermForComparison (vertices : List Vertex) (binding : VertexBinding) (term : Term)
    : Except RefEvalError RefValue :=
  match term with
  | .var name => resolveVertex vertices binding name
  | .integer n => .ok (.i64 (.ofInt n))
  | .string s => .ok (.symbol s)
  | .anonymous | .symbol _ | .float _ | .aggregate _ | .list _ | .cons _ _ | .compound _ _
  | .predRef _ => .error (.comparisonTypeMismatch (.term term) (.text "<n/a>") .eq)

def applyComparisonOp (left right : RefValue) (op : CompOp) : Except RefEvalError Bool :=
  match left, right with
  | .symbol a, .symbol b => .ok (compareOrdered op a b)
  | .bool a, .bool b => .ok (compareOrdered op a b)
  | _, _ =>
      match left.number, right.number with
      | some a, some b => .ok (compareOrdered op a b)
      | _, _ => .error (.comparisonTypeMismatch (.value left) (.value right) op)

def evaluateComparison (vertices : List Vertex) (binding : VertexBinding) (cmp : Comparison)
    : Except RefEvalError Bool := do
  let left ← resolveTermForComparison vertices binding cmp.left
  let right ← resolveTermForComparison vertices binding cmp.right
  applyComparisonOp left right cmp.op

/-- The comparisons in order, up to the first that fails. -/
def comparisonsHold (vertices : List Vertex) (binding : VertexBinding)
    : List Comparison → Except RefEvalError Bool
  | [] => .ok true
  | cmp :: rest => do
      if ← evaluateComparison vertices binding cmp then comparisonsHold vertices binding rest
      else return false

-- Rules

def projectTerm (vertices : List Vertex) (binding : VertexBinding) (term : Term)
    : Except RefEvalError RefValue :=
  match term with
  | .var name => resolveVertex vertices binding name
  | .integer n => .ok (.i64 (.ofInt n))
  | .string s => .ok (.symbol s)
  | .anonymous | .symbol _ | .float _ | .aggregate _ | .list _ | .cons _ _ | .compound _ _
  | .predRef _ => .error (.unboundHeadVariable (.term term))

/-- The row of a full assignment, if it passes. -/
def finish (vertices : List Vertex) (specs : List AtomSpec) (comparisons : List Comparison)
    (head : Atom) (binding : VertexBinding) (results : List RefRow)
    : Except RefEvalError (List RefRow) :=
  if specs.all (atomHasMatchingRow binding) then do
    if ← comparisonsHold vertices binding comparisons then
      return results ++ [← head.terms.mapM (projectTerm vertices binding)]
    else return results
  else .ok results

/-- Bind the vertices one after the other to every value of their domains. -/
def enumerate (vertices : List Vertex) (specs : List AtomSpec) (comparisons : List Comparison)
    (head : Atom)
    : List VertexId → VertexBinding → List RefRow → Except RefEvalError (List RefRow)
  | [], binding, results => finish vertices specs comparisons head binding results
  | vid :: rest, binding, results =>
      (domainOf specs vid).foldlM (fun results value =>
        enumerate vertices specs comparisons head rest
          (Function.update binding vid (some value)) results) results

/-- An order binds every vertex once. -/
structure VariableOrder where
  order : HypergraphRule → List VertexId
  complete : ∀ hg, (order hg).Perm (List.range hg.vertexCount)

/-- The variables in the order of their first appearance. -/
def appearanceOrder : VariableOrder where
  order hg := List.range hg.vertexCount
  complete _ := .rfl

def Rule.comparisons (rule : Rule) : List Comparison :=
  rule.body.filterMap fun
    | .comparison cmp => some cmp
    | _ => none

def BodyLiteral.isComputed : BodyLiteral → Bool
  | .isExpr _ | .univ _ => true
  | _ => false

def evaluateRule (rule : Rule) (relations : RefRelationStore) (order : VariableOrder)
    : Except RefEvalError (List RefRow) :=
  let hg := HypergraphRule.fromRule rule
  match analyze hg .hashFallback with
  | .ineligible boundaries => .error (.ineligible boundaries)
  | .eligible =>
      if rule.body.any BodyLiteral.isComputed then .error .isExprNotSupported
      else do
        let specs ← (rule.positiveAtoms.zip hg.hyperedges).mapM (atomSpecOf relations)
        let results ← enumerate hg.vertices specs rule.comparisons rule.head (order.order hg)
          (fun _ => none) []
        return sortDedup results

end Xlog.Logic
