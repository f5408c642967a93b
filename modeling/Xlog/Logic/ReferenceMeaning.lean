import Xlog.Foundation.Loop
import Xlog.Logic.Reference

/-! What a hypergraph rule says about relations, when its atoms agree on the types of their
columns, and the atoms, comparisons and heads of the evaluator under an assignment.
-/

namespace Xlog.Logic

open Xlog.Foundation

-- Purpose

/-- Values of the variables. -/
abbrev Assignment := String → RefValue

/-- The rows of every predicate. -/
abbrev Interp := String → Set RefRow

/-- An argument of an atom matches a value; a constant reads at the type of the value. -/
def TermMatches (σ : Assignment) (term : Term) (value : RefValue) : Prop :=
  match term with
  | .var name => value = σ name
  | .anonymous => True
  | .integer n => value.number = some n
  | .string s => value = .symbol s
  | _ => False

/-- The value of an operand or of a head argument. -/
def TermValue (σ : Assignment) (term : Term) (value : RefValue) : Prop :=
  match term with
  | .var name => value = σ name
  | .integer n => value = .i64 (.ofInt n)
  | .string s => value = .symbol s
  | _ => False

/-- Integers of all widths compare by their numbers. -/
def Compares (op : CompOp) (left right : RefValue) : Prop :=
  (∃ a b, left.number = some a ∧ right.number = some b ∧ compareOrdered op a b = true)
  ∨ (∃ a b, left = .symbol a ∧ right = .symbol b ∧ compareOrdered op a b = true)
  ∨ ∃ a b, left = .bool a ∧ right = .bool b ∧ compareOrdered op a b = true

def Comparison.Holds (cmp : Comparison) (σ : Assignment) : Prop :=
  ∃ left right, TermValue σ cmp.left left ∧ TermValue σ cmp.right right
    ∧ Compares cmp.op left right

def Atom.Matches (atom : Atom) (σ : Assignment) (row : RefRow) : Prop :=
  List.Forall₂ (TermMatches σ) atom.terms row

/-- The assignment satisfies the body of the rule. -/
def Rule.BodyHolds (rule : Rule) (interp : Interp) (σ : Assignment) : Prop :=
  (∀ atom ∈ rule.positiveAtoms, ∃ row ∈ interp atom.predicate, atom.Matches σ row)
  ∧ ∀ cmp ∈ rule.comparisons, cmp.Holds σ

/-- The rule derives the row. -/
def Rule.Derives (rule : Rule) (interp : Interp) (row : RefRow) : Prop :=
  ∃ σ, rule.BodyHolds interp σ ∧ List.Forall₂ (TermValue σ) rule.head.terms row

/-- The rows of a store. -/
def RefRelationStore.interp (store : RefRelationStore) : Interp :=
  fun predicate => { row | ∃ relation, store predicate = some relation ∧ row ∈ relation.rows }

theorem Rule.Derives.mono {rule : Rule} {I J : Interp} {row : RefRow}
    (h : rule.Derives I row) (hle : ∀ predicate, I predicate ⊆ J predicate)
    : rule.Derives J row := by
  obtain ⟨σ, ⟨hatoms, hcmps⟩, hhead⟩ := h
  refine ⟨σ, ⟨?_, hcmps⟩, hhead⟩
  intro atom ha
  obtain ⟨r, hr, hm⟩ := hatoms atom ha
  exact ⟨r, hle _ hr, hm⟩

-- Types

/-- A constant has a value of the type. -/
def ConstantFits (term : Term) (ty : ScalarType) : Prop :=
  match term with
  | .var _ | .anonymous => True
  | .integer n => ∃ value : RefValue, value.scalarType = ty ∧ value.number = some n
  | .string _ => ty = .symbol
  | _ => False

/-- An argument of an atom fits the type of its column. -/
def TermFits (types : String → ScalarType) (term : Term) (ty : ScalarType) : Prop :=
  (∀ name, term = .var name → types name = ty) ∧ ConstantFits term ty

/-- The type of an operand or of a head argument; an integer constant is an `i64`. -/
def ValueFits (types : String → ScalarType) (term : Term) (ty : ScalarType) : Prop :=
  match term with
  | .var name => types name = ty
  | .integer _ => ty = .i64
  | .string _ => ty = .symbol
  | _ => False

def ScalarType.isInteger : ScalarType → Bool
  | .u32 | .u64 | .i32 | .i64 => true
  | _ => false

def Comparable (left right : ScalarType) : Prop :=
  left.isInteger = true ∧ right.isInteger = true
  ∨ left = .symbol ∧ right = .symbol ∨ left = .bool ∧ right = .bool

def RowFits (schema : List ScalarType) (row : RefRow) : Prop :=
  List.Forall₂ (fun value ty => RefValue.scalarType value = ty) row schema

/-- A variable occurs in a positive atom. -/
def Rule.Binds (rule : Rule) (name : String) : Prop :=
  ∃ atom ∈ rule.positiveAtoms, Term.var name ∈ atom.terms

/-- The atoms of a rule agree on the types of the variables. -/
structure Rule.Typed (schemas : String → List ScalarType) (types : String → ScalarType)
    (rule : Rule) : Prop where
  body : ∀ literal ∈ rule.body, literal.isComputed = false
  atoms : ∀ atom ∈ rule.positiveAtoms,
    List.Forall₂ (TermFits types) atom.terms (schemas atom.predicate)
  comparisons : ∀ cmp ∈ rule.comparisons, ∃ left right,
    ValueFits types cmp.left left ∧ ValueFits types cmp.right right ∧ Comparable left right
  head : List.Forall₂ (ValueFits types) rule.head.terms (schemas rule.head.predicate)
  bound : ∀ name, (Term.var name ∈ rule.head.terms
    ∨ ∃ cmp ∈ rule.comparisons, cmp.left = .var name ∨ cmp.right = .var name) → rule.Binds name

/-- What the evaluator needs of the typing: the head has values, of whatever types. -/
structure Rule.Readable (schemas : String → List ScalarType) (types : String → ScalarType)
    (rule : Rule) : Prop where
  body : ∀ literal ∈ rule.body, literal.isComputed = false
  atoms : ∀ atom ∈ rule.positiveAtoms,
    List.Forall₂ (TermFits types) atom.terms (schemas atom.predicate)
  comparisons : ∀ cmp ∈ rule.comparisons, ∃ left right,
    ValueFits types cmp.left left ∧ ValueFits types cmp.right right ∧ Comparable left right
  head : ∀ term ∈ rule.head.terms, ∃ ty, ValueFits types term ty
  bound : ∀ name, (Term.var name ∈ rule.head.terms
    ∨ ∃ cmp ∈ rule.comparisons, cmp.left = .var name ∨ cmp.right = .var name) → rule.Binds name

theorem Rule.Typed.readable {schemas : String → List ScalarType} {types : String → ScalarType}
    {rule : Rule} (h : rule.Typed schemas types)
    : rule.Readable schemas types where
  body := h.body
  atoms := h.atoms
  comparisons := h.comparisons
  head := by
    intro term hterm
    obtain ⟨i, hi, rfl⟩ := List.getElem_of_mem hterm
    exact ⟨_, h.head.get hi (h.head.length_eq ▸ hi)⟩
  bound := h.bound

/-- A number and a type determine the value. -/
theorem RefValue.eq_of_number {a b : RefValue} {n : Int} (htype : a.scalarType = b.scalarType)
    (ha : a.number = some n) (hb : b.number = some n)
    : a = b := by
  cases a <;> cases b <;> simp only [scalarType, reduceCtorEq, number, Option.some.injEq]
    at htype ha hb
  case u32.u32 x y => rw [UInt32.toNat_inj.mp (Int.ofNat.inj (ha.trans hb.symm))]
  case u64.u64 x y => rw [UInt64.toNat_inj.mp (Int.ofNat.inj (ha.trans hb.symm))]
  case i32.i32 x y => rw [Int32.toInt_inj.mp (ha.trans hb.symm)]
  case i64.i64 x y => rw [Int64.toInt_inj.mp (ha.trans hb.symm)]

-- Constants and positions

/-- A constant that has a value of the type is read as that value. -/
theorem coerceIntegerConstant_of_number {value : RefValue} {n : Int} {predicate : String}
    {position : Nat} (h : value.number = some n)
    : coerceIntegerConstant n value.scalarType predicate position = .ok value := by
  cases value with
  | u32 x =>
      obtain rfl := Option.some.inj h
      have hlt := x.toNat_lt
      simp [RefValue.scalarType, coerceIntegerConstant]
      omega
  | u64 x =>
      obtain rfl := Option.some.inj h
      simp [RefValue.scalarType, coerceIntegerConstant]
  | i32 x =>
      obtain rfl := Option.some.inj h
      have hle := x.le_toInt
      have hlt := x.toInt_lt
      simp [RefValue.scalarType, coerceIntegerConstant]
      omega
  | i64 x =>
      obtain rfl := Option.some.inj h
      simp [RefValue.scalarType, coerceIntegerConstant]
  | bool _ | symbol _ => simp [RefValue.number] at h

/-- How a position of an atom is to be read. -/
def PositionReads (vertices : List Vertex) (item : Term × ScalarType) (pos : PositionSpec)
    : Prop :=
  match item.1 with
  | .var name => ∃ vid, pos = .vertex vid ∧ vertices[vid]? = some ⟨name⟩
  | .anonymous => pos = .wildcard
  | .integer n => ∃ value, pos = .constant value ∧ value.scalarType = item.2
      ∧ value.number = some n
  | .string s => pos = .constant (.symbol s)
  | _ => False

theorem positionSpec_build_spec {vertices : List Vertex} {predicate : String} {position : Nat}
    {term : Term} {vertex : Option VertexId} {ty : ScalarType}
    (hpos : PositionOf vertices term vertex) (hfits : ConstantFits term ty)
    : Ends (fun _ => False) (PositionReads vertices (term, ty))
        (PositionSpec.build predicate position term vertex ty) := by
  cases term with
  | var name =>
      obtain ⟨vid, rfl, hv⟩ := hpos
      exact ⟨vid, rfl, hv⟩
  | anonymous => exact rfl
  | integer n =>
      obtain ⟨value, rfl, hn⟩ := hfits
      simp only [PositionSpec.build, coerceIntegerConstant_of_number hn, ok_bind]
      exact ⟨value, rfl, rfl, hn⟩
  | string s =>
      obtain rfl : ty = .symbol := hfits
      simp only [PositionSpec.build, if_true]
      exact rfl
  | _ => exact hfits.elim

/-- All positions of an atom, by induction on its terms. -/
theorem positionSpec_buildAll_spec {vertices : List Vertex} {predicate : String}
    {before : List (Option VertexId)} {terms : List Term} {positions : List (Option VertexId)}
    (hpos : List.Forall₂ (PositionOf vertices) terms positions) {schema : List ScalarType}
    (hfits : List.Forall₂ ConstantFits terms schema)
    : Ends (fun _ => False) (List.Forall₂ (PositionReads vertices) (terms.zip schema))
        (PositionSpec.buildAll predicate (before ++ positions) before.length terms schema) := by
  induction hpos generalizing before schema with
  | nil => exact .nil
  | @cons term pos terms positions hone _ ih =>
      cases hfits with
      | @cons _ ty _ schema hfit hfits =>
          have hget : ((before ++ pos :: positions)[before.length]?).join = pos := by simp
          simp only [PositionSpec.buildAll, hget]
          refine (positionSpec_build_spec hone hfit).bind fun spec hspec => ?_
          have hrest := @ih (before ++ [pos]) schema hfits
          simp only [List.append_assoc, List.singleton_append, List.length_append,
            List.length_singleton] at hrest
          exact hrest.bind fun specs hspecs => .cons hspec hspecs

theorem validateRelationRows_ok {predicate : String} {relation : RefRelation}
    (h : ∀ row ∈ relation.rows, RowFits relation.schema row)
    : validateRelationRows predicate relation = .ok () := by
  have hrow (item : RefRow × Nat) (hi : item ∈ relation.rows.zipIdx)
      : validateRow predicate relation.schema item = .ok () := by
    have hfits := h item.1 (List.fst_mem_of_mem_zipIdx hi)
    rw [validateRow, if_neg (by simpa using hfits.length_eq)]
    refine forM_eq_ok.mpr fun cell hc => ?_
    have hcell := List.fst_mem_of_mem_zipIdx hc
    rw [if_pos]
    obtain ⟨i, hlt, heq⟩ := List.getElem_of_mem hcell
    simp only [List.length_zip, lt_inf_iff] at hlt
    rw [← heq, List.getElem_zip]
    exact hfits.get hlt.1 hlt.2
  exact forM_eq_ok.mpr hrow

end Xlog.Logic
