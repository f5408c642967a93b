import Mathlib.Data.List.Forall2
import Mathlib.Data.Set.Basic
import Xlog.Logic.Ast

/-! The epistemic intermediate representation: rules with their modal literals, of which comparisons and
bindings keep only the place. An atom stands for tuples under an assignment of its variables: values come
from an arbitrary algebra of the term constructors, and each anonymous term stands for any value.
-/

namespace Xlog.Ir

open Xlog.Logic (F64)

inductive EirEpistemicMode where
  | g91 | faeel
  deriving DecidableEq, Repr

inductive EirEpistemicOp where
  | know | possible
  deriving DecidableEq, Repr

inductive EirTerm where
  | var (name : String)
  | anonymous
  | integer (value : Int)
  | floatBits (bits : F64)
  | string (value : String)
  | symbol (id : Nat)
  | list (items : List EirTerm)
  | cons (head tail : EirTerm)
  | compound (functor : String) (args : List EirTerm)
  | predRef (name : String)
  | aggregate (op variableName : String)
  deriving Repr, Inhabited

/-- An induction over the terms inside a term. -/
theorem EirTerm.induction {P : EirTerm → Prop} (var : ∀ name, P (.var name))
    (anonymous : P .anonymous) (integer : ∀ value, P (.integer value))
    (floatBits : ∀ bits, P (.floatBits bits)) (string : ∀ value, P (.string value))
    (symbol : ∀ id, P (.symbol id)) (list : ∀ items, (∀ item ∈ items, P item) → P (.list items))
    (cons : ∀ head tail, P head → P tail → P (.cons head tail))
    (compound : ∀ functor args, (∀ arg ∈ args, P arg) → P (.compound functor args))
    (predRef : ∀ name, P (.predRef name)) (aggregate : ∀ op name, P (.aggregate op name))
    (term : EirTerm) : P term :=
  @EirTerm.rec P (fun items => ∀ item ∈ items, P item) var anonymous integer floatBits string
    symbol list cons compound predRef aggregate (by simp)
    (fun _ _ hhead htail => List.forall_mem_cons.mpr ⟨hhead, htail⟩) term

-- Equality

def EirTerm.beq : EirTerm → EirTerm → Bool
  | .var left, .var right => left == right
  | .anonymous, .anonymous => true
  | .integer left, .integer right => left == right
  | .floatBits left, .floatBits right => left == right
  | .string left, .string right => left == right
  | .symbol left, .symbol right => left == right
  | .list left, .list right => beqList left right
  | .cons head tail, .cons head' tail' => beq head head' && beq tail tail'
  | .compound functor args, .compound functor' args' => functor == functor' && beqList args args'
  | .predRef left, .predRef right => left == right
  | .aggregate op name, .aggregate op' name' => op == op' && name == name'
  | _, _ => false
where
  beqList : List EirTerm → List EirTerm → Bool
  | [], [] => true
  | left :: lefts, right :: rights => beq left right && beqList lefts rights
  | _, _ => false

theorem EirTerm.beqList_iff {lefts : List EirTerm}
    (h : ∀ left ∈ lefts, ∀ right, left.beq right = true ↔ left = right) (rights : List EirTerm)
    : beq.beqList lefts rights = true ↔ lefts = rights := by
  induction lefts generalizing rights with
  | nil => cases rights <;> simp [beq.beqList]
  | cons left lefts ih =>
    obtain ⟨hleft, hlefts⟩ := List.forall_mem_cons.mp h
    cases rights with
    | nil => simp [beq.beqList]
    | cons right rights => simp [beq.beqList, hleft right, ih hlefts rights]

theorem EirTerm.beq_iff (left right : EirTerm) : left.beq right = true ↔ left = right := by
  induction left using EirTerm.induction generalizing right with
  | list items ih => cases right <;> simp [beq, beqList_iff ih]
  | cons head tail ihHead ihTail => cases right <;> simp [beq, ihHead, ihTail]
  | compound functor args ih => cases right <;> simp [beq, beqList_iff ih]
  | _ => cases right <;> simp [beq]

instance : DecidableEq EirTerm := fun left right => decidable_of_iff _ (EirTerm.beq_iff left right)

-- Programs

structure EirAtom where
  predicate : String
  terms : List EirTerm
  deriving DecidableEq, Repr

/-- The stored arity, which is always the number of terms. -/
def EirAtom.arity (atom : EirAtom) : Nat := atom.terms.length

structure EirEpistemicLiteral where
  op : EirEpistemicOp
  negated : Bool
  atom : EirAtom
  deriving DecidableEq, Repr

inductive EirBodyLiteral where
  | relational (negated : Bool) (atom : EirAtom)
  | epistemic (literal : EirEpistemicLiteral)
  | constraint
  | binding
  deriving DecidableEq, Repr

structure EirRule where
  head : EirAtom
  body : List EirBodyLiteral
  deriving DecidableEq, Repr

structure EirConstraint where
  authoredIndex : Option Nat
  body : List EirBodyLiteral
  deriving DecidableEq, Repr

structure EirProgram where
  mode : EirEpistemicMode
  rules : List EirRule
  constraints : List EirConstraint
  deriving DecidableEq, Repr

-- Meaning

/-- What the constants and the constructors of terms mean. -/
structure TermAlgebra (V : Type) where
  integer : Int → V
  floatBits : F64 → V
  string : String → V
  symbol : Nat → V
  list : List V → V
  cons : V → V → V
  compound : String → List V → V
  predRef : String → V

/-- A tuple of a relation. -/
structure GroundAtom (V : Type) where
  predicate : String
  values : List V
  deriving DecidableEq

variable {V : Type} {A : TermAlgebra V} {v w : String → V}

-- Terms

/-- A term can have the value. -/
def EirTerm.Matches (A : TermAlgebra V) (v : String → V) : EirTerm → V → Prop
  | .var name, value => value = v name
  | .anonymous, _ => True
  | .integer n, value => value = A.integer n
  | .floatBits bits, value => value = A.floatBits bits
  | .string text, value => value = A.string text
  | .symbol id, value => value = A.symbol id
  | .list items, value => ∃ values, matchesAll items values ∧ value = A.list values
  | .cons head tail, value =>
    ∃ first rest, head.Matches A v first ∧ tail.Matches A v rest ∧ value = A.cons first rest
  | .compound functor args, value =>
    ∃ values, matchesAll args values ∧ value = A.compound functor values
  | .predRef name, value => value = A.predRef name
  | .aggregate _ _, _ => False
where
  matchesAll : List EirTerm → List V → Prop
  | [], [] => True
  | term :: terms, value :: values => term.Matches A v value ∧ matchesAll terms values
  | _, _ => False

theorem EirTerm.matchesAll_iff {terms : List EirTerm} {values : List V}
    : Matches.matchesAll A v terms values ↔ List.Forall₂ (EirTerm.Matches A v) terms values := by
  induction terms generalizing values with
  | nil => cases values <;> simp [Matches.matchesAll]
  | cons term terms ih => cases values <;> simp [Matches.matchesAll, ih]

/-- Free of anonymous terms and aggregates. -/
def EirTerm.isDefinite : EirTerm → Bool
  | .anonymous | .aggregate _ _ => false
  | .var _ | .integer _ | .floatBits _ | .string _ | .symbol _ | .predRef _ => true
  | .list items => allDefinite items
  | .cons head tail => head.isDefinite && tail.isDefinite
  | .compound _ args => allDefinite args
where
  allDefinite : List EirTerm → Bool
  | [] => true
  | term :: terms => term.isDefinite && allDefinite terms

theorem EirTerm.allDefinite_iff {terms : List EirTerm}
    : isDefinite.allDefinite terms = true ↔ ∀ term ∈ terms, term.isDefinite = true := by
  induction terms with
  | nil => simp [isDefinite.allDefinite]
  | cons term terms ih => simp [isDefinite.allDefinite, ih]

/-- Terms that each have a single value have a single list of values. -/
theorem EirTerm.exists_matchesAll_iff {terms : List EirTerm}
    (h : ∀ term ∈ terms, ∃ value, ∀ other, term.Matches A v other ↔ other = value)
    : ∃ values, ∀ others, List.Forall₂ (EirTerm.Matches A v) terms others ↔ others = values := by
  induction terms with
  | nil => exact ⟨[], fun others => List.forall₂_nil_left_iff⟩
  | cons term terms ih =>
    obtain ⟨hterm, hterms⟩ := List.forall_mem_cons.mp h
    obtain ⟨value, hvalue⟩ := hterm
    obtain ⟨values, hvalues⟩ := ih hterms
    refine ⟨value :: values, fun others => ?_⟩
    cases others with
    | nil => simp
    | cons other others => rw [List.forall₂_cons, hvalue, hvalues, List.cons.injEq]

/-- A definite term has a single value. -/
theorem EirTerm.exists_matches_iff (v : String → V) (term : EirTerm)
    (h : term.isDefinite = true)
    : ∃ value, ∀ other, term.Matches A v other ↔ other = value := by
  induction term using EirTerm.induction with
  | anonymous => simp [isDefinite] at h
  | aggregate op name => simp [isDefinite] at h
  | list items ih =>
    have hitems := allDefinite_iff.mp h
    obtain ⟨values, hvalues⟩ := exists_matchesAll_iff fun item hitem => ih item hitem (hitems item hitem)
    exact ⟨A.list values, fun other => by simp [Matches, matchesAll_iff, hvalues]⟩
  | cons head tail ihHead ihTail =>
    obtain ⟨hhead, htail⟩ := (Bool.and_eq_true _ _).mp h
    obtain ⟨first, hfirst⟩ := ihHead hhead
    obtain ⟨rest, hrest⟩ := ihTail htail
    exact ⟨A.cons first rest, fun other => by simp [Matches, hfirst, hrest]⟩
  | compound functor args ih =>
    have hargs := allDefinite_iff.mp h
    obtain ⟨values, hvalues⟩ := exists_matchesAll_iff fun arg harg => ih arg harg (hargs arg harg)
    exact ⟨A.compound functor values, fun other => by simp [Matches, matchesAll_iff, hvalues]⟩
  | _ => exact ⟨_, fun other => Iff.rfl⟩

-- Atoms

/-- The tuple is an instance of the atom. -/
def EirAtom.Matches (A : TermAlgebra V) (v : String → V) (atom : EirAtom) (tuple : GroundAtom V)
    : Prop :=
  tuple.predicate = atom.predicate ∧ List.Forall₂ (EirTerm.Matches A v) atom.terms tuple.values

/-- Some instance of the atom is among the tuples. -/
def EirAtom.Holds (A : TermAlgebra V) (v : String → V) (tuples : Set (GroundAtom V))
    (atom : EirAtom) : Prop :=
  ∃ tuple ∈ tuples, atom.Matches A v tuple

def EirAtom.IsDefinite (atom : EirAtom) : Prop := ∀ term ∈ atom.terms, term.isDefinite = true

/-- A definite atom stands for a single tuple. -/
theorem EirAtom.exists_matches_iff (v : String → V) {atom : EirAtom} (h : atom.IsDefinite)
    : ∃ tuple, ∀ other, atom.Matches A v other ↔ other = tuple := by
  obtain ⟨values, hvalues⟩ := EirTerm.exists_matchesAll_iff (A := A) (v := v)
    fun term hterm => term.exists_matches_iff v (h term hterm)
  refine ⟨⟨atom.predicate, values⟩, fun other => ?_⟩
  rw [Matches, hvalues, GroundAtom.mk.injEq]

theorem EirAtom.Matches.unique {atom : EirAtom} (h : atom.IsDefinite) {tuple other : GroundAtom V}
    (htuple : atom.Matches A v tuple) (hother : atom.Matches A v other) : other = tuple := by
  obtain ⟨only, honly⟩ := EirAtom.exists_matches_iff (A := A) v h
  rw [(honly other).mp hother, (honly tuple).mp htuple]

end Xlog.Ir
