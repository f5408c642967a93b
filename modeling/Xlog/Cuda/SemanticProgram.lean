import Mathlib.Data.List.Dedup
import Mathlib.Data.List.Sort
import Xlog.Foundation.Loop

/-! Arity-aware positive programs of a resident task: their admission, their canonical words, and the
combination of a training program with an evaluation program whose predicates and constants are moved
out of the way.
-/

namespace Xlog.Cuda

open Xlog.Foundation

def residentProgramFactCapacity : Nat := 4096
def residentProgramRuleCapacity : Nat := 256

/-- `u32::MAX`. -/
def u32Limit : Nat := 4294967295

def checkedAdd (a b : UInt32) : Option UInt32 :=
  if a.toNat + b.toNat ≤ u32Limit then some (a + b) else none

-- Data

/-- One typed tuple; unary tuples have zero in the inactive second argument. -/
structure SemanticProgramFact where
  predicate : UInt32
  arity : UInt32
  first : UInt32
  second : UInt32
  deriving DecidableEq, Repr, Inhabited

/-- A variable (kind zero) or a constant (kind one). -/
structure SemanticProgramTerm where
  kind : UInt32
  value : UInt32
  deriving DecidableEq, Repr

/-- One unary or binary atom; inactive argument storage is zero. -/
structure SemanticProgramAtom where
  predicate : UInt32
  arity : UInt32
  terms : SemanticProgramTerm × SemanticProgramTerm
  deriving DecidableEq, Repr

/-- One positive rule with up to three body atoms; unused body storage is zero. -/
structure SemanticProgramRule where
  head : SemanticProgramAtom
  body : SemanticProgramAtom × SemanticProgramAtom × SemanticProgramAtom
  bodyCount : UInt32
  deriving DecidableEq, Repr

structure SemanticProgramAdmission where
  predicateCount : UInt32
  predicateArities : List UInt32
  initialFacts : List SemanticProgramFact
  initialRules : List SemanticProgramRule
  queries : List SemanticProgramFact
  queryRecords : List UInt32
  observationFacts : List (UInt32 × SemanticProgramFact)
  deriving DecidableEq, Repr

def SemanticProgramTerm.default : SemanticProgramTerm := ⟨0, 0⟩

def SemanticProgramAtom.default : SemanticProgramAtom := ⟨0, 0, .default, .default⟩

namespace SemanticProgramAtom

def termList (atom : SemanticProgramAtom) : List SemanticProgramTerm :=
  [atom.terms.1, atom.terms.2]

/-- `terms[..arity]`. -/
def activeTerms (atom : SemanticProgramAtom) : List SemanticProgramTerm :=
  atom.termList.take atom.arity.toNat

/-- `terms[arity..]`. -/
def inactiveTerms (atom : SemanticProgramAtom) : List SemanticProgramTerm :=
  atom.termList.drop atom.arity.toNat

def validFor (atom : SemanticProgramAtom) (predicateArities : List UInt32) : Bool :=
  (atom.arity = 1 ∨ atom.arity = 2)
  ∧ predicateArities[atom.predicate.toNat]? = some atom.arity
  ∧ atom.activeTerms.all (fun term => term.kind = 1 ∨ (term.kind = 0 ∧ term.value < 6))
  ∧ atom.inactiveTerms.all (· = .default)

def words (atom : SemanticProgramAtom) : List UInt32 :=
  [atom.predicate, atom.arity, atom.terms.1.kind, atom.terms.1.value, atom.terms.2.kind,
    atom.terms.2.value]

end SemanticProgramAtom

namespace SemanticProgramRule

def bodyList (rule : SemanticProgramRule) : List SemanticProgramAtom :=
  [rule.body.1, rule.body.2.1, rule.body.2.2]

/-- `body[..body_count]`. -/
def activeBody (rule : SemanticProgramRule) : List SemanticProgramAtom :=
  rule.bodyList.take rule.bodyCount.toNat

/-- `body[body_count..]`. -/
def inactiveBody (rule : SemanticProgramRule) : List SemanticProgramAtom :=
  rule.bodyList.drop rule.bodyCount.toNat

def words (rule : SemanticProgramRule) : List UInt32 :=
  rule.bodyCount :: (rule.head :: rule.bodyList).flatMap SemanticProgramAtom.words

/-- The variables that the body binds. -/
def bound (rule : SemanticProgramRule) : List UInt32 :=
  rule.activeBody.flatMap fun atom =>
    (atom.activeTerms.filter fun term => term.kind = 0).map SemanticProgramTerm.value

end SemanticProgramRule

def SemanticProgramFact.words (fact : SemanticProgramFact) : List UInt32 :=
  [fact.predicate, fact.arity, fact.first, fact.second]

-- Admission

namespace SemanticProgramAdmission

def validFact (program : SemanticProgramAdmission) (fact : SemanticProgramFact) : Bool :=
  (fact.arity = 1 ∨ fact.arity = 2)
  ∧ program.predicateArities[fact.predicate.toNat]? = some fact.arity
  ∧ (fact.arity = 2 ∨ fact.second = 0)

/-- The counts, tuples and records of a program are in order. -/
def recordsValid (program : SemanticProgramAdmission) : Bool :=
  program.predicateCount ≠ 0
  ∧ program.predicateArities.length = program.predicateCount.toNat
  ∧ program.predicateArities.all (fun arity => arity = 1 ∨ arity = 2)
  ∧ program.queries ≠ []
  ∧ program.queries.length ≤ u32Limit
  ∧ program.queryRecords.length = program.queries.length
  ∧ program.initialFacts.length ≤ u32Limit
  ∧ program.initialRules.length ≤ u32Limit
  ∧ (program.queries ++ program.initialFacts).all program.validFact
  ∧ program.observationFacts.all (fun entry => program.validFact entry.2)
  ∧ program.observationFacts.Pairwise (fun before entry => before.1 ≠ entry.1)
  ∧ (program.queryRecords.zip program.queries).all (· ∈ program.observationFacts)

def checkRule (program : SemanticProgramAdmission) (rule : SemanticProgramRule)
    : Except String Unit :=
  if ¬ ((rule.bodyCount = 1 ∨ rule.bodyCount = 2 ∨ rule.bodyCount = 3)
      ∧ rule.head.validFor program.predicateArities
      ∧ rule.activeBody.all (·.validFor program.predicateArities)
      ∧ rule.inactiveBody.all (· = .default)) then
    .error "positive program has an invalid rule atom or body"
  else if rule.head.activeTerms.any (fun term => term.kind = 0 ∧ term.value ∉ rule.bound) then
    .error "positive rule head contains an unbound variable"
  else .ok ()

def validate (program : SemanticProgramAdmission) : Except String Unit := do
  if program.recordsValid then
    if residentProgramFactCapacity < program.initialFacts.length then
      .error "positive program exceeds resident fact capacity"
    else if residentProgramRuleCapacity - 2 < program.initialRules.length then
      .error "positive program leaves no room for two rule edits"
    else program.initialRules.forM program.checkRule
  else .error "positive program has an invalid predicate, arity, or fact count"

-- Words

/-- A checked `usize` result. -/
def checkedUsize (n : Nat) : Option Nat :=
  if n < 18446744073709551616 then some n else none

def wordCount (program : SemanticProgramAdmission) : Option Nat := do
  let facts ← checkedUsize (program.queries.length + program.initialFacts.length)
  let factWords ← checkedUsize (facts * 4)
  let withArities ← checkedUsize (factWords + program.predicateArities.length)
  let ruleWords ← checkedUsize (program.initialRules.length * 25)
  let total ← checkedUsize (withArities + ruleWords)
  checkedUsize (total + 5)

def words (program : SemanticProgramAdmission) : List UInt64 :=
  [2, program.predicateCount.toUInt64, program.initialFacts.length.toUInt64,
    program.initialRules.length.toUInt64, program.queries.length.toUInt64]
  ++ (program.predicateArities
    ++ (program.queries ++ program.initialFacts).flatMap SemanticProgramFact.words
    ++ program.initialRules.flatMap SemanticProgramRule.words).map UInt32.toUInt64

-- Combination

/-- The constants of the tuples, then of the active parts of the rules. -/
def constantOccurrences (program : SemanticProgramAdmission) : List UInt32 :=
  (program.initialFacts ++ program.queries ++ program.observationFacts.map Prod.snd).flatMap
      (fun fact => if fact.arity = 2 then [fact.first, fact.second] else [fact.first])
  ++ program.initialRules.flatMap fun rule => (rule.head :: rule.activeBody).flatMap fun atom =>
      (atom.activeTerms.filter fun term => term.kind = 1).map SemanticProgramTerm.value

/-- The constants in ascending order. -/
def constants (program : SemanticProgramAdmission) : List UInt32 :=
  program.constantOccurrences.dedup.insertionSort (· ≤ ·)

/-- The first constant from `next` on that is not taken. -/
def freshConstant (taken : List UInt32) (next : UInt32) : Except String UInt32 :=
  if next ∈ taken then
    if room : next.toNat < u32Limit then
      freshConstant taken (next + 1)
    else .error "evaluation constant context exceeds the native domain"
  else .ok next
termination_by u32Limit - next.toNat
decreasing_by
  rw [UInt32.toNat_add, Nat.mod_eq_of_lt] <;> simp [u32Limit] at * <;> omega

/-- The constants named so far, the constants taken and where the search goes on. -/
structure ConstantMapping where
  mapping : List (UInt32 × UInt32)
  taken : List UInt32
  next : UInt32

def ConstantMapping.insert (state : ConstantMapping) (original : UInt32)
    : Except String ConstantMapping := do
  let next ← freshConstant state.taken state.next
  .ok ⟨(original, next) :: state.mapping, next :: state.taken, next⟩

def constantMapping (source target : SemanticProgramAdmission)
    : Except String (List (UInt32 × UInt32)) := do
  let state ← target.constants.foldlM ConstantMapping.insert ⟨[], source.constants, 0⟩
  .ok state.mapping

def addPredicate (source : SemanticProgramAdmission) (predicate : UInt32) : Except String UInt32 :=
  match checkedAdd predicate source.predicateCount with
  | some predicate => .ok predicate
  | none => .error "evaluation predicate context exceeds the native domain"

def addRecord (targetRecordOffset record : UInt32) : Except String UInt32 :=
  match checkedAdd record targetRecordOffset with
  | some record => .ok record
  | none => .error "evaluation statement context exceeds the native domain"

def frozen (mapping : List (UInt32 × UInt32)) (constant : UInt32) : Except String UInt32 :=
  match mapping.lookup constant with
  | some name => .ok name
  | none => .error "evaluation constant was not frozen"

section Rename

variable (source : SemanticProgramAdmission) (mapping : List (UInt32 × UInt32))

def renameFact (fact : SemanticProgramFact) : Except String SemanticProgramFact := do
  let predicate ← source.addPredicate fact.predicate
  let first ← frozen mapping fact.first
  let second ← if fact.arity = 2 then frozen mapping fact.second else .ok fact.second
  .ok { fact with predicate, first, second }

def renameTerm (term : SemanticProgramTerm) : Except String SemanticProgramTerm :=
  if term.kind = 1 then do .ok { term with value := ← frozen mapping term.value }
  else .ok term

/-- Only the active terms are renamed. -/
def renameAtom (atom : SemanticProgramAtom) : Except String SemanticProgramAtom := do
  let predicate ← source.addPredicate atom.predicate
  let first ← if 0 < atom.arity then renameTerm mapping atom.terms.1 else .ok atom.terms.1
  let second ← if 1 < atom.arity then renameTerm mapping atom.terms.2 else .ok atom.terms.2
  .ok { atom with predicate, terms := (first, second) }

/-- Only the active body atoms are renamed. -/
def renameRule (rule : SemanticProgramRule) : Except String SemanticProgramRule := do
  let head ← renameAtom source mapping rule.head
  let first ← if 0 < rule.bodyCount then renameAtom source mapping rule.body.1
    else .ok rule.body.1
  let second ← if 1 < rule.bodyCount then renameAtom source mapping rule.body.2.1
    else .ok rule.body.2.1
  let third ← if 2 < rule.bodyCount then renameAtom source mapping rule.body.2.2
    else .ok rule.body.2.2
  .ok { rule with head, body := (first, second, third) }

def renameObservation (targetRecordOffset : UInt32) (entry : UInt32 × SemanticProgramFact)
    : Except String (UInt32 × SemanticProgramFact) := do
  let record ← addRecord targetRecordOffset entry.1
  .ok (record, ← renameFact source mapping entry.2)

end Rename

def evaluationContext (source target : SemanticProgramAdmission) (targetRecordOffset : UInt32)
    : Except String SemanticProgramAdmission := do
  source.validate
  target.validate
  let predicateCount ← match checkedAdd source.predicateCount target.predicateCount with
    | some predicateCount => .ok predicateCount
    | none => .error "evaluation predicate context exceeds the native domain"
  let mapping ← constantMapping source target
  let queries ← target.queries.mapM (renameFact source mapping)
  let queryRecords ← target.queryRecords.mapM (addRecord targetRecordOffset)
  let facts ← target.initialFacts.mapM (renameFact source mapping)
  let rules ← target.initialRules.mapM (renameRule source mapping)
  let observations ← target.observationFacts.mapM
    (renameObservation source mapping targetRecordOffset)
  let result : SemanticProgramAdmission := {
    predicateCount
    predicateArities := source.predicateArities ++ target.predicateArities
    initialFacts := source.initialFacts ++ facts
    initialRules := source.initialRules ++ rules
    queries
    queryRecords
    observationFacts := source.observationFacts ++ observations }
  result.validate
  .ok result

end SemanticProgramAdmission

end Xlog.Cuda
