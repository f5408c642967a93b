import Xlog.Logic.Desugar
import Xlog.Logic.FoundedMeaning

/-! Which modal literals have a founded support, and the rules that the founded reading drops because
nothing but their own head supports it. The searches take fuel, as the unconditional one can descend for
ever; no result means that the fuel has run out.
-/

namespace Xlog.Logic

open Xlog.Ir

-- Bound variables

/-- The variables of an expression in source order. -/
def ArithExpr.variables : ArithExpr → List String
  | .var name => [name]
  | .integer _ | .float _ => []
  | .add left right | .sub left right | .mul left right | .div left right | .mod left right
  | .min left right | .max left right | .pow left right => left.variables ++ right.variables
  | .abs expr | .cast expr _ => expr.variables
  | .funcCall _ args => variablesOf args
  | .conditional condLeft _ condRight thenExpr elseExpr =>
    condLeft.variables ++ condRight.variables ++ thenExpr.variables ++ elseExpr.variables
where
  variablesOf : List ArithExpr → List String
  | [] => []
  | arg :: args => arg.variables ++ variablesOf args

def BodyLiteral.positiveVariables : BodyLiteral → List String
  | .positive atom => Term.variablesList atom.terms
  | _ => []

def positiveBodyBoundVariables (body : List BodyLiteral) : List String :=
  (body.flatMap BodyLiteral.positiveVariables).filter (· ≠ "_")

/-- A binding adds its target once all variables of its expression are bound. -/
def bindExpression (bound : List String) : BodyLiteral → List String
  | .isExpr binding =>
    if binding.expr.variables.all bound.contains then binding.target :: bound else bound
  | _ => bound

def nonEpistemicBoundVariables (body : List BodyLiteral) : List String :=
  body.foldl bindExpression (positiveBodyBoundVariables body)

def Term.variableName : Term → Option String
  | .var name => some name
  | _ => none

def BodyLiteral.modalVariables : BodyLiteral → List String
  | .epistemic literal => literal.atom.terms.filterMap Term.variableName
  | _ => []

def modalOnlyBoundOutputVariables (rule : Rule) : List String :=
  let positivelyBound := nonEpistemicBoundVariables rule.body
  (rule.head.terms.filterMap Term.variableName ++ rule.body.flatMap BodyLiteral.modalVariables).filter
    fun name => name ≠ "_" && !positivelyBound.contains name

-- Matching

def eirTermIsGround : EirTerm → Bool
  | .var _ | .anonymous | .aggregate _ _ => false
  | .integer _ | .floatBits _ | .string _ | .symbol _ => true
  | .list items => allGround items
  | .cons head tail => eirTermIsGround head && eirTermIsGround tail
  | .compound _ args => allGround args
  | .predRef _ => true
where
  allGround : List EirTerm → Bool
  | [] => true
  | term :: terms => eirTermIsGround term && allGround terms

/-- The terms that the variables of a head stand for. -/
abbrev Substitution := List (String × EirTerm)

def matchHeadTerm (substitution : Substitution) : EirTerm → EirTerm → Option Substitution
  | .var name, atomTerm =>
    match substitution.lookup name with
    | some existing => if existing ≠ atomTerm then none else some substitution
    | none => some ((name, atomTerm) :: substitution)
  | .anonymous, _ => none
  | other, atomTerm => if other = atomTerm then some substitution else none

def matchHeadTerms (substitution : Substitution) : List EirTerm → List EirTerm → Option Substitution
  | headTerm :: headTerms, atomTerm :: atomTerms =>
    match matchHeadTerm substitution headTerm atomTerm with
    | some substitution => matchHeadTerms substitution headTerms atomTerms
    | none => none
  | _, _ => some substitution

def headSubstitutionToAtom (head atom : EirAtom) : Option Substitution :=
  if head.predicate ≠ atom.predicate ∨ head.arity ≠ atom.arity then none
  else matchHeadTerms [] head.terms atom.terms

def substituteEirTerm (substitution : Substitution) : EirTerm → Option EirTerm
  | .var name => some ((substitution.lookup name).getD (.var name))
  | .anonymous => none
  | .list items => (substituteTerms items).map .list
  | .cons head tail =>
    match substituteEirTerm substitution head, substituteEirTerm substitution tail with
    | some head, some tail => some (.cons head tail)
    | _, _ => none
  | .compound functor args => (substituteTerms args).map (.compound functor)
  | .aggregate _ _ => none
  | .integer value => some (.integer value)
  | .floatBits bits => some (.floatBits bits)
  | .string value => some (.string value)
  | .symbol id => some (.symbol id)
  | .predRef name => some (.predRef name)
where
  substituteTerms : List EirTerm → Option (List EirTerm)
  | [] => some []
  | term :: terms =>
    match substituteEirTerm substitution term, substituteTerms terms with
    | some term, some terms => some (term :: terms)
    | _, _ => none

def substituteEirAtom (substitution : Substitution) (atom : EirAtom) : Option EirAtom :=
  (substituteEirTerm.substituteTerms substitution atom.terms).map (⟨atom.predicate, ·⟩)

/-- Whether a rule whose head matches the atom passes the check. -/
def anyMatchingRule (atom : EirAtom) (check : EirRule → Substitution → Option Bool)
    : List EirRule → Option Bool
  | [] => some false
  | rule :: rules =>
    match headSubstitutionToAtom rule.head atom with
    | none => anyMatchingRule atom check rules
    | some substitution =>
      match check rule substitution with
      | none => none
      | some true => some true
      | some false => anyMatchingRule atom check rules

-- Unconditional support

def groundBodySupported (supported : EirAtom → Option Bool) (substitution : Substitution)
    : List EirBodyLiteral → Option Bool
  | [] => some true
  | .relational false atom :: rest =>
    match substituteEirAtom substitution atom with
    | none => some false
    | some atom =>
      if !atom.terms.all eirTermIsGround then some false
      else
        match supported atom with
        | none => none
        | some false => some false
        | some true => groundBodySupported supported substitution rest
  | _ :: _ => some false

def hasUnconditionalGroundFoundedSupportInner (eir : EirProgram)
    : Nat → EirAtom → List (String × List EirTerm) → Option Bool
  | 0, _, _ => none
  | fuel + 1, atom, supportStack =>
    if supportStack.contains (atom.predicate, atom.terms) then some false
    else
      anyMatchingRule atom
        (fun rule substitution =>
          groundBodySupported
            (fun bodyAtom =>
              hasUnconditionalGroundFoundedSupportInner eir fuel bodyAtom
                ((atom.predicate, atom.terms) :: supportStack))
            substitution rule.body)
        eir.rules

/-- Whether ordinary rules alone derive a ground atom. -/
def hasUnconditionalGroundFoundedSupport (eir : EirProgram) (fuel : Nat) (atom : EirAtom)
    : Option Bool :=
  if !atom.terms.all eirTermIsGround then some false
  else hasUnconditionalGroundFoundedSupportInner eir fuel atom []

-- Independent support

/-- Whether the head of a rule matches the atom. -/
def hasDefiningRule (eir : EirProgram) (atom : EirAtom) : Bool :=
  eir.rules.any fun candidate => (headSubstitutionToAtom candidate.head atom).isSome

/-- A body has an independent support when it is free of modal and negated literals, comparisons and
bindings, and each atom that a rule defines has one. An atom that no rule defines counts as present. -/
def independentBodySupported (eir : EirProgram) (supported : EirAtom → Option Bool)
    (substitution : Substitution) (supportStack : List (String × Nat))
    : List EirBodyLiteral → Option Bool
  | [] => some true
  | .relational false atom :: rest =>
    match substituteEirAtom substitution atom with
    | none => some false
    | some atom =>
      if supportStack.contains (atom.predicate, atom.arity) then some false
      else if !hasDefiningRule eir atom then
        independentBodySupported eir supported substitution supportStack rest
      else
        match supported atom with
        | none => none
        | some false => some false
        | some true => independentBodySupported eir supported substitution supportStack rest
  | _ :: _ => some false

def hasIndependentFoundedSupportInner (eir : EirProgram)
    : Nat → EirAtom → List (String × Nat) → Option Bool
  | 0, _, _ => none
  | fuel + 1, atom, supportStack =>
    if 0 < atom.arity ∧ !atom.terms.all eirTermIsGround then some false
    else if supportStack.contains (atom.predicate, atom.arity) then some false
    else
      anyMatchingRule atom
        (fun rule substitution =>
          independentBodySupported eir
            (fun bodyAtom =>
              hasIndependentFoundedSupportInner eir fuel bodyAtom
                ((atom.predicate, atom.arity) :: supportStack))
            substitution ((atom.predicate, atom.arity) :: supportStack) rule.body)
        eir.rules

def hasIndependentFoundedSupport (eir : EirProgram) (fuel : Nat) (atom : EirAtom) : Option Bool :=
  if 0 < atom.arity ∧ !atom.terms.all eirTermIsGround then some false
  else hasIndependentFoundedSupportInner eir fuel atom []

def positiveRelationalAtom : EirBodyLiteral → Option EirAtom
  | .relational false atom => some atom
  | _ => none

def positiveRelationalBodyAtoms (rule : EirRule) : List EirAtom :=
  rule.body.filterMap positiveRelationalAtom

/-- Whether the body of a support, in terms of the modal atom, is part of the body of the modal rule. -/
def domainCovered (modalDomain supportDomain : List EirAtom) (substitution : Substitution) : Bool :=
  !supportDomain.isEmpty
  && supportDomain.all fun supportAtom =>
    match substituteEirAtom substitution supportAtom with
    | some atom => modalDomain.contains atom
    | none => false

def hasTupleLevelIndependentFoundedSupport (eir : EirProgram) (fuel : Nat) (modalRule : EirRule)
    (atom : EirAtom) : Option Bool :=
  if atom.arity = 0 then some false
  else
    anyMatchingRule atom
      (fun supportRule substitution =>
        match
          independentBodySupported eir
            (fun bodyAtom =>
              hasIndependentFoundedSupportInner eir fuel bodyAtom [(atom.predicate, atom.arity)])
            [] [(atom.predicate, atom.arity)] supportRule.body
        with
        | none => none
        | some false => some false
        | some true =>
          some (domainCovered (positiveRelationalBodyAtoms modalRule)
            (positiveRelationalBodyAtoms supportRule) substitution))
      eir.rules

-- Elision

/-- As deep as a search for an independent support can go. -/
def supportDepth (eir : EirProgram) : Nat := eir.rules.length + 1

def namesOneOf (names : List String) : EirTerm → Bool
  | .var name => names.contains name
  | _ => false

/-- Whether a modal literal over the head of its rule is the only support of that head. -/
def isUnfoundedSelfSupport (eir : EirProgram) (rule : Rule) (eirRule : EirRule)
    (modal : EirEpistemicLiteral) : Option Bool :=
  if modal.negated ∨ modal.atom.predicate ≠ eirRule.head.predicate
      ∨ modal.atom.arity ≠ eirRule.head.arity ∨ modal.atom.terms ≠ eirRule.head.terms then
    some false
  else
    match hasIndependentFoundedSupport eir (supportDepth eir) modal.atom with
    | none => none
    | some true => some false
    | some false =>
      match hasTupleLevelIndependentFoundedSupport eir (supportDepth eir) eirRule modal.atom with
      | none => none
      | some true => some false
      | some false =>
        some !(modal.atom.terms.any (namesOneOf (modalOnlyBoundOutputVariables rule)))

def dropsUnfounded (eir : EirProgram) (rule : Rule) (eirRule : EirRule)
    : List EirBodyLiteral → Option Bool
  | [] => some false
  | .epistemic modal :: rest =>
    match isUnfoundedSelfSupport eir rule eirRule modal with
    | none => none
    | some true => some true
    | some false => dropsUnfounded eir rule eirRule rest
  | _ :: rest => dropsUnfounded eir rule eirRule rest

/-- The positions of the dropped rules, counted from the index. -/
def unfoundedIndices (eir : EirProgram) : Nat → List (Rule × EirRule) → Option (List Nat)
  | _, [] => some []
  | index, (rule, eirRule) :: rest =>
    match dropsUnfounded eir rule eirRule eirRule.body, unfoundedIndices eir (index + 1) rest with
    | some drop, some indices => some (if drop then index :: indices else indices)
    | _, _ => none

def faeelUnfoundedExactTupleSelfSupportRuleIndices (program : Program) : Option (List Nat) :=
  let eir := buildEir program
  if eir.mode ≠ .faeel then some []
  else unfoundedIndices eir 0 (program.rules.zip eir.rules)

def programWithoutRuleIndices (program : Program) (removedRuleIndices : List Nat) : Program :=
  { program with
    rules :=
      (program.rules.zipIdx.filter fun entry => !removedRuleIndices.contains entry.2).map (·.1) }

end Xlog.Logic
