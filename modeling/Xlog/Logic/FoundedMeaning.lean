import Xlog.Foundation.DefiniteClauses
import Xlog.Ir.Eir

/-! The conversion of a program to its epistemic intermediate representation, and its founded reading: its
rules as clauses over tuples, with positive modals read as their atoms. Everything that does not ask for a
tuple is left to an oracle.
-/

namespace Xlog.Logic

open Xlog.Foundation Xlog.Ir

def convertAggOp : AggOp → String
  | .count => "count"
  | .sum => "sum"
  | .min => "min"
  | .max => "max"
  | .logSumExp => "logsumexp"

def convertMode : EpistemicMode → EirEpistemicMode
  | .g91 => .g91
  | .faeel => .faeel

def convertOp : EpistemicOp → EirEpistemicOp
  | .know => .know
  | .possible => .possible

def convertTerm : Term → EirTerm
  | .var name => .var name
  | .anonymous => .anonymous
  | .integer value => .integer value
  | .float bits => .floatBits bits
  | .string value => .string value
  | .symbol id => .symbol id
  | .list items => .list (convertTerms items)
  | .cons head tail => .cons (convertTerm head) (convertTerm tail)
  | .compound functor args => .compound functor (convertTerms args)
  | .predRef name => .predRef name
  | .aggregate expr => .aggregate (convertAggOp expr.op) expr.var
where
  convertTerms : List Term → List EirTerm
  | [] => []
  | term :: terms => convertTerm term :: convertTerms terms

def convertAtom (atom : Atom) : EirAtom := ⟨atom.predicate, atom.terms.map convertTerm⟩

def convertBodyLiteral : BodyLiteral → EirBodyLiteral
  | .positive atom => .relational false (convertAtom atom)
  | .negated atom => .relational true (convertAtom atom)
  | .epistemic literal =>
    .epistemic ⟨convertOp literal.op, literal.negated, convertAtom literal.atom⟩
  | .comparison _ => .constraint
  | .isExpr _ => .binding
  | .univ _ => .binding

def convertRule (rule : Rule) : EirRule :=
  ⟨convertAtom rule.head, rule.body.map convertBodyLiteral⟩

def convertConstraint (constraint : Constraint) : EirConstraint :=
  ⟨constraint.authoredIndex, constraint.body.map convertBodyLiteral⟩

def Directives.epistemicModeOrDefault (directives : Directives) : EpistemicMode :=
  directives.epistemicMode.getD .faeel

def buildEir (program : Program) : EirProgram where
  mode := convertMode program.directives.epistemicModeOrDefault
  rules := program.rules.map convertRule
  constraints := program.constraints.map convertConstraint

-- The founded reading

/-- The literals that ask for no tuple, and the rows of aggregate heads. -/
structure Oracle (V : Type) where
  literal : BodyLiteral → (String → V) → Prop
  aggregates : Rule → (String → V) → GroundAtom V → Prop

/-- The atom that a literal asks for. -/
def BodyLiteral.foundedAtom : BodyLiteral → Option EirAtom
  | .positive atom => some (convertAtom atom)
  | .epistemic literal => if literal.negated then none else some (convertAtom literal.atom)
  | .negated _ | .comparison _ | .isExpr _ | .univ _ => none

def BodyLiteral.isEpistemic : BodyLiteral → Bool
  | .epistemic _ => true
  | _ => false

def Rule.isModalFree (rule : Rule) : Bool := !rule.body.any BodyLiteral.isEpistemic

section

variable {V : Type} (A : TermAlgebra V) (oracle : Oracle V)

structure BodyLiteral.Holds (v : String → V) (tuples : Set (GroundAtom V)) (literal : BodyLiteral)
    : Prop where
  asked : ∀ atom, literal.foundedAtom = some atom → atom.Holds A v tuples
  given : literal.foundedAtom = none → oracle.literal literal v

/-- A tuple of the head. A head with an anonymous term has none. -/
def Rule.HeadInstance (rule : Rule) (v : String → V) (tuple : GroundAtom V) : Prop :=
  (convertAtom rule.head).IsDefinite ∧ (convertAtom rule.head).Matches A v tuple
  ∨ rule.hasAggregation = true ∧ oracle.aggregates rule v tuple

/-- A ground instance of a rule: its body is an instance of each atom that the literals ask for. -/
structure Rule.Instance (rule : Rule) (v : String → V) (clause : Clause (GroundAtom V))
    : Prop where
  asked : ∃ pick : EirAtom → GroundAtom V,
    (∀ literal ∈ rule.body, ∀ atom, literal.foundedAtom = some atom
      → atom.Matches A v (pick atom) ∧ pick atom ∈ clause.body)
    ∧ ∀ tuple ∈ clause.body, ∃ literal ∈ rule.body, ∃ atom,
      literal.foundedAtom = some atom ∧ tuple = pick atom
  given : ∀ literal ∈ rule.body, literal.foundedAtom = none → oracle.literal literal v
  head : rule.HeadInstance A oracle v clause.head

def ruleClauses (rules : List Rule) : Set (Clause (GroundAtom V)) :=
  {clause | ∃ rule ∈ rules, ∃ v, rule.Instance A oracle v clause}

/-- What holds by the rules over given tuples. -/
def foundedModel (rules : List Rule) (edb : Set (GroundAtom V)) : Set (GroundAtom V) :=
  leastModel (ruleClauses A oracle rules ∪ factClauses edb)

variable {A oracle} {rules rules' : List Rule} {tuples edb : Set (GroundAtom V)}

/-- The instances of a rule whose body holds put its head among the tuples. -/
theorem models_ruleClauses
    : Models (ruleClauses A oracle rules) tuples
      ↔ ∀ rule ∈ rules, ∀ v, (∀ literal ∈ rule.body, literal.Holds A oracle v tuples)
          → ∀ tuple, rule.HeadInstance A oracle v tuple → tuple ∈ tuples := by
  constructor
  · intro h rule hrule v hbody tuple hhead
    have hpick (atom : EirAtom) : ∃ tuple, atom.Holds A v tuples
        → tuple ∈ tuples ∧ atom.Matches A v tuple := by
      by_cases hatom : atom.Holds A v tuples
      · obtain ⟨tuple, htuple⟩ := hatom
        exact ⟨tuple, fun _ => htuple⟩
      · exact ⟨⟨"", []⟩, fun holds => absurd holds hatom⟩
    choose pick hpick using hpick
    let body := {tuple | ∃ literal ∈ rule.body, ∃ atom,
      literal.foundedAtom = some atom ∧ tuple = pick atom}
    refine h ⟨body, tuple⟩ ⟨rule, hrule, v, ⟨pick, ?_, fun _ htuple => htuple⟩, ?_, hhead⟩ ?_
    · intro literal hliteral atom hatom
      exact ⟨(hpick atom ((hbody literal hliteral).asked atom hatom)).2,
        literal, hliteral, atom, hatom, rfl⟩
    · exact fun literal hliteral => (hbody literal hliteral).given
    · rintro _ ⟨literal, hliteral, atom, hatom, rfl⟩
      exact (hpick atom ((hbody literal hliteral).asked atom hatom)).1
  · rintro h clause ⟨rule, hrule, v, ⟨pick, hpick, -⟩, hgiven, hhead⟩ hbody
    refine h rule hrule v (fun literal hliteral => ⟨?_, hgiven literal hliteral⟩) clause.head hhead
    intro atom hatom
    have hmatch := hpick literal hliteral atom hatom
    exact ⟨pick atom, hbody hmatch.2, hmatch.1⟩

theorem ruleClauses_mono (h : ∀ rule ∈ rules, rule ∈ rules')
    : ruleClauses A oracle rules ⊆ ruleClauses A oracle rules' := by
  rintro clause ⟨rule, hrule, hinstance⟩
  exact ⟨rule, h rule hrule, hinstance⟩

end

end Xlog.Logic
