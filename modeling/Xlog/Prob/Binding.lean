import Xlog.Logic.ArithmeticEval
import Xlog.Prob.Canonical

/-! Bindings of variables, and the values of constant terms and ground atoms. -/

namespace Xlog.Prob

open Xlog.Core Xlog.Logic

/-- The values of the variables bound so far; names are distinct. -/
abbrev Binding := List (String × Value)

def unsupportedProbabilisticTermError (context kind : String) : XlogError :=
  .compilation s!"high-level term form '{kind}' is parsed but not supported in probabilistic provenance {context} until a lowering/materialization path exists"

-- Terms

def valueFromTerm : Term → Result Value
  | .integer i => .ok (.i64 i)
  | .float bits => .ok (.f64 bits)
  | .string text => .ok (.string text)
  | .symbol id => .ok (.symbol id)
  | .var _ | .anonymous | .aggregate _ =>
      .error (.compilation "Non-constant term cannot be converted to a value")
  | .list _ => .error (unsupportedProbabilisticTermError "value conversion" "list")
  | .cons _ _ => .error (unsupportedProbabilisticTermError "value conversion" "cons")
  | .compound _ _ => .error (unsupportedProbabilisticTermError "value conversion" "compound")
  | .predRef _ => .error (unsupportedProbabilisticTermError "value conversion" "predref")

def atomKeyFromGroundAtom (atom : Atom) : Result GroundAtom := do
  let args ← atom.terms.mapM fun term =>
    if term.isConstant then valueFromTerm term
    else .error (.compilation
      s!"Expected ground atom, found non-constant term in {atom.predicate}")
  .ok ⟨atom.predicate, args⟩

end Xlog.Prob
