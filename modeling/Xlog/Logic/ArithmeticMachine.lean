import Xlog.Foundation.Loop
import Xlog.Logic.ArithmeticEval

/-! The stack machine that evaluates arithmetic expressions. Tasks and values are stacks with their top
first; an expression is replaced by tasks for its parts and one that combines their values. The
recursion over the expression says what the machine computes.
-/

namespace Xlog.Logic.ArithmeticMachine

open Xlog.Core
open Xlog.Foundation

-- The machine

inductive EvaluationTask where
  | expression (expr : ArithExpr)
  | finishBinary (operation : BinaryOperation)
  | finishAbsoluteValue
  | finishCast (target : ScalarType)
  | finishComparison (operator : CompOp)
  | finishConditional
  deriving Repr

inductive EvaluationValue where
  | arithmetic (value : ArithmeticValue)
  | predicate (value : Bool)
  deriving DecidableEq, Repr

def evaluationStateError : XlogError :=
  .compilation "Invalid arithmetic evaluation state"

/-- The stacks between two tasks. -/
structure EvaluationState where
  tasks : List EvaluationTask
  values : List EvaluationValue

def popArithmetic : List EvaluationValue → Result (ArithmeticValue × List EvaluationValue)
  | .arithmetic value :: values => .ok (value, values)
  | .predicate _ :: _ | [] => .error evaluationStateError

def popPredicate : List EvaluationValue → Result (Bool × List EvaluationValue)
  | .predicate value :: values => .ok (value, values)
  | .arithmetic _ :: _ | [] => .error evaluationStateError

def scheduleBinary (state : EvaluationState) (left right : ArithExpr)
    (operation : BinaryOperation) : EvaluationState :=
  { state with tasks :=
      .expression left :: .expression right :: .finishBinary operation :: state.tasks }

def pushArithmetic (state : EvaluationState) (value : ArithmeticValue) : EvaluationState :=
  { state with values := .arithmetic value :: state.values }

/-- An expression is read or scheduled. -/
def visitExpression (bindings : String → Option ArithmeticValue) (state : EvaluationState)
    : ArithExpr → Result EvaluationState
  | .var name =>
      match bindings name with
      | some value => .ok (pushArithmetic state value)
      | none => .error (.compilation s!"Unbound variable {name} in arithmetic")
  | .integer value => .ok (pushArithmetic state (.i64 value))
  | .float bits => .ok (pushArithmetic state (.f64 bits))
  | .add left right => .ok (scheduleBinary state left right .add)
  | .sub left right => .ok (scheduleBinary state left right .subtract)
  | .mul left right => .ok (scheduleBinary state left right .multiply)
  | .div left right => .ok (scheduleBinary state left right .divide)
  | .mod left right => .ok (scheduleBinary state left right .modulo)
  | .min left right => .ok (scheduleBinary state left right .minimum)
  | .max left right => .ok (scheduleBinary state left right .maximum)
  | .pow left right => .ok (scheduleBinary state left right .power)
  | .abs inner =>
      .ok { state with tasks := .expression inner :: .finishAbsoluteValue :: state.tasks }
  | .cast inner target =>
      .ok { state with tasks := .expression inner :: .finishCast target :: state.tasks }
  | .conditional condLeft condOp condRight thenExpr elseExpr =>
      .ok { state with tasks := .expression condLeft :: .expression condRight
        :: .finishComparison condOp :: .expression thenExpr :: .expression elseExpr
        :: .finishConditional :: state.tasks }
  | .funcCall name _ => .error (.compilation
      s!"Function call \x60{name}\x60 must be expanded before arithmetic evaluation")

/-- One task, already taken from the stack. -/
def evaluationStep (runtime : Runtime) (bindings : String → Option ArithmeticValue)
    (state : EvaluationState) : EvaluationTask → Result EvaluationState
  | .expression expression => visitExpression bindings state expression
  | .finishBinary operation => do
      let (right, values) ← popArithmetic state.values
      let (left, values) ← popArithmetic values
      .ok (pushArithmetic { state with values } (← evaluateBinary runtime operation left right))
  | .finishAbsoluteValue => do
      let (value, values) ← popArithmetic state.values
      .ok (pushArithmetic { state with values } (← evaluateAbs value))
  | .finishCast target => do
      let (value, values) ← popArithmetic state.values
      .ok (pushArithmetic { state with values } (← value.cast target))
  | .finishComparison operator => do
      let (right, values) ← popArithmetic state.values
      let (left, values) ← popArithmetic values
      let condition ← compareArithmeticValues left operator right
      .ok { state with values := .predicate condition :: values }
  | .finishConditional => do
      let (elseValue, values) ← popArithmetic state.values
      let (thenValue, values) ← popArithmetic values
      let (condition, values) ← popPredicate values
      if thenValue.scalarType ≠ elseValue.scalarType then
        .error (.compilation "Conditional branches require matching scalar types")
      else
        .ok (pushArithmetic { state with values } (if condition then thenValue else elseValue))

/-- The tasks that an expression still takes, itself included. -/
def work : ArithExpr → Nat
  | .var _ | .integer _ | .float _ | .funcCall _ _ => 1
  | .add left right | .sub left right | .mul left right | .div left right | .mod left right
  | .min left right | .max left right | .pow left right => work left + work right + 2
  | .abs inner | .cast inner _ => work inner + 2
  | .conditional condLeft _ condRight thenExpr elseExpr =>
      work condLeft + work condRight + work thenExpr + work elseExpr + 3

def EvaluationTask.work : EvaluationTask → Nat
  | .expression expr => ArithmeticMachine.work expr
  | .finishBinary _ | .finishAbsoluteValue | .finishCast _ | .finishComparison _
  | .finishConditional => 1

def totalWork (tasks : List EvaluationTask) : Nat :=
  (tasks.map EvaluationTask.work).sum

@[simp] theorem totalWork_cons (task : EvaluationTask) (tasks : List EvaluationTask)
    : totalWork (task :: tasks) = task.work + totalWork tasks := by
  simp [totalWork]

/-- Each task leaves less work than there was with it. -/
theorem evaluationStep_work {runtime : Runtime} {bindings : String → Option ArithmeticValue}
    {state next : EvaluationState} {task : EvaluationTask}
    (stepped : evaluationStep runtime bindings state task = .ok next)
    : totalWork next.tasks < task.work + totalWork state.tasks := by
  cases task with
  | expression expression =>
      rw [evaluationStep] at stepped
      cases expression with
      | var name =>
          rw [visitExpression] at stepped
          cases found : bindings name with
          | none => simp [found] at stepped
          | some value =>
              simp only [found, Except.ok.injEq] at stepped
              subst stepped
              simp [pushArithmetic, EvaluationTask.work, work]
      | funcCall name args => simp [visitExpression] at stepped
      | _ =>
          simp only [visitExpression, Except.ok.injEq] at stepped
          subst stepped
          simp only [pushArithmetic, scheduleBinary, totalWork_cons, EvaluationTask.work, work]
          omega
  | finishBinary operation =>
      obtain ⟨_, _, stepped⟩ := bind_eq_ok.mp stepped
      obtain ⟨_, _, stepped⟩ := bind_eq_ok.mp stepped
      obtain ⟨_, _, stepped⟩ := bind_eq_ok.mp stepped
      obtain rfl := Except.ok.inj stepped
      simp [pushArithmetic, EvaluationTask.work]
  | finishAbsoluteValue =>
      obtain ⟨_, _, stepped⟩ := bind_eq_ok.mp stepped
      obtain ⟨_, _, stepped⟩ := bind_eq_ok.mp stepped
      obtain rfl := Except.ok.inj stepped
      simp [pushArithmetic, EvaluationTask.work]
  | finishCast target =>
      obtain ⟨_, _, stepped⟩ := bind_eq_ok.mp stepped
      obtain ⟨_, _, stepped⟩ := bind_eq_ok.mp stepped
      obtain rfl := Except.ok.inj stepped
      simp [pushArithmetic, EvaluationTask.work]
  | finishComparison operator =>
      obtain ⟨_, _, stepped⟩ := bind_eq_ok.mp stepped
      obtain ⟨_, _, stepped⟩ := bind_eq_ok.mp stepped
      obtain ⟨_, _, stepped⟩ := bind_eq_ok.mp stepped
      obtain rfl := Except.ok.inj stepped
      simp [EvaluationTask.work]
  | finishConditional =>
      obtain ⟨⟨elseValue, _⟩, _, stepped⟩ := bind_eq_ok.mp stepped
      obtain ⟨⟨thenValue, _⟩, _, stepped⟩ := bind_eq_ok.mp stepped
      obtain ⟨⟨condition, values⟩, _, stepped⟩ := bind_eq_ok.mp stepped
      dsimp only at stepped
      by_cases differ : thenValue.scalarType ≠ elseValue.scalarType
      · simp [if_pos differ] at stepped
      · rw [if_neg differ] at stepped
        obtain rfl := Except.ok.inj stepped
        simp [pushArithmetic, EvaluationTask.work]

/-- Runs the tasks until none is left. -/
def runTasks (runtime : Runtime) (bindings : String → Option ArithmeticValue)
    (state : EvaluationState) : Result (List EvaluationValue) :=
  match tasksOf : state.tasks with
  | [] => .ok state.values
  | task :: tasks =>
      match stepped : evaluationStep runtime bindings { state with tasks } task with
      | .error error => .error error
      | .ok next =>
          have less : totalWork next.tasks < totalWork state.tasks := by
            rw [tasksOf, totalWork_cons]
            exact evaluationStep_work stepped
          runTasks runtime bindings next
termination_by totalWork state.tasks

def evaluateArithmeticExpression (runtime : Runtime)
    (bindings : String → Option ArithmeticValue) (expression : ArithExpr)
    : Result ArithmeticValue := do
  let values ← runTasks runtime bindings ⟨[.expression expression], []⟩
  let (result, values) ← popArithmetic values
  if values.isEmpty then .ok result else .error evaluationStateError

-- Runs

variable {runtime : Runtime} {bindings : String → Option ArithmeticValue}

theorem runTasks_nil (values : List EvaluationValue)
    : runTasks runtime bindings ⟨[], values⟩ = .ok values := by
  rw [runTasks]

theorem runTasks_cons (task : EvaluationTask) (tasks : List EvaluationTask)
    (values : List EvaluationValue)
    : runTasks runtime bindings ⟨task :: tasks, values⟩
      = evaluationStep runtime bindings ⟨tasks, values⟩ task >>= runTasks runtime bindings := by
  rw [runTasks]
  dsimp only
  cases evaluationStep runtime bindings ⟨tasks, values⟩ task with
  | error error => rfl
  | ok next => rfl

-- Agreement with the recursion

variable (runtime bindings) in
/-- Running the task of an expression pushes its value or fails as the recursion does. -/
def Runs (expr : ArithExpr) : Prop :=
  ∀ (tasks : List EvaluationTask) (values : List EvaluationValue),
    runTasks runtime bindings ⟨.expression expr :: tasks, values⟩
      = Logic.evaluateArithmeticExpression runtime bindings expr >>= fun value =>
          runTasks runtime bindings ⟨tasks, .arithmetic value :: values⟩

/-- The operands run left to right, then their values are combined. -/
theorem Runs.binary {left right : ArithExpr} (runsLeft : Runs runtime bindings left)
    (runsRight : Runs runtime bindings right) (operation : BinaryOperation)
    (tasks : List EvaluationTask) (values : List EvaluationValue)
    : runTasks runtime bindings (scheduleBinary ⟨tasks, values⟩ left right operation)
      = (do
          let x ← Logic.evaluateArithmeticExpression runtime bindings left
          evaluateBinary runtime operation x
            (← Logic.evaluateArithmeticExpression runtime bindings right))
        >>= fun value => runTasks runtime bindings ⟨tasks, .arithmetic value :: values⟩ := by
  rw [scheduleBinary, runsLeft, bind_assoc]
  refine bind_congr fun x => ?_
  rw [runsRight, bind_assoc]
  refine bind_congr fun y => ?_
  rw [runTasks_cons]
  simp only [evaluationStep, popArithmetic, ok_bind, bind_assoc]
  rfl

/-- A unary task combines the value of its expression. -/
theorem Runs.unary {inner : ArithExpr} (runsInner : Runs runtime bindings inner)
    {task : EvaluationTask} {finish : ArithmeticValue → Result ArithmeticValue}
    (steps : ∀ (tasks : List EvaluationTask) (values : List EvaluationValue) value,
      evaluationStep runtime bindings ⟨tasks, .arithmetic value :: values⟩ task
        = finish value >>= fun result => .ok ⟨tasks, .arithmetic result :: values⟩)
    (tasks : List EvaluationTask) (values : List EvaluationValue)
    : runTasks runtime bindings ⟨.expression inner :: task :: tasks, values⟩
      = (Logic.evaluateArithmeticExpression runtime bindings inner >>= finish)
        >>= fun value => runTasks runtime bindings ⟨tasks, .arithmetic value :: values⟩ := by
  rw [runsInner, bind_assoc]
  refine bind_congr fun value => ?_
  rw [runTasks_cons, steps, bind_assoc]
  rfl

/-- The condition is compared before the branches run, and both branches run. -/
theorem Runs.conditional {condLeft condRight thenExpr elseExpr : ArithExpr}
    (runsCondLeft : Runs runtime bindings condLeft)
    (runsCondRight : Runs runtime bindings condRight)
    (runsThen : Runs runtime bindings thenExpr) (runsElse : Runs runtime bindings elseExpr)
    (condOp : CompOp)
    : Runs runtime bindings (.conditional condLeft condOp condRight thenExpr elseExpr) := by
  intro tasks values
  rw [runTasks_cons, evaluationStep, visitExpression, ok_bind, runsCondLeft,
    Logic.evaluateArithmeticExpression, bind_assoc]
  refine bind_congr fun left => ?_
  rw [runsCondRight, bind_assoc]
  refine bind_congr fun right => ?_
  rw [runTasks_cons]
  simp only [evaluationStep, popArithmetic, ok_bind, bind_assoc]
  refine bind_congr fun condition => ?_
  rw [runsThen]
  refine bind_congr fun thenValue => ?_
  rw [runsElse]
  refine bind_congr fun elseValue => ?_
  rw [runTasks_cons]
  simp only [evaluationStep, popArithmetic, popPredicate, ok_bind]
  by_cases differ : thenValue.scalarType ≠ elseValue.scalarType
  · rw [if_pos differ, if_pos differ]
    rfl
  · rw [if_neg differ, if_neg differ]
    rfl

/-- Every expression runs as the recursion says, by induction on the expression. -/
theorem runs (expr : ArithExpr) : Runs runtime bindings expr := by
  induction expr using Logic.evaluateArithmeticExpression.induct bindings with
  | case1 name value found =>
      intro tasks values
      rw [runTasks_cons, evaluationStep, visitExpression, Logic.evaluateArithmeticExpression]
      simp only [found, ok_bind]
      rfl
  | case2 name missing =>
      intro tasks values
      rw [runTasks_cons, evaluationStep, visitExpression, Logic.evaluateArithmeticExpression]
      simp only [missing, error_bind]
  | case3 value =>
      intro tasks values
      rw [runTasks_cons, Logic.evaluateArithmeticExpression]
      rfl
  | case4 bits =>
      intro tasks values
      rw [runTasks_cons, Logic.evaluateArithmeticExpression]
      rfl
  | case5 left right runsLeft runsRight | case6 left right runsLeft runsRight
  | case7 left right runsLeft runsRight | case8 left right runsLeft runsRight
  | case9 left right runsLeft runsRight | case10 left right runsLeft runsRight
  | case11 left right runsLeft runsRight | case12 left right runsLeft runsRight =>
      intro tasks values
      rw [runTasks_cons, Logic.evaluateArithmeticExpression]
      exact runsLeft.binary runsRight _ tasks values
  | case13 inner runsInner =>
      intro tasks values
      rw [runTasks_cons, Logic.evaluateArithmeticExpression]
      exact runsInner.unary (fun _ _ _ => rfl) tasks values
  | case14 inner target runsInner =>
      intro tasks values
      rw [runTasks_cons, Logic.evaluateArithmeticExpression]
      exact runsInner.unary (fun _ _ _ => rfl) tasks values
  | case15 condLeft condOp condRight thenExpr elseExpr runsCondLeft runsCondRight runsThen
      runsElse =>
      exact runsCondLeft.conditional runsCondRight runsThen runsElse condOp
  | case16 name args =>
      intro tasks values
      rw [runTasks_cons, Logic.evaluateArithmeticExpression]
      rfl

-- The state error

/-- The computation does not fail with the error of a wrong stack. -/
def StateSafe {α : Type} (result : Result α) : Prop :=
  Ends (· ≠ evaluationStateError) (fun _ => True) result

theorem StateSafe.bind {α β : Type} {result : Result α} {next : α → Result β}
    (safe : StateSafe result) (later : ∀ value, StateSafe (next value))
    : StateSafe (result >>= next) :=
  Ends.bind safe fun value _ => later value

theorem stateSafe_ok {α : Type} (value : α) : StateSafe (.ok value : Result α) :=
  trivial

theorem stateSafe_asF64 (value : ArithmeticValue) : StateSafe value.asF64 := by
  cases value with
  | string text => simp [ArithmeticValue.asF64, StateSafe, Ends, numericTypeError,
      evaluationStateError]
  | _ => exact stateSafe_ok _

theorem stateSafe_floatToI64 (value : Float) : StateSafe (floatToI64 value) := by
  unfold floatToI64
  split
  · simp [StateSafe, Ends, evaluationStateError]
  · exact stateSafe_ok _

theorem stateSafe_castI64 (value : ArithmeticValue) : StateSafe value.castI64 := by
  cases value with
  | f32 bits => exact stateSafe_floatToI64 _
  | f64 bits => exact stateSafe_floatToI64 _
  | string text => simp [ArithmeticValue.castI64, StateSafe, Ends, numericTypeError,
      evaluationStateError]
  | _ => exact stateSafe_ok _

theorem stateSafe_cast (value : ArithmeticValue) (target : ScalarType)
    : StateSafe (value.cast target) := by
  unfold ArithmeticValue.cast
  split
  · exact stateSafe_ok _
  · cases target with
    | f32 => exact (stateSafe_asF64 value).bind fun _ => stateSafe_ok _
    | f64 => exact (stateSafe_asF64 value).bind fun _ => stateSafe_ok _
    | _ => exact (stateSafe_castI64 value).bind fun _ => stateSafe_ok _

theorem stateSafe_evaluateBinary (operation : BinaryOperation) (left right : ArithmeticValue)
    : StateSafe (evaluateBinary runtime operation left right) := by
  unfold evaluateBinary
  split
  · exact (stateSafe_asF64 left).bind fun _ => (stateSafe_asF64 right).bind fun _ =>
      stateSafe_ok _
  · split
    · exact stateSafe_ok _
    · exact stateSafe_ok _
    · exact stateSafe_ok _
    · exact stateSafe_ok _
    · exact stateSafe_ok _
    · exact stateSafe_ok _
    · simp [StateSafe, Ends, numericTypeError, evaluationStateError]

theorem stateSafe_evaluateAbs (value : ArithmeticValue) : StateSafe (evaluateAbs value) := by
  cases value with
  | bool value => simp [evaluateAbs, StateSafe, Ends, evaluationStateError]
  | symbol id => simp [evaluateAbs, StateSafe, Ends, evaluationStateError]
  | string text => simp [evaluateAbs, StateSafe, Ends, evaluationStateError]
  | _ => exact stateSafe_ok _

theorem stateSafe_compareArithmeticValues (left : ArithmeticValue) (op : CompOp)
    (right : ArithmeticValue)
    : StateSafe (compareArithmeticValues left op right) := by
  unfold compareArithmeticValues
  split
  · exact (stateSafe_asF64 left).bind fun _ => (stateSafe_asF64 right).bind fun _ =>
      stateSafe_ok _
  · split
    any_goals exact stateSafe_ok _
    simp [StateSafe, Ends, evaluationStateError]

/-- A text with a name in it is told apart by the first character of what stands before the name. -/
theorem compilation_ne_stateError {start name rest : String}
    (first : start.toList.head? = some 'U' ∨ start.toList.head? = some 'F')
    : XlogError.compilation (start ++ name ++ rest) ≠ evaluationStateError := by
  intro same
  have texts := congrArg (fun text : String => text.toList.head?) (XlogError.compilation.inj same)
  have known : "Invalid arithmetic evaluation state".toList.head? = some 'I' := by decide
  simp only [String.toList_append, List.head?_append, known] at texts
  obtain first | first := first <;> simp [first] at texts

/-- The recursion never fails with the state error, by induction on the expression. -/
theorem stateSafe_recursion (expr : ArithExpr)
    : StateSafe (Logic.evaluateArithmeticExpression runtime bindings expr) := by
  induction expr using Logic.evaluateArithmeticExpression.induct bindings with
  | case1 name value found =>
      simp only [Logic.evaluateArithmeticExpression, found]
      exact stateSafe_ok value
  | case2 name missing =>
      simp only [Logic.evaluateArithmeticExpression, missing]
      exact compilation_ne_stateError (by decide)
  | case3 value | case4 bits => exact stateSafe_ok _
  | case5 left right safeLeft safeRight | case6 left right safeLeft safeRight
  | case7 left right safeLeft safeRight | case8 left right safeLeft safeRight
  | case9 left right safeLeft safeRight | case10 left right safeLeft safeRight
  | case11 left right safeLeft safeRight | case12 left right safeLeft safeRight =>
      rw [Logic.evaluateArithmeticExpression]
      exact safeLeft.bind fun x => safeRight.bind fun y => stateSafe_evaluateBinary _ x y
  | case13 inner safeInner =>
      rw [Logic.evaluateArithmeticExpression]
      exact safeInner.bind stateSafe_evaluateAbs
  | case14 inner target safeInner =>
      rw [Logic.evaluateArithmeticExpression]
      exact safeInner.bind fun value => stateSafe_cast value target
  | case15 condLeft condOp condRight thenExpr elseExpr safeCondLeft safeCondRight safeThen
      safeElse =>
      rw [Logic.evaluateArithmeticExpression]
      refine safeCondLeft.bind fun left => safeCondRight.bind fun right => ?_
      refine (stateSafe_compareArithmeticValues left condOp right).bind fun condition => ?_
      refine safeThen.bind fun thenValue => safeElse.bind fun elseValue => ?_
      split
      · simp [StateSafe, Ends, evaluationStateError]
      · exact stateSafe_ok _
  | case16 name args =>
      rw [Logic.evaluateArithmeticExpression]
      exact compilation_ne_stateError (by decide)

/-- The machine computes what the recursion does, errors included, and its stacks never go wrong. -/
theorem evaluateArithmeticExpression_eq_recursion (runtime : Runtime)
    (bindings : String → Option ArithmeticValue) (expression : ArithExpr)
    : evaluateArithmeticExpression runtime bindings expression
        = Logic.evaluateArithmeticExpression runtime bindings expression
      ∧ evaluateArithmeticExpression runtime bindings expression
        ≠ .error evaluationStateError := by
  have agrees : evaluateArithmeticExpression runtime bindings expression
      = Logic.evaluateArithmeticExpression runtime bindings expression := by
    rw [evaluateArithmeticExpression, runs expression [] [], bind_assoc]
    conv_rhs => rw [← bind_pure (Logic.evaluateArithmeticExpression runtime bindings expression)]
    refine bind_congr fun value => ?_
    rw [runTasks_nil]
    rfl
  refine ⟨agrees, fun failed => ?_⟩
  have safe := @stateSafe_recursion runtime bindings expression
  rw [← agrees, failed] at safe
  exact safe rfl

end Xlog.Logic.ArithmeticMachine
