import Xlog.Core.Error
import Xlog.Logic.ArithmeticValue

/-! Evaluation of normalized arithmetic expressions. The source runs an explicit stack, so
that deep expressions do not overflow; it visits and fails in the order of this recursion.
-/

namespace Xlog.Logic

open Xlog.Core

/-- What the process provides: the symbol table, and the floating-point functions of the
platform.
-/
structure Runtime where
  intern : String → Nat
  resolve : Nat → String
  powf : Float → Float → Float
  rem64 : Float → Float → Float
  rem32 : Float32 → Float32 → Float32
  exp : Float → Float
  ln : Float → Float
  displayF64 : F64 → String

-- Machine numbers

def wrapI32 (value : Int) : Int := Int.bmod value (2 ^ 32)
def wrapI64 (value : Int) : Int := Int.bmod value (2 ^ 64)
def wrapU32 (value : Int) : Int := value % 2 ^ 32
def wrapU64 (value : Int) : Int := value % 2 ^ 64

/-- Orders doubles by their bit patterns as `f64::total_cmp` does. -/
def f64TotalOrderKeyFromBits (bits : F64) : UInt64 :=
  bits ^^^ (if bits >>> 63 = 0 then 0x8000000000000000 else 0xFFFFFFFFFFFFFFFF)

def f32TotalOrderKeyFromBits (bits : UInt32) : UInt32 :=
  bits ^^^ (if bits >>> 31 = 0 then 0x80000000 else 0xFFFFFFFF)

def normalizeNanF64 (value : Float) : F64 :=
  if value.isNaN then 0x7ff8000000000000 else value.toBits

def normalizeNanF32 (value : Float32) : UInt32 :=
  if value.isNaN then 0x7fc00000 else value.toBits

/-- `value as f64` of an integer of at most 64 bits. -/
def intAsF64 (value : Int) : Float := Float.ofInt value

def f32AsF64 (bits : UInt32) : Float := (Float32.ofBits bits).toFloat

def f64AsF32 (value : Float) : UInt32 := value.toFloat32.toBits

-- Typed values

/-- Strings have no runtime type until they are interned. -/
def ArithmeticValue.scalarType : ArithmeticValue → Option ScalarType
  | .i32 _ => some .i32
  | .i64 _ => some .i64
  | .u32 _ => some .u32
  | .u64 _ => some .u64
  | .f32 _ => some .f32
  | .f64 _ => some .f64
  | .bool _ => some .bool
  | .symbol _ => some .symbol
  | .string _ => none

def numericTypeError : XlogError :=
  .compilation "Arithmetic operation requires matching numeric types"

def ArithmeticValue.asF64 : ArithmeticValue → Result Float
  | .i32 value | .i64 value | .u32 value | .u64 value => .ok (intAsF64 value)
  | .f32 bits => .ok (f32AsF64 bits)
  | .f64 bits => .ok (Float.ofBits bits)
  | .bool value => .ok (intAsF64 (if value then 1 else 0))
  | .symbol id => .ok (intAsF64 id)
  | .string _ => .error numericTypeError

/-- Truncation; doubles of this size have no fraction, so the bounds need none. -/
def floatToI64 (value : Float) : Result Int :=
  if ¬ value.isFinite ∨ ¬ (intAsF64 i64Min ≤ value ∧ value < intAsF64 (i64Max + 1)) then
    .error (.compilation
      "Floating-point value cannot be represented by the runtime integer cast")
  else .ok value.toInt64.toInt

def ArithmeticValue.castI64 : ArithmeticValue → Result Int
  | .i32 value | .i64 value | .u32 value => .ok value
  | .u64 value => .ok (wrapI64 value)
  | .f32 bits => floatToI64 (f32AsF64 bits)
  | .f64 bits => floatToI64 (Float.ofBits bits)
  | .bool value => .ok (if value then 1 else 0)
  | .symbol id => .ok id
  | .string _ => .error numericTypeError

def ArithmeticValue.cast (value : ArithmeticValue) (target : ScalarType)
    : Result ArithmeticValue :=
  if value.scalarType = some target then .ok value
  else
    match target with
    | .i32 => do .ok (.i32 (wrapI32 (← value.castI64)))
    | .i64 => do .ok (.i64 (← value.castI64))
    | .u32 => do .ok (.u32 (wrapU32 (← value.castI64)))
    | .u64 => do .ok (.u64 (wrapU64 (← value.castI64)))
    | .f32 => do .ok (.f32 (f64AsF32 (← value.asF64)))
    | .f64 => do .ok (.f64 (← value.asF64).toBits)
    | .bool => do .ok (.bool ((← value.castI64) ≠ 0))
    | .symbol => do .ok (.symbol (wrapU32 (← value.castI64)).toNat)

-- Operations

inductive BinaryOperation where
  | add | subtract | multiply | divide | modulo | minimum | maximum | power
  deriving DecidableEq, Repr

/-- An integer operation of one width; power is handled before. -/
def integerOperation (wrap : Int → Int) (max : Int) (operation : BinaryOperation)
    (left right : Int) : Int :=
  match operation with
  | .add => wrap (left + right)
  | .subtract => wrap (left - right)
  | .multiply => wrap (left * right)
  | .divide => if right = 0 then max else wrap (left.tdiv right)
  | .modulo => if right = 0 then 0 else wrap (left.tmod right)
  | .minimum => Min.min left right
  | .maximum => Max.max left right
  | .power => 0

def float32Operation (runtime : Runtime) (operation : BinaryOperation) (left right : UInt32)
    : UInt32 :=
  let x := Float32.ofBits left
  let y := Float32.ofBits right
  match operation with
  | .add => (x + y).toBits
  | .subtract => (x - y).toBits
  | .multiply => (x * y).toBits
  | .divide => normalizeNanF32 (x / y)
  | .modulo => normalizeNanF32 (runtime.rem32 x y)
  | .minimum =>
      if f32TotalOrderKeyFromBits left ≤ f32TotalOrderKeyFromBits right then left else right
  | .maximum =>
      if f32TotalOrderKeyFromBits left ≥ f32TotalOrderKeyFromBits right then left else right
  | .power => 0

def float64Operation (runtime : Runtime) (operation : BinaryOperation) (left right : F64)
    : F64 :=
  let x := Float.ofBits left
  let y := Float.ofBits right
  match operation with
  | .add => (x + y).toBits
  | .subtract => (x - y).toBits
  | .multiply => (x * y).toBits
  | .divide => normalizeNanF64 (x / y)
  | .modulo => normalizeNanF64 (runtime.rem64 x y)
  | .minimum =>
      if f64TotalOrderKeyFromBits left ≤ f64TotalOrderKeyFromBits right then left else right
  | .maximum =>
      if f64TotalOrderKeyFromBits left ≥ f64TotalOrderKeyFromBits right then left else right
  | .power => 0

def evaluateBinary (runtime : Runtime) (operation : BinaryOperation)
    (left right : ArithmeticValue) : Result ArithmeticValue :=
  if operation = .power then do
    let x ← left.asF64
    let y ← right.asF64
    .ok (.f64 (normalizeNanF64 (runtime.powf x y)))
  else
    match left, right with
    | .i32 x, .i32 y => .ok (.i32 (integerOperation wrapI32 i32Max operation x y))
    | .i64 x, .i64 y => .ok (.i64 (integerOperation wrapI64 i64Max operation x y))
    | .u32 x, .u32 y => .ok (.u32 (integerOperation wrapU32 u32Max operation x y))
    | .u64 x, .u64 y => .ok (.u64 (integerOperation wrapU64 u64Max operation x y))
    | .f32 x, .f32 y => .ok (.f32 (float32Operation runtime operation x y))
    | .f64 x, .f64 y => .ok (.f64 (float64Operation runtime operation x y))
    -- values of two kinds, and the kinds without arithmetic, fail with the same text
    | _, _ => .error numericTypeError

def evaluateAbs : ArithmeticValue → Result ArithmeticValue
  | .i32 value => .ok (.i32 (wrapI32 value.natAbs))
  | .i64 value => .ok (.i64 (wrapI64 value.natAbs))
  | .u32 value => .ok (.u32 value)
  | .u64 value => .ok (.u64 value)
  | .f32 bits => .ok (.f32 (bits &&& 0x7fffffff))
  | .f64 bits => .ok (.f64 (bits &&& 0x7fffffffffffffff))
  | .bool _ | .symbol _ | .string _ =>
      .error (.compilation "abs() requires numeric input")

/-- A comparison on a type with a decidable order. -/
def compareOrdered {α : Type} [DecidableEq α] [LT α] [DecidableLT α] (op : CompOp)
    (left right : α) : Bool :=
  match op with
  | .eq => left = right
  | .ne => left ≠ right
  | .lt => left < right
  | .le => ¬ right < left
  | .gt => right < left
  | .ge => ¬ left < right

def compareF32 (op : CompOp) (left right : UInt32) : Bool :=
  compareOrdered op (f32TotalOrderKeyFromBits left) (f32TotalOrderKeyFromBits right)

def compareF64 (op : CompOp) (left right : F64) : Bool :=
  compareOrdered op (f64TotalOrderKeyFromBits left) (f64TotalOrderKeyFromBits right)

def ArithmeticValue.isFloat : ArithmeticValue → Bool
  | .f32 _ | .f64 _ => true
  | _ => false

def ArithmeticValue.isNumeric : ArithmeticValue → Bool
  | .i32 _ | .i64 _ | .u32 _ | .u64 _ | .f32 _ | .f64 _ => true
  | _ => false

/-- Compare two scalars; floats of two widths, or a float and an integer, as doubles. -/
def compareArithmeticValues (left : ArithmeticValue) (op : CompOp) (right : ArithmeticValue)
    : Result Bool :=
  if left.scalarType ≠ right.scalarType ∧ (left.isFloat ∨ right.isFloat)
      ∧ left.isNumeric ∧ right.isNumeric then do
    let x ← left.asF64
    let y ← right.asF64
    .ok (compareF64 op x.toBits y.toBits)
  else
    match left, right with
    | .i32 x, .i32 y | .i64 x, .i64 y | .u32 x, .u32 y | .u64 x, .u64 y =>
        .ok (compareOrdered op x y)
    | .f32 x, .f32 y => .ok (compareF32 op x y)
    | .f64 x, .f64 y => .ok (compareF64 op x y)
    | .bool x, .bool y => .ok (compareOrdered op x y)
    | .symbol x, .symbol y => .ok (compareOrdered op x y)
    | .string x, .string y => .ok (compareOrdered op x y)
    | _, _ => .error (.compilation "Comparison between differing types is not supported")

-- Expressions

/-- Evaluate an expression; a conditional evaluates both branches. -/
def evaluateArithmeticExpression (runtime : Runtime)
    (bindings : String → Option ArithmeticValue) : ArithExpr → Result ArithmeticValue
  | .var name =>
      match bindings name with
      | some value => .ok value
      | none => .error (.compilation s!"Unbound variable {name} in arithmetic")
  | .integer value => .ok (.i64 value)
  | .float bits => .ok (.f64 bits)
  | .add left right => do
      let x ← evaluateArithmeticExpression runtime bindings left
      evaluateBinary runtime .add x (← evaluateArithmeticExpression runtime bindings right)
  | .sub left right => do
      let x ← evaluateArithmeticExpression runtime bindings left
      evaluateBinary runtime .subtract x (← evaluateArithmeticExpression runtime bindings right)
  | .mul left right => do
      let x ← evaluateArithmeticExpression runtime bindings left
      evaluateBinary runtime .multiply x (← evaluateArithmeticExpression runtime bindings right)
  | .div left right => do
      let x ← evaluateArithmeticExpression runtime bindings left
      evaluateBinary runtime .divide x (← evaluateArithmeticExpression runtime bindings right)
  | .mod left right => do
      let x ← evaluateArithmeticExpression runtime bindings left
      evaluateBinary runtime .modulo x (← evaluateArithmeticExpression runtime bindings right)
  | .min left right => do
      let x ← evaluateArithmeticExpression runtime bindings left
      evaluateBinary runtime .minimum x (← evaluateArithmeticExpression runtime bindings right)
  | .max left right => do
      let x ← evaluateArithmeticExpression runtime bindings left
      evaluateBinary runtime .maximum x (← evaluateArithmeticExpression runtime bindings right)
  | .pow left right => do
      let x ← evaluateArithmeticExpression runtime bindings left
      evaluateBinary runtime .power x (← evaluateArithmeticExpression runtime bindings right)
  | .abs expr => do evaluateAbs (← evaluateArithmeticExpression runtime bindings expr)
  | .cast expr target => do
      (← evaluateArithmeticExpression runtime bindings expr).cast target
  | .conditional condLeft condOp condRight thenExpr elseExpr => do
      let left ← evaluateArithmeticExpression runtime bindings condLeft
      let right ← evaluateArithmeticExpression runtime bindings condRight
      let condition ← compareArithmeticValues left condOp right
      let thenValue ← evaluateArithmeticExpression runtime bindings thenExpr
      let elseValue ← evaluateArithmeticExpression runtime bindings elseExpr
      if thenValue.scalarType ≠ elseValue.scalarType then
        .error (.compilation "Conditional branches require matching scalar types")
      else .ok (if condition then thenValue else elseValue)
  | .funcCall name _ => .error (.compilation
      s!"Function call \x60{name}\x60 must be expanded before arithmetic evaluation")

end Xlog.Logic
