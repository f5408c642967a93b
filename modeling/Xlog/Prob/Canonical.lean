import Xlog.Core.Error
import Xlog.Logic.ArithmeticValue

/-! Ground values of the probabilistic engines, and their canonical forms: one representative for all
spellings of a value under the declared type of its column. The interner of the process is a parameter.
-/

namespace Xlog.Prob

open Xlog.Core Xlog.Logic

/-- A ground argument; floats are kept as their bit pattern. -/
inductive Value where
  | i64 (value : Int)
  | f64 (bits : UInt64)
  | symbol (id : Nat)
  | string (text : String)
  deriving DecidableEq, Repr

/-- A ground predicate application. -/
structure GroundAtom where
  predicate : String
  args : List Value
  deriving DecidableEq, Repr

def provenanceValueFromArithmetic : ArithmeticValue → Result Value
  | .i32 value | .i64 value | .u32 value => .ok (.i64 value)
  | .u64 value =>
      if value ≤ i64Max then .ok (.i64 value)
      else .error (.compilation "u64 arithmetic result exceeds i64")
  | .f32 bits => .ok (.f64 (Float32.ofBits bits).toFloat.toBits)
  | .f64 bits => .ok (.f64 bits)
  | .bool value => .ok (.i64 (if value then 1 else 0))
  | .symbol id => .ok (.symbol id)
  | .string text => .ok (.string text)

/-- Read a value under a declared type. -/
def arithmeticValueFromTypedProvenance (intern : String → Nat) (value : Value)
    (scalarType : ScalarType) : Result ArithmeticValue :=
  let mismatch : Result ArithmeticValue := .error (.compilation
    s!"Provenance value is incompatible with declared {scalarType.debug} arithmetic type")
  match scalarType, value with
  | .i32, .i64 value => if i32Min ≤ value ∧ value ≤ i32Max then .ok (.i32 value) else mismatch
  | .i64, .i64 value => .ok (.i64 value)
  | .u32, .i64 value => if 0 ≤ value ∧ value ≤ u32Max then .ok (.u32 value) else mismatch
  | .u64, .i64 value => if 0 ≤ value then .ok (.u64 value) else mismatch
  | .f32, .f64 bits => .ok (.f32 (Float.ofBits bits).toFloat32.toBits)
  | .f64, .f64 bits => .ok (.f64 bits)
  | .bool, .i64 value =>
      if value = 0 then .ok (.bool false)
      else if value = 1 then .ok (.bool true)
      else mismatch
  | .symbol, .symbol id => .ok (.symbol id)
  | .symbol, .string text => .ok (.symbol (intern text))
  | _, _ => mismatch

/-- Canonicalize the arguments of a predicate, column by column. -/
def canonicalizePublicValues (intern : String → Nat) (predicate : String)
    (args : List Value) (schemas : List (String × Schema)) : Result (List Value) :=
  match schemas.lookup predicate with
  | none => .error (.compilation
      s!"Probabilistic value canonicalization requires a schema for predicate '{predicate}'")
  | some schema =>
      if schema.arity ≠ args.length then
        .error (.compilation
          s!"Predicate '{predicate}' has arity {schema.arity}, but received {args.length} values")
      else
        (args.zip (List.range args.length)).mapM fun item =>
          match schema.columnType item.2 with
          | none => .error (.compilation
              s!"Predicate '{predicate}' has no type for column {item.2}")
          | some scalarType => do
              let value ← arithmeticValueFromTypedProvenance intern item.1 scalarType
              provenanceValueFromArithmetic value

end Xlog.Prob
