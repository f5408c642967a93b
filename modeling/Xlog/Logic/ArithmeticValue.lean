import Xlog.Logic.Ast
import Mathlib.Algebra.Order.Ring.Int

/-! Typed scalars of arithmetic evaluation and the declared column types of predicates.
-/

namespace Xlog.Logic

def i32Min : Int := -2 ^ 31
def i32Max : Int := 2 ^ 31 - 1
def u32Max : Int := 2 ^ 32 - 1
def i64Min : Int := -2 ^ 63
def i64Max : Int := 2 ^ 63 - 1
def u64Max : Int := 2 ^ 64 - 1

/-- How the debug format writes a type. -/
def ScalarType.debug : ScalarType → String
  | .u32 => "U32"
  | .u64 => "U64"
  | .i32 => "I32"
  | .i64 => "I64"
  | .f32 => "F32"
  | .f64 => "F64"
  | .bool => "Bool"
  | .symbol => "Symbol"

/-- A typed scalar; integers are within their type's range, floats are bit patterns. -/
inductive ArithmeticValue where
  | i32 (value : Int)
  | i64 (value : Int)
  | u32 (value : Int)
  | u64 (value : Int)
  | f32 (bits : UInt32)
  | f64 (bits : F64)
  | bool (value : Bool)
  | symbol (id : Nat)
  | string (text : String)
  deriving DecidableEq, Repr

/-- The column types of a predicate; the columns' names are not used here. -/
structure Schema where
  columns : List (String × ScalarType)
  deriving DecidableEq, Repr

def Schema.arity (schema : Schema) : Nat := schema.columns.length

def Schema.columnType (schema : Schema) (index : Nat) : Option ScalarType :=
  schema.columns[index]?.map Prod.snd

end Xlog.Logic
