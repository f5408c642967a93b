import Mathlib.Algebra.Order.Ring.Int

/-! Errors of the core crate and the machine arithmetic the modelled code relies on.
`panic` is the abort of an overflow-checked build: it is no variant of the error type.
-/

namespace Xlog.Core

/-- The error variants that the modelled functions return, and the abort. -/
inductive XlogError where
  | parse (message : String)
  | stratificationCycle (predicates : List String)
  | unsafeVariable (name : String)
  | type (message : String)
  | compilation (message : String)
  | unsupportedEpistemicConstruct (construct context : String)
  | execution (message : String)
  | kernel (message : String)
  | panic (message : String)
  deriving DecidableEq, Repr

abbrev Result := Except XlogError

def u32Bound : Nat := 2 ^ 32
def i32Bound : Nat := 2 ^ 31

/-- `x + 1` on `u32`. -/
def incrU32 (x : Nat) : Result Nat :=
  if x + 1 < u32Bound then .ok (x + 1) else .error (.panic "attempt to add with overflow")

/-- `x as i32` for a `u32`: two's complement reinterpretation. -/
def asI32 (x : Nat) : Int :=
  if x < i32Bound then x else (x : Int) - u32Bound

/-- `-x` on `i32`; the least value has no negation. -/
def negI32 (x : Int) : Result Int :=
  if x = -(i32Bound : Int) then .error (.panic "attempt to negate with overflow") else .ok (-x)

theorem asI32_of_lt {x : Nat} (h : x < i32Bound)
    : asI32 x = x := by
  simp [asI32, h]

theorem negI32_asI32_of_lt {x : Nat} (h : x < i32Bound)
    : negI32 (asI32 x) = .ok (-(x : Int)) := by
  have hne : (x : Int) ≠ -(i32Bound : Int) := by
    simp only [i32Bound] at h ⊢
    omega
  simp [negI32, asI32_of_lt h, hne]

/-- A `u32` read as `i32` never has a magnitude above `2^31`. -/
theorem natAbs_asI32_le {x : Nat} (h : x < u32Bound)
    : (asI32 x).natAbs ≤ i32Bound := by
  by_cases hx : x < i32Bound
  · rw [asI32_of_lt hx]
    simp only [Int.natAbs_natCast]
    omega
  · simp only [asI32, hx, if_false]
    simp only [i32Bound, u32Bound] at *
    omega

theorem negI32_eq_ok {x y : Int}
    : negI32 x = .ok y ↔ x ≠ -(i32Bound : Int) ∧ y = -x := by
  unfold negI32
  split
  · simp [*]
  · simp [*, eq_comm]

end Xlog.Core
