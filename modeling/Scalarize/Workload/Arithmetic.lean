import Scalarize.Decimal
import Scalarize.Workload.Programs

/-!
# Scalarize — series of decimal operations

The operations on two decimals, each in turn, on operands that go through small cycles.
-/

namespace Scalarize.Workload

/-- A small whole number as a decimal. -/
def whole (n : Nat) : Decimal :=
  ⟨n.toFloat⟩

/-- The left operand: a number from one to seven, and a quarter unless three divides the place. -/
def leftOperand (i : Nat) : Decimal :=
  ⟨(i % 7 + 1).toFloat + (if i % 3 == 0 then 0.0 else 0.25)⟩

/-- The right operand: a number from one to five. -/
def rightOperand (i : Nat) : Decimal :=
  whole (i % 5 + 1)

/-- The factor and the summand that each result goes through. -/
def scale : Decimal :=
  ⟨2.5⟩

/-- One operation: whether its scaled result is zero, the scaled result and the right operand. -/
def operationAt (i : Nat) : Except DecimalError (List Decimal) := do
  let r ← Decimal.binary (kindAt binaryKinds i) (leftOperand i) (rightOperand i)
  let scaled ← Decimal.binary "add" (← Decimal.binary "mul" r scale) scale
  let isZero ← Decimal.binary "eq" scaled (whole 0)
  return [isZero, scaled, rightOperand i]

/-- The first so many operations. -/
def operations (n : Nat) : Except DecimalError (List Decimal) := do
  let results ← (List.range n).mapM operationAt
  return results.flatten

end Scalarize.Workload
