import Scalarize.Numeral.Basic
import Scalarize.Text.Quoted

/-!
# Scalarize — decimals of four places

Constants are folded with doubles that are rounded to four places after every operation, a half
going to the even neighbour. Comparisons give one or zero. The two logical operators look at whether
their operands are zero and join these two facts.
-/

namespace Scalarize

/-- Why an operation on decimals has no result. -/
inductive DecimalError where
  /-- The text is not a number. -/
  | badNumber (text : String)
  /-- The whole number lies beyond the largest double. -/
  | tooLarge
  | divisionByZero
  | remainderByZero
  | zeroToNegative
  /-- The power lies beyond the largest double. -/
  | overflow
  /-- The power of a negative number to a fraction is not real. -/
  | notReal
  /-- The same, and it lies beyond the largest double too. -/
  | notRealOverflow
  | unknownOperator (op : String)
deriving DecidableEq, Repr

namespace DecimalError

/-- Is it a failure of arithmetic, as opposed to a malformed operation? -/
def isArithmetic : DecimalError → Bool
  | tooLarge | divisionByZero | remainderByZero | zeroToNegative | overflow | notRealOverflow =>
    true
  | badNumber _ | notReal | unknownOperator _ => false

/-- The message of an error. -/
def message : DecimalError → String
  | badNumber text => "could not convert string to float: " ++ Text.quote text
  | tooLarge => "int too large to convert to float"
  | divisionByZero => "float division by zero"
  | remainderByZero => "float modulo"
  | zeroToNegative => "0.0 cannot be raised to a negative power"
  | overflow => "(34, 'Numerical result out of range')"
  | notReal => "type complex doesn't define __round__ method"
  | notRealOverflow => "complex exponentiation"
  | unknownOperator op => Text.quote op

end DecimalError

/-- A double that stands for a constant of a program. -/
structure Decimal where
  value : Float

namespace Decimal

/-- The decimal of a scalar. -/
def ofScalar : Scalar → Except DecimalError Decimal
  | .text s =>
    match readFloat? s with
    | some x => .ok ⟨x⟩
    | none => .error (.badNumber s)
  | .numeral (.int n) =>
    match floatOfInt? n with
    | some x => .ok ⟨x⟩
    | none => .error .tooLarge
  | .numeral (.float x) => .ok ⟨x⟩

/-- The text of a decimal. A whole one is written as a whole number, with all its digits. -/
def render (d : Decimal) : String :=
  match FloatClass.of d.value with
  | .finite p => if p.isWhole then toString p.truncate else floatText d.value
  | _ => floatText d.value

/-- Round to four places. -/
def round4 (x : Float) : Float :=
  match FloatClass.of x with
  | .finite p => p.roundTo 4
  | _ => x

/-- Is the sign bit set? -/
def isNegative (x : Float) : Bool :=
  x.toBits.toNat / Nat.pow 2 63 == 1

/-- A zero with the sign of `x`. -/
def zeroLike (x : Float) : Float :=
  if isNegative x then -0.0 else 0.0

/-- The remainder of a division that is cut off toward zero. -/
def cutRemainder (x y : Float) : Float :=
  match FloatClass.of x, FloatClass.of y with
  | .finite a, .finite b => (a.remainder b).toFloat
  | .finite _, .infinite _ => x
  | _, _ => 0.0 / 0.0

/-- The remainder with the sign of the divisor, which is not zero. -/
def remainder (x y : Float) : Float :=
  let r := cutRemainder x y
  if r == 0.0 then zeroLike y
  else if decide (y < 0.0) != decide (r < 0.0) then r + y
  else r

/-- Is the number whole? -/
def isWhole (x : Float) : Bool :=
  match FloatClass.of x with
  | .finite p => p.isWhole
  | _ => false

/-- Is the number whole and odd? -/
def isOdd (x : Float) : Bool :=
  match FloatClass.of x with
  | .finite p => p.isWhole && p.truncate % 2 == 1
  | _ => false

/-- The power of a positive finite number to a finite one. -/
def positivePower (x y : Float) : Except DecimalError Float :=
  let r := Float.pow x y
  match FloatClass.of r with
  | .infinite _ => .error .overflow
  | _ => .ok r

/-- Does the power of a positive finite number to a finite one lie beyond the largest double? With an
exponent between zero and one it lies between one and the base. -/
def overflows (x y : Float) : Bool :=
  if 0.0 < y && y < 1.0 then false
  else
    match positivePower x y with
    | .ok _ => false
    | .error _ => true

/-- The power of a finite number that is not zero to a finite one that is not zero. -/
def finitePower (x y : Float) : Except DecimalError Float :=
  if x < 0.0 then
    if !isWhole y then
      .error (if overflows (-x) y then .notRealOverflow else .notReal)
    else do
      let r ← positivePower (-x) y
      return if isOdd y then -r else r
  else
    positivePower x y

/-- The power of two doubles. -/
def power (x y : Float) : Except DecimalError Float :=
  if y == 0.0 then .ok 1.0
  else
    match FloatClass.of x, FloatClass.of y with
    | .notANumber, _ => .ok x
    | _, .notANumber => .ok (if x == 1.0 then 1.0 else y)
    | _, .infinite negative =>
      let size := x.abs
      if size == 1.0 then .ok 1.0
      else if !negative == decide (1.0 < size) then .ok y.abs
      else .ok 0.0
    | .infinite _, .finite _ =>
      if 0.0 < y then .ok (if isOdd y then x else x.abs)
      else .ok (if isOdd y then zeroLike x else 0.0)
    | .finite a, .finite _ =>
      if a.mantissa == 0 then
        if y < 0.0 then .error .zeroToNegative
        else .ok (if isOdd y then x else 0.0)
      else
        finitePower x y

/-- One for a true statement, zero for a false one. -/
def ofBool (b : Bool) : Float :=
  if b then 1.0 else 0.0

/-- Apply an operator of two operands, before rounding. -/
def apply (op : String) (x y : Float) : Except DecimalError Float :=
  match op with
  | "add" => .ok (x + y)
  | "sub" => .ok (x - y)
  | "mul" => .ok (x * y)
  | "div" => if y == 0.0 then .error .divisionByZero else .ok (x / y)
  | "mod" => if y == 0.0 then .error .remainderByZero else .ok (remainder x y)
  | "exp" => power x y
  | "lt" => .ok (ofBool (x < y))
  | "le" => .ok (ofBool (x ≤ y))
  | "gt" => .ok (ofBool (y < x))
  | "ge" => .ok (ofBool (y ≤ x))
  | "eq" => .ok (ofBool (x == y))
  | "ne" => .ok (ofBool (x != y))
  | "and" => .ok (ofBool (x == 0.0 && y == 0.0))
  | "or" => .ok (ofBool (x == 0.0 || y == 0.0))
  | _ => .error (.unknownOperator op)

/-- Apply an operator of two operands. -/
def binary (op : String) (a b : Decimal) : Except DecimalError Decimal := do
  let x ← apply op a.value b.value
  return ⟨round4 x⟩

end Decimal

end Scalarize
