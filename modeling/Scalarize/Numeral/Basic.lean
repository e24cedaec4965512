import Scalarize.Numeral.Reader
import Scalarize.Numeral.Shortest

/-!
# Scalarize — numerals and scalars

A numeral is a number as the compiler holds it: a whole number of any size or a double. The value of
a tree is a scalar: a text or a numeral. A text such as `0` is never equal to a numeral.
-/

namespace Scalarize

/-- A number in a program. -/
inductive Numeral where
  | int (n : Int)
  | float (x : Float)

/-- The value of a tree. -/
inductive Scalar where
  | text (s : String)
  | numeral (n : Numeral)

namespace Numeral

/-- The text of a numeral. -/
def render : Numeral → String
  | int n => toString n
  | float x => floatText x

/-- Is the numeral equal to a whole number? -/
def equalsInt (k : Int) : Numeral → Bool
  | int n => n == k
  | float x =>
    match FloatClass.of x with
    | .finite d => d.isWhole && d.truncate == k
    | _ => false

/-- Read a number text as a whole number if it is one, else as a double. -/
def read? (s : String) : Option Numeral :=
  match readInt? s with
  | some n => some (int n)
  | none => (readFloat? s).map float

end Numeral

namespace Scalar

/-- The text of a scalar. -/
def render : Scalar → String
  | text s => s
  | numeral n => n.render

/-- Is the scalar a numeral equal to a whole number? -/
def equalsInt (k : Int) : Scalar → Bool
  | text _ => false
  | numeral n => n.equalsInt k

end Scalar

end Scalarize
