import Scalarize.Tree.Basic

/-!
# Scalarize — numbers

A number is not computed but described: a literal, a name, or operators applied to numbers. The
description is written into the chip program as the right-hand side of an assignment.
-/

namespace Scalarize

/-- A number of the source program, as an expression of the chip program. -/
inductive Num where
  | literal (n : Numeral)
  | name (s : String)
  | unary (op : String) (x : Num)
  | binary (op : String) (x y : Num)

namespace Num

/-- The whole number `n`. -/
def ofInt (n : Int) : Num :=
  literal (.int n)

/-- The expression tree of a number. -/
def toTree : Num → Tree
  | literal n => .numberOf n
  | name s => .variableNamed s
  | unary op x => .node op [x.toTree]
  | binary op x y => .node op [x.toTree, y.toTree]

/-- The statement that assigns a number to a variable. -/
def assignTo (x : Num) (variableName : String) : Tree :=
  .node "assignment" [.variableNamed variableName, x.toTree]

end Num

end Scalarize
