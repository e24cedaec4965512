/-!
# Scalarize — operators

An operator has a symbol and a precedence. The tables are keyed by the kind of the tree nodes that
apply the operator.
-/

namespace Scalarize

/-- How an operator is written and how tightly it binds. -/
structure Operator where
  symbol : String
  precedence : Nat
deriving DecidableEq, Repr

namespace Operator

/-- The operators of one operand. -/
def unaryTable : List (String × Operator) :=
  [("neg", ⟨"-", 100⟩), ("not", ⟨"not", 90⟩), ("abs", ⟨"abs", 90⟩), ("sqrt", ⟨"sqrt", 90⟩),
    ("sin", ⟨"sin", 90⟩), ("cos", ⟨"cos", 90⟩), ("tan", ⟨"tan", 90⟩),
    ("arcsin", ⟨"arcsin", 90⟩), ("arccos", ⟨"arccos", 90⟩), ("arctan", ⟨"arctan", 90⟩)]

/-- The operators of two operands. -/
def binaryTable : List (String × Operator) :=
  [("exp", ⟨"^", 80⟩), ("mul", ⟨"*", 70⟩), ("div", ⟨"/", 70⟩), ("mod", ⟨"%", 70⟩),
    ("add", ⟨"+", 60⟩), ("sub", ⟨"-", 60⟩), ("lt", ⟨"<", 50⟩), ("le", ⟨"<=", 50⟩),
    ("gt", ⟨">", 50⟩), ("ge", ⟨">=", 50⟩), ("eq", ⟨"==", 40⟩), ("ne", ⟨"!=", 40⟩),
    ("or", ⟨"or", 30⟩), ("and", ⟨"and", 20⟩)]

/-- All operators. -/
def table : List (String × Operator) :=
  unaryTable ++ binaryTable

/-- The operator that nodes of a kind apply. -/
def ofKind? (kind : String) : Option Operator :=
  table.lookup kind

/-- Is the symbol a word, which needs spaces around it? -/
def isWord (op : Operator) : Bool :=
  op.symbol.toList.all Char.isAlpha

end Operator

end Scalarize
