/-!
# Scalarize — the forms of expressions

There are expressions for numbers, for vectors and for matrices, and each sort has its own forms. A
form is told by the kind of the tree node. Variables and macro calls are forms of all three sorts.
-/

namespace Scalarize

/-- The sorts of values. -/
inductive ValueSort where
  | number
  | vector
  | matrix
deriving DecidableEq, Repr

/-- The word for a sort. -/
def ValueSort.word : ValueSort → String
  | number => "number"
  | vector => "vector"
  | matrix => "matrix"

/-- The forms of number expressions. -/
inductive NumForm where
  | chain | unaryChain | reduce | dot | len | rows | cols | vecElem | matElem
  | external | reference | call | literal
deriving DecidableEq, Repr

/-- The forms of vector expressions. -/
inductive VecForm where
  | chain | map | premap | postmap | apply | concat | reverse | row | col
  | reference | call | literal
deriving DecidableEq, Repr

/-- The forms of matrix expressions. -/
inductive MatForm where
  | chain | map | premap | postmap | apply | transpose | product
  | reference | call | literal
deriving DecidableEq, Repr

/-- The kinds of nodes that are number expressions. -/
def NumForm.table : List (String × NumForm) :=
  [("num_binary", .chain), ("num_unary", .unaryChain), ("reduce", .reduce), ("dot", .dot),
    ("len", .len), ("rows", .rows), ("cols", .cols), ("vec_elem", .vecElem),
    ("mat_elem", .matElem), ("external", .external), ("variable", .reference), ("call", .call),
    ("number", .literal)]

/-- The kinds of nodes that are vector expressions. -/
def VecForm.table : List (String × VecForm) :=
  [("vec_binary", .chain), ("vec_map", .map), ("vec_premap", .premap), ("vec_postmap", .postmap),
    ("vec_apply", .apply), ("concat", .concat), ("reverse", .reverse), ("mat_row", .row),
    ("mat_col", .col), ("variable", .reference), ("call", .call), ("vector", .literal)]

/-- The kinds of nodes that are matrix expressions. -/
def MatForm.table : List (String × MatForm) :=
  [("mat_binary", .chain), ("mat_map", .map), ("mat_premap", .premap), ("mat_postmap", .postmap),
    ("mat_apply", .apply), ("transpose", .transpose), ("mat_mul", .product),
    ("variable", .reference), ("call", .call), ("matrix", .literal)]

/-- The form of a number expression. -/
def NumForm.ofKind? (kind : String) : Option NumForm :=
  NumForm.table.lookup kind

/-- The form of a vector expression. -/
def VecForm.ofKind? (kind : String) : Option VecForm :=
  VecForm.table.lookup kind

/-- The form of a matrix expression. -/
def MatForm.ofKind? (kind : String) : Option MatForm :=
  MatForm.table.lookup kind

/-- Can a node of this kind be an expression of the sort? -/
def ValueSort.admits (s : ValueSort) (kind : String) : Bool :=
  match s with
  | number => (NumForm.ofKind? kind).isSome
  | vector => (VecForm.ofKind? kind).isSome
  | matrix => (MatForm.ofKind? kind).isSome

/-- The sort that a word names. -/
def ValueSort.ofWord? (word : String) : Option ValueSort :=
  if word == "number" then some .number
  else if word == "vector" then some .vector
  else if word == "matrix" then some .matrix
  else none

end Scalarize
