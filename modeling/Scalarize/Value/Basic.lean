import Scalarize.Value.Mat

/-!
# Scalarize — values and their generated names

A variable of the source program holds a number, a vector or a matrix. In the chip program it
becomes one variable for each component, named after the sort of the value, the index of the
variable among those of its sort, and the position of the component.
-/

namespace Scalarize

/-- What a variable of the source program holds. -/
inductive Value where
  | number (x : Num)
  | vector (v : Vec)
  | matrix (m : Mat)

/-- The beginning of the names generated for a variable. -/
def stem (s : ValueSort) (index : Nat) : String :=
  match s with
  | .number => "_yovec_num" ++ toString index
  | .vector => "_yovec_vec" ++ toString index
  | .matrix => "_yovec_mat" ++ toString index

/-- The name generated for a number. -/
def numName (index : Nat) : String :=
  stem .number index

/-- The name generated for an element of a vector. -/
def vecName (index i : Nat) : String :=
  stem .vector index ++ "_e" ++ toString i

/-- The name generated for a cell of a matrix. -/
def matName (index i j : Nat) : String :=
  stem .matrix index ++ "_r" ++ toString i ++ "c" ++ toString j

namespace Num

/-- Assign a number to its generated name. -/
def assign (index : Nat) (x : Num) : List Tree × Num :=
  ([x.assignTo (numName index)], .name (numName index))

end Num

namespace Vec

/-- Assign the elements of a vector to their generated names. -/
def assign (index : Nat) (v : Vec) : List Tree × Vec :=
  (v.elems.mapIdx fun i x => x.assignTo (vecName index i),
    ⟨v.elems.mapIdx fun i _ => .name (vecName index i), by simp [v.nonempty]⟩)

end Vec

namespace Mat

/-- Assign the cells of a matrix to their generated names, row by row. -/
def assign (index : Nat) (m : Mat) : List Tree × Mat :=
  ((m.rows.mapIdx fun i v => v.elems.mapIdx fun j x => x.assignTo (matName index i j)).flatten,
    ofCells m.rowCount m.colCount m.rowCount_pos m.colCount_pos
      fun i j => .name (matName index i j))

end Mat

namespace Value

/-- The sort of a value. -/
def sort : Value → ValueSort
  | number _ => .number
  | vector _ => .vector
  | matrix _ => .matrix

/-- Assign the components of a value to their generated names: the statements, and the value that
consists of these names. -/
def assign (index : Nat) : Value → List Tree × Value
  | number x => (x.assign index).map id number
  | vector v => (v.assign index).map id vector
  | matrix m => (m.assign index).map id matrix

end Value

end Scalarize
