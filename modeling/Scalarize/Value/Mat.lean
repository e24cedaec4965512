import Scalarize.Text.Replace
import Scalarize.Value.Vec

/-!
# Scalarize — matrices

A matrix is a list of rows that is not empty; the rows are vectors of one length.
-/

namespace Scalarize

/-- A matrix. -/
structure Mat where
  rows : List Vec
  nonempty : rows ≠ []
  rectangular : ∀ v ∈ rows, ∀ w ∈ rows, v.length = w.length

namespace Mat

/-- The matrix of a list of rows. -/
def ofRows (rows : List Vec) : Except Failure Mat :=
  if hne : rows = [] then .error (.fault .emptyMatrix)
  else if hrect : ∀ v ∈ rows, ∀ w ∈ rows, v.length = w.length then .ok ⟨rows, hne, hrect⟩
  else .error (.diagnostic .raggedMatrix)

/-- The first row. -/
def first (m : Mat) : Vec :=
  m.rows.head m.nonempty

/-- The number of rows. -/
def rowCount (m : Mat) : Nat :=
  m.rows.length

/-- The number of columns. -/
def colCount (m : Mat) : Nat :=
  m.first.length

/-- Change each row, all to one new length. -/
def mapRows (f : Vec → Vec) (hf : ∀ v w : Vec, v.length = w.length → (f v).length = (f w).length)
    (m : Mat) : Mat :=
  ⟨m.rows.map f, by simp [m.nonempty], by
    intro v hv w hw
    obtain ⟨v', hv', rfl⟩ := List.mem_map.mp hv
    obtain ⟨w', hw', rfl⟩ := List.mem_map.mp hw
    exact hf v' w' (m.rectangular v' hv' w' hw')⟩

/-- Change each cell. -/
def mapCells (f : Num → Num) (m : Mat) : Mat :=
  m.mapRows (Vec.mapElems f) (by intro v w h; simpa [Vec.length, Vec.mapElems] using h)

/-- The cell in a row and a column, both counted from zero; beyond the end, the first one. -/
def get (m : Mat) (i j : Nat) : Num :=
  ((m.rows[i]?).getD m.first).get j

/-- The matrix with the given numbers of rows and columns, both at least one, and the given
cells. -/
def ofCells (rows cols : Nat) (hr : 0 < rows) (hc : 0 < cols) (f : Nat → Nat → Num) : Mat :=
  have hne : ∀ {n : Nat} {β : Type} (g : Nat → β), 0 < n → (List.range n).map g ≠ [] := by
    intro n β g hn
    apply List.ne_nil_of_length_pos
    simpa using hn
  let row (i : Nat) : Vec := ⟨(List.range cols).map (f i), hne _ hc⟩
  ⟨(List.range rows).map row, hne _ hr, by
    intro v hv w hw
    obtain ⟨i, _, rfl⟩ := List.mem_map.mp hv
    obtain ⟨j, _, rfl⟩ := List.mem_map.mp hw
    simp [row, Vec.length]⟩

/-- There is a row. -/
theorem rowCount_pos (m : Mat) : 0 < m.rowCount :=
  List.length_pos_iff.mpr m.nonempty

/-- There is a column. -/
theorem colCount_pos (m : Mat) : 0 < m.colCount :=
  List.length_pos_iff.mpr m.first.nonempty

/-- Combine the cells of two matrices; the first one gives the size. -/
def combine (f : Num → Num → Num) (m n : Mat) : Mat :=
  ofCells m.rowCount m.colCount m.rowCount_pos m.colCount_pos fun i j => f (m.get i j) (n.get i j)

/-- Have two matrices the same numbers of rows and columns? -/
def SameSize (m n : Mat) : Prop :=
  m.rowCount = n.rowCount ∧ m.colCount = n.colCount

instance (m n : Mat) : Decidable (SameSize m n) :=
  inferInstanceAs (Decidable (_ ∧ _))

/-- The operator on vectors behind an operator on matrices. -/
def rowOperator (op : String) : String :=
  Text.replaceString "mat_" "vec_" op

/-- One step of a chain of matrix operators. -/
def chainStep (op : String) (m n : Mat) : Except Diagnostic Mat :=
  if m.SameSize n then .ok (combine (.binary (Vec.elementOperator (rowOperator op))) m n)
  else .error (.sizeMismatch op)

/-- Apply an operator on numbers to the cells of two matrices. -/
def apply (op : String) (m n : Mat) : Except Diagnostic Mat :=
  if m.SameSize n then .ok (combine (.binary op) m n)
  else .error (.sizeMismatch op)

/-- Apply an operator to each cell. -/
def map (op : String) (m : Mat) : Mat :=
  m.mapCells (.unary op)

/-- Apply an operator with the cell before the number. -/
def premap (op : String) (m : Mat) (x : Num) : Mat :=
  m.mapCells fun e => .binary op e x

/-- Apply an operator with the number before the cell. -/
def postmap (op : String) (x : Num) (m : Mat) : Mat :=
  m.mapCells fun e => .binary op x e

/-- Rows and columns exchanged. -/
def transpose (m : Mat) : Mat :=
  ofCells m.colCount m.rowCount m.colCount_pos m.rowCount_pos fun i j => m.get j i

/-- A cell of the product: zero plus the products along a row and a column, in order. -/
def productCell (m n : Mat) (i j : Nat) : Num :=
  (List.range n.rowCount).foldl
    (fun sum k => .binary "add" sum (.binary "mul" (m.get i k) (n.get k j))) (.ofInt 0)

/-- The product of two matrices. -/
def product (m n : Mat) : Except Diagnostic Mat :=
  if m.colCount = n.rowCount then
    .ok (ofCells m.rowCount n.colCount m.rowCount_pos n.colCount_pos (productCell m n))
  else .error .productMismatch

/-- The number of rows as a number. -/
def rowNumber (m : Mat) : Num :=
  .ofInt m.rowCount

/-- The number of columns as a number. -/
def colNumber (m : Mat) : Num :=
  .ofInt m.colCount

/-- The cell at two signed indices. -/
def elem (m : Mat) (i j : Int) : Except Diagnostic Num :=
  match (signedGet? m.rows i).bind fun v => signedGet? v.elems j with
  | some x => .ok x
  | none => .error (.cellOutOfRange i j)

/-- The row at a signed index. -/
def row (m : Mat) (i : Int) : Except Diagnostic Vec :=
  match signedGet? m.rows i with
  | some v => .ok v
  | none => .error (.rowOutOfRange i)

/-- The column at a signed index. -/
def col (m : Mat) (i : Int) : Except Diagnostic Vec :=
  match position? m.colCount i with
  | some j => .ok ⟨m.rows.map (·.get j), by simp [m.nonempty]⟩
  | none => .error (.columnOutOfRange i)

end Mat

end Scalarize
