import Scalarize.Failure
import Scalarize.Text.Blank
import Scalarize.Value.Index
import Scalarize.Value.Num

/-!
# Scalarize — vectors

A vector is a list of numbers that is not empty. Operations on two vectors go element by element and
ask for equal lengths; the dot product alone stops at the end of the shorter one.
-/

namespace Scalarize

/-- A vector. -/
structure Vec where
  elems : List Num
  nonempty : elems ≠ []

namespace Vec

/-- The vector of a list of numbers, unless the list is empty. -/
def ofList? (xs : List Num) : Option Vec :=
  if h : xs = [] then none else some ⟨xs, h⟩

/-- The number of elements. -/
def length (v : Vec) : Nat :=
  v.elems.length

/-- The first element. -/
def first (v : Vec) : Num :=
  v.elems.head v.nonempty

/-- The element at a position; beyond the end, the first one. -/
def get (v : Vec) (i : Nat) : Num :=
  (v.elems[i]?).getD v.first

/-- Change each element. -/
def mapElems (f : Num → Num) (v : Vec) : Vec :=
  ⟨v.elems.map f, by simp [v.nonempty]⟩

/-- Combine the elements of two vectors of one length. -/
def combine (f : Num → Num → Num) (v w : Vec) (h : v.length = w.length) : Vec :=
  ⟨List.zipWith f v.elems w.elems, by
    have hv := List.length_pos_iff.mpr v.nonempty
    apply List.ne_nil_of_length_pos
    simp only [length] at h
    simp only [List.length_zipWith]
    omega⟩

/-- The operator on numbers behind an operator on vectors: the letters `v`, `e`, `c` and the
underscore are dropped at both ends. -/
def elementOperator (op : String) : String :=
  String.ofList (Text.trimBy (fun c => c == 'v' || c == 'e' || c == 'c' || c == '_') op.toList)

/-- One step of a chain of vector operators. -/
def chainStep (op : String) (v w : Vec) : Except Diagnostic Vec :=
  if h : v.length = w.length then .ok (combine (.binary (elementOperator op)) v w h)
  else .error (.lengthMismatch op)

/-- Apply an operator on numbers to the elements of two vectors. -/
def apply (op : String) (v w : Vec) : Except Diagnostic Vec :=
  if h : v.length = w.length then .ok (combine (.binary op) v w h)
  else .error (.lengthMismatch op)

/-- Apply an operator to each element. -/
def map (op : String) (v : Vec) : Vec :=
  v.mapElems (.unary op)

/-- Apply an operator with the element before the number. -/
def premap (op : String) (v : Vec) (x : Num) : Vec :=
  v.mapElems fun e => .binary op e x

/-- Apply an operator with the number before the element. -/
def postmap (op : String) (x : Num) (v : Vec) : Vec :=
  v.mapElems fun e => .binary op x e

/-- One vector after the other. -/
def concat (v w : Vec) : Vec :=
  ⟨v.elems ++ w.elems, by simp [v.nonempty]⟩

/-- The elements from the last to the first. -/
def reverse (v : Vec) : Vec :=
  ⟨v.elems.reverse, by simp [v.nonempty]⟩

/-- Zero plus the products of the elements, in order. -/
def dot (v w : Vec) : Num :=
  (List.zipWith (Num.binary "mul") v.elems w.elems).foldl (Num.binary "add") (.ofInt 0)

/-- The length as a number. -/
def len (v : Vec) : Num :=
  .ofInt v.length

/-- The elements joined by an operator, from the left. -/
def reduce (op : String) (v : Vec) : Num :=
  v.elems.tail.foldl (Num.binary op) v.first

/-- The element at a signed index. -/
def elem (v : Vec) (i : Int) : Except Diagnostic Num :=
  match signedGet? v.elems i with
  | some x => .ok x
  | none => .error (.elementOutOfRange i)

end Vec

end Scalarize
