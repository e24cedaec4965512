import Scalarize.Proofs.ChipSemantics
import Scalarize.Proofs.Statements

/-!
# Scalarize — the meaning of source programs

What a source program means, said on lists of values and without names, trees or generated code: a
vector is the list of its elements, a matrix the list of its rows, and each form is the operation on
lists that its description names. As for chip programs, the values and the reading of literals and
operators are left open. An expression to which the description gives no meaning has none here.

* **`Meaning`** — numbers, vectors and matrices of values.
* **`denote`** — what a form makes of the meanings of its operands.
* **`Denotes`** — the meaning of an expression, macro calls being expanded.
* **`LetsMean`** — the meanings of the `let` statements of a program, one after the other.
-/

namespace Scalarize

universe u

variable {V : Type u}

namespace Interpretation

/-- An operator of one operand. -/
def unary (I : Interpretation V) (op : String) (x : V) : V :=
  I.operation op [x]

/-- An operator of two operands. -/
def binary (I : Interpretation V) (op : String) (x y : V) : V :=
  I.operation op [x, y]

/-- A whole number. -/
def whole (I : Interpretation V) (n : Int) : V :=
  I.literal (some (.numeral (.int n)))

end Interpretation

/-! ## Operations on lists -/

section

variable {α : Type u}

/-- The element at an index. A negative index counts from the end. -/
def elementAt? (xs : List α) : Int → Option α
  | .ofNat k => xs[k]?
  | .negSucc k => xs.reverse[k]?

/-- Two lists of one length, combined element by element. -/
def elementwise? (f : α → α → α) (xs ys : List α) : Option (List α) :=
  if xs.length = ys.length then some (List.zipWith f xs ys) else none

/-- Two matrices of one shape, combined cell by cell. -/
def cellwise? (f : α → α → α) (a b : List (List α)) : Option (List (List α)) :=
  if a.map List.length = b.map List.length then some (List.zipWith (List.zipWith f) a b) else none

/-- The number of columns, as the first row has them. -/
def width : List (List α) → Nat
  | [] => 0
  | r :: _ => r.length

/-- The columns of a matrix. -/
def columns (a : List (List α)) : List (List α) :=
  (List.range (width a)).map fun j => a.filterMap fun r => r[j]?

/-- Zero plus the products, summed in the order of the elements. -/
def innerProduct (I : Interpretation α) (xs ys : List α) : α :=
  (List.zipWith (I.binary "mul") xs ys).foldl (I.binary "add") (I.whole 0)

/-- Rows times columns. -/
def matrixProduct? (I : Interpretation α) (a b : List (List α)) : Option (List (List α)) :=
  if width a = b.length then some (a.map fun r => (columns b).map (innerProduct I r)) else none

end

/-! ## Meanings -/

/-- What an expression of the source program means. -/
inductive Meaning (V : Type u) where
  | number (x : V)
  | vector (xs : List V)
  | matrix (rows : List (List V))

namespace Meaning

/-- The sort of a meaning. -/
def sort : Meaning V → ValueSort
  | number _ => .number
  | vector _ => .vector
  | matrix _ => .matrix

/-- The number that is meant. -/
def number? : Meaning V → Option V
  | number x => some x
  | _ => none

/-- The vector that is meant. -/
def vector? : Meaning V → Option (List V)
  | vector xs => some xs
  | _ => none

/-- The matrix that is meant. -/
def matrix? : Meaning V → Option (List (List V))
  | matrix rows => some rows
  | _ => none

/-- The components of a meaning, each under the name that it has in the variable of an index. -/
def cells (index : Nat) : Meaning V → List (String × V)
  | number x => [(numName index, x)]
  | vector xs => xs.mapIdx fun i x => (vecName index i, x)
  | matrix rows => (rows.mapIdx fun i r => r.mapIdx fun j x => (matName index i j, x)).flatten

end Meaning

/-! ## Forms -/

/-- The operator on numbers that an operator on vectors applies to the elements. -/
def vectorOperator? (op : String) : Option String :=
  if op == "vec_add" then some "add" else if op == "vec_sub" then some "sub" else none

/-- The operator on numbers that an operator on matrices applies to the cells. -/
def matrixOperator? (op : String) : Option String :=
  if op == "mat_add" then some "add" else if op == "mat_sub" then some "sub" else none

/-- The meaning of a number expression, from those of its operands. -/
def NumForm.denote (I : Interpretation V) (σ : Store V) (f : NumForm) (t : Tree)
    (ms : List (Meaning V)) : Option V :=
  match f, t.children, ms with
  | .chain, _ :: rest, .number x :: ms =>
    (ms.mapM Meaning.number?).map fun ys =>
      ((pairs rest).zip ys).foldl (fun x p => I.binary p.1.1.kind x p.2) x
  | .unaryChain, cs, [.number x] => some (cs.dropLast.foldr (fun op x => I.unary op.kind x) x)
  | .reduce, op :: _, [.vector (x :: xs)] => some (xs.foldl (I.binary op.kind) x)
  | .dot, _, [.vector xs, .vector ys] =>
    if xs.length = ys.length then some (innerProduct I xs ys) else none
  | .len, _, [.vector xs] => some (I.whole xs.length)
  | .rows, _, [.matrix a] => some (I.whole a.length)
  | .cols, _, [.matrix a] => some (I.whole (width a))
  | .vecElem, _ :: i :: _, [.vector xs] => (indexOf? i.value).bind (elementAt? xs)
  | .matElem, _ :: i :: j :: _, [.matrix a] =>
    (indexOf? i.value).bind fun k => (indexOf? j.value).bind fun l =>
      (elementAt? a k).bind fun r => elementAt? r l
  | .external, _, [] => some (σ t.name)
  | .literal, _, [] => (literalOf t.value).toOption.map fun n => I.literal (some (.numeral n))
  | _, _, _ => none

/-- The meaning of a vector expression. -/
def VecForm.denote (I : Interpretation V) (f : VecForm) (t : Tree) (ms : List (Meaning V)) :
    Option (List V) :=
  match f, t.children, ms with
  | .chain, _ :: rest, .vector xs :: ms =>
    (ms.mapM Meaning.vector?).bind fun yss =>
      ((pairs rest).zip yss).foldlM (fun xs p =>
        (vectorOperator? p.1.1.kind).bind fun op => elementwise? (I.binary op) xs p.2) xs
  | .map, op :: _, [.vector xs] => some (xs.map (I.unary op.kind))
  | .premap, op :: _, [.number x, .vector xs] => some (xs.map fun e => I.binary op.kind e x)
  | .postmap, _ :: op :: _, [.number x, .vector xs] => some (xs.map fun e => I.binary op.kind x e)
  | .apply, op :: _, .vector xs :: ms =>
    (ms.mapM Meaning.vector?).bind fun yss =>
      yss.foldlM (fun xs ys => elementwise? (I.binary op.kind) xs ys) xs
  | .concat, _, ms => (ms.mapM Meaning.vector?).map List.flatten
  | .reverse, _, [.vector xs] => some xs.reverse
  | .row, _ :: i :: _, [.matrix a] => (indexOf? i.value).bind (elementAt? a)
  | .col, _ :: i :: _, [.matrix a] =>
    (indexOf? i.value).bind fun k => a.mapM fun r => elementAt? r k
  | .literal, _, ms => ms.mapM Meaning.number?
  | _, _, _ => none

/-- The meaning of a matrix expression. -/
def MatForm.denote (I : Interpretation V) (f : MatForm) (t : Tree) (ms : List (Meaning V)) :
    Option (List (List V)) :=
  match f, t.children, ms with
  | .chain, _ :: rest, .matrix a :: ms =>
    (ms.mapM Meaning.matrix?).bind fun bs =>
      ((pairs rest).zip bs).foldlM (fun a p =>
        (matrixOperator? p.1.1.kind).bind fun op => cellwise? (I.binary op) a p.2) a
  | .map, op :: _, [.matrix a] => some (a.map fun r => r.map (I.unary op.kind))
  | .premap, op :: _, [.number x, .matrix a] =>
    some (a.map fun r => r.map fun e => I.binary op.kind e x)
  | .postmap, _ :: op :: _, [.number x, .matrix a] =>
    some (a.map fun r => r.map fun e => I.binary op.kind x e)
  | .apply, op :: _, .matrix a :: ms =>
    (ms.mapM Meaning.matrix?).bind fun bs =>
      bs.foldlM (fun a b => cellwise? (I.binary op.kind) a b) a
  | .transpose, _, [.matrix a] => some (columns a)
  | .product, _, [.matrix a, .matrix b] => matrixProduct? I a b
  | .literal, _, ms => (ms.mapM Meaning.vector?).bind fun rows =>
    if ∀ r ∈ rows, r.length = width rows then some rows else none
  | _, _, _ => none

/-- The meaning of an expression of the given sort, from those of its operands. -/
def denote (I : Interpretation V) (σ : Store V) (s : ValueSort) (t : Tree)
    (ms : List (Meaning V)) : Option (Meaning V) :=
  match s with
  | .number => (NumForm.ofKind? t.kind).bind fun f => (f.denote I σ t ms).map .number
  | .vector => (VecForm.ofKind? t.kind).bind fun f => (f.denote I t ms).map .vector
  | .matrix => (MatForm.ofKind? t.kind).bind fun f => (f.denote I t ms).map .matrix

/-- Nodes that are lowered as they are described: all but `apply`, and chains of vectors or matrices
with the operators that the language has for them. -/
structure Tree.Plain (t : Tree) : Prop where
  not_apply : t.kind ≠ "vec_apply" ∧ t.kind ≠ "mat_apply"
  vector_operators : t.kind = "vec_binary" →
    ∀ p ∈ pairs t.children.tail, (vectorOperator? p.1.kind).isSome = true
  matrix_operators : t.kind = "mat_binary" →
    ∀ p ∈ pairs t.children.tail, (matrixOperator? p.1.kind).isSome = true

/-! ## Expressions and programs -/

/-- The variables of a program with their meanings, the newest first. -/
abbrev Meanings (V : Type u) := List (String × Meaning V)

/-- The meaning of a variable, if it has the given sort. -/
def Meanings.get? (vars : Meanings V) (s : ValueSort) (name : String) : Option (Meaning V) :=
  (vars.lookup name).bind fun μ => if μ.sort = s then some μ else none

/-- An expression has a meaning. The store gives the externals their values. -/
def Denotes (I : Interpretation V) (σ : Store V) (macros : Macros) (vars : Meanings V) :
    ValueSort → Tree → Meaning V → Prop :=
  Derives vars.get? macros (denote I σ)

/-- The meanings of `let` statements, from those of the variables before them. -/
inductive LetsMean (I : Interpretation V) (σ : Store V) (macros : Macros) :
    Meanings V → List SourceLet → List (Meaning V) → Prop where
  | nil (vars) : LetsMean I σ macros vars [] []
  | cons {vars l ls μ μs} (h : Denotes I σ macros vars l.sort l.expr μ)
      (rest : LetsMean I σ macros ((l.name, μ) :: vars) ls μs) :
      LetsMean I σ macros vars (l :: ls) (μ :: μs)

/-- A program means at most one thing. -/
theorem LetsMean.unique {I : Interpretation V} {σ : Store V} {macros : Macros} {vars : Meanings V}
    {ls : List SourceLet} {μs νs : List (Meaning V)} (hμ : LetsMean I σ macros vars ls μs)
    (hν : LetsMean I σ macros vars ls νs) : μs = νs := by
  induction hμ generalizing νs with
  | nil => cases hν; rfl
  | cons h _ ih =>
    cases hν with
    | cons h' rest' =>
      obtain rfl := Derives.unique h h'
      rw [ih rest']

end Scalarize
