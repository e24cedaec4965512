import Scalarize.Env
import Scalarize.Total
import Scalarize.Trace

/-!
# Scalarize — the values of expressions

The three evaluators turn number, vector and matrix expressions into values. They call each other,
and a macro call goes on with the body of the macro, so the depth of the work is limited by an
argument. The limit is far beyond any depth that macros without recursion can reach.
-/

namespace Scalarize

/-- The operators and operands of a chain, after its first operand. -/
def pairs : List Tree → List (Tree × Tree)
  | op :: x :: rest => (op, x) :: pairs rest
  | _ => []

/-- The whole number that a value stands for as an index. A fraction is cut off. -/
def indexOf? : Option Scalar → Option Int
  | some (.text s) => readInt? s
  | some (.numeral (.int n)) => some n
  | some (.numeral (.float x)) =>
    match FloatClass.of x with
    | .finite d => some d.truncate
    | _ => none
  | none => none

/-- The number that a literal stands for. -/
def literalOf : Option Scalar → Except Fault Numeral
  | some (.text s) =>
    match Numeral.read? s with
    | some n => .ok n
    | none => .error (.decimal (.badNumber s))
  | some (.numeral (.int n)) => .ok (.int n)
  | some (.numeral (.float x)) =>
    match FloatClass.of x with
    | .finite d => .ok (.int d.truncate)
    | .infinite _ => .error .infiniteInteger
    | .notANumber => .ok (.float x)
  | none => .error (.decimal (.badNumber (Tree.valueText none)))

/-- The number that a variable holds. -/
def Binding.number (b : Binding) : Except Diagnostic Num :=
  match b.value with
  | .number x => .ok x
  | v => .error (.variableSort b.name .number v.sort)

/-- The vector that a variable holds. -/
def Binding.vector (b : Binding) : Except Diagnostic Vec :=
  match b.value with
  | .vector v => .ok v
  | v => .error (.variableSort b.name .vector v.sort)

/-- The matrix that a variable holds. -/
def Binding.matrix (b : Binding) : Except Diagnostic Mat :=
  match b.value with
  | .matrix m => .ok m
  | v => .error (.variableSort b.name .matrix v.sort)

/-- The expression that a macro call of the given sort stands for. -/
def expandCall (env : Env) (s : ValueSort) (children : List Tree) : Traced Tree :=
  match children with
  | callee :: rest => do
    let m ← Traced.check (env.lookupMacro callee.name)
    if m.returns == s.word then
      match rest with
      | args :: _ => Traced.check (m.call args.children)
      | [] => Traced.give .missingChild
    else Traced.reject (.macroSort s m.returns)
  | [] => Traced.give .missingChild

open Traced

mutual

/-- The value of a number expression. -/
def numberAt (env : Env) : Nat → Tree → Traced Num
  | 0, _ => give .endlessExpansion
  | fuel + 1, t => do
    enterExpression t
    match NumForm.ofKind? t.kind with
    | none => reject (.expressionSort .number t.kind)
    | some .chain =>
      match t.children with
      | first :: rest => do
        let x ← numberAt env fuel first
        (pairs rest).foldlM (fun x (op, operand) => do
          let y ← numberAt env fuel operand
          return .binary op.kind x y) x
      | [] => give .missingChild
    | some .unaryChain =>
      match t.children.getLast? with
      | some operand => do
        let x ← numberAt env fuel operand
        return t.children.dropLast.foldr (fun op x => .unary op.kind x) x
      | none => give .missingChild
    | some .reduce =>
      match t.children with
      | op :: v :: _ => do
        let v ← vectorAt env fuel v
        return v.reduce op.kind
      | _ => give .missingChild
    | some .dot =>
      match t.children with
      | v :: w :: _ => do
        let v ← vectorAt env fuel v
        let w ← vectorAt env fuel w
        return v.dot w
      | _ => give .missingChild
    | some .len =>
      match t.children with
      | v :: _ => do
        let v ← vectorAt env fuel v
        return v.len
      | _ => give .missingChild
    | some .rows =>
      match t.children with
      | m :: _ => do
        let m ← matrixAt env fuel m
        return m.rowNumber
      | _ => give .missingChild
    | some .cols =>
      match t.children with
      | m :: _ => do
        let m ← matrixAt env fuel m
        return m.colNumber
      | _ => give .missingChild
    | some .vecElem =>
      match t.children with
      | v :: i :: _ => do
        let v ← vectorAt env fuel v
        match indexOf? i.value with
        | some k => check (v.elem k)
        | none => reject (.badElementIndex i.name)
      | _ => give .missingChild
    | some .matElem =>
      match t.children with
      | m :: i :: j :: _ => do
        let m ← matrixAt env fuel m
        match indexOf? i.value, indexOf? j.value with
        | some k, some l => check (m.elem k l)
        | _, _ => reject (.badCellIndices i.name j.name)
      | _ => give .missingChild
    | some .external => do
      let _ ← check (env.target t.name)
      return .name t.name
    | some .reference => do
      let b ← check (env.lookup t.name)
      check b.number
    | some .call => do
      let body ← expandCall env .number t.children
      numberAt env fuel body
    | some .literal =>
      match literalOf t.value with
      | .ok n => return .literal n
      | .error f => give f

/-- The value of a vector expression. -/
def vectorAt (env : Env) : Nat → Tree → Traced Vec
  | 0, _ => give .endlessExpansion
  | fuel + 1, t => do
    enterExpression t
    match VecForm.ofKind? t.kind with
    | none => reject (.expressionSort .vector t.kind)
    | some .chain =>
      match t.children with
      | first :: rest => do
        let v ← vectorAt env fuel first
        (pairs rest).foldlM (fun v (op, operand) => do
          let w ← vectorAt env fuel operand
          check (v.chainStep op.kind w)) v
      | [] => give .missingChild
    | some .map =>
      match t.children with
      | op :: v :: _ => do
        let v ← vectorAt env fuel v
        return v.map op.kind
      | _ => give .missingChild
    | some .premap =>
      match t.children with
      | op :: x :: v :: _ => do
        let x ← numberAt env fuel x
        let v ← vectorAt env fuel v
        return v.premap op.kind x
      | _ => give .missingChild
    | some .postmap =>
      match t.children with
      | x :: op :: v :: _ => do
        let x ← numberAt env fuel x
        let v ← vectorAt env fuel v
        return v.postmap op.kind x
      | _ => give .missingChild
    | some .apply =>
      match t.children with
      | op :: first :: rest => do
        let v ← vectorAt env fuel first
        (first :: rest).foldlM (fun v operand => do
          let w ← vectorAt env fuel operand
          check (v.apply op.kind w)) v
      | _ => give .missingChild
    | some .concat =>
      match t.children with
      | first :: rest => do
        let v ← vectorAt env fuel first
        rest.foldlM (fun v operand => do
          let w ← vectorAt env fuel operand
          return v.concat w) v
      | [] => give .missingChild
    | some .reverse =>
      match t.children with
      | v :: _ => do
        let v ← vectorAt env fuel v
        return v.reverse
      | _ => give .missingChild
    | some .row =>
      match t.children with
      | m :: i :: _ => do
        let m ← matrixAt env fuel m
        match indexOf? i.value with
        | some k => check (m.row k)
        | none => reject (.badRowIndex i.name)
      | _ => give .missingChild
    | some .col =>
      match t.children with
      | m :: i :: _ => do
        let m ← matrixAt env fuel m
        match indexOf? i.value with
        | some k => check (m.col k)
        | none => reject (.badColumnIndex i.name)
      | _ => give .missingChild
    | some .reference => do
      let b ← check (env.lookup t.name)
      check b.vector
    | some .call => do
      let body ← expandCall env .vector t.children
      vectorAt env fuel body
    | some .literal => do
      let xs ← t.children.mapM (numberAt env fuel)
      match Vec.ofList? xs with
      | some v => return v
      | none => give .emptyVector

/-- The value of a matrix expression. -/
def matrixAt (env : Env) : Nat → Tree → Traced Mat
  | 0, _ => give .endlessExpansion
  | fuel + 1, t => do
    enterExpression t
    match MatForm.ofKind? t.kind with
    | none => reject (.expressionSort .matrix t.kind)
    | some .chain =>
      match t.children with
      | first :: rest => do
        let m ← matrixAt env fuel first
        (pairs rest).foldlM (fun m (op, operand) => do
          let n ← matrixAt env fuel operand
          check (m.chainStep op.kind n)) m
      | [] => give .missingChild
    | some .map =>
      match t.children with
      | op :: m :: _ => do
        let m ← matrixAt env fuel m
        return m.map op.kind
      | _ => give .missingChild
    | some .premap =>
      match t.children with
      | op :: x :: m :: _ => do
        let x ← numberAt env fuel x
        let m ← matrixAt env fuel m
        return m.premap op.kind x
      | _ => give .missingChild
    | some .postmap =>
      match t.children with
      | x :: op :: m :: _ => do
        let x ← numberAt env fuel x
        let m ← matrixAt env fuel m
        return m.postmap op.kind x
      | _ => give .missingChild
    | some .apply =>
      match t.children with
      | op :: first :: rest => do
        let m ← matrixAt env fuel first
        (first :: rest).foldlM (fun m operand => do
          let n ← matrixAt env fuel operand
          check (m.apply op.kind n)) m
      | _ => give .missingChild
    | some .transpose =>
      match t.children with
      | m :: _ => do
        let m ← matrixAt env fuel m
        return m.transpose
      | _ => give .missingChild
    | some .product =>
      match t.children with
      | m :: n :: _ => do
        let m ← matrixAt env fuel m
        let n ← matrixAt env fuel n
        check (m.product n)
      | _ => give .missingChild
    | some .reference => do
      let b ← check (env.lookup t.name)
      check b.matrix
    | some .call => do
      let body ← expandCall env .matrix t.children
      matrixAt env fuel body
    | some .literal => do
      let vs ← t.children.mapM (vectorAt env fuel)
      lift (Mat.ofRows vs)

end

/-- A depth of evaluation that macros without recursion cannot reach: a body of a macro can nest
calls of other macros as often as it has nodes. -/
def depthBound (env : Env) (t : Tree) : Nat :=
  Nat.pow (t.size + total (env.macros.map (·.2.body.size)) + 1) (env.macros.length + 2)

/-- The value of a number expression. -/
def evalNumber (env : Env) (t : Tree) : Traced Num :=
  numberAt env (depthBound env t) t

/-- The value of a vector expression. -/
def evalVector (env : Env) (t : Tree) : Traced Vec :=
  vectorAt env (depthBound env t) t

/-- The value of a matrix expression. -/
def evalMatrix (env : Env) (t : Tree) : Traced Mat :=
  matrixAt env (depthBound env t) t

end Scalarize
