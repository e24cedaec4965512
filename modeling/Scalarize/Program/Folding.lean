import Scalarize.Trace

/-!
# Scalarize — folding constants

An operation on two numbers is replaced by its result, and an operation with zero or one by what it
always gives. Zero and one are recognised as numerals only: a result of folding is a text, and such
a text is not taken for a numeral. One step folds one operation, the first that can be folded.
-/

namespace Scalarize.Tree

/-- Is the value of the node a numeral equal to `k`? -/
def valueIs (k : Int) (t : Tree) : Bool :=
  match t.value with
  | some s => s.equalsInt k
  | none => false

/-- What an operation with a zero or a one always gives. -/
def identity? (kind : String) (a b : Tree) : Option Tree :=
  match kind with
  | "add" => if a.valueIs 0 then some b else if b.valueIs 0 then some a else none
  | "sub" => if b.valueIs 0 then some a else none
  | "mul" =>
    if a.valueIs 0 || b.valueIs 0 then some (.text "number" "0")
    else if a.valueIs 1 then some b
    else if b.valueIs 1 then some a
    else none
  | "div" => if b.valueIs 1 then some a else none
  | "exp" =>
    if a.valueIs 0 && !b.valueIs 0 then some (.text "number" "0")
    else if !a.valueIs 0 && b.valueIs 0 then some (.text "number" "1")
    else if a.valueIs 1 then some (.text "number" "1")
    else if b.valueIs 1 then some a
    else none
  | _ => none

/-- The decimal of a number node. -/
def decimal (t : Tree) : Except DecimalError Decimal :=
  match t.value with
  | some s => Decimal.ofScalar s
  | none => .error (.badNumber (valueText none))

/-- The result of an operation on two number nodes. -/
def foldNumbers (kind : String) (a b : Tree) : Except DecimalError Tree := do
  let x ← a.decimal
  let y ← b.decimal
  let r ← Decimal.binary kind x y
  return .text "number" r.render

/-- How an error of folding is reported. -/
def foldFailure (e : DecimalError) : Failure :=
  if e.isArithmetic then .diagnostic .foldFailed
  else
    match e with
    | .unknownOperator op => .fault (.unknownOperator op)
    | e => .fault (.decimal e)

/-- What an operation can be replaced by. -/
def simplify (t : Tree) : Except Failure (Option Tree) :=
  match t.children with
  | [a, b] =>
    if t.isAssignment then .ok none
    else
      match identity? t.kind a b with
      | some e => .ok (some e)
      | none =>
        if a.isNumber && b.isNumber then
          match foldNumbers t.kind a b with
          | .ok e => .ok (some e)
          | .error e => .error (foldFailure e)
        else .ok none
  | _ => .ok none

/-- What became of the children of a node. -/
inductive FoldStep where
  | unchanged
  /-- The node itself is replaced. -/
  | here (t : Tree)
  /-- Something below the node is replaced. -/
  | below (children : List Tree)

open Traced

mutual

/-- Fold the first operation below a tree, or at it, that has a number as an operand and can be
folded. -/
def foldOperation : Tree → Traced (Option Tree)
  | leaf _ _ => return none
  | branch k v cs => do
    match ← foldOperands (branch k v cs) cs with
    | .unchanged => return none
    | .here t => return some t
    | .below cs' => return some (branch k v cs')

/-- Look through the operands of a node. -/
def foldOperands (parent : Tree) : List Tree → Traced FoldStep
  | [] => return .unchanged
  | t :: ts => do
    let here ← tryFold parent t
    match here with
    | some e => return .here e
    | none =>
      match ← foldOperation t with
      | some t' => return .below (t' :: ts)
      | none =>
        match ← foldOperands parent ts with
        | .below ts' => return .below (t :: ts')
        | step => return step

/-- Try to fold a node because of one of its operands. -/
def tryFold (parent operand : Tree) : Traced (Option Tree) :=
  if operand.isNumber then do
    enterExpression parent
    lift parent.simplify
  else return none

end

/-- The assignment in focus has changed. -/
def refocus (t : Tree) : Traced Unit :=
  modifyThe Trace fun trace => { trace with statement := some t }

/-- Fold an operation in one assignment. -/
def foldAssignment (t : Tree) : Traced (Option Tree) := do
  enterStatement t
  match ← foldOperation t with
  | some t' => do
    refocus t'
    return some t'
  | none => return none

mutual

/-- Fold an operation in the first assignment of a tree that has one to fold. -/
def foldFirst : Tree → Traced (Option Tree)
  | leaf k v => if k == "assignment" then foldAssignment (leaf k v) else return none
  | branch k v cs => do
    let here ← if k == "assignment" then foldAssignment (branch k v cs) else pure none
    match here with
    | some t => return some t
    | none =>
      match ← foldFirstOf cs with
      | some cs' => return some (branch k v cs')
      | none => return none

/-- `foldFirst` on a list of trees. -/
def foldFirstOf : List Tree → Traced (Option (List Tree))
  | [] => return none
  | t :: ts => do
    match ← foldFirst t with
    | some t' => return some (t' :: ts)
    | none =>
      match ← foldFirstOf ts with
      | some ts' => return some (t :: ts')
      | none => return none

end

/-- One step of folding in a program; `none` if nothing can be folded. -/
def fold (program : Tree) : Traced (Option Tree) :=
  if program.kind != "program" then give .wrongKind else program.foldFirst

end Scalarize.Tree
