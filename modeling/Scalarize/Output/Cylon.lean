import Scalarize.Failure
import Scalarize.Operator
import Scalarize.Output.Json

/-!
# Scalarize — programs as Cylon documents

Cylon is an exchange format for chip programs: a JSON document that spells out lines, statements and
expressions, with the symbol and the precedence of each operator.
-/

namespace Scalarize.Cylon

/-- The version of the format. -/
def version : String := "0.3.0"

/-- The document of a scalar. -/
def scalar : Option Scalar → Document
  | none => .null
  | some (.text s) => .string s
  | some (.numeral (.int n)) => .number (toString n)
  | some (.numeral (.float x)) =>
    match FloatClass.of x with
    | .finite _ => .number (floatText x)
    | .infinite negative => .number (if negative then "-Infinity" else "Infinity")
    | .notANumber => .number "NaN"

/-- What is said of the type of each expression. -/
def metadata : Document :=
  .object [("type", .object
    [("version", .string "1.0.0"), ("types", .array [.string "number", .string "error"])])]

/-- The document of an operator. -/
def operator (kind : String) : Except Fault Document :=
  match Operator.ofKind? kind with
  | some op => .ok (.array [.string op.symbol, .number (toString op.precedence)])
  | none => .error (.unknownOperator kind)

/-- The document of an identifier. -/
def identifier (value : Option Scalar) : Document :=
  .object [("type", .string "expression::identifier"), ("name", scalar value),
    ("metadata", metadata)]

/-- The document of a number. -/
def number (value : Option Scalar) : Document :=
  .object [("type", .string "expression::number"), ("num", .string (Tree.valueText value)),
    ("metadata", metadata)]

/-- The document of an expression. -/
def expression : Tree → Except Fault Document
  | .leaf k v =>
    if k == "variable" then .ok (identifier v)
    else if k == "number" then .ok (number v)
    else .error (.unexpectedExpression (.leaf k v))
  | .branch k v cs =>
    if k == "variable" then .ok (identifier v)
    else if k == "number" then .ok (number v)
    else
      match cs with
      | [x] => do
        let x ← expression x
        let op ← operator k
        return .object [("type", .string "expression::unary_op"), ("operator", op),
          ("operand", x), ("metadata", metadata)]
      | [x, y] => do
        let x ← expression x
        let y ← expression y
        let op ← operator k
        return .object [("type", .string "expression::binary_op"), ("operator", op),
          ("left", x), ("right", y), ("metadata", metadata)]
      | cs => .error (.unexpectedExpression (.branch k v cs))

/-- The document of an assignment. -/
def assignment (t : Tree) : Except Fault Document :=
  if !t.isAssignment then .error .wrongKind
  else
    match t.children with
    | x :: e :: _ => do
      let e ← expression e
      return .object [("type", .string "statement::assignment"), ("identifier", scalar x.value),
        ("operator", .string "="), ("value", e)]
    | _ => .error .missingChild

/-- The document of a line. -/
def line (t : Tree) : Except Fault Document :=
  if t.kind != "line" then .error .wrongKind
  else do
    let code ← t.children.mapM assignment
    return .object [("type", .string "line"), ("code", .array code)]

/-- The document of a program. -/
def document (program : Tree) : Except Fault Document :=
  if program.kind != "program" then .error .wrongKind
  else do
    let lines ← program.children.mapM line
    return .object [("version", .string version),
      ("program", .object [("type", .string "program"), ("lines", .array lines)])]

/-- The text of the document of a program. -/
def text (program : Tree) : Except Fault String := do
  let d ← document program
  return d.render 0

end Scalarize.Cylon
