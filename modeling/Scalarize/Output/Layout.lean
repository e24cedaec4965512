import Scalarize.Failure
import Scalarize.Operator
import Scalarize.Text.Replace

/-!
# Scalarize — programs as text

The text of a program has as many assignments on a line as fit into seventy characters. Brackets
stand where an operator binds less tightly than the one around it, and spaces only where words would
run together.
-/

namespace Scalarize.Layout

/-- The width of a line of a chip. -/
def width : Nat := 70

/-- An operator as it stands between or before its operands. -/
def operatorText (op : Operator) : String :=
  if op.isWord then " " ++ op.symbol ++ " " else op.symbol

/-- A text in brackets, if it must be. -/
def bracketIf (b : Bool) (s : String) : String :=
  if b then "(" ++ s ++ ")" else s

/-- The operator of a node. -/
def operatorOf (kind : String) : Except Fault Operator :=
  match Operator.ofKind? kind with
  | some op => .ok op
  | none => .error (.unknownOperator kind)

/-- The text of an expression, under an operator of the given precedence. -/
def expression (outer : Nat) : Tree → Except Fault String
  | .leaf _ v => .ok (Tree.valueText v)
  | .branch k _ [x] => do
    let op ← operatorOf k
    let x ← expression op.precedence x
    return bracketIf (op.precedence < outer) (operatorText op ++ x)
  | .branch k _ [x, y] => do
    let op ← operatorOf k
    let x ← expression op.precedence x
    let y ← expression op.precedence y
    return bracketIf (op.precedence < outer) (x ++ operatorText op ++ y)
  | t => .error (.unexpectedExpression t)

/-- Take out the spaces that are not needed. -/
def squeeze (cs : List Char) : List Char :=
  let cs := Text.trim cs
  let cs := Text.replaceAll [' ', '('] ['('] cs
  let cs := Text.replaceAll ['(', ' '] ['('] cs
  let cs := Text.replaceAll [' ', ')'] [')'] cs
  let cs := Text.replaceAll [')', ' '] [')'] cs
  Text.replaceAll [' ', ' '] [' '] cs

/-- The text of an assignment. -/
def assignment (t : Tree) : Except Fault String :=
  match t.children with
  | x :: e :: _ => do
    let s ← expression 0 e
    return x.name ++ "=" ++ String.ofList (squeeze s.toList)
  | _ => .error .missingChild

/-- Texts on one line. -/
def line (fs : List String) : String :=
  String.intercalate " " fs

/-- Lines, and the number of warnings about texts that are too wide for one. -/
structure Sheet where
  lines : List String
  warnings : Nat

/-- Lines before those of a sheet, and warnings about them. -/
def Sheet.after (lines : List String) (warnings : Nat) (rest : Sheet) : Sheet :=
  ⟨lines ++ rest.lines, warnings + rest.warnings⟩

/-- Put texts on lines, after those of the line that is being filled. A text that is too wide gets
a line of its own and a warning. -/
def packFrom (pending : List String) : List String → Sheet
  | [] => ⟨if pending.isEmpty then [] else [line pending], 0⟩
  | f :: fs =>
    if f.length > width then
      .after [line pending, f] 1 (packFrom [] fs)
    else if (line pending).length + 1 + f.length > width then
      .after [line pending] 0 (packFrom [f] fs)
    else
      packFrom (pending ++ [f]) fs

/-- Put texts on lines. -/
def pack (fs : List String) : Sheet :=
  packFrom [] fs

/-- Lines as a text without line ends at either end. -/
def joinLines (ls : List String) : String :=
  String.ofList (Text.trimBy (· == '\n') (String.intercalate "\n" ls).toList)

/-- A text and the number of warnings about it. -/
structure Page where
  text : String
  warnings : Nat

/-- The texts of the assignments of a program. -/
def assignments (program : Tree) : Except Fault (List String) :=
  program.assignments.mapM assignment

/-- The text of a program. -/
def page (program : Tree) : Except Fault Page :=
  if program.kind != "program" then .error .wrongKind
  else do
    let fs ← assignments program
    let sheet := pack fs
    return ⟨joinLines sheet.lines, sheet.warnings⟩

end Scalarize.Layout
